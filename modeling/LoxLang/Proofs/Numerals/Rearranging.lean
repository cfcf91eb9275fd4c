import LoxLang.Proofs.Numerals
import LoxLang.Proofs.Numerals.Magnitudes
import LoxLang.Proofs.Printing

/-!
# Rearranging the digits of numbers

The text that `print` shows for a number is made out of the text that debugging output shows for it
(`Number.printed`): digits of numbers that are not plain are rearranged into scientific notation,
and `.0` is dropped. For this it does not matter how debugging output finds the digits. If it shows
a numeral that is near the number, with an exponent where the exponent is not moderate
(`Number.Represents`), then the printed text denotes the same rational number with the same sign,
and is of the form that it should be (`Number.Represents.readsBack`).
-/

namespace LoxLang

namespace Number

/-! ## Rearranging digits -/

/-- Digits without the zeros at their end. -/
def withoutZeros (ds : List Char) : List Char := (ds.reverse.dropWhile (· = '0')).reverse

/-- A numeral with one digit before the point and the exponent of that digit. -/
def scientific (negative : Bool) (d : Decimal) : List Char :=
  let digits := withoutZeros d.digits
  (if negative then ['-'] else []) ++
    (mantissa (if digits.isEmpty then ['0'] else digits) ++ 'E' :: (toString d.magnitude).toList)

/-- Digits are rearranged unless the number is plain. -/
def rearranged (x : Float) (shown : List Char) : List Char :=
  if isPlain x then shown
  else
    match Decimal.read? shown with
    | some (negative, d) => scientific negative d
    | none => []

/-- A text without `.0` at its end. -/
def withoutPointZero (cs : List Char) : List Char :=
  if ['.', '0'].isSuffixOf cs then cs.take (cs.length - 2) else cs

/-- What `print` shows for a number for which debugging output shows a text. -/
def printed (x : Float) (shown : String) : String :=
  if x.isNaN then "NaN"
  else if x.isInf then (if isNegative x then "-Infinity" else "Infinity")
  else String.ofList (withoutPointZero (rearranged x shown.toList))

/-!
## Scientific notation

Zeros at the end of the digits are dropped and the exponent says where the point was. So two
numerals of the same value come out as the same text, however they were written.
-/

/-- A text in scientific notation: maybe a minus, one digit other than zero, a point, digits of
which the last is no zero unless it is the only one, and an exponent. -/
def IsScientific (text : List Char) : Prop :=
  ∃ (negative : Bool) (first : Char) (more : List Char) (e : Int),
    text = (if negative then ['-'] else []) ++
      (first :: '.' :: (more ++ 'E' :: (toString e).toList)) ∧
    isDigit first ∧ first ≠ '0' ∧ more ≠ [] ∧ (∀ c ∈ more, isDigit c) ∧
    (more = ['0'] ∨ more.getLast? ≠ some '0')

theorem withoutZeros_append {ds : List Char} (hds : ds.getLast? ≠ some '0') (k : Nat) :
    withoutZeros (ds ++ List.replicate k '0') = ds := by
  have hzeros : ∀ c ∈ (List.replicate k '0').reverse, decide (c = '0') = true := by
    intro c hc
    rw [List.reverse_replicate] at hc
    exact decide_eq_true (List.eq_of_mem_replicate hc)
  unfold withoutZeros
  rw [List.reverse_append, List.dropWhile_append_of_pos hzeros]
  -- From behind, the added zeros go first, and the last of the digits is no zero.
  cases hrev : ds.reverse with
  | nil => simpa using hrev
  | cons c cs =>
    have hc : c ≠ '0' := by
      rintro rfl
      rw [List.getLast?_eq_head?_reverse, hrev] at hds
      exact hds rfl
    rw [List.dropWhile_cons_of_neg (by simpa using hc), ← hrev, List.reverse_reverse]

theorem withoutZeros_of_getLast? {ds : List Char} (hds : ds.getLast? ≠ some '0') :
    withoutZeros ds = ds := by
  simpa using withoutZeros_append hds 0

/-- Without the zeros at the end of its digits a numeral has the value and the magnitude that it has
with them. -/
theorem exists_withoutZeros {d : Decimal} (hd : d.coefficient ≠ 0) : ∃ s : Decimal,
    s.coefficient ≠ 0 ∧ ¬ 10 ∣ s.coefficient ∧ d.value = s.value ∧ d.magnitude = s.magnitude ∧
      withoutZeros d.digits = s.digits := by
  obtain ⟨c, k, hcoefficient, hc, hdvd⟩ := exists_mul_pow hd
  have hdigits : d.digits = Nat.toDigits 10 c ++ List.replicate k '0' := by
    unfold Decimal.digits
    rw [hcoefficient, toDigits_mul_pow hc]
  refine ⟨⟨c, d.exponent + k⟩, hc, hdvd, ?_, ?_, ?_⟩
  · rw [← Decimal.value_mul_pow, ← hcoefficient]
  · unfold Decimal.magnitude
    rw [hdigits, List.length_append, List.length_replicate]
    unfold Decimal.digits
    push_cast
    ring
  · rw [hdigits, withoutZeros_append (getLast?_toDigits hdvd)]
    rfl

/-- Scientific notation depends on the value alone. -/
theorem scientific_congr (negative : Bool) {d d' : Decimal} (hd : d.coefficient ≠ 0)
    (hd' : ¬ 10 ∣ d'.coefficient) (hvalue : d.value = d'.value) :
    scientific negative d = scientific negative d' := by
  obtain ⟨s, -, hdvd, hs, hmagnitude, hstripped⟩ := exists_withoutZeros hd
  obtain rfl : s = d' := Decimal.eq_of_value_eq hdvd hd' (hs.symm.trans hvalue)
  have hsame : withoutZeros s.digits = s.digits :=
    withoutZeros_of_getLast? (getLast?_toDigits hdvd)
  unfold scientific
  rw [hstripped, hmagnitude, hsame]

/-- A numeral that does not end in a zero needs no rearranging. -/
theorem scientific_of_not_dvd (negative : Bool) {d : Decimal} (hd : ¬ 10 ∣ d.coefficient) :
    scientific negative d = (if negative then ['-'] else []) ++
      (mantissa d.digits ++ 'E' :: (toString d.magnitude).toList) := by
  have hsame : withoutZeros d.digits = d.digits := withoutZeros_of_getLast? (getLast?_toDigits hd)
  have hne : d.digits.isEmpty = false := List.isEmpty_eq_false_iff.mpr Nat.toDigits_ne_nil
  unfold scientific
  dsimp only
  rw [hsame, hne]
  rfl

/-- The digits of a numeral in scientific notation, and that the value is kept. -/
theorem scientific_eq (negative : Bool) {d : Decimal} (hd : d.coefficient ≠ 0) :
    ∃ first more, scientific negative d = (if negative then ['-'] else []) ++
        (first :: '.' :: (more ++ 'E' :: (toString d.magnitude).toList)) ∧
      isDigit first ∧ first ≠ '0' ∧ more ≠ [] ∧ (∀ c ∈ more, isDigit c) ∧
      (more = ['0'] ∨ more.getLast? ≠ some '0') ∧
      Decimal.value ⟨ofDigits (first :: more), d.magnitude - more.length⟩ = d.value := by
  obtain ⟨s, hs, hdvd, hvalue, hmagnitude, -⟩ := exists_withoutZeros hd
  have hhead : s.digits.head? ≠ some '0' := head?_toDigits hs
  have hlast : s.digits.getLast? ≠ some '0' := getLast?_toDigits hdvd
  have hall : ∀ a ∈ s.digits, isDigit a := fun a => isDigit_of_mem_toDigits
  have hne : s.digits ≠ [] := Nat.toDigits_ne_nil
  have hsame : Decimal.value ⟨ofDigits s.digits, s.magnitude - (s.digits.length - 1)⟩ =
      s.value := by
    have hread : ofDigits s.digits = s.coefficient := ofDigits_toDigits _
    have hexponent : s.magnitude - (s.digits.length - 1) = s.exponent := by
      unfold Decimal.magnitude
      omega
    rw [hread, hexponent]
  rw [scientific_congr negative hd hdvd hvalue, scientific_of_not_dvd negative hdvd, hmagnitude,
    hvalue, ← hsame]
  generalize s.digits = ds at hhead hlast hall hne ⊢
  obtain ⟨first, more, rfl⟩ := List.exists_cons_of_ne_nil hne
  have hfirst : first ≠ '0' := fun h => hhead (congrArg some h)
  cases more with
  | nil =>
    -- A single digit gets a zero behind the point.
    refine ⟨first, ['0'], rfl, hall first List.mem_cons_self, hfirst, List.cons_ne_nil _ _,
      isDigit_of_mem_zero, .inl rfl, ?_⟩
    rw [← List.singleton_append, Decimal.value_append_zero]
    congr 2
    simp
  | cons second more =>
    refine ⟨first, second :: more, rfl, hall first List.mem_cons_self, hfirst,
      List.cons_ne_nil _ _, fun a ha => hall a (List.mem_cons_of_mem _ ha), .inr ?_, ?_⟩
    · rwa [List.getLast?_cons_cons] at hlast
    · congr 2
      simp

/-- What is written in scientific notation is read as the same number. -/
theorem denoted?_scientific {text : String} {negative : Bool} {d : Decimal}
    (hd : d.coefficient ≠ 0) (htext : text.toList = scientific negative d) :
    Decimal.denoted? text = some (negative, d.value) ∧ IsScientific text.toList := by
  obtain ⟨first, more, heq, hfirst, hzero, hne, hmore, hlast, hvalue⟩ := scientific_eq negative hd
  rw [htext, heq]
  refine ⟨?_, negative, first, more, d.magnitude, rfl, hfirst, hzero, hne, hmore, hlast⟩
  -- The digits end where the exponent begins, and behind that stands an integer.
  have hsuffix : Decimal.EndsDigits ('E' :: (toString d.magnitude).toList) := by
    rintro c ⟨⟩
    decide
  have hexponent : Decimal.readSuffix? ('E' :: (toString d.magnitude).toList) =
      some d.magnitude := by
    rw [Decimal.readSuffix?, if_pos (.inr rfl), Decimal.readExponent?_toString]
  have hpoint := Decimal.readUnsigned?_point (List.cons_ne_nil first [])
    (fun c hc => List.mem_singleton.mp hc ▸ hfirst) hmore hsuffix
  rw [hexponent, List.singleton_append, List.singleton_append] at hpoint
  have hhead : ∀ c ∈ (first :: '.' :: (more ++ 'E' :: (toString d.magnitude).toList)).head?,
      isDigit c := by
    rintro c ⟨⟩
    exact hfirst
  unfold Decimal.denoted?
  rw [htext, heq, Decimal.read?_signed negative hhead, hpoint]
  simp [hvalue]

/-!
## Positional notation

Of a numeral with a point, `.0` is dropped at the end. No other text ends in it: behind any other
point stand digits that are not just a zero, and scientific notation ends in its exponent.
-/

/-- Whether an exponent stands in a text. -/
def HasExponent (text : List Char) : Prop := 'e' ∈ text ∨ 'E' ∈ text

/-- A text that ends in characters other than a point does not end in `.0`. -/
theorem not_pointZero_suffix (front : List Char) {tail : List Char} (hpoint : '.' ∉ tail)
    (hlength : 2 ≤ tail.length) : ¬ ['.', '0'] <:+ front ++ tail := by
  intro h
  have hsuffix := List.suffix_of_suffix_length_le h (List.suffix_append front tail) hlength
  exact hpoint (hsuffix.subset List.mem_cons_self)

theorem pointZero_suffix_iff (front : List Char) {fraction : List Char} (hne : fraction ≠ [])
    (hfraction : ∀ c ∈ fraction, isDigit c) :
    ['.', '0'] <:+ front ++ '.' :: fraction ↔ fraction = ['0'] := by
  refine ⟨fun h => ?_, fun h => h ▸ List.suffix_append front ['.', '0']⟩
  have hpoint : '.' ∉ fraction := fun hmem => absurd (hfraction '.' hmem) (by decide)
  match fraction with
  | [c] =>
    have hsuffix := List.suffix_of_suffix_length_le h (List.suffix_append front ['.', c])
      (Nat.le_refl 2)
    cases hsuffix.eq_of_length rfl
    rfl
  | a :: b :: fraction =>
    rw [List.append_cons] at h
    exact absurd h (not_pointZero_suffix _ hpoint (Nat.le_add_left 2 fraction.length))

theorem withoutPointZero_of_not {cs : List Char} (h : ¬ ['.', '0'] <:+ cs) :
    withoutPointZero cs = cs := by
  unfold withoutPointZero
  rw [if_neg fun hsuffix => h (List.isSuffixOf_iff_suffix.mp hsuffix)]

/-- Only the fraction `0` is dropped, together with its point. -/
theorem withoutPointZero_point (front : List Char) {fraction : List Char} (hne : fraction ≠ [])
    (hfraction : ∀ c ∈ fraction, isDigit c) : withoutPointZero (front ++ '.' :: fraction) =
      if fraction = ['0'] then front else front ++ '.' :: fraction := by
  have hiff := pointZero_suffix_iff front hne hfraction
  split
  · next hzero =>
    unfold withoutPointZero
    rw [if_pos (List.isSuffixOf_iff_suffix.mpr (hiff.mpr hzero)), hzero]
    simp
  · next hother => exact withoutPointZero_of_not fun h => hother (hiff.mp h)

/-- The zero that fills up an empty fraction is the one that is dropped. -/
theorem withoutPointZero_filled (front whole : List Char) {fraction : List Char}
    (hfraction : ∀ c ∈ fraction, isDigit c) (hzero : fraction ≠ ['0']) :
    withoutPointZero (front ++ (whole ++ '.' :: (if fraction.isEmpty then ['0'] else fraction))) =
      front ++ (if fraction.isEmpty then whole else whole ++ '.' :: fraction) := by
  rw [← List.append_assoc]
  cases fraction with
  | nil => exact withoutPointZero_point _ (List.cons_ne_nil '0' []) isDigit_of_mem_zero
  | cons c cs =>
    rw [List.isEmpty_cons, if_neg Bool.false_ne_true, if_neg Bool.false_ne_true,
      withoutPointZero_point _ (List.cons_ne_nil c cs) hfraction, if_neg hzero, List.append_assoc]

/-- Scientific notation does not end in `.0`. -/
theorem IsScientific.not_pointZero {text : List Char} (h : IsScientific text) :
    ¬ ['.', '0'] <:+ text := by
  obtain ⟨negative, first, more, e, rfl, -⟩ := h
  -- The exponent has no point, and it takes the last two characters at least.
  have hpoint : '.' ∉ 'E' :: (toString e).toList := by
    rw [toList_toString]
    intro hmem
    rcases List.mem_cons.mp hmem with hE | hmem
    · cases hE
    · rcases List.mem_append.mp hmem with hsign | hdigit
      · cases eq_minus_of_mem hsign
      · exact absurd (isDigit_of_mem_toDigits hdigit) (by decide)
  have hlength : 2 ≤ ('E' :: (toString e).toList).length := by
    have hdigits : 0 < (Nat.toDigits 10 e.natAbs).length :=
      List.length_pos_iff.mpr Nat.toDigits_ne_nil
    rw [toList_toString, List.length_cons, List.length_append]
    omega
  have hsplit : (if negative then ['-'] else []) ++
      (first :: '.' :: (more ++ 'E' :: (toString e).toList)) =
        ((if negative then ['-'] else []) ++ first :: '.' :: more) ++
          'E' :: (toString e).toList := by
    simp
  rw [hsplit]
  exact not_pointZero_suffix _ hpoint hlength

theorem IsScientific.hasExponent {text : List Char} (h : IsScientific text) : HasExponent text := by
  obtain ⟨negative, first, more, e, rfl, -⟩ := h
  exact .inr (by simp)

/-!
## Texts of debugging output

What has to be known of debugging output, and no more: the text is a numeral not far from the
number, and its notation depends on the exponent of the numeral. That the numeral is the shortest
one is not needed.
-/

end Number

/-- The exponent of the first digit is from -4 to 15, or there is no digit but zeros. -/
def Decimal.IsModerate (d : Decimal) : Prop :=
  d.value = 0 ∨ (10 : ℚ) ^ (-4 : Int) ≤ d.value ∧ d.value < 10 ^ (16 : Int)

namespace Number

/-- What is known of a text that debugging output shows for a finite number: it is a decimal numeral
with the sign of the number, and not far from it. If its exponent is moderate then it is written as
digits, a point and digits, and otherwise with an exponent. -/
structure Represents (shown : String) (x : Float) (d : Decimal) : Prop where
  read : Decimal.read? shown.toList = some (isNegative x, d)
  near : absValue x ≤ 2 * d.value ∧ d.value ≤ 2 * absValue x
  positional : d.IsModerate → ∃ whole fraction, whole ≠ [] ∧ (∀ c ∈ whole, isDigit c) ∧
    fraction ≠ [] ∧ (∀ c ∈ fraction, isDigit c) ∧
    shown.toList = sign x ++ (whole ++ '.' :: fraction)
  exponential : ¬ d.IsModerate → HasExponent shown.toList

theorem Represents.denoted? {shown : String} {x : Float} {d : Decimal} (h : Represents shown x d) :
    Decimal.denoted? shown = some (isNegative x, d.value) := by
  unfold Decimal.denoted?
  rw [h.read]
  rfl

variable {x : Float} {shown : String} {d : Decimal}

theorem toList_printed (hnan : x.isNaN = false) (hinf : x.isInf = false) :
    (printed x shown).toList = withoutPointZero (rearranged x shown.toList) := by
  unfold printed
  rw [hnan, hinf]
  exact String.toList_ofList

section Represented

variable (hnan : x.isNaN = false) (hinf : x.isInf = false) (h : Represents shown x d)
include hnan hinf h

/-- Plain numbers are written without an exponent in debugging output, too. -/
theorem Represents.isModerate (hplain : isPlain x) : d.IsModerate := by
  obtain ⟨hnear, hnear'⟩ := h.near
  rcases (isPlain_iff hnan hinf).mp hplain with hzero | ⟨hge, hlt⟩
  · refine .inl (le_antisymm ?_ d.value_nonneg)
    rwa [hzero, mul_zero] at hnear'
  · refine .inr ⟨?_, ?_⟩
    · norm_num
      linarith
    · norm_num
      linarith

theorem Represents.coefficient_ne_zero (hplain : ¬ isPlain x) : d.coefficient ≠ 0 := by
  intro hzero
  obtain ⟨hnear, -⟩ := h.near
  rw [(Decimal.value_eq_zero_iff d).mpr hzero, mul_zero] at hnear
  have hnonneg : 0 ≤ absValue x := mul_nonneg (Nat.cast_nonneg _) (two_zpow_pos _).le
  exact hplain ((isPlain_iff hnan hinf).mpr (.inl (le_antisymm hnear hnonneg)))

/-- A number that is not plain is shown in scientific notation. -/
theorem Represents.printed_scientific (hplain : ¬ isPlain x) :
    (printed x shown).toList = scientific (isNegative x) d := by
  rw [toList_printed hnan hinf]
  unfold rearranged
  rw [if_neg hplain, h.read]
  dsimp only
  obtain ⟨first, more, heq, hfirst, hzero, hne, hmore, hlast, -⟩ :=
    scientific_eq (isNegative x) (h.coefficient_ne_zero hnan hinf hplain)
  exact withoutPointZero_of_not (IsScientific.not_pointZero
    ⟨isNegative x, first, more, d.magnitude, heq, hfirst, hzero, hne, hmore, hlast⟩)

/-- A plain number is shown as a number literal, maybe with a minus before it. -/
theorem Represents.printed_plain (hplain : isPlain x) : ∃ literal,
    (printed x shown).toList = sign x ++ literal ∧ PieceClass.number.Matches literal ∧
      ¬ ['.', '0'] <:+ sign x ++ literal ∧
      Decimal.denoted? (printed x shown) = some (isNegative x, d.value) := by
  obtain ⟨whole, fraction, hwhole, hdigits, hfraction, hdigits', hshown⟩ :=
    h.positional (h.isModerate hnan hinf hplain)
  have hprinted : (printed x shown).toList =
      if fraction = ['0'] then sign x ++ whole else sign x ++ (whole ++ '.' :: fraction) := by
    rw [toList_printed hnan hinf]
    unfold rearranged
    rw [if_pos hplain, hshown, ← List.append_assoc, withoutPointZero_point _ hfraction hdigits']
  have hd : ⟨ofDigits (whole ++ fraction), -fraction.length⟩ = d := by
    have hread := h.read
    rw [hshown] at hread
    unfold sign at hread
    rw [Decimal.read?_point _ hwhole hdigits hdigits'] at hread
    exact congrArg Prod.snd (Option.some.inj hread)
  -- A single zero behind the point is left out together with the point.
  by_cases hzero : fraction = ['0']
  · rw [if_pos hzero] at hprinted
    refine ⟨whole, hprinted, .whole whole hwhole hdigits, fun hsuffix => ?_, ?_⟩
    · -- There is no point any more.
      rcases List.mem_append.mp (hsuffix.subset List.mem_cons_self) with hsign | hpoint
      · cases eq_minus_of_mem hsign
      · exact absurd (hdigits '.' hpoint) (by decide)
    · have hvalue : Decimal.value ⟨ofDigits whole, 0⟩ = d.value := by
        rw [← hd, hzero, Decimal.value_append_zero]
        rfl
      unfold Decimal.denoted?
      rw [hprinted, ← hvalue]
      unfold sign
      rw [Decimal.read?_whole _ hwhole hdigits]
      rfl
  · rw [if_neg hzero] at hprinted
    refine ⟨whole ++ '.' :: fraction, hprinted,
      .fraction whole fraction hwhole hdigits hfraction hdigits', ?_, ?_⟩
    · rw [← List.append_assoc, pointZero_suffix_iff _ hfraction hdigits']
      exact hzero
    · unfold Decimal.denoted?
      rw [hprinted, ← hshown, h.read]
      rfl

end Represented

/-!
## Number literals

Digits, and maybe a point between digits. This is the longest piece that the scanner can take there,
so the whole text is one token.
-/

/-- The characters of a number literal. -/
theorem mem_literal {literal : List Char} (h : PieceClass.number.Matches literal) {c : Char}
    (hc : c ∈ literal) : isDigit c ∨ c = '.' := by
  cases h with
  | whole _ _ hdigits => exact .inl (hdigits c hc)
  | fraction digits places _ hdigits _ hplaces =>
    rcases List.mem_append.mp hc with hc | hc
    · exact .inl (hdigits c hc)
    · rcases List.mem_cons.mp hc with rfl | hc
      · exact .inr rfl
      · exact .inl (hplaces c hc)

theorem not_hasExponent_literal (x : Float) {literal : List Char}
    (h : PieceClass.number.Matches literal) : ¬ HasExponent (sign x ++ literal) := by
  have hnot : ∀ c, isDigit c = false → c ≠ '.' → c ≠ '-' → c ∉ sign x ++ literal := by
    intro c hdigit hpoint hminus hc
    rcases List.mem_append.mp hc with hsign | hc
    · exact hminus (eq_minus_of_mem hsign)
    · rcases mem_literal h hc with hc | hc
      · rw [hdigit] at hc
        cases hc
      · exact hpoint hc
  rintro (he | hE)
  · exact hnot 'e' (by decide) (by decide) (by decide) he
  · exact hnot 'E' (by decide) (by decide) (by decide) hE

/-- A number literal is scanned as one token, which is all of it. -/
theorem lex_literal {literal : List Char} (h : PieceClass.number.Matches literal) :
    lex (String.ofList literal) = ⟨[⟨.number (String.ofList literal), 1⟩], 1, []⟩ := by
  have hbreaks : literal.count '\n' = 0 := by
    rw [List.count_eq_zero]
    intro hbreak
    rcases mem_literal h hbreak with hdigit | hpoint
    · exact absurd hdigit (by decide)
    · cases hpoint
  obtain ⟨c, cs, rfl⟩ : ∃ c cs, literal = c :: cs := by
    cases h with
    | whole _ hne _ => exact List.exists_cons_of_ne_nil hne
    | fraction digits places hne _ _ _ =>
      obtain ⟨c, cs, rfl⟩ := List.exists_cons_of_ne_nil hne
      exact ⟨c, cs ++ '.' :: places, rfl⟩
  -- Nothing follows, so the literal is one piece, and it takes no line of its own.
  have hend : SpaceAhead [] := fun _ hc => by cases hc
  have hpiece := nextPiece_number hend h
  rw [List.append_nil] at hpiece
  have hlines : (Piece.token (.number (String.ofList (c :: cs)))).lineBreaks = 0 := by
    unfold Piece.lineBreaks
    rw [text_number]
    exact hbreaks
  unfold lex
  rw [String.toList_ofList, pieces, hpiece, pieces]
  simp only [Lexed.ofPieces, hlines, Lexed.cons]

/-! ## Reading back -/

/-- What a number prints as, compared with what debugging output shows for it: both denote the same
rational number with the same sign. A plain number has no exponent and no superfluous `.0`, and it
is a number literal unless it has a minus. All others are in scientific notation. -/
structure ReadsBack (x : Float) (shown printed : String) : Prop where
  numeral : (Decimal.denoted? printed).isSome
  same : Decimal.denoted? printed = Decimal.denoted? shown
  exponent : HasExponent printed.toList ↔ ¬ isPlain x
  pointZero : isPlain x → ¬ ['.', '0'] <:+ printed.toList
  scientific : ¬ isPlain x → IsScientific printed.toList
  literal : isPlain x → isNegative x = false → lex printed = ⟨[⟨.number printed, 1⟩], 1, []⟩

theorem Represents.readsBack (hnan : x.isNaN = false) (hinf : x.isInf = false)
    (h : Represents shown x d) : ReadsBack x shown (printed x shown) := by
  -- Either the digits stand in place, or they are rearranged with an exponent.
  by_cases hplain : isPlain x
  · obtain ⟨literal, hprinted, hliteral, hpoint, hdenoted⟩ := h.printed_plain hnan hinf hplain
    refine ⟨hdenoted ▸ rfl, hdenoted.trans h.denoted?.symm, ?_, fun _ => hprinted ▸ hpoint,
      fun hnot => absurd hplain hnot, fun _ hsign => ?_⟩
    · rw [hprinted]
      exact iff_of_false (not_hasExponent_literal x hliteral) (not_not.mpr hplain)
    · have hnone : sign x = [] := by
        unfold sign
        rw [hsign]
        rfl
      have htext : printed x shown = String.ofList literal := by
        rw [← String.ofList_toList (s := printed x shown), hprinted, hnone]
        rfl
      rw [htext]
      exact lex_literal hliteral
  · have hprinted := h.printed_scientific hnan hinf hplain
    obtain ⟨hdenoted, hscientific⟩ :=
      denoted?_scientific (h.coefficient_ne_zero hnan hinf hplain) hprinted
    exact ⟨hdenoted ▸ rfl, hdenoted.trans h.denoted?.symm,
      iff_of_true hscientific.hasExponent hplain, fun h => absurd h hplain,
      fun _ => hscientific, fun h => absurd h hplain⟩

end Number

end LoxLang
