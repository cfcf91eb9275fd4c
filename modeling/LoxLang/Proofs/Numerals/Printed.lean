import LoxLang.Proofs.Numerals.Rearranging
import LoxLang.Proofs.Numerals.Shortest

/-!
# Printed numbers

Debugging output shows the shortest numeral of a number (`Number.represents_debugText`), and `print`
shows what comes of it when its digits are rearranged (`Number.text_eq_printed`). So the two texts
denote the same rational number with the same sign, and the printed one can be read back where it is
a number literal (`Number.text_reads_back`).
-/

namespace LoxLang

namespace Number

variable {x : Float}

/-!
## The numeral that debugging output shows

The shortest numeral is written in positional notation where its exponent is moderate, and with an
exponent elsewhere. Either text is of the kind that `Represents` describes, and is read back as the
numeral.
-/

/-- Digits before and after the point denote the numeral that they are made from. The fraction does
not end in a zero if the coefficient does not. -/
theorem positional_spec (d : Decimal) :
    d.positional.1 ≠ [] ∧ (∀ c ∈ d.positional.1, isDigit c) ∧ (∀ c ∈ d.positional.2, isDigit c) ∧
      Decimal.value ⟨ofDigits (d.positional.1 ++ d.positional.2), -d.positional.2.length⟩ =
        d.value ∧
      (d.positional.2 = [] ∨ d.positional.2.getLast? = d.digits.getLast?) := by
  have hall : ∀ c ∈ d.digits, isDigit c := fun c => isDigit_of_mem_toDigits
  have hne : d.digits ≠ [] := Nat.toDigits_ne_nil
  have hzeros : ∀ n, ∀ c ∈ List.replicate n '0', isDigit c := fun n c hc =>
    List.eq_of_mem_replicate hc ▸ rfl
  have hread : ofDigits d.digits = d.coefficient := ofDigits_toDigits _
  unfold Decimal.positional
  split
  · next zeros hexponent =>
    -- Zeros fill up the digits to the point.
    refine ⟨List.append_ne_nil_of_left_ne_nil hne _, fun c hc => ?_, nofun, ?_, .inl rfl⟩
    · exact (List.mem_append.mp hc).elim (hall c) (hzeros zeros c)
    · have hcoefficient : ofDigits (d.digits ++ List.replicate zeros '0' ++ []) =
          d.coefficient * 10 ^ zeros := by
        rw [List.append_nil, ofDigits_append, ofDigits_replicate_zero, hread, List.length_replicate]
        ring
      have hexponent' : d.exponent = zeros := hexponent
      rw [hcoefficient, Decimal.value_mul_pow]
      unfold Decimal.value
      rw [hexponent']
      simp
  · next n hexponent =>
    have hplaces : ∀ c : Nat, Decimal.value ⟨c, -((n + 1 : Nat) : Int)⟩ =
        Decimal.value ⟨c, d.exponent⟩ := by
      intro c
      rw [hexponent]
      rfl
    dsimp only
    split
    · next hshort =>
      -- All digits stand behind the point, and zeros between it and them.
      refine ⟨List.cons_ne_nil _ _, fun c hc => List.mem_singleton.mp hc ▸ rfl, fun c hc => ?_, ?_,
        .inr ?_⟩
      · exact (List.mem_append.mp hc).elim (hzeros _ c) (hall c)
      · have hcoefficient : ofDigits (['0'] ++ (List.replicate (n + 1 - d.digits.length) '0' ++
            d.digits)) = d.coefficient := by
          rw [ofDigits_append, ofDigits_append, ofDigits_replicate_zero, hread]
          show 10 ^ _ * 0 + (10 ^ _ * 0 + _) = _
          omega
        have hlength : (List.replicate (n + 1 - d.digits.length) '0' ++ d.digits).length =
            n + 1 := by
          rw [List.length_append, List.length_replicate]
          omega
        rw [hcoefficient, hlength]
        exact hplaces _
      · exact List.getLast?_append_of_ne_nil _ hne
    · next hlong =>
      -- The point stands among the digits.
      have hlength : (d.digits.drop (d.digits.length - (n + 1))).length = n + 1 := by
        rw [List.length_drop]
        omega
      refine ⟨?_, fun c hc => hall c (List.mem_of_mem_take hc),
        fun c hc => hall c (List.mem_of_mem_drop hc), ?_, .inr ?_⟩
      · intro htake
        have hlen := congrArg List.length htake
        rw [List.length_take, List.length_nil] at hlen
        omega
      · rw [List.take_append_drop, hread, hlength]
        exact hplaces _
      · rw [List.getLast?_drop, if_neg (by omega)]

section Finite

variable (hnan : x.isNaN = false) (hinf : x.isInf = false)
include hnan hinf

/-- The shortest numeral of a number is near it, and ends in no zero unless it is zero. -/
theorem shortest_spec :
    (absValue x ≤ 2 * (Decimal.shortest x).value ∧ (Decimal.shortest x).value ≤ 2 * absValue x) ∧
      (Decimal.shortest x = ⟨0, 0⟩ ∨ ¬ 10 ∣ (Decimal.shortest x).coefficient) := by
  obtain ⟨hcanonical, -, -⟩ := unpack_eq hnan hinf
  unfold Decimal.shortest absValue
  generalize Decimal.binaryParts x = parts at hcanonical ⊢
  obtain ⟨m, q⟩ := parts
  dsimp only at hcanonical ⊢
  by_cases hm : m = 0
  · rw [if_pos hm, hm]
    exact ⟨by simp [Decimal.value], .inl rfl⟩
  · rw [if_neg hm]
    obtain ⟨hhas, hdvd⟩ :=
      Decimal.coarsest_around hcanonical.lt hcanonical.ge hcanonical.le hm
    exact ⟨Decimal.near_of_has hm hhas, .inr hdvd⟩

/-- Positional notation of the shortest numeral has no fraction `0`. -/
theorem positional_shortest : (Decimal.shortest x).positional.2 ≠ ['0'] := by
  obtain ⟨-, hzero | hdvd⟩ := shortest_spec hnan hinf
  · rw [hzero]
    decide
  · intro hfraction
    obtain ⟨-, -, -, -, hlast⟩ := positional_spec (Decimal.shortest x)
    rw [hfraction] at hlast
    refine getLast?_toDigits hdvd (hlast.resolve_left (List.cons_ne_nil _ _)).symm

/-- The magnitude of the shortest numeral tells whether its exponent is moderate. -/
theorem isModerate_shortest_iff : (Decimal.shortest x).IsModerate ↔
    -4 ≤ (Decimal.shortest x).magnitude ∧ (Decimal.shortest x).magnitude < 16 := by
  obtain ⟨-, hzero | hdvd⟩ := shortest_spec hnan hinf
  · rw [hzero]
    exact iff_of_true (.inl (by simp [Decimal.value])) (by decide)
  · have hne : (Decimal.shortest x).coefficient ≠ 0 := fun h => hdvd (h ▸ ⟨0, rfl⟩)
    -- The magnitude of a value is the exponent of the power of ten just below it.
    obtain ⟨hlower, hupper⟩ := Decimal.value_bounds hne
    have hten : (1 : ℚ) < 10 := by norm_num
    unfold Decimal.IsModerate
    rw [or_iff_right fun h => hne ((Decimal.value_eq_zero_iff _).mp h)]
    constructor
    · rintro ⟨hge, hlt⟩
      have h1 := (zpow_lt_zpow_iff_right₀ hten).mp (hge.trans_lt hupper)
      have h2 := (zpow_lt_zpow_iff_right₀ hten).mp (hlower.trans_lt hlt)
      omega
    · rintro ⟨hge, hlt⟩
      exact ⟨(zpow_le_zpow_right₀ hten.le hge).trans hlower,
        hupper.trans_le (zpow_le_zpow_right₀ hten.le (by omega))⟩

theorem toList_debugText : (debugText x).toList = sign x ++ debugMagnitude x := by
  unfold debugText
  rw [hnan, hinf]
  exact String.toList_ofList

/-- Positional notation of debugging output. -/
theorem toList_debugText_positional (hmoderate : (Decimal.shortest x).IsModerate) :
    (debugText x).toList = sign x ++ ((Decimal.shortest x).positional.1 ++ '.' ::
      (if (Decimal.shortest x).positional.2.isEmpty then ['0']
        else (Decimal.shortest x).positional.2)) := by
  rw [toList_debugText hnan hinf]
  unfold debugMagnitude
  dsimp only
  rw [if_pos ((isModerate_shortest_iff hnan hinf).mp hmoderate)]

theorem represents_positional (hmoderate : (Decimal.shortest x).IsModerate) :
    ∃ d, Represents (debugText x) x d ∧ d.value = (Decimal.shortest x).value := by
  obtain ⟨hnear, -⟩ := shortest_spec hnan hinf
  obtain ⟨hwhole, hdigits, hdigits', hvalue, -⟩ := positional_spec (Decimal.shortest x)
  have hshown := toList_debugText_positional hnan hinf hmoderate
  generalize (Decimal.shortest x).positional = parts at *
  obtain ⟨whole, fraction⟩ := parts
  dsimp only at hwhole hdigits hdigits' hvalue hshown
  -- An empty fraction is filled up with a zero.
  obtain ⟨places, hplaces, hne, hall, hsame⟩ : ∃ places, (if fraction.isEmpty then ['0']
      else fraction) = places ∧ places ≠ [] ∧ (∀ c ∈ places, isDigit c) ∧
        Decimal.value ⟨ofDigits (whole ++ places), -places.length⟩ =
          (Decimal.shortest x).value := by
    cases fraction with
    | nil =>
      refine ⟨['0'], rfl, List.cons_ne_nil _ _, isDigit_of_mem_zero, ?_⟩
      rw [Decimal.value_append_zero, ← hvalue, List.append_nil]
      rfl
    | cons c cs => exact ⟨c :: cs, rfl, List.cons_ne_nil _ _, hdigits', hvalue⟩
  rw [hplaces] at hshown
  refine ⟨⟨ofDigits (whole ++ places), -places.length⟩, ⟨?_, ?_, fun _ => ?_, fun hnot => ?_⟩,
    hsame⟩
  · rw [hshown]
    exact Decimal.read?_point _ hwhole hdigits hall
  · rw [hsame]
    exact hnear
  · exact ⟨whole, places, hwhole, hdigits, hne, hall, hshown⟩
  · unfold Decimal.IsModerate at hnot hmoderate
    rw [hsame] at hnot
    exact absurd hmoderate hnot

omit hnan hinf in
/-- Exponents of debugging output are read back. -/
theorem readExponent?_debugExponent (e : Int) :
    Decimal.readExponent? (debugExponent e) = some e := by
  -- A zero in front of a single digit changes nothing.
  have hpadded : ∀ n : Nat, Decimal.readNatural? (if (Nat.toDigits 10 n).length < 2
      then '0' :: Nat.toDigits 10 n else Nat.toDigits 10 n) = some n := by
    intro n
    split
    · have hall : ∀ c ∈ '0' :: Nat.toDigits 10 n, isDigit c := by
        intro c hc
        rcases List.mem_cons.mp hc with rfl | hc
        · rfl
        · exact isDigit_of_mem_toDigits hc
      unfold Decimal.readNatural?
      rw [if_pos ⟨List.cons_ne_nil _ _, List.all_eq_true.mpr hall⟩, ← List.singleton_append,
        ofDigits_append, ofDigits_toDigits]
      show some (10 ^ _ * 0 + n) = some n
      rw [Nat.mul_zero, Nat.zero_add]
    · exact Decimal.readNatural?_digits n
  unfold debugExponent
  dsimp only
  split
  · rw [Decimal.readExponent?, hpadded, Option.map_some]
    congr 1
    omega
  · rw [Decimal.readExponent?, hpadded, Option.map_some]
    congr 1
    omega

/-- Notation of debugging output with an exponent. -/
theorem represents_exponential (hmoderate : ¬ (Decimal.shortest x).IsModerate) :
    Represents (debugText x) x (Decimal.shortest x) := by
  obtain ⟨hnear, -⟩ := shortest_spec hnan hinf
  have hshown := toList_debugText hnan hinf
  unfold debugMagnitude at hshown
  dsimp only at hshown
  rw [if_neg fun h => hmoderate ((isModerate_shortest_iff hnan hinf).mpr h)] at hshown
  refine ⟨?_, hnear, fun h => absurd h hmoderate, fun _ => hshown ▸ .inl (by simp)⟩
  have hread : ofDigits (Decimal.shortest x).digits = (Decimal.shortest x).coefficient :=
    ofDigits_toDigits _
  have hall : ∀ c ∈ (Decimal.shortest x).digits, isDigit c := fun c => isDigit_of_mem_toDigits
  have hne : (Decimal.shortest x).digits ≠ [] := Nat.toDigits_ne_nil
  have hends : Decimal.EndsDigits ('e' :: debugExponent (Decimal.shortest x).magnitude) := by
    rintro c ⟨⟩
    decide
  have hsuffix : Decimal.readSuffix? ('e' :: debugExponent (Decimal.shortest x).magnitude) =
      some (Decimal.shortest x).magnitude := by
    rw [Decimal.readSuffix?, if_pos (.inl rfl), readExponent?_debugExponent]
  -- The exponent of the last digit is that of the first, less the digits between them.
  have hexponent : (Decimal.shortest x).magnitude - ((Decimal.shortest x).digits.length - 1) =
      (Decimal.shortest x).exponent := by
    unfold Decimal.magnitude
    omega
  have heq : (⟨ofDigits (Decimal.shortest x).digits, (Decimal.shortest x).magnitude -
      ((Decimal.shortest x).digits.length - 1)⟩ : Decimal) = Decimal.shortest x := by
    rw [hread, hexponent]
  rw [hshown]
  unfold sign
  generalize (Decimal.shortest x).digits = ds at hall hne heq ⊢
  obtain ⟨first, more, rfl⟩ := List.exists_cons_of_ne_nil hne
  have hfirst : isDigit first := hall first List.mem_cons_self
  cases more with
  | nil =>
    have hwhole := Decimal.readUnsigned?_whole hne hall hends
    dsimp only
    rw [Decimal.read?_signed _ (by rintro c ⟨⟩; exact hfirst), hwhole, hsuffix]
    refine congrArg (fun d => some (isNegative x, d)) (Eq.trans ?_ heq)
    simp
  | cons second rest =>
    have hpoint := Decimal.readUnsigned?_point (List.cons_ne_nil first [])
      (fun c hc => List.mem_singleton.mp hc ▸ hfirst)
      (fun c hc => hall c (List.mem_cons_of_mem first hc)) hends
    rw [List.singleton_append] at hpoint
    dsimp only
    rw [Decimal.read?_signed _ (by rintro c ⟨⟩; exact hfirst), List.cons_append, List.cons_append,
      hpoint, hsuffix]
    refine congrArg (fun d => some (isNegative x, d)) (Eq.trans ?_ heq)
    simp

/-- Debugging output shows a numeral near the number. -/
theorem represents_debugText :
    ∃ d, Represents (debugText x) x d ∧ d.value = (Decimal.shortest x).value := by
  by_cases hmoderate : (Decimal.shortest x).IsModerate
  · exact represents_positional hnan hinf hmoderate
  · exact ⟨Decimal.shortest x, represents_exponential hnan hinf hmoderate, rfl⟩

end Finite

/-!
## The text that `print` shows

The text is made from the shortest numeral directly. It is the one that comes of rearranging the
text of debugging output, since both hold the digits of the same numeral.
-/

/-- What `print` shows is what debugging output shows, with its digits rearranged. -/
theorem text_eq_printed (x : Float) : text x = printed x (debugText x) := by
  by_cases hnan : x.isNaN
  · unfold text printed
    rw [if_pos hnan, if_pos hnan]
  by_cases hinf : x.isInf
  · unfold text printed
    rw [if_neg hnan, if_neg hnan, if_pos hinf, if_pos hinf]
  rw [Bool.not_eq_true] at hnan hinf
  have htext : (text x).toList = sign x ++ magnitudeText x := by
    unfold text
    rw [hnan, hinf]
    exact String.toList_ofList
  obtain ⟨d, hd, hvalue⟩ := represents_debugText hnan hinf
  apply String.toList_injective
  -- Plain numbers are within the bounds of positional notation, so only `.0` may go.
  by_cases hplain : isPlain x
  · have hmoderate : (Decimal.shortest x).IsModerate := by
      have hd' := hd.isModerate hnan hinf hplain
      unfold Decimal.IsModerate at hd' ⊢
      rwa [hvalue] at hd'
    obtain ⟨-, -, hdigits, -, -⟩ := positional_spec (Decimal.shortest x)
    have hfraction := positional_shortest hnan hinf
    rw [htext, toList_printed hnan hinf]
    unfold magnitudeText rearranged
    dsimp only
    rw [if_pos hplain, if_pos hplain, toList_debugText_positional hnan hinf hmoderate]
    generalize (Decimal.shortest x).positional = parts at hdigits hfraction ⊢
    obtain ⟨whole, fraction⟩ := parts
    exact (withoutPointZero_filled (sign x) whole hdigits hfraction).symm
  · have hne := hd.coefficient_ne_zero hnan hinf hplain
    -- The shortest digits end in no zero, so they are those of the scientific form.
    have hdvd : ¬ 10 ∣ (Decimal.shortest x).coefficient := by
      obtain ⟨-, hzero | hdvd⟩ := shortest_spec hnan hinf
      · rw [hzero] at hvalue
        exact absurd ((Decimal.value_eq_zero_iff d).mp (hvalue.trans (by simp [Decimal.value]))) hne
      · exact hdvd
    rw [htext, hd.printed_scientific hnan hinf hplain, scientific_congr _ hne hdvd hvalue,
      scientific_of_not_dvd _ hdvd]
    unfold magnitudeText
    dsimp only
    rw [if_neg hplain]
    rfl

/-!
## Reading back

The main statement, of the text that `print` shows for a finite number. It holds for every text of
the kind that debugging output shows, and so in particular for the one that it does show.
-/

/-- Numbers that debugging output shows with the same value and sign are shown alike. -/
theorem debugText_congr {y : Float} (hnan : x.isNaN = false) (hinf : x.isInf = false)
    (hnan' : y.isNaN = false) (hinf' : y.isInf = false)
    (hdenoted : Decimal.denoted? (debugText x) = Decimal.denoted? (debugText y)) :
    debugText x = debugText y := by
  obtain ⟨d, hd, hvalue⟩ := represents_debugText hnan hinf
  obtain ⟨d', hd', hvalue'⟩ := represents_debugText hnan' hinf'
  rw [hd.denoted?, hd'.denoted?, hvalue, hvalue'] at hdenoted
  obtain ⟨hsign, hvalues⟩ := Prod.mk.inj (Option.some.inj hdenoted)
  have hzero : Decimal.value ⟨0, 0⟩ = 0 := by simp [Decimal.value]
  have hshortest : Decimal.shortest x = Decimal.shortest y := by
    obtain ⟨-, hx⟩ := shortest_spec hnan hinf
    obtain ⟨-, hy⟩ := shortest_spec hnan' hinf'
    -- A numeral that ends in no zero is not zero.
    have hne : ∀ {d : Decimal}, ¬ 10 ∣ d.coefficient → d.value ≠ 0 := fun hdvd h =>
      hdvd ((Decimal.value_eq_zero_iff _).mp h ▸ ⟨0, rfl⟩)
    rcases hx with hx | hx <;> rcases hy with hy | hy
    · rw [hx, hy]
    · rw [hx, hzero] at hvalues
      exact absurd hvalues.symm (hne hy)
    · rw [hy, hzero] at hvalues
      exact absurd hvalues (hne hx)
    · exact Decimal.eq_of_value_eq hx hy hvalues
  unfold debugText sign debugMagnitude
  rw [hnan, hinf, hnan', hinf', hsign, hshortest]

/-- **Printed numbers denote what debugging output shows, and can be read back.** Whatever numeral
debugging output shows for a finite number, of the kind that it does show, the printed text denotes
the same rational number with the same sign, so that texts of different numerals differ. It has no
exponent just if the number is zero or its absolute value is from a thousandth to below ten million;
then it does not end in `.0`, and it is scanned as one number token if it has no minus. Otherwise it
is in scientific notation. -/
theorem text_reads_back (x : Float) (hnan : x.isNaN = false) (hinf : x.isInf = false) :
    ReadsBack x (debugText x) (text x) ∧
    (∃ d, Represents (debugText x) x d) ∧ text x = printed x (debugText x) ∧
    (isPlain x ↔ absValue x = 0 ∨ 1 / 1000 ≤ absValue x ∧ absValue x < 10000000) ∧
    (∀ shown d, Represents shown x d → ReadsBack x shown (printed x shown)) ∧
    ∀ y : Float, y.isNaN = false → y.isInf = false →
      (∀ shown shown' d d', Represents shown x d → Represents shown' y d' →
        printed x shown = printed y shown' → Decimal.denoted? shown = Decimal.denoted? shown') ∧
      (text x = text y → debugText x = debugText y) := by
  obtain ⟨d, hd, -⟩ := represents_debugText hnan hinf
  -- What is printed denotes what was shown, so equal texts come from equal values.
  have hsame : ∀ y : Float, y.isNaN = false → y.isInf = false → ∀ shown shown' d d',
      Represents shown x d → Represents shown' y d' → printed x shown = printed y shown' →
        Decimal.denoted? shown = Decimal.denoted? shown' := by
    intro y hnan' hinf' shown shown' d d' h h' heq
    rw [← (h.readsBack hnan hinf).same, heq, (h'.readsBack hnan' hinf').same]
  refine ⟨text_eq_printed x ▸ hd.readsBack hnan hinf, ⟨d, hd⟩, text_eq_printed x,
    isPlain_iff hnan hinf, fun shown d h => h.readsBack hnan hinf,
    fun y hnan' hinf' => ⟨hsame y hnan' hinf', fun heq => ?_⟩⟩
  obtain ⟨d', hd', -⟩ := represents_debugText hnan' hinf'
  rw [text_eq_printed x, text_eq_printed y] at heq
  exact debugText_congr hnan hinf hnan' hinf' (hsame y hnan' hinf' _ _ d d' hd hd' heq)

/-- A number that debugging output shows without an exponent, and a digit that looks superfluous. -/
theorem text_reads_back_twelve_million :
    (12345670 : Float).isNaN = false ∧ (12345670 : Float).isInf = false ∧
      debugText 12345670 = "12345670.0" ∧ text 12345670 = "1.234567E7" ∧
      Decimal.denoted? (text 12345670) = Decimal.denoted? (debugText 12345670) ∧
      IsScientific (text 12345670).toList := by
  have hnan : (12345670 : Float).isNaN = false := by decide +kernel
  have hinf : (12345670 : Float).isInf = false := by decide +kernel
  have hplain : ¬ isPlain 12345670 := by decide +kernel
  obtain ⟨hreads, -⟩ := text_reads_back 12345670 hnan hinf
  exact ⟨hnan, hinf, by decide +kernel, by decide +kernel, hreads.same, hreads.scientific hplain⟩

end Number

end LoxLang
