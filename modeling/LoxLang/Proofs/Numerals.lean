import LoxLang.Number.Text
import LoxLang.Token.Lexing
import Mathlib.Algebra.Order.Field.Rat
import Mathlib.Tactic.FieldSimp
import Mathlib.Tactic.Linarith
import Mathlib.Tactic.Ring

/-!
# Decimal numerals as texts

What a text denotes as a decimal numeral (`Decimal.read?`): digits with or without a point, with or
without an exponent. The value of a numeral is rational (`Decimal.value`), and its sign is kept
beside it, so that `-0` is not `0`.

`Number.printed` makes the text that `print` shows out of the one that debugging output shows. It
rearranges digits: those of a plain number stay as they are but for `.0` at the end, and others are
written with one digit before the point. Either way the text denotes what it denoted before.
-/

namespace LoxLang

/-!
## Digits

Digits are read to numbers and back. Zeros in front change nothing, and zeros behind are factors of
ten.
-/

theorem isDigit_of_mem_zero : ∀ c ∈ ['0'], isDigit c := List.forall_mem_singleton.mpr rfl

/-- Where digits come first, a digit does. -/
theorem isDigit_of_mem_head? {ds : List Char} (hne : ds ≠ []) (hds : ∀ c ∈ ds, isDigit c)
    (tail : List Char) : ∀ c ∈ (ds ++ tail).head?, isDigit c := by
  intro c hc
  rw [List.head?_append_of_ne_nil _ hne] at hc
  exact hds c (List.mem_of_mem_head? hc)

/-- A sign is a minus. -/
theorem eq_minus_of_mem {p : Prop} [Decidable p] {c : Char} (h : c ∈ if p then ['-'] else []) :
    c = '-' := by
  split at h
  · exact List.mem_singleton.mp h
  · cases h

namespace Number

theorem ofDigits_append (ds es : List Char) :
    ofDigits (ds ++ es) = 10 ^ es.length * ofDigits ds + ofDigits es := by
  show Nat.ofDigitChars 10 (ds ++ es) 0 = _
  rw [Nat.ofDigitChars_append, Nat.ofDigitChars_eq_ofDigitChars_zero]
  rfl

theorem ofDigits_replicate_zero (n : Nat) : ofDigits (List.replicate n '0') = 0 := by
  show Nat.ofDigitChars 10 (List.replicate n '0') 0 = 0
  rw [Nat.ofDigitChars_replicate_zero, Nat.mul_zero]

@[simp] theorem ofDigits_toDigits (n : Nat) : ofDigits (Nat.toDigits 10 n) = n :=
  Nat.ofDigitChars_ten_toDigits

theorem isDigit_of_mem_toDigits {n : Nat} {c : Char} (h : c ∈ Nat.toDigits 10 n) : isDigit c :=
  Nat.isDigit_of_mem_toDigits (by decide) (by decide) h

end Number

/-- Zeros after the digits of a number multiply it by powers of ten. -/
theorem toDigits_mul_pow {n : Nat} (hn : n ≠ 0) (k : Nat) :
    Nat.toDigits 10 (n * 10 ^ k) = Nat.toDigits 10 n ++ List.replicate k '0' := by
  induction k with
  | zero => simp
  | succ k ih =>
    have hpos : 0 < n * 10 ^ k := Nat.mul_pos (Nat.pos_of_ne_zero hn) (Nat.pow_pos (by decide))
    have hstep : Nat.toDigits 10 (10 * (n * 10 ^ k) + 0) =
        Nat.toDigits 10 (n * 10 ^ k) ++ Nat.toDigits 10 0 :=
      (Nat.toDigits_append_toDigits (by decide) hpos (by decide)).symm
    have heq : n * 10 ^ (k + 1) = 10 * (n * 10 ^ k) + 0 := by ring
    rw [heq, hstep, ih, Nat.toDigits_zero, List.append_assoc, List.replicate_succ']

/-- The digits of a number that is no multiple of ten do not end in a zero. -/
theorem getLast?_toDigits {n : Nat} (hn : ¬ 10 ∣ n) :
    (Nat.toDigits 10 n).getLast? ≠ some '0' := by
  have hlast : n % 10 ≠ 0 := fun h => hn (Nat.dvd_of_mod_eq_zero h)
  have hchar : ∀ k < 10, k ≠ 0 → k.digitChar ≠ '0' := by decide
  rw [Nat.toDigits_eq_if (by decide)]
  split
  · next hlt =>
    rw [List.getLast?_singleton]
    exact fun h => hchar n hlt (by omega) (Option.some.inj h)
  · rw [List.getLast?_concat]
    exact fun h => hchar (n % 10) (Nat.mod_lt _ (by decide)) hlast (Option.some.inj h)

/-- The digits of a number other than zero do not begin with a zero. -/
theorem head?_toDigits {n : Nat} (hn : n ≠ 0) : (Nat.toDigits 10 n).head? ≠ some '0' := by
  have hchar : ∀ k < 10, k ≠ 0 → k.digitChar ≠ '0' := by decide
  induction n using Nat.strongRecOn with
  | ind n ih =>
  rw [Nat.toDigits_eq_if (by decide)]
  split
  · next hlt =>
    rw [List.head?_cons]
    exact fun h => hchar n hlt hn (Option.some.inj h)
  · next hge =>
    have hquotient : n / 10 ≠ 0 := by omega
    rw [List.head?_append_of_ne_nil _ Nat.toDigits_ne_nil]
    exact ih (n / 10) (by omega) hquotient

/-- Every number other than zero is a power of ten times a number that is no multiple of ten. -/
theorem exists_mul_pow {n : Nat} (hn : n ≠ 0) :
    ∃ c k, n = c * 10 ^ k ∧ c ≠ 0 ∧ ¬ 10 ∣ c := by
  induction n using Nat.strongRecOn with
  | ind n ih =>
  by_cases hdvd : 10 ∣ n
  · obtain ⟨m, rfl⟩ := hdvd
    obtain ⟨c, k, hm, hc, hdvd⟩ := ih m (by omega) (by omega)
    exact ⟨c, k + 1, by rw [hm]; ring, hc, hdvd⟩
  · exact ⟨n, 0, by simp, hn, hdvd⟩

/-- The text of an integer. -/
theorem toList_toString (e : Int) :
    (toString e).toList = (if e < 0 then ['-'] else []) ++ Nat.toDigits 10 e.natAbs := by
  rw [Int.toString_eq_repr]
  cases e with
  | ofNat n =>
    have hnonneg : ¬ Int.ofNat n < 0 := Int.not_lt.mpr (Int.natCast_nonneg n)
    show n.repr.toList = _
    rw [Nat.toList_repr, if_neg hnonneg]
    rfl
  | negSucc n =>
    have hminus : "-".toList = ['-'] := rfl
    show ("-" ++ n.succ.repr).toList = _
    rw [String.toList_append, Nat.toList_repr, hminus, if_pos (Int.negSucc_lt_zero n)]
    rfl

/-!
## Values

A decimal denotes its coefficient times a power of ten. The place of its first digit bounds the
value, and two decimals without spare zeros have the same value only if they are the same.
-/

namespace Decimal

/-- The number that a numeral denotes, but for its sign. -/
def value (d : Decimal) : ℚ := d.coefficient * (10 : ℚ) ^ d.exponent

theorem ten_zpow_pos (e : Int) : (0 : ℚ) < (10 : ℚ) ^ e := zpow_pos (by norm_num) e

theorem value_nonneg (d : Decimal) : 0 ≤ d.value :=
  mul_nonneg (Nat.cast_nonneg _) (le_of_lt (ten_zpow_pos _))

theorem value_eq_zero_iff (d : Decimal) : d.value = 0 ↔ d.coefficient = 0 := by
  unfold value
  rw [mul_eq_zero, Nat.cast_eq_zero]
  exact or_iff_left (ne_of_gt (ten_zpow_pos _))

/-- Zeros that are moved between the coefficient and the exponent do not matter. -/
theorem value_mul_pow (c k : Nat) (e : Int) : value ⟨c * 10 ^ k, e⟩ = value ⟨c, e + k⟩ := by
  unfold value
  rw [zpow_add₀ (by norm_num), zpow_natCast]
  push_cast
  ring

/-- A zero behind the digits can be counted to the exponent instead. -/
theorem value_append_zero (ds : List Char) (e : Int) :
    value ⟨Number.ofDigits (ds ++ ['0']), e⟩ = value ⟨Number.ofDigits ds, e + 1⟩ := by
  have hten : Number.ofDigits (ds ++ ['0']) = Number.ofDigits ds * 10 ^ 1 := by
    rw [Number.ofDigits_append]
    show 10 ^ 1 * Number.ofDigits ds + 0 = _
    ring
  rw [hten, value_mul_pow]
  rfl

theorem length_digits_pos (d : Decimal) : 0 < d.digits.length :=
  List.length_pos_iff.mpr Nat.toDigits_ne_nil

/-- The value lies between the powers of ten that the magnitude tells. -/
theorem value_bounds {d : Decimal} (hd : d.coefficient ≠ 0) :
    (10 : ℚ) ^ d.magnitude ≤ d.value ∧ d.value < (10 : ℚ) ^ (d.magnitude + 1) := by
  obtain ⟨n, hn⟩ : ∃ n, d.digits.length = n + 1 :=
    ⟨d.digits.length - 1, (Nat.sub_add_cancel d.length_digits_pos).symm⟩
  have hmagnitude : d.magnitude = n + d.exponent := by
    unfold magnitude
    omega
  -- As many digits as it has bound the coefficient on both sides.
  have hupper : d.coefficient < 10 ^ (n + 1) :=
    (Nat.length_toDigits_le_iff (by decide) (Nat.succ_pos n)).mp (Nat.le_of_eq hn)
  have hlower : 10 ^ n ≤ d.coefficient := by
    cases n with
    | zero => exact Nat.pos_of_ne_zero hd
    | succ n =>
      have hmore : ¬ (Nat.toDigits 10 d.coefficient).length ≤ n + 1 := by
        show ¬ d.digits.length ≤ n + 1
        omega
      rwa [Nat.length_toDigits_le_iff (by decide) (Nat.succ_pos n), Nat.not_lt] at hmore
  have hpos := ten_zpow_pos d.exponent
  have hlower' : (10 : ℚ) ^ n ≤ d.coefficient := by exact_mod_cast hlower
  have hupper' : (d.coefficient : ℚ) < (10 : ℚ) ^ (n + 1) := by exact_mod_cast hupper
  have hnext : (n : Int) + d.exponent + 1 = ((n + 1 : Nat) : Int) + d.exponent := by
    push_cast
    ring
  unfold value
  rw [hmagnitude, hnext, zpow_add₀ (by norm_num), zpow_add₀ (by norm_num), zpow_natCast,
    zpow_natCast]
  exact ⟨mul_le_mul_of_nonneg_right hlower' (le_of_lt hpos), mul_lt_mul_of_pos_right hupper' hpos⟩

/-- Numerals of one value without zeros at the end are the same. -/
theorem eq_of_value_eq {d d' : Decimal} (hd : ¬ 10 ∣ d.coefficient) (hd' : ¬ 10 ∣ d'.coefficient)
    (h : d.value = d'.value) : d = d' := by
  have hle : ∀ {d d' : Decimal}, ¬ 10 ∣ d'.coefficient → d.value = d'.value →
      d.exponent ≤ d'.exponent := by
    intro d d' hd' h
    by_contra hlt
    -- Otherwise the other coefficient is a multiple of a power of ten.
    obtain ⟨k, hk⟩ : ∃ k : Nat, d.exponent = d'.exponent + (k + 1 : Nat) :=
      ⟨(d.exponent - d'.exponent - 1).toNat, by omega⟩
    have hmul : value ⟨d.coefficient * 10 ^ (k + 1), d'.exponent⟩ = value d' := by
      rw [value_mul_pow, ← hk]
      exact h
    have hcast := mul_right_cancel₀ (ne_of_gt (ten_zpow_pos d'.exponent)) hmul
    have hnat : d.coefficient * 10 ^ (k + 1) = d'.coefficient := by exact_mod_cast hcast
    exact hd' ⟨d.coefficient * 10 ^ k, by rw [← hnat]; ring⟩
  have hexponent := Int.le_antisymm (hle hd' h) (hle hd h.symm)
  unfold value at h
  rw [hexponent] at h
  have hcast := mul_right_cancel₀ (ne_of_gt (ten_zpow_pos d'.exponent)) h
  have hcoefficient : d.coefficient = d'.coefficient := by exact_mod_cast hcast
  cases d
  cases d'
  simp_all

/-!
## Reading

A reader for numerals as they are printed, with and without point and exponent. It serves as the
measure of what a text denotes.
-/

/-- The natural number that a text of digits denotes. -/
def readNatural? (cs : List Char) : Option Nat :=
  if cs ≠ [] ∧ cs.all isDigit then some (Number.ofDigits cs) else none

/-- The number that an exponent denotes, which may have a sign. -/
def readExponent? : List Char → Option Int
  | '-' :: cs => (readNatural? cs).map fun (n : Nat) => -(n : Int)
  | '+' :: cs => (readNatural? cs).map fun (n : Nat) => (n : Int)
  | cs => (readNatural? cs).map fun (n : Nat) => (n : Int)

/-- The exponent that follows the digits, if one does. -/
def readSuffix? : List Char → Option Int
  | [] => some 0
  | c :: cs => if c = 'e' ∨ c = 'E' then readExponent? cs else none

/-- The digits after a point, and what follows them. -/
def splitFraction : List Char → List Char × List Char
  | '.' :: cs => (cs.takeWhile isDigit, cs.dropWhile isDigit)
  | cs => ([], cs)

/-- The numeral that a text without a sign denotes. -/
def readUnsigned? (cs : List Char) : Option Decimal :=
  let whole := cs.takeWhile isDigit
  let (fraction, suffix) := splitFraction (cs.dropWhile isDigit)
  if whole ++ fraction = [] then none
  else (readSuffix? suffix).map fun e => ⟨Number.ofDigits (whole ++ fraction), e - fraction.length⟩

/-- Whether a text denotes a negative numeral, and which one. -/
def read? : List Char → Option (Bool × Decimal)
  | '-' :: cs => (readUnsigned? cs).map (true, ·)
  | cs => (readUnsigned? cs).map (false, ·)

/-- The sign and the rational number that a text denotes. -/
def denoted? (text : String) : Option (Bool × ℚ) :=
  (read? text.toList).map fun r => (r.1, r.2.value)

/-- No digit and no point can follow the digits that were read. -/
def EndsDigits (suffix : List Char) : Prop :=
  ∀ c ∈ suffix.head?, isDigit c = false ∧ c ≠ '.'

theorem endsDigits_nil : EndsDigits [] := fun _ h => by cases h

theorem takeWhile_digits {ds suffix : List Char} (hds : ∀ c ∈ ds, isDigit c)
    (hsuffix : ∀ c ∈ suffix.head?, isDigit c = false) :
    (ds ++ suffix).takeWhile isDigit = ds ∧ (ds ++ suffix).dropWhile isDigit = suffix := by
  rw [List.takeWhile_append_of_pos hds, List.dropWhile_append_of_pos hds]
  cases suffix with
  | nil => simp
  | cons c cs => simp [hsuffix c rfl]

variable {whole fraction suffix : List Char}

/-- Reading digits without a point. -/
theorem readUnsigned?_whole (hne : whole ≠ []) (hwhole : ∀ c ∈ whole, isDigit c)
    (hsuffix : EndsDigits suffix) : readUnsigned? (whole ++ suffix) =
      (readSuffix? suffix).map fun e => ⟨Number.ofDigits whole, e⟩ := by
  obtain ⟨htake, hdrop⟩ := takeWhile_digits hwhole fun c hc => (hsuffix c hc).1
  have hsplit : splitFraction suffix = ([], suffix) := by
    unfold splitFraction
    split
    · exact absurd rfl (hsuffix '.' rfl).2
    · rfl
  unfold readUnsigned?
  rw [htake, hdrop, hsplit]
  simp [hne]

/-- Reading digits with a point. -/
theorem readUnsigned?_point (hne : whole ≠ []) (hwhole : ∀ c ∈ whole, isDigit c)
    (hfraction : ∀ c ∈ fraction, isDigit c) (hsuffix : EndsDigits suffix) :
    readUnsigned? (whole ++ '.' :: (fraction ++ suffix)) = (readSuffix? suffix).map fun e =>
      ⟨Number.ofDigits (whole ++ fraction), e - fraction.length⟩ := by
  have hpoint : ∀ c ∈ ('.' :: (fraction ++ suffix)).head?, isDigit c = false := by
    rintro c ⟨⟩
    decide
  obtain ⟨htake, hdrop⟩ := takeWhile_digits hwhole hpoint
  obtain ⟨htake', hdrop'⟩ := takeWhile_digits hfraction fun c hc => (hsuffix c hc).1
  unfold readUnsigned?
  rw [htake, hdrop, splitFraction, htake', hdrop']
  simp [hne]

/-- Reading a sign, which nothing but a sign can be mistaken for. -/
theorem read?_signed (negative : Bool) {cs : List Char} (hcs : ∀ c ∈ cs.head?, isDigit c) :
    read? ((if negative then ['-'] else []) ++ cs) = (readUnsigned? cs).map (negative, ·) := by
  cases negative with
  | true => rfl
  | false =>
    unfold read?
    split
    · next heq =>
      -- A sign is no digit.
      have hminus : isDigit '-' := hcs '-' (by rw [show cs = _ from heq]; rfl)
      cases hminus
    · rfl

/-- Reading nothing but a sign and digits. -/
theorem read?_whole (negative : Bool) (hne : whole ≠ []) (hwhole : ∀ c ∈ whole, isDigit c) :
    read? ((if negative then ['-'] else []) ++ whole) =
      some (negative, ⟨Number.ofDigits whole, 0⟩) := by
  have hhead := isDigit_of_mem_head? hne hwhole []
  have hread := readUnsigned?_whole hne hwhole endsDigits_nil
  rw [List.append_nil] at hhead hread
  rw [read?_signed negative hhead, hread]
  rfl

/-- Reading nothing but a sign and digits with a point. -/
theorem read?_point (negative : Bool) (hne : whole ≠ []) (hwhole : ∀ c ∈ whole, isDigit c)
    (hfraction : ∀ c ∈ fraction, isDigit c) :
    read? ((if negative then ['-'] else []) ++ (whole ++ '.' :: fraction)) =
      some (negative, ⟨Number.ofDigits (whole ++ fraction), -fraction.length⟩) := by
  have hread := readUnsigned?_point hne hwhole hfraction endsDigits_nil
  rw [List.append_nil] at hread
  rw [read?_signed negative (isDigit_of_mem_head? hne hwhole _), hread]
  simp [readSuffix?]

theorem readNatural?_digits (n : Nat) : readNatural? (Nat.toDigits 10 n) = some n := by
  have hdigits : ∀ c ∈ Nat.toDigits 10 n, isDigit c := fun c => Number.isDigit_of_mem_toDigits
  unfold readNatural?
  rw [if_pos ⟨Nat.toDigits_ne_nil, List.all_eq_true.mpr hdigits⟩, Number.ofDigits_toDigits]

theorem readExponent?_digits {ds : List Char} (hds : ∀ c ∈ ds, isDigit c) :
    readExponent? ds = (readNatural? ds).map fun (n : Nat) => (n : Int) := by
  unfold readExponent?
  split
  · exact absurd (hds '-' List.mem_cons_self) (by decide)
  · exact absurd (hds '+' List.mem_cons_self) (by decide)
  · rfl

/-- The text of an integer is read back. -/
theorem readExponent?_toString (e : Int) : readExponent? (toString e).toList = some e := by
  have hdigits : ∀ c ∈ Nat.toDigits 10 e.natAbs, isDigit c :=
    fun c => Number.isDigit_of_mem_toDigits
  rw [toList_toString]
  split
  · rw [List.singleton_append, readExponent?, readNatural?_digits, Option.map_some]
    congr 1
    omega
  · rw [List.nil_append, readExponent?_digits hdigits, readNatural?_digits, Option.map_some]
    congr 1
    omega

end Decimal

end LoxLang
