import LoxLang.Number.Text
import Mathlib

/-!
# Finite numbers as rationals

A finite number is a natural number times a power of two (`Number.absValue`), with a sign. The
natural number and the exponent are canonical (`Number.Canonical`), so that numbers are compared by
their exponents first. Hence comparisons of numbers are comparisons of rationals, and the numbers
that `print` shows without an exponent are those from a thousandth to below ten million
(`Number.isPlain_iff`).
-/

namespace LoxLang.Number

open Float.Model (UnpackedFloat Format)
open Float.Model.UnpackedFloat (unpack pack unpackMantissa unpackExponent unpackSign
  packComponents unpackMantissa_packComponents unpackExponent_packComponents Sign)

/-!
## Bits

From the bits of a number to its parts and back. A normal number does not keep the first bit of its
natural number, since it is always one; the smallest numbers keep all bits.
-/

theorem toNat_unpackMantissa (b : BitVec Format.binary64.numBits) :
    (unpackMantissa b).toNat = b.toNat % 2 ^ 52 := by
  unfold unpackMantissa
  rw [BitVec.toNat_cast, BitVec.extractLsb_toNat]
  simp

theorem toNat_unpackExponent (b : BitVec Format.binary64.numBits) :
    (unpackExponent b).toNat = (b.toNat >>> 52) % 2048 := by
  unfold unpackExponent
  rw [BitVec.toNat_cast, BitVec.extractLsb_toNat]
  rfl

theorem toNat_unpackSign (b : BitVec Format.binary64.numBits) :
    (unpackSign b).toNat = (b.toNat >>> 63) % 2 := by
  unfold unpackSign
  rw [BitVec.toNat_cast, BitVec.extractLsb_toNat]
  rfl

variable {x : Float}

theorem unpack_toModel (x : Float) :
    x.toModel.unpack = unpack Format.binary64 x.toBits.toBitVec := rfl

theorem biased_ne (hnan : x.isNaN = false) (hinf : x.isInf = false) :
    (x.toBits.toNat >>> 52) % 2048 ≠ 2047 := by
  intro h
  have hexponent : @unpackExponent Format.binary64 x.toBits.toBitVec = -1#_ := by
    apply BitVec.eq_of_toNat_eq
    rw [toNat_unpackExponent]
    exact h
  have hunpack := unpack_toModel x
  -- All ones in the exponent stand for an infinity or for no number.
  unfold unpack at hunpack
  dsimp only at hunpack
  rw [if_pos hexponent] at hunpack
  have hnan' : x.toModel.unpack.isNaN = false := hnan
  have hinf' : x.toModel.unpack.isInf = false := hinf
  rw [hunpack] at hnan' hinf'
  split at hnan'
  · rw [if_pos ‹_›] at hinf'
    cases hinf'
  · cases hnan'

/-- A natural number and an exponent as those of a finite number: all of the 53 bits are used, or
the exponent is the smallest one. -/
structure Canonical (m : Nat) (q : Int) : Prop where
  lt : m < 2 ^ 53
  ge : -1074 ≤ q
  le : q ≤ 971
  normal : q = -1074 ∨ 2 ^ 52 ≤ m

/-- The sign of a number, as the bits tell it. -/
def signBit (x : Float) : Sign := if isNegative x then .negative else .positive

theorem ofBitVec_unpackSign (x : Float) :
    Sign.ofBitVec (@unpackSign Format.binary64 x.toBits.toBitVec) = signBit x := by
  have hsign := toNat_unpackSign x.toBits.toBitVec
  have hlt : x.toBits.toNat < 2 ^ 64 := x.toBits.toNat_lt
  unfold signBit isNegative Sign.ofBitVec
  have hbits : x.toBits.toBitVec.toNat = x.toBits.toNat := rfl
  rw [hbits, Nat.shiftRight_eq_div_pow] at hsign
  -- The sign is the highest bit, so it is set from half of the range on.
  by_cases hneg : 1 <<< 63 ≤ x.toBits.toNat
  · have hone : @unpackSign Format.binary64 x.toBits.toBitVec ≠ 0#1 := by
      intro h
      rw [h] at hsign
      have hzeros : (0#1).toNat = 0 := rfl
      have hge : 2 ^ 63 ≤ x.toBits.toNat := hneg
      omega
    rw [if_neg hone, if_pos (by simpa using hneg)]
  · have hzero : @unpackSign Format.binary64 x.toBits.toBitVec = 0#1 := by
      apply BitVec.eq_of_toNat_eq
      rw [hsign]
      have hle : x.toBits.toNat < 2 ^ 63 := Nat.not_le.mp hneg
      show _ = 0
      omega
    rw [if_pos hzero, if_neg (by simpa using hneg)]

theorem unpack_eq (hnan : x.isNaN = false) (hinf : x.isInf = false) :
    Canonical (Decimal.binaryParts x).1 (Decimal.binaryParts x).2 ∧
      ((Decimal.binaryParts x).1 = 0 → x.toModel.unpack = .zero (signBit x)) ∧
      ∀ h : 0 < (Decimal.binaryParts x).1, x.toModel.unpack =
        .finite (signBit x) (Decimal.binaryParts x).1 (Decimal.binaryParts x).2 h := by
  have hne := biased_ne hnan hinf
  have hmantissa := toNat_unpackMantissa x.toBits.toBitVec
  have hexponent := toNat_unpackExponent x.toBits.toBitVec
  have hspecial : @unpackExponent Format.binary64 x.toBits.toBitVec ≠ -1#_ := by
    intro h
    rw [h] at hexponent
    exact hne hexponent.symm
  have hbits : x.toBits.toBitVec.toNat = x.toBits.toNat := rfl
  rw [hbits] at hmantissa hexponent
  have hlt : x.toBits.toNat % 2 ^ 52 < 2 ^ 52 := Nat.mod_lt _ (by decide)
  have hlt' : (x.toBits.toNat >>> 52) % 2048 < 2048 := Nat.mod_lt _ (by decide)
  have hshift : x.toBits.toNat % (1 <<< 52) = x.toBits.toNat % 2 ^ 52 := rfl
  rw [unpack_toModel]
  unfold unpack
  dsimp only
  rw [if_neg hspecial, ofBitVec_unpackSign]
  -- Where all bits of the exponent are zero, the natural number has no bit of its own in front.
  by_cases hzero : (x.toBits.toNat >>> 52) % 2048 = 0
  · have hzero' : @unpackExponent Format.binary64 x.toBits.toBitVec = 0#_ := by
      apply BitVec.eq_of_toNat_eq
      rw [hexponent, hzero]
      rfl
    have hparts : Decimal.binaryParts x = (x.toBits.toNat % 2 ^ 52, -1074) := by
      unfold Decimal.binaryParts
      dsimp only
      rw [if_pos hzero, hshift]
    rw [hparts, if_pos hzero']
    refine ⟨⟨by dsimp only; omega, Int.le_refl _, by dsimp only; omega, .inl rfl⟩,
      fun hm => ?_, fun hm => ?_⟩
    · rw [dif_pos]
      apply BitVec.eq_of_toNat_eq
      rw [hmantissa]
      exact hm
    · rw [dif_neg]
      · congr 1
        rw [hexponent, hzero]
        rfl
      · intro h
        rw [h] at hmantissa
        have hm' : 0 < x.toBits.toNat % 2 ^ 52 := hm
        rw [← hmantissa] at hm'
        cases hm'
  · have hzero' : @unpackExponent Format.binary64 x.toBits.toBitVec ≠ 0#_ := by
      intro h
      rw [h] at hexponent
      exact hzero hexponent.symm
    have hparts : Decimal.binaryParts x = (2 ^ 52 + x.toBits.toNat % 2 ^ 52,
        (((x.toBits.toNat >>> 52) % 2048 : Nat) : Int) - 1075) := by
      unfold Decimal.binaryParts
      dsimp only
      rw [if_neg hzero, hshift]
      rfl
    rw [hparts, if_neg hzero']
    refine ⟨⟨by dsimp only; omega, by dsimp only; omega, by dsimp only; omega,
      .inr (by dsimp only; omega)⟩, fun hm => ?_, fun hm => ?_⟩
    · dsimp only at hm
      omega
    · congr 1
      · rw [BitVec.toNat_append, ← Nat.shiftLeft_add_eq_or_of_lt (BitVec.isLt _), hmantissa]
        rfl

theorem unpack_of_parts {m : Nat} {q : Int} (hnan : x.isNaN = false) (hinf : x.isInf = false)
    (hsign : isNegative x = false) (hparts : Decimal.binaryParts x = (m, q)) (h : 0 < m) :
    x.toModel.unpack = .finite .positive m q h := by
  obtain ⟨-, -, hfinite⟩ := unpack_eq hnan hinf
  unfold signBit at hfinite
  rw [hparts, hsign] at hfinite
  exact hfinite h

theorem unpackSign_positive (e : BitVec 11) (v : BitVec 52) :
    @unpackSign Format.binary64
      (packComponents Format.binary64 .positive e v) = 0#1 := by
  have he := e.isLt
  have hv := v.isLt
  apply BitVec.eq_of_toNat_eq
  rw [toNat_unpackSign, Nat.shiftRight_eq_div_pow]
  have hbits : (packComponents Format.binary64 .positive e v).toNat =
      e.toNat * 2 ^ 52 + v.toNat := by
    show ((0#1 ++ e) ++ v).toNat = _
    rw [BitVec.toNat_append, ← Nat.shiftLeft_add_eq_or_of_lt hv, BitVec.toNat_append,
      Nat.shiftLeft_eq]
    simp
  -- Exponent and fraction together are less than the bit of the sign.
  rw [hbits]
  show _ = 0
  omega

/-- A normal number out of its parts: the first bit of the natural number is not kept. -/
theorem unpack_normal {m : Nat} {q : Int} (h : Canonical m q) (hnormal : 2 ^ 52 ≤ m) (hm : 0 < m) :
    unpack Format.binary64 (packComponents Format.binary64 .positive
      (BitVec.ofNat 11 (q + 1075).toNat) (BitVec.ofNat 52 m)) = .finite .positive m q hm := by
  have hlt := h.lt
  have hge := h.ge
  have hle := h.le
  have hexponent : (BitVec.ofNat 11 (q + 1075).toNat).toNat = (q + 1075).toNat := by
    rw [BitVec.toNat_ofNat]
    omega
  -- The leading bit is not stored. It is put back when the exponent is not zero.
  have hmantissa : (BitVec.ofNat 52 m).toNat = m - 2 ^ 52 := by
    rw [BitVec.toNat_ofNat]
    omega
  have hspecial : BitVec.ofNat 11 (q + 1075).toNat ≠ -1#_ := by
    intro h
    rw [h] at hexponent
    have hones : (-1#11).toNat = 2047 := rfl
    omega
  have hzero : BitVec.ofNat 11 (q + 1075).toNat ≠ 0#_ := by
    intro h
    rw [h] at hexponent
    have hzeros : (0#11).toNat = 0 := rfl
    omega
  unfold unpack
  simp only [unpackMantissa_packComponents, unpackExponent_packComponents, unpackSign_positive]
  rw [if_neg hspecial, if_neg hzero]
  congr 1
  · rw [BitVec.toNat_append, ← Nat.shiftLeft_add_eq_or_of_lt (BitVec.isLt _), hmantissa]
    have hone : (1#1 : BitVec 1).toNat <<< 52 = 2 ^ 52 := by decide
    rw [hone]
    omega
  · rw [hexponent]
    show ((q + 1075).toNat : Int) - (1023 + 52) = q
    omega

/-- One of the smallest numbers out of its parts: all bits of the natural number are kept. -/
theorem unpack_subnormal {m : Nat} (hm : 0 < m) (hlt : m < 2 ^ 52) :
    unpack Format.binary64 (packComponents Format.binary64 .positive 0#_ (BitVec.ofNat 52 m)) =
      .finite .positive m (-1074) hm := by
  have hmantissa : (BitVec.ofNat 52 m).toNat = m := by
    rw [BitVec.toNat_ofNat]
    omega
  have hne : BitVec.ofNat 52 m ≠ 0#_ := by
    intro h
    rw [h] at hmantissa
    have hzeros : (0#52).toNat = 0 := rfl
    omega
  unfold unpack
  simp only [unpackMantissa_packComponents, unpackExponent_packComponents, unpackSign_positive]
  rw [if_neg (by decide), if_pos trivial, dif_neg hne]
  congr 1

theorem unpack_pack {m : Nat} {q : Int} (h : Canonical m q) (hm : 0 < m) :
    unpack Format.binary64 (pack Format.binary64 (.finite .positive m q hm)) =
      .finite .positive m q hm := by
  have hle := h.le
  have hbias : (q + (Format.exponentBias Format.binary64 : Int) + (52 : Nat)).toNat =
      (q + 1075).toNat := by
    congr 1
    show q + 1023 + 52 = q + 1075
    omega
  unfold pack
  dsimp only
  rw [hbias, if_neg (by show ¬ 2048 ≤ _; omega)]
  -- The length of the natural number tells which of the two kinds the number is.
  by_cases hnormal : 2 ^ 52 ≤ m
  · have hlog : m.log2 + 1 = Format.binary64.mantissaBits := by
      have hlog2 : m.log2 = 52 := (Nat.log2_eq_iff (by omega)).mpr ⟨hnormal, h.lt⟩
      rw [hlog2]
      rfl
    rw [if_pos hlog]
    exact unpack_normal h hnormal hm
  · have hlog : m.log2 + 1 ≠ Format.binary64.mantissaBits := by
      have hlog2 : m.log2 < 52 := (Nat.log2_lt (by omega)).mpr (Nat.not_le.mp hnormal)
      show m.log2 + 1 ≠ 53
      omega
    obtain rfl : q = -1074 := h.normal.resolve_right hnormal
    rw [if_neg hlog]
    exact unpack_subnormal hm (Nat.not_le.mp hnormal)

/-!
## Values

The parts of a number are canonical, so a larger exponent always makes a larger number. Hence
comparing numbers is comparing exponents and then natural numbers, which is what the comparison of
numbers does.
-/

theorem two_zpow_pos (q : Int) : (0 : ℚ) < (2 : ℚ) ^ q := zpow_pos (by norm_num) q

/-- A larger exponent makes a larger number. -/
theorem Canonical.value_lt {m m' : Nat} {q q' : Int} (h : Canonical m q) (h' : Canonical m' q')
    (hlt : q < q') : (m : ℚ) * 2 ^ q < m' * 2 ^ q' := by
  have hnormal : 2 ^ 52 ≤ m' := h'.normal.resolve_left fun heq => by
    have hge := h.ge
    omega
  obtain ⟨k, rfl⟩ : ∃ k : Nat, q' = q + 1 + k := ⟨(q' - q - 1).toNat, by omega⟩
  have hm : (m : ℚ) < 2 ^ 53 := by exact_mod_cast h.lt
  have hm' : (2 : ℚ) ^ 52 ≤ m' := by exact_mod_cast hnormal
  have hone : (1 : ℚ) ≤ 2 ^ k := one_le_pow₀ (by norm_num)
  have hstep : (2 : ℚ) ^ 53 ≤ m' * (2 * 2 ^ k) := by nlinarith
  rw [zpow_add₀ (by norm_num), zpow_add₀ (by norm_num), zpow_one, zpow_natCast]
  calc (m : ℚ) * 2 ^ q < 2 ^ 53 * 2 ^ q := mul_lt_mul_of_pos_right hm (two_zpow_pos q)
    _ ≤ m' * (2 * 2 ^ k) * 2 ^ q := mul_le_mul_of_nonneg_right hstep (two_zpow_pos q).le
    _ = m' * (2 ^ q * 2 * 2 ^ k) := by ring

theorem Canonical.value_lt_iff {m m' : Nat} {q q' : Int} (h : Canonical m q)
    (h' : Canonical m' q') :
    (m : ℚ) * 2 ^ q < m' * 2 ^ q' ↔ q < q' ∨ q = q' ∧ m < m' := by
  rcases Int.lt_trichotomy q q' with hlt | rfl | hgt
  · exact iff_of_true (h.value_lt h' hlt) (.inl hlt)
  · rw [mul_lt_mul_iff_left₀ (two_zpow_pos q), Nat.cast_lt]
    simp
  · exact iff_of_false (not_lt.mpr (h'.value_lt h hgt).le) (by omega)

/-- The absolute value of a finite number. -/
def absValue (x : Float) : ℚ :=
  (Decimal.binaryParts x).1 * (2 : ℚ) ^ (Decimal.binaryParts x).2

theorem absValue_eq_zero_iff (x : Float) : absValue x = 0 ↔ (Decimal.binaryParts x).1 = 0 := by
  unfold absValue
  rw [mul_eq_zero, Nat.cast_eq_zero]
  exact or_iff_left (two_zpow_pos _).ne'

theorem unpack_abs (hnan : x.isNaN = false) (hinf : x.isInf = false)
    (hm : 0 < (Decimal.binaryParts x).1) : x.abs.toModel.unpack =
      .finite .positive (Decimal.binaryParts x).1 (Decimal.binaryParts x).2 hm := by
  obtain ⟨hcanonical, -, hfinite⟩ := unpack_eq hnan hinf
  have habs : x.toModel.unpack.abs = .finite .positive (Decimal.binaryParts x).1
      (Decimal.binaryParts x).2 hm := by
    rw [hfinite hm]
    rfl
  show unpack Format.binary64 (pack Format.binary64 x.toModel.unpack.abs) = _
  rw [habs]
  exact unpack_pack hcanonical hm

theorem beq_zero_iff (hnan : x.isNaN = false) (hinf : x.isInf = false) :
    (x == 0) = true ↔ absValue x = 0 := by
  have hzero : (0 : Float).toModel.unpack = .zero (signBit 0) :=
    (unpack_eq (x := 0) (by decide +kernel) (by decide +kernel)).2.1 (by decide +kernel)
  obtain ⟨-, hz, hf⟩ := unpack_eq hnan hinf
  rw [absValue_eq_zero_iff]
  show (x.toModel.unpack.compare (0 : Float).toModel.unpack == some .eq) = true ↔ _
  rw [hzero]
  rcases Nat.eq_zero_or_pos (Decimal.binaryParts x).1 with hm | hm
  · rw [hz hm]
    exact iff_of_true rfl hm
  · rw [hf hm]
    refine iff_of_false ?_ (by omega)
    cases signBit x <;> exact Bool.false_ne_true

theorem le_iff (a b : Float) :
    a ≤ b ↔ (a.toModel.unpack.compare b.toModel.unpack).any (·.isLE) = true :=
  decide_eq_true_iff

theorem lt_iff (a b : Float) :
    a < b ↔ (a.toModel.unpack.compare b.toModel.unpack == some .lt) = true :=
  decide_eq_true_iff

section Bounds

variable {c : Float} {m : Nat} {q : Int} {h : 0 < m}
  (hc : c.toModel.unpack = .finite .positive m q h) (hcanonical : Canonical m q)
  (hnan : x.isNaN = false) (hinf : x.isInf = false) (hx : absValue x ≠ 0)
include hc hcanonical hnan hinf hx

theorem abs_lt_iff : x.abs < c ↔ absValue x < (m : ℚ) * 2 ^ q := by
  have hm : 0 < (Decimal.binaryParts x).1 :=
    Nat.pos_of_ne_zero fun h => hx ((absValue_eq_zero_iff x).mpr h)
  have hvalue := (unpack_eq hnan hinf).1.value_lt_iff hcanonical
  rw [lt_iff, hc, unpack_abs hnan hinf hm]
  unfold absValue
  rw [hvalue, beq_iff_eq]
  show some ((compare (Decimal.binaryParts x).2 q).then (compare (Decimal.binaryParts x).1 m)) =
    some .lt ↔ _
  rw [Option.some_inj, Ordering.then_eq_lt, compare_lt_iff_lt, compare_eq_iff_eq, compare_lt_iff_lt]

theorem le_abs_iff : c ≤ x.abs ↔ (m : ℚ) * 2 ^ q ≤ absValue x := by
  have hm : 0 < (Decimal.binaryParts x).1 :=
    Nat.pos_of_ne_zero fun h => hx ((absValue_eq_zero_iff x).mpr h)
  have hvalue := (unpack_eq hnan hinf).1.value_lt_iff hcanonical
  rw [le_iff, hc, unpack_abs hnan hinf hm, ← not_lt]
  unfold absValue
  rw [hvalue]
  show ((compare q (Decimal.binaryParts x).2).then (compare m (Decimal.binaryParts x).1)).isLE =
    true ↔ _
  rw [Ordering.isLE_then_iff_or, compare_lt_iff_lt, compare_eq_iff_eq, Nat.isLE_compare]
  omega

end Bounds

/-- There is no number between a thousandth and the one that the literal denotes. -/
theorem thousandth_le_iff {m : Nat} {q : Int} (h : Canonical m q) :
    ((4611686018427388 : Nat) : ℚ) * 2 ^ (-62 : Int) ≤ m * 2 ^ q ↔
      1 / 1000 ≤ (m : ℚ) * 2 ^ q := by
  have hat : Canonical 4611686018427388 (-62) := by constructor <;> decide
  have hbefore : Canonical 4611686018427387 (-62) := by constructor <;> decide
  have habove : (1 / 1000 : ℚ) ≤ (4611686018427388 : Nat) * 2 ^ (-62 : Int) := by norm_num
  have hbelow : ((4611686018427387 : Nat) : ℚ) * 2 ^ (-62 : Int) < 1 / 1000 := by norm_num
  refine ⟨habove.trans, fun hle => ?_⟩
  by_contra hlt
  refine absurd hle (not_le.mpr (lt_of_le_of_lt ?_ hbelow))
  rcases (h.value_lt_iff hat).mp (not_le.mp hlt) with hq | ⟨rfl, hm⟩
  · exact (h.value_lt hbefore hq).le
  · have hm' : (m : ℚ) ≤ (4611686018427387 : Nat) := by exact_mod_cast Nat.le_of_lt_succ hm
    exact mul_le_mul_of_nonneg_right hm' (two_zpow_pos _).le

/-- Plain numbers by their exact values. -/
theorem isPlain_iff (hnan : x.isNaN = false) (hinf : x.isInf = false) :
    isPlain x ↔ absValue x = 0 ∨ 1 / 1000 ≤ absValue x ∧ absValue x < 10000000 := by
  -- The two bounds as floats. The upper one is exact, the lower one is off by less than any float.
  have hthousandth : (0.001 : Float).toModel.unpack =
      .finite .positive 4611686018427388 (-62) (by decide) :=
    unpack_of_parts (by decide +kernel) (by decide +kernel) (by decide +kernel)
      (by decide +kernel) _
  have hmillions : (10000000 : Float).toModel.unpack =
      .finite .positive 5368709120000000 (-29) (by decide) :=
    unpack_of_parts (by decide +kernel) (by decide +kernel) (by decide +kernel)
      (by decide +kernel) _
  have htenMillion : ((5368709120000000 : Nat) : ℚ) * 2 ^ (-29 : Int) = 10000000 := by norm_num
  unfold isPlain
  rw [Bool.or_eq_true, beq_zero_iff hnan hinf]
  refine or_congr_right' fun hx => ?_
  rw [Bool.and_eq_true, decide_eq_true_iff, decide_eq_true_iff,
    le_abs_iff hthousandth (by constructor <;> decide) hnan hinf hx,
    abs_lt_iff hmillions (by constructor <;> decide) hnan hinf hx, htenMillion]
  exact and_congr_left' (thousandth_le_iff (unpack_eq hnan hinf).1)

end LoxLang.Number
