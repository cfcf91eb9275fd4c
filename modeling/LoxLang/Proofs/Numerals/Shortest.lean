import LoxLang.Proofs.Numerals

/-!
# The shortest numeral of a number

`Decimal.shortest` walks grids of multiples of powers of ten, from coarse to fine, up to the first
grid with a point in the interval of reals that round to the number. The walk begins above the
number (`lt_firstPlace`) and comes to a grid that is fine enough before the fuel runs out
(`lastPlace_le`). What it finds lies in the interval, so it is nearly the number, and it does not
end in a zero, since it would lie on a coarser grid otherwise (`coarsest_around`).
-/

namespace LoxLang.Decimal

/-- A power with an integer exponent as a quotient of natural numbers. -/
theorem zpow_eq_div {a : ℚ} (p : Int) :
    a ^ p = a ^ p.toNat / a ^ (-p).toNat := by
  rcases Int.le_total 0 p with hp | hp
  · obtain ⟨n, rfl⟩ := Int.eq_ofNat_of_zero_le hp
    simp
  · obtain ⟨n, hn⟩ := Int.eq_ofNat_of_zero_le (Int.neg_nonneg.mpr hp)
    obtain rfl : p = -(n : Int) := by omega
    simp

theorem ten_zpow_eq_div (p : Int) :
    (10 : ℚ) ^ p = ((10 ^ p.toNat : Nat) : ℚ) / ((10 ^ (-p).toNat : Nat) : ℚ) := by
  rw [zpow_eq_div]
  push_cast
  rfl

namespace Interval

/-- A quarter of a unit. -/
def quarter (i : Interval) : ℚ := i.scale / i.divisor

/-- A real number lies in an interval. -/
def Has (i : Interval) (v : ℚ) : Prop :=
  if i.closed then i.low * i.quarter ≤ v ∧ v ≤ i.high * i.quarter
  else i.low * i.quarter < v ∧ v < i.high * i.quarter

/-- An interval whose ends lie around its centre. -/
structure Proper (i : Interval) : Prop where
  scale : 0 < i.scale
  divisor : 0 < i.divisor
  low : i.low < i.centre
  high : i.centre < i.high

variable {i : Interval}

theorem Has.bounds {v : ℚ} (h : i.Has v) : i.low * i.quarter ≤ v ∧ v ≤ i.high * i.quarter := by
  unfold Has at h
  split at h
  · exact h
  · exact ⟨h.1.le, h.2.le⟩

theorem Has.convex {u v w : ℚ} (hu : i.Has u) (hw : i.Has w) (huv : u ≤ v) (hvw : v ≤ w) :
    i.Has v := by
  unfold Has at hu hw ⊢
  split at hu
  · rw [if_pos ‹_›] at hw ⊢
    exact ⟨hu.1.trans huv, hvw.trans hw.2⟩
  · rw [if_neg ‹_›] at hw ⊢
    exact ⟨hu.1.trans_le huv, hvw.trans_lt hw.2⟩

/-- The last point of a grid up to the centre, as its coefficient. -/
def below (i : Interval) (place : Int) : Nat :=
  i.centre * i.scale * 10 ^ (-place).toNat / (10 ^ place.toNat * i.divisor)

/-- What is nearest is one of the two points around the centre that the interval contains, and
nothing is only if it contains neither. -/
theorem nearest?_cases (i : Interval) (place : Int) :
    (∃ c, i.nearest? place = some c ∧
      i.contains c (Nat.pow 10 place.toNat) (Nat.pow 10 (-place).toNat) = true) ∨
    i.nearest? place = none ∧
      i.contains (i.below place) (Nat.pow 10 place.toNat) (Nat.pow 10 (-place).toNat) = false ∧
      i.contains (i.below place + 1) (Nat.pow 10 place.toNat) (Nat.pow 10 (-place).toNat) =
        false := by
  unfold nearest?
  dsimp only
  split
  · next hbelow _ => exact .inl ⟨_, rfl, hbelow⟩
  · next _ habove => exact .inl ⟨_, rfl, habove⟩
  · next hbelow habove => exact .inr ⟨rfl, hbelow, habove⟩
  · next hbelow habove =>
    -- Both are in the interval; whichever is taken, it is one of them.
    split
    · exact .inl ⟨_, rfl, hbelow⟩
    · split
      · exact .inl ⟨_, rfl, habove⟩
      · split
        · exact .inl ⟨_, rfl, hbelow⟩
        · exact .inl ⟨_, rfl, habove⟩

namespace Proper

variable (h : i.Proper)
include h

theorem quarter_pos : 0 < i.quarter :=
  div_pos (by exact_mod_cast h.scale) (by exact_mod_cast h.divisor)

omit h in
/-- What lies strictly between the ends lies in the interval. -/
theorem has_of_between {v : ℚ} (hlow : i.low * i.quarter < v) (hhigh : v < i.high * i.quarter) :
    i.Has v := by
  unfold Has
  split
  · exact ⟨hlow.le, hhigh.le⟩
  · exact ⟨hlow, hhigh⟩

theorem has_centre : i.Has (i.centre * i.quarter) :=
  has_of_between
    (mul_lt_mul_of_pos_right (by exact_mod_cast h.low) h.quarter_pos)
    (mul_lt_mul_of_pos_right (by exact_mod_cast h.high) h.quarter_pos)

/-- Ends and points are compared over their common denominator. -/
theorem le_point_iff (a c : Nat) (place : Int) :
    a * i.scale * 10 ^ (-place).toNat ≤ c * 10 ^ place.toNat * i.divisor ↔
      (a : ℚ) * i.quarter ≤ c * (10 : ℚ) ^ place := by
  have hdivisor : (0 : ℚ) < i.divisor := by exact_mod_cast h.divisor
  have hper : (0 : ℚ) < ((10 ^ (-place).toNat : Nat) : ℚ) := by positivity
  rw [ten_zpow_eq_div, quarter, ← mul_div_assoc, ← mul_div_assoc, div_le_div_iff₀ hdivisor hper]
  norm_cast

theorem point_le_iff (a c : Nat) (place : Int) :
    c * 10 ^ place.toNat * i.divisor ≤ a * i.scale * 10 ^ (-place).toNat ↔
      c * (10 : ℚ) ^ place ≤ (a : ℚ) * i.quarter := by
  have hdivisor : (0 : ℚ) < i.divisor := by exact_mod_cast h.divisor
  have hper : (0 : ℚ) < ((10 ^ (-place).toNat : Nat) : ℚ) := by positivity
  rw [ten_zpow_eq_div, quarter, ← mul_div_assoc, ← mul_div_assoc, div_le_div_iff₀ hper hdivisor]
  norm_cast

theorem contains_iff (c : Nat) (place : Int) :
    i.contains c (Nat.pow 10 place.toNat) (Nat.pow 10 (-place).toNat) = true ↔
      i.Has (c * (10 : ℚ) ^ place) := by
  -- A closed interval compares with the bounds themselves, an open one by what is not beyond them.
  have hle := h.le_point_iff i.low c place
  have hge := h.point_le_iff i.high c place
  have hlt := h.point_le_iff i.low c place
  have hgt := h.le_point_iff i.high c place
  unfold contains Has
  dsimp only
  show (if i.closed = true then (decide (i.low * i.scale * 10 ^ (-place).toNat ≤ _) && _) else _) =
    true ↔ _
  split
  · rw [Bool.and_eq_true, decide_eq_true_iff, decide_eq_true_iff]
    exact and_congr hle hge
  · rw [Bool.and_eq_true, decide_eq_true_iff, decide_eq_true_iff, ← not_le, ← not_le, ← not_le,
      ← not_le]
    exact and_congr (not_congr hlt) (not_congr hgt)

/-- What is nearest lies in the interval. -/
theorem has_of_nearest? {place : Int} {c : Nat} (hc : i.nearest? place = some c) :
    i.Has (c * 10 ^ place) := by
  rcases i.nearest?_cases place with ⟨c', hc', hcontains⟩ | ⟨hnone, -⟩
  · rw [hc] at hc'
    obtain rfl := Option.some.inj hc'
    exact (h.contains_iff c place).mp hcontains
  · rw [hc] at hnone
    cases hnone

theorem not_has_around {place : Int} (hnone : i.nearest? place = none) :
    ¬ i.Has (i.below place * 10 ^ place) ∧ ¬ i.Has ((i.below place + 1 : Nat) * 10 ^ place) := by
  rcases i.nearest?_cases place with ⟨c, hc, -⟩ | ⟨-, hbelow, habove⟩
  · rw [hnone] at hc
    cases hc
  · rw [← h.contains_iff, ← h.contains_iff]
    exact ⟨ne_true_of_eq_false hbelow, ne_true_of_eq_false habove⟩

theorem below_le (place : Int) : (i.below place : ℚ) * 10 ^ place ≤ i.centre * i.quarter := by
  rw [← h.point_le_iff, mul_assoc]
  exact Nat.div_mul_le_self _ _

theorem lt_above (place : Int) :
    i.centre * i.quarter < ((i.below place + 1 : Nat) : ℚ) * 10 ^ place := by
  have hstep : 0 < 10 ^ place.toNat * i.divisor := Nat.mul_pos (Nat.pow_pos (by decide)) h.divisor
  have hdiv := Nat.lt_div_mul_add (a := i.centre * i.scale * 10 ^ (-place).toNat) hstep
  rw [← Nat.succ_mul] at hdiv
  rw [← not_le, ← h.point_le_iff, not_le, mul_assoc _ _ i.divisor]
  exact hdiv

/-- If nothing is nearest, no point of the grid lies in the interval. -/
theorem not_has_of_nearest? {place : Int} (hnone : i.nearest? place = none) (c : Nat) :
    ¬ i.Has (c * 10 ^ place) := by
  obtain ⟨hnot, hnot'⟩ := h.not_has_around hnone
  have hpos := (ten_zpow_pos place).le
  intro hc
  -- The interval has its centre, so it would have what lies between the point and the centre.
  rcases Nat.lt_or_ge (i.below place) c with hlt | hge
  · have hcast : ((i.below place + 1 : Nat) : ℚ) ≤ c := by exact_mod_cast hlt
    exact hnot' (h.has_centre.convex hc (h.lt_above place).le
      (mul_le_mul_of_nonneg_right hcast hpos))
  · have hcast : (c : ℚ) ≤ i.below place := by exact_mod_cast hge
    exact hnot (hc.convex h.has_centre (mul_le_mul_of_nonneg_right hcast hpos) (h.below_le place))

/-- On a grid that is finer than a quarter of a unit something is nearest. -/
theorem nearest?_ne_none {place : Int} (hfine : (10 : ℚ) ^ place ≤ i.quarter) :
    i.nearest? place ≠ none := by
  have hbelow := h.below_le place
  have habove := h.lt_above place
  intro hnone
  refine (h.not_has_around hnone).1 (has_of_between ?_ ?_)
  · have hlow : (i.low : ℚ) + 1 ≤ i.centre := by exact_mod_cast h.low
    have hquarter := h.quarter_pos
    push_cast at habove
    nlinarith
  · exact hbelow.trans_lt (mul_lt_mul_of_pos_right (by exact_mod_cast h.high) h.quarter_pos)

end Proper

end Interval

/-- The walk ends on the first grid with a point in the interval. -/
theorem coarsest_spec (i : Interval) {fuel : Nat} {place last : Int} (hle : last ≤ place)
    (hlt : place < last + fuel) (hlast : i.nearest? last ≠ none) :
    ∃ c place', coarsest i fuel place = ⟨c, place'⟩ ∧ i.nearest? place' = some c ∧
      (place' = place ∨ i.nearest? (place' + 1) = none) := by
  induction fuel generalizing place with
  | zero => omega
  | succ fuel ih =>
    unfold coarsest
    cases hnearest : i.nearest? place with
    | some c => exact ⟨c, place, rfl, hnearest, .inl rfl⟩
    -- Here is no point, so the search goes on at the next finer place.
    | none =>
      have hne : last ≠ place := fun h => hlast (h ▸ hnearest)
      obtain ⟨c, place', hcoarsest, hc, hfirst⟩ := @ih (place - 1) (by omega) (by omega)
      refine ⟨c, place', hcoarsest, hc, .inr (hfirst.elim (fun h => ?_) id)⟩
      rw [h, Int.sub_add_cancel]
      exact hnearest

/-!
## The interval of a number

The reals that round to a number reach to the middle between it and its neighbours. In quarters of a
unit, the ends and the centre are natural numbers.
-/

theorem quarter_around (m : Nat) (q : Int) : (Interval.around m q).quarter = 2 ^ (q - 2) := by
  have hneg : (2 - q).toNat = (-(q - 2)).toNat := by omega
  unfold Interval.quarter Interval.around
  rw [zpow_eq_div, ← hneg]
  simp [Nat.shiftLeft_eq]

theorem proper_around {m : Nat} (hm : m ≠ 0) (q : Int) : (Interval.around m q).Proper := by
  unfold Interval.around
  constructor
  · show 0 < 1 <<< _
    rw [Nat.shiftLeft_eq]
    positivity
  · show 0 < 1 <<< _
    rw [Nat.shiftLeft_eq]
    positivity
  · dsimp only
    split <;> omega
  · dsimp only
    omega

/-- The centre of the interval is the number itself. -/
theorem centre_around (m : Nat) (q : Int) :
    ((Interval.around m q).centre : ℚ) * (Interval.around m q).quarter = m * 2 ^ q := by
  have hcentre : (Interval.around m q).centre = 4 * m := rfl
  rw [quarter_around, hcentre, zpow_sub₀ (by norm_num)]
  push_cast
  ring

/-- What rounds to a number is neither more than twice nor less than half as large. -/
theorem near_of_has {m : Nat} (hm : m ≠ 0) {q : Int} {v : ℚ} (h : (Interval.around m q).Has v) :
    (m : ℚ) * 2 ^ q ≤ 2 * v ∧ v ≤ 2 * (m * 2 ^ q) := by
  obtain ⟨hlow, hhigh⟩ := h.bounds
  have hquarter := (proper_around hm q).quarter_pos
  have hcentre := centre_around m q
  -- Around a number of at least one unit, the interval stays within a factor of two.
  have hlow' : (Interval.around m q).centre ≤ 2 * (Interval.around m q).low := by
    unfold Interval.around
    dsimp only
    split <;> omega
  have hhigh' : (Interval.around m q).high ≤ 2 * (Interval.around m q).centre := by
    unfold Interval.around
    dsimp only
    omega
  have hlowq : ((Interval.around m q).centre : ℚ) ≤ 2 * (Interval.around m q).low := by
    exact_mod_cast hlow'
  have hhighq : ((Interval.around m q).high : ℚ) ≤ 2 * (Interval.around m q).centre := by
    exact_mod_cast hhigh'
  rw [← hcentre]
  constructor <;> nlinarith

/-!
## Where the walk begins and ends

Exponents to base ten are found from those to base two by a rational number that is a little larger
than the logarithm. All exponents of finite numbers are small enough for the error not to count.
-/

/-- If `t / s` is hardly more than the decimal logarithm of two, then it serves as the logarithm. -/
theorem two_zpow_le_of {s t n : Nat} (hs : s ≠ 0) (hlarge : 2 ^ s ≤ 10 ^ t)
    (hsmall : 10 ^ t ≤ 10 * 2 ^ s) {k e : Int} (hk : -n ≤ k) (h : t * k + n ≤ s * e) :
    (2 : ℚ) ^ k ≤ 10 ^ e := by
  have hlarge' : (2 : ℚ) ^ s ≤ 10 ^ t := by exact_mod_cast hlarge
  have hsmall' : (10 : ℚ) ^ t ≤ 10 * 2 ^ s := by exact_mod_cast hsmall
  have hten : (1 : ℚ) ≤ 10 := by norm_num
  -- Both sides are taken to the same power.
  refine (pow_le_pow_iff_left₀ (zpow_nonneg (by norm_num) k) (zpow_nonneg (by norm_num) e) hs).mp ?_
  have hleft : ((2 : ℚ) ^ k) ^ s = ((2 : ℚ) ^ s) ^ k := by
    rw [← zpow_natCast, ← zpow_natCast, ← zpow_mul, ← zpow_mul, mul_comm]
  have hright : ((10 : ℚ) ^ e) ^ s = 10 ^ (s * e : Int) := by
    rw [← zpow_natCast, ← zpow_mul, mul_comm]
  rw [hleft, hright]
  refine le_trans ?_ (zpow_le_zpow_right₀ hten h)
  rcases Int.le_total 0 k with hpos | hneg
  · obtain ⟨a, rfl⟩ := Int.eq_ofNat_of_zero_le hpos
    calc ((2 : ℚ) ^ s) ^ (a : Int) ≤ (10 ^ t) ^ (a : Int) := by
          rw [zpow_natCast, zpow_natCast]
          exact pow_le_pow_left₀ (by positivity) hlarge' a
      _ = 10 ^ (t * a : Int) := by rw [← zpow_natCast, ← zpow_mul]
      _ ≤ 10 ^ (t * a + n : Int) := zpow_le_zpow_right₀ hten (by omega)
  · obtain ⟨a, ha⟩ := Int.eq_ofNat_of_zero_le (Int.neg_nonneg.mpr hneg)
    obtain rfl : k = -(a : Int) := by omega
    have hpow : ((10 : ℚ) ^ t) ^ a ≤ 10 ^ n * (2 ^ s) ^ a := by
      calc ((10 : ℚ) ^ t) ^ a ≤ (10 * 2 ^ s) ^ a := pow_le_pow_left₀ (by positivity) hsmall' a
        _ = 10 ^ a * (2 ^ s) ^ a := mul_pow _ _ _
        _ ≤ 10 ^ n * (2 ^ s) ^ a :=
            mul_le_mul_of_nonneg_right (pow_le_pow_right₀ hten (by omega)) (by positivity)
    rw [zpow_neg, zpow_natCast, zpow_add₀ (by norm_num), mul_neg, zpow_neg, zpow_natCast,
      zpow_mul, zpow_natCast, zpow_natCast, inv_mul_eq_div, inv_eq_one_div,
      div_le_div_iff₀ (by positivity) (by positivity), one_mul]
    exact hpow

theorem two_zpow_le_ten_zpow {k e : Int} (hk : -2000 ≤ k) (h : 30103 * k + 2000 ≤ 100000 * e) :
    (2 : ℚ) ^ k ≤ 10 ^ e :=
  two_zpow_le_of (s := 100000) (t := 30103) (n := 2000) (by decide) (by decide +kernel)
    (by decide +kernel) hk h

theorem ten_zpow_le_two_zpow {k e : Int} (hk : k ≤ 2000) (h : 100000 * e + 2000 ≤ 30103 * k) :
    (10 : ℚ) ^ e ≤ 2 ^ k := by
  have hinv := two_zpow_le_ten_zpow (k := -k) (e := -e) (by omega) (by omega)
  rw [zpow_neg, zpow_neg] at hinv
  exact (inv_le_inv₀ (zpow_pos (by norm_num) k) (zpow_pos (by norm_num) e)).mp hinv

theorem log2_lt {m : Nat} (hm : m < 2 ^ 53) : m.log2 < 53 := by
  rcases Nat.eq_zero_or_pos m with rfl | hpos
  · decide
  · exact (Nat.log2_lt (by omega)).mpr hm

variable {m : Nat} {q : Int} (hm : m < 2 ^ 53) (hge : -1074 ≤ q) (hle : q ≤ 971)
include hm hge hle

/-- The first place lies above the number. -/
theorem lt_firstPlace : (m : ℚ) * 2 ^ q < 10 ^ firstPlace m q := by
  have hlog := log2_lt hm
  have hm' : (m : ℚ) < 2 ^ (m.log2 + 1) := by exact_mod_cast Nat.lt_log2_self
  calc (m : ℚ) * 2 ^ q < 2 ^ (m.log2 + 1) * 2 ^ q :=
        mul_lt_mul_of_pos_right hm' (zpow_pos (by norm_num) q)
    _ = 2 ^ (q + m.log2 + 1) := by
        rw [← zpow_natCast, ← zpow_add₀ (by norm_num)]
        congr 1
        push_cast
        ring
    _ ≤ 10 ^ firstPlace m q := two_zpow_le_ten_zpow (by omega) (by unfold firstPlace; omega)

/-- Thirty places further a grid is finer than a quarter of a unit. -/
theorem lastPlace_le : (10 : ℚ) ^ (firstPlace m q - 30) ≤ 2 ^ (q - 2) := by
  have hlog := log2_lt hm
  exact ten_zpow_le_two_zpow (by omega) (by unfold firstPlace; omega)

/-!
## The shortest numeral

At the first place, which lies above the number, no point but one can be near it, so what is found
there does not end in a zero. A numeral that is found later and ends in a zero would be a point of
the grid before.
-/

/-- The shortest numeral rounds to the number, and does not end in a zero. -/
theorem coarsest_around (hne : m ≠ 0) :
    let d := coarsest (Interval.around m q) 400 (firstPlace m q)
    (Interval.around m q).Has d.value ∧ ¬ 10 ∣ d.coefficient := by
  have hproper := proper_around hne q
  -- Thirty places further down the grid is fine enough to meet the interval.
  have hlast : (Interval.around m q).nearest? (firstPlace m q - 30) ≠ none := by
    refine hproper.nearest?_ne_none ?_
    rw [quarter_around]
    exact lastPlace_le hm hge hle
  have hbegin : firstPlace m q - 30 ≤ firstPlace m q := by omega
  have hend : firstPlace m q < firstPlace m q - 30 + (400 : Nat) := by omega
  obtain ⟨c, place, hd, hc, hfirst⟩ := coarsest_spec (Interval.around m q) hbegin hend hlast
  have hhas := hproper.has_of_nearest? hc
  dsimp only
  rw [hd]
  refine ⟨hhas, ?_⟩
  rintro ⟨b, hb⟩
  dsimp only at hb
  subst hb
  rcases hfirst with rfl | hnone
  · -- At the first place only the point one is near enough.
    obtain ⟨hnear, hnear'⟩ := near_of_has hne hhas
    have habove := lt_firstPlace hm hge hle
    have hpos := ten_zpow_pos (firstPlace m q)
    have hcast : ((10 * b : Nat) : ℚ) < 2 := by
      refine lt_of_mul_lt_mul_right (lt_of_le_of_lt hnear' ?_) hpos.le
      exact mul_lt_mul_of_pos_left habove (by norm_num)
    have hb : b = 0 := by
      have hlt : 10 * b < 2 := by exact_mod_cast hcast
      omega
    have hnonneg : 0 < (m : ℚ) * 2 ^ q :=
      mul_pos (by exact_mod_cast Nat.pos_of_ne_zero hne) (zpow_pos (by norm_num) q)
    rw [hb] at hnear
    norm_num at hnear
    linarith
  -- A zero at the end would put the value on the coarser grid, which has been passed over.
  · refine hproper.not_has_of_nearest? hnone b ?_
    have hshift : ((10 * b : Nat) : ℚ) * 10 ^ place = b * 10 ^ (place + 1) := by
      rw [zpow_add₀ (by norm_num)]
      push_cast
      ring
    rwa [← hshift]

end LoxLang.Decimal
