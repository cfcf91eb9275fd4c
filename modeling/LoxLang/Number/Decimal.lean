/-!
# Decimal numerals of binary floating-point numbers

A finite `Float` is a natural number times a power of two. `Decimal.shortest` finds the decimal
numeral with the fewest digits that reads back as the same number, in exact arithmetic: it walks
the grids of multiples of a power of ten from coarse to fine and stops at the first grid with a
point inside the interval of reals that round to the number.
-/

namespace LoxLang

/-- A nonnegative decimal numeral: `coefficient · 10 ^ exponent`. -/
structure Decimal where
  coefficient : Nat
  exponent : Int
deriving DecidableEq, Repr

namespace Decimal

/-- The reals that round to a number: from `low` to `high` quarters of a unit, the number itself
lying at `centre` quarters, where a quarter is `scale / divisor`. The ends belong to the interval
when `closed` is set. -/
structure Interval where
  low : Nat
  centre : Nat
  high : Nat
  closed : Bool
  scale : Nat
  divisor : Nat
deriving DecidableEq, Repr

/-- The natural number `m` and the exponent `q` with `|x| = m · 2 ^ q`, for a finite `x`. -/
def binaryParts (x : Float) : Nat × Int :=
  let bits := x.toBits.toNat
  let fraction : Nat := bits % (1 <<< 52)
  let biased : Nat := (bits >>> 52) % 2048
  if biased = 0 then (fraction, -1074) else ((1 <<< 52) + fraction, (biased : Int) - 1075)

/-- The rounding interval of `m · 2 ^ q`. Below a power of two the next smaller number is only
half a unit away, unless it is one of the smallest numbers, which are all one unit apart. The ends
round to the neighbour with an even `m`. -/
def Interval.around (m : Nat) (q : Int) : Interval :=
  let narrow := m = 1 <<< 52 ∧ q ≠ -1074
  { low := if narrow then 4 * m - 1 else 4 * m - 2
    centre := 4 * m
    high := 4 * m + 2
    closed := m % 2 = 0
    scale := 1 <<< (q - 2).toNat
    divisor := 1 <<< (2 - q).toNat }

/-- Whether the point `c · unit / per` lies in the interval, for `0 < per`. -/
def Interval.contains (i : Interval) (c unit per : Nat) : Bool :=
  let point := c * unit * i.divisor
  let low := i.low * i.scale * per
  let high := i.high * i.scale * per
  if i.closed then low ≤ point && point ≤ high else low < point && point < high

/-- The multiple of `10 ^ place` nearest to the centre among the two around it that lie in the
interval, as its coefficient. Of two equally near ones the even one is taken. -/
def Interval.nearest? (i : Interval) (place : Int) : Option Nat :=
  let unit := Nat.pow 10 place.toNat
  let per := Nat.pow 10 (-place).toNat
  let centre := i.centre * i.scale * per
  let step := unit * i.divisor
  let below := centre / step
  let above := below + 1
  match i.contains below unit per, i.contains above unit per with
  | true, false => some below
  | false, true => some above
  | false, false => none
  | true, true =>
    let down := centre - below * step
    let up := above * step - centre
    if down < up then some below
    else if up < down then some above
    else if below % 2 = 0 then some below else some above

/-- The first grid, from `10 ^ place` downwards, that has a point in the interval. -/
def coarsest (i : Interval) : Nat → Int → Decimal
  | 0, place => ⟨0, place⟩
  | fuel + 1, place =>
    match i.nearest? place with
    | some c => ⟨c, place⟩
    | none => coarsest i fuel (place - 1)

/-- A place at which every multiple is larger than `m · 2 ^ q`, yet at most a few places too
coarse: `0.30103` exceeds the decimal logarithm of two. -/
def firstPlace (m : Nat) (q : Int) : Int :=
  (q + Nat.log2 m + 1) * 30103 / 100000 + 2

/-- The shortest decimal numeral that reads back as `|x|`, and of those the one nearest to it. The
sign, and what is not a finite number, are left to the caller. -/
def shortest (x : Float) : Decimal :=
  let (m, q) := binaryParts x
  if m = 0 then ⟨0, 0⟩
  else coarsest (Interval.around m q) 400 (firstPlace m q)

/-- The digits of the coefficient, most significant first. -/
def digits (d : Decimal) : List Char := Nat.toDigits 10 d.coefficient

/-- The exponent of the most significant digit. -/
def magnitude (d : Decimal) : Int := d.exponent + d.digits.length - 1

/-- The digits before and after the decimal point in positional notation. The whole part has at
least one digit; the fraction may be empty. -/
def positional (d : Decimal) : List Char × List Char :=
  match d.exponent with
  | .ofNat zeros => (d.digits ++ List.replicate zeros '0', [])
  | .negSucc n =>
    let places := n + 1
    if d.digits.length ≤ places then
      (['0'], List.replicate (places - d.digits.length) '0' ++ d.digits)
    else (d.digits.take (d.digits.length - places), d.digits.drop (d.digits.length - places))

end Decimal

end LoxLang
