import LoxLang.Number.Decimal

/-!
# Reading and writing numbers

Number literals are decimal numerals without exponent. Numbers are written in two formats, both
with the shortest digits that read back: the format that `print` shows, and the format that
debugging output shows.
-/

namespace LoxLang.Number

/-- The value of a string of decimal digits. -/
def ofDigits (ds : List Char) : Nat :=
  ds.foldl (fun n d => 10 * n + (d.toNat - '0'.toNat)) 0

/-- The number that a numeral `whole.fraction` denotes, correctly rounded. -/
def ofNumeral (whole fraction : List Char) : Float :=
  Float.ofScientific (ofDigits (whole ++ fraction)) true fraction.length

/-- The number that the text of a number literal denotes. -/
def read (text : String) : Float :=
  let cs := text.toList
  ofNumeral (cs.takeWhile (· ≠ '.')) ((cs.dropWhile (· ≠ '.')).drop 1)

/-- The sign bit of a number, set for `-0` too. -/
def isNegative (x : Float) : Bool := 1 <<< 63 ≤ x.toBits.toNat

/-- The text of a number's sign. -/
def sign (x : Float) : List Char := if isNegative x then ['-'] else []

/-- The first digit, a point, and the other digits or a zero. -/
def mantissa : List Char → List Char
  | [] => []
  | d :: ds => d :: '.' :: (if ds.isEmpty then ['0'] else ds)

/-- Whether `print` writes a finite number without an exponent: zero and the magnitudes from
a thousandth to below ten million. -/
def isPlain (x : Float) : Bool :=
  x == 0 || (0.001 ≤ x.abs && x.abs < 10000000)

/-- What `print` shows for the magnitude of a finite number. Whole numbers have no point. -/
def magnitudeText (x : Float) : List Char :=
  let d := Decimal.shortest x
  if isPlain x then
    let (whole, fraction) := d.positional
    if fraction.isEmpty then whole else whole ++ '.' :: fraction
  else mantissa d.digits ++ 'E' :: (toString d.magnitude).toList

/-- The text that `print` shows for a number. -/
def text (x : Float) : String :=
  if x.isNaN then "NaN"
  else if x.isInf then (if isNegative x then "-Infinity" else "Infinity")
  else String.ofList (sign x ++ magnitudeText x)

/-- An exponent with its sign and at least two digits. -/
def debugExponent (e : Int) : List Char :=
  let ds := Nat.toDigits 10 e.natAbs
  (if e < 0 then '-' else '+') :: (if ds.length < 2 then '0' :: ds else ds)

/-- What debugging output shows for the magnitude of a finite number: positional notation, with
at least one digit after the point, when the leading digit's exponent is from -4 to 15, and
otherwise the digits with an exponent. -/
def debugMagnitude (x : Float) : List Char :=
  let d := Decimal.shortest x
  if -4 ≤ d.magnitude ∧ d.magnitude < 16 then
    let (whole, fraction) := d.positional
    whole ++ '.' :: (if fraction.isEmpty then ['0'] else fraction)
  else
    let digits := match d.digits with
      | first :: second :: rest => first :: '.' :: second :: rest
      | ds => ds
    digits ++ 'e' :: debugExponent d.magnitude

/-- The text that debugging output shows for a number. -/
def debugText (x : Float) : String :=
  if x.isNaN then "nan"
  else if x.isInf then (if isNegative x then "-inf" else "inf")
  else String.ofList (sign x ++ debugMagnitude x)

end LoxLang.Number
