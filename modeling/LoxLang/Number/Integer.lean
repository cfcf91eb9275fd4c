/-!
# Integers written by users

The integers that the command line accepts: decimal digits of any script, with a sign, with single
underscores between digits, and with white space around the whole.
-/

namespace LoxLang.Number

/-- The zeros of the scripts of Unicode 14 that have decimal digits. The digits from one to nine
follow each. -/
def scriptZeros : List Nat :=
  [0x30, 0x660, 0x6f0, 0x7c0, 0x966, 0x9e6, 0xa66, 0xae6, 0xb66, 0xbe6, 0xc66, 0xce6, 0xd66, 0xde6,
    0xe50, 0xed0, 0xf20, 0x1040, 0x1090, 0x17e0, 0x1810, 0x1946, 0x19d0, 0x1a80, 0x1a90, 0x1b50,
    0x1bb0, 0x1c40, 0x1c50, 0xa620, 0xa8d0, 0xa900, 0xa9d0, 0xa9f0, 0xaa50, 0xabf0, 0xff10, 0x104a0,
    0x10d30, 0x11066, 0x110f0, 0x11136, 0x111d0, 0x112f0, 0x11450, 0x114d0, 0x11650, 0x116c0,
    0x11730, 0x118e0, 0x11950, 0x11c50, 0x11d50, 0x11da0, 0x16a60, 0x16ac0, 0x16b50, 0x1d7ce,
    0x1d7d8, 0x1d7e2, 0x1d7ec, 0x1d7f6, 0x1e140, 0x1e2f0, 0x1e950, 0x1fbf0]

/-- The value of a decimal digit of any script. -/
def digitOfScript? (c : Char) : Option Nat :=
  (scriptZeros.find? fun first => first ≤ c.toNat && c.toNat < first + 10).map (c.toNat - ·)

/-- White space that may stand around an integer. -/
def isPadding (c : Char) : Bool :=
  let n := c.toNat
  (0x9 ≤ n && n ≤ 0xd) || n = 0x20 || n = 0x85 || n = 0xa0 || n = 0x1680 ||
    (0x2000 ≤ n && n ≤ 0x200a) || n = 0x2028 || n = 0x2029 || n = 0x202f || n = 0x205f ||
    n = 0x3000

/-- The digits of a text of digits with single underscores between them. -/
def digitGroups? : List Char → Option (List Nat)
  | [] => none
  | [c] => return [← digitOfScript? c]
  | c :: '_' :: rest => return (← digitOfScript? c) :: (← digitGroups? rest)
  | c :: rest => return (← digitOfScript? c) :: (← digitGroups? rest)

/-- The most digits that an integer may have. -/
def maxIntegerDigits : Nat := 4300

/-- The number that digits with underscores between them denote. -/
def readNatural? (cs : List Char) : Option Nat := do
  let ds ← digitGroups? cs
  if maxIntegerDigits < ds.length then none
  return ds.foldl (fun n d => 10 * n + d) 0

/-- The number that a user means, if the text is an integer. -/
def readInteger? (s : String) : Option Int :=
  match ((s.toList.dropWhile isPadding).reverse.dropWhile isPadding).reverse with
  | '-' :: cs => (readNatural? cs).map fun n => -(n : Int)
  | '+' :: cs => (readNatural? cs).map fun n => (n : Int)
  | cs => (readNatural? cs).map fun n => (n : Int)

end LoxLang.Number
