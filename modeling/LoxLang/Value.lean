import LoxLang.Literal

/-!
# Values

What expressions evaluate to. Functions, classes and instances are shared and have an identity,
so a value holds only their position in the store.
-/

namespace LoxLang

/-- The position of a function in the store. -/
abbrev FunctionId := Nat

/-- The position of a class in the store. -/
abbrev ClassId := Nat

/-- The position of an instance in the store. -/
abbrev InstanceId := Nat

/-- Functions that every program finds among its globals. -/
inductive Native where
  /-- The time in seconds. -/
  | clock
deriving DecidableEq, Repr

namespace Native

/-- All native functions. -/
def all : List Native := [clock]

/-- The global name of a native function. -/
def name : Native → String
  | clock => "clock"

/-- The number of arguments a native function takes. -/
def arity : Native → Nat
  | clock => 0

end Native

/-- A value. -/
inductive Value where
  | nil
  | bool (b : Bool)
  | number (x : Float)
  | string (s : String)
  | native (n : Native)
  | function (id : FunctionId)
  | «class» (id : ClassId)
  | object (id : InstanceId)
deriving DecidableEq, Repr

namespace Value

/-- The value of a literal. -/
def ofLiteral : Literal → Value
  | .nil => nil
  | .bool b => bool b
  | .number x => number x
  | .string s => string s

/-- Whether a value counts as true: all do but `nil` and `false`. -/
def isTruthy : Value → Bool
  | nil => false
  | bool b => b
  | _ => true

/-- Whether a value is a number. -/
def isNumber : Value → Bool
  | number _ => true
  | _ => false

/-- Equality as programs see it. Values of different kinds are different; numbers compare as
numbers, so a NaN differs from itself and the two zeros are equal; functions, classes and instances
are equal only to themselves. -/
def equal : Value → Value → Bool
  | nil, nil => true
  | bool a, bool b => a == b
  | number x, number y => x == y
  | string s, string t => s == t
  | native m, native n => m == n
  | function i, function j => i == j
  | «class» i, «class» j => i == j
  | object i, object j => i == j
  | _, _ => false

end Value

end LoxLang
