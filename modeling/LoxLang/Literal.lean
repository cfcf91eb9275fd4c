/-!
# Literals

The values that a program text can write down.
-/

namespace LoxLang

/-- The value of a literal expression. -/
inductive Literal where
  | nil
  | bool (value : Bool)
  | number (value : Float)
  | string (value : String)
deriving DecidableEq, Repr

end LoxLang
