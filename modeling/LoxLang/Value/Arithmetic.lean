import LoxLang.Operator
import LoxLang.RuntimeError
import LoxLang.Value

/-!
# Operators on values

What each operator does to values, and which operands it refuses.
-/

namespace LoxLang

/-- The number that a value is, if it is one. -/
def Value.requireNumber : Value → Except RuntimeError Float
  | .number x => .ok x
  | _ => .error .operandNotNumber

/-- The two numbers that a pair of values is, if both are numbers. -/
def Value.requireNumbers : Value → Value → Except RuntimeError (Float × Float)
  | .number x, .number y => .ok (x, y)
  | _, _ => .error .operandsNotNumbers

/-- Applies a unary operator. -/
def UnaryOperator.apply (op : UnaryOperator) (operand : Value) : Except RuntimeError Value :=
  match op with
  | .not => .ok (.bool (!operand.isTruthy))
  | .negate => do
    let x ← operand.requireNumber
    return .number (-x)

/-- Adds two numbers or joins two strings. -/
def Value.add : Value → Value → Except RuntimeError Value
  | .number x, .number y => .ok (.number (x + y))
  | .string s, .string t => .ok (.string (s ++ t))
  | _, _ => .error .operandsNotAddable

/-- Applies an operator on numbers. -/
def Value.onNumbers (f : Float → Float → Value) (left right : Value) :
    Except RuntimeError Value := do
  let (x, y) ← left.requireNumbers right
  return f x y

/-- Applies a binary operator. Arithmetic is that of IEEE 754, division by zero included. -/
def BinaryOperator.apply (op : BinaryOperator) (left right : Value) : Except RuntimeError Value :=
  match op with
  | .notEqual => .ok (.bool (!left.equal right))
  | .equal => .ok (.bool (left.equal right))
  | .greater => left.onNumbers (fun x y => .bool (x > y)) right
  | .greaterEqual => left.onNumbers (fun x y => .bool (x ≥ y)) right
  | .less => left.onNumbers (fun x y => .bool (x < y)) right
  | .lessEqual => left.onNumbers (fun x y => .bool (x ≤ y)) right
  | .subtract => left.onNumbers (fun x y => .number (x - y)) right
  | .add => left.add right
  | .divide => left.onNumbers (fun x y => .number (x / y)) right
  | .multiply => left.onNumbers (fun x y => .number (x * y)) right

/-- Whether a logical operator has its result already when its left operand has this value. -/
def LogicalOperator.decides (op : LogicalOperator) (left : Value) : Bool :=
  match op with
  | .and => !left.isTruthy
  | .or => left.isTruthy

end LoxLang
