import LoxLang.Token

/-!
# Operators

The operators of expressions and the tokens they are written with.
-/

namespace LoxLang

/-- Operators with one operand. -/
inductive UnaryOperator where
  | not
  | negate
deriving DecidableEq, Repr

/-- Operators whose two operands are both evaluated. -/
inductive BinaryOperator where
  | notEqual | equal | greater | greaterEqual | less | lessEqual | subtract | add | divide
  | multiply
deriving DecidableEq, Repr

/-- Operators whose right operand is evaluated only if the left one does not decide. -/
inductive LogicalOperator where
  | and
  | or
deriving DecidableEq, Repr

/-- The token of a unary operator. -/
def UnaryOperator.token : UnaryOperator → TokenKind
  | not => .mark .bang
  | negate => .mark .minus

/-- The token of a binary operator. -/
def BinaryOperator.token : BinaryOperator → TokenKind
  | notEqual => .mark .bangEqual
  | equal => .mark .equalEqual
  | greater => .mark .greater
  | greaterEqual => .mark .greaterEqual
  | less => .mark .less
  | lessEqual => .mark .lessEqual
  | subtract => .mark .minus
  | add => .mark .plus
  | divide => .mark .slash
  | multiply => .mark .star

/-- The token of a logical operator. -/
def LogicalOperator.token : LogicalOperator → TokenKind
  | and => .keyword .and
  | or => .keyword .or

end LoxLang
