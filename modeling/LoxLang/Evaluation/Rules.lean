import LoxLang.Tree
import LoxLang.Value.Arithmetic

/-!
# Rules of evaluation

What expressions and statements do, in terms of the steps that they are made of: which parts of a
tree are evaluated, in which order, and what becomes of their values. This is said once for all ways
to carry out the steps, which may belong to any kind of run.

The rules for the parts of a tree are given as `eval` and `exec`. They are the rules as they are one
level further in.

All rules are `inline`, and the two that recur are specialized to the endings they are used with. So
programs are run as if the rules were written out for their kind of run, and a loop needs no more
stack for another iteration.
-/

namespace LoxLang

variable {M : Type → Type} [Monad M]

/-!
## Expressions

Operands are evaluated from left to right. An operator that refuses its operands fails at its own
token.
-/

/-- The steps that expressions are made of, apart from calls. -/
structure ExprSteps (M : Type → Type) where
  fail : Location → RuntimeError → M Value
  /-- Fails if an operator refuses its operands. -/
  orFail : Location → Except RuntimeError Value → M Value
  readVariable : UseId → Name → M Value
  writeVariable : UseId → Name → Value → M Unit
  property : InstanceId → Name → M Value
  staticProperty : ClassId → Name → M Value
  setField : InstanceId → String → Value → M Unit
  /-- Makes a function of parameters and a body. -/
  lambda : List Name → List Stmt → M Value
  /-- Finds a method of the superclass, and binds it to the present instance. -/
  superMethod : UseId → Name → M Value

namespace ExprSteps

variable (steps : ExprSteps M) (eval : Expr → M Value)

/-- Evaluates a unary operation. -/
@[inline] def unary (op : UnaryOperator) (line : Nat) (operand : Expr) : M Value := do
  let v ← eval operand
  steps.orFail (.token ⟨op.token, line⟩) (op.apply v)

/-- Evaluates a binary operation, the left operand first. -/
@[inline] def binary (op : BinaryOperator) (line : Nat) (left right : Expr) : M Value := do
  let v ← eval left
  let w ← eval right
  steps.orFail (.token ⟨op.token, line⟩) (op.apply v w)

/-- Evaluates a logical operation. Its value is that of the operand that decided. -/
@[inline] def logical (op : LogicalOperator) (left right : Expr) : M Value := do
  let v ← eval left
  if op.decides v then return v else eval right

/-- Evaluates an assignment, whose value is the value assigned. -/
@[inline] def assign (id : UseId) (name : Name) (value : Expr) : M Value := do
  let v ← eval value
  steps.writeVariable id name v
  return v

/-- Evaluates the reading of a property. -/
@[inline] def getExpr (object : Expr) (name : Name) : M Value := do
  match ← eval object with
  | .object i => steps.property i name
  | .«class» c => steps.staticProperty c name
  | _ => steps.fail name.place .noProperties

/-- Evaluates the setting of a field. The object is looked at before the value is evaluated. -/
@[inline] def setExpr (object : Expr) (name : Name) (value : Expr) : M Value := do
  match ← eval object with
  | .object i =>
    let v ← eval value
    steps.setField i name.text v
    return v
  | _ => steps.fail name.place .noFields

/-- Evaluates expressions from left to right. -/
@[specialize] def evalAll (eval : Expr → M Value) : List Expr → M (List Value)
  | [] => return []
  | e :: rest => do
    let v ← eval e
    let vs ← evalAll eval rest
    return v :: vs

/-- Evaluates a call: callee, then arguments, then the call itself. -/
@[inline] def callExpr (eval : Expr → M Value) (call : Location → Value → List Value → M Value)
    (callee : Expr) (line : Nat) (arguments : List Expr) : M Value := do
  let v ← eval callee
  let vs ← evalAll eval arguments
  call (Mark.rightParen.place line) v vs

/-- Evaluates an expression, given what is done to call a value. -/
@[inline] def rule (call : Location → Value → List Value → M Value) : Expr → M Value
  | .literal value => return .ofLiteral value
  | .grouping e => eval e
  | .unary op line operand => steps.unary eval op line operand
  | .binary op line left right => steps.binary eval op line left right
  | .logical op _ left right => logical eval op left right
  | .«variable» use => steps.readVariable use.id use.name
  | .assign id name value => steps.assign eval id name value
  | .call callee line arguments => callExpr eval call callee line arguments
  | .get object name => steps.getExpr eval object name
  | .set object name value => steps.setExpr eval object name value
  | .lambda _ params body => steps.lambda params body
  | .this id line => steps.readVariable id ⟨"this", line⟩
  | .super id _ method => steps.superMethod id method

/-- The same steps in another kind of run. -/
@[inline] def lift {N : Type → Type} (f : {α : Type} → M α → N α) : ExprSteps N where
  fail place e := f (steps.fail place e)
  orFail place r := f (steps.orFail place r)
  readVariable id name := f (steps.readVariable id name)
  writeVariable id name v := f (steps.writeVariable id name v)
  property i name := f (steps.property i name)
  staticProperty c name := f (steps.staticProperty c name)
  setField i name v := f (steps.setField i name v)
  lambda params body := f (steps.lambda params body)
  superMethod id method := f (steps.superMethod id method)

end ExprSteps

/-!
## Statements

How statements end is left open, since a run may tell a return by what it gives or by how it stops.
All that the rules need is a way to go on behind a normal end.
-/

/-- How statements end: normally, so that the next one is executed, or by returning a value from the
function around them. -/
structure Endings (M : Type → Type) (C : Type) where
  normal : C
  /-- Returns a value. -/
  returning : Value → M C
  /-- Goes on behind something that ends normally. -/
  andThen : M C → M C → M C
  /-- Gives up a loop that has taken as many iterations as it may. -/
  endless : M C

namespace Endings

variable {C : Type} (endings : Endings M C) (eval : Expr → M Value) (exec : Stmt → M C)

/-- Executes something that always ends normally. -/
@[inline] def normally {α : Type} (body : M α) : M C := do
  let _ ← body
  return endings.normal

/-- Executes statements up to the first that returns. -/
@[specialize endings exec] def execAll : List Stmt → M C
  | [] => return endings.normal
  | s :: rest => endings.andThen (exec s) (execAll rest)

/-- Repeats a statement while a condition holds. -/
@[specialize endings eval exec] def loop (condition : Expr) (body : Stmt) : Nat → M C
  -- The bound stands in for loops that have no end.
  | 0 => endings.endless
  | iterations + 1 => do
    let v ← eval condition
    if v.isTruthy then endings.andThen (exec body) (loop condition body iterations)
    else return endings.normal

/-- Executes an if statement. -/
@[inline] def ifThen (condition : Expr) (consequence : Stmt) (alternative : Option Stmt) : M C := do
  let v ← eval condition
  if v.isTruthy then exec consequence
  else
    match alternative with
    | none => return endings.normal
    | some s => exec s

/-- Executes a return statement. -/
@[inline] def returnValue : Option Expr → M C
  | none => endings.returning .nil
  | some e => do endings.returning (← eval e)

end Endings

/-- The steps that statements are made of. -/
structure StmtSteps (M : Type → Type) (C : Type) extends Endings M C where
  print : Value → M Unit
  /-- Binds a name at the present place. -/
  define : String → Value → M Unit
  /-- Does something at a place of its own. -/
  inBlock : M C → M C
  function : FunctionDecl → M Unit
  classDecl : Name → Option VariableUse → List FunctionDecl → List FunctionDecl → M Unit

namespace StmtSteps

variable {C : Type} (steps : StmtSteps M C) (eval : Expr → M Value) (exec : Stmt → M C)

/-- Executes a variable declaration. Without an initializer the variable is `nil`. -/
@[inline] def var (name : Name) (initializer : Option Expr) : M Unit := do
  let v ← match initializer with
    | none => pure .nil
    | some e => eval e
  steps.define name.text v

/-- Executes a print statement. -/
@[inline] def printValue (e : Expr) : M Unit := do
  steps.print (← eval e)

/-- Executes a statement, given how often loops may be repeated. -/
@[inline] def rule (iterations : Nat) : Stmt → M C
  | .expression e => steps.normally (eval e)
  | .print e => steps.normally (steps.printValue eval e)
  | .var name initializer => steps.normally (steps.var eval name initializer)
  | .block body => steps.inBlock (steps.execAll exec body)
  | .ifThen condition consequence alternative =>
    steps.ifThen eval exec condition consequence alternative
  | .whileDo condition body => steps.loop eval exec condition body iterations
  | .function f => steps.normally (steps.function f)
  | .returnValue _ value => steps.returnValue eval value
  | .classDecl name parent instanceMethods classMethods =>
    steps.normally (steps.classDecl name parent instanceMethods classMethods)

end StmtSteps

end LoxLang
