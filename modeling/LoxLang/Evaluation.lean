import LoxLang.Evaluation.Rules
import LoxLang.Machine

/-!
# Evaluation

What expressions and statements do. The rules for the parts of a tree are used through an
`Evaluator`, the rules as they are one level further in; `evaluator depth` ties the knot with at
most `depth` levels. A call within which the levels run out fails with a stack overflow.
-/

namespace LoxLang

/-- What the surroundings of a program give it. -/
structure Host where
  /-- The times that the clock shows, reading by reading. -/
  clock : Nat → Float
  /-- How many iterations a loop may take. -/
  iterations : Nat

/-- How a statement ends: normally, or by returning a value from the function around it. -/
inductive Completion where
  | normal
  | returned (v : Value)
deriving DecidableEq, Repr

/-- What is done at the ends of statements, in whatever state. -/
@[inline] def Completion.endings {σ : Type} : Endings (EStateM Abort σ) Completion where
  normal := .normal
  returning v := return .returned v
  andThen p q := do
    match ← p with
    | .normal => q
    | .returned v => return .returned v
  endless := throw .endless

/-- The rules for the parts of a tree that lie one level further in. -/
structure Evaluator where
  eval : Expr → Run Value
  exec : Stmt → Run Completion

namespace Evaluator

/-!
## Calls

The number of arguments is compared with the arity of the callee before anything is done. A function
is called in a new frame inside the frame in which it was made.
-/

/-- Executes statements up to the first that returns. -/
def execAll (inner : Evaluator) : List Stmt → Run Completion :=
  Completion.endings.execAll inner.exec

/-- The frame of a call, which binds the parameters to the arguments. -/
def callFrame (c : Closure) (arguments : List Value) : Run FrameId :=
  Run.newFrame c.frame (Bindings.insertMany [] ((c.params.map (·.text)).zip arguments))

/-- What a call gives when the body has ended: the instance for an initializer, and otherwise the
value returned, or `nil` if the body ended normally. -/
def callResult (c : Closure) (completion : Completion) : Run Value :=
  -- The frame around a method that is bound is the one that holds its instance.
  if c.isInitializer then Run.readAt 0 c.frame "this"
  else
    match completion with
    | .normal => return .nil
    | .returned v => return v

/-- Calls a function with as many arguments as it has parameters. -/
def callClosure (inner : Evaluator) (c : Closure) (arguments : List Value) : Run Value := do
  let frame ← callFrame c arguments
  let completion ← Run.inFrame frame (inner.execAll c.body)
  callResult c completion

/-- Makes an instance of a class and initializes it. -/
def construct (inner : Evaluator) (c : ClassId) (initializer : Option Closure)
    (arguments : List Value) : Run Value := do
  let object := .object (← Run.newInstance c)
  match initializer with
  | none => return object
  | some init =>
    let bound ← Run.bind init object
    -- The instance is the value, whatever the call gives.
    let _ ← inner.callClosure bound arguments
    return object

/-- Calls a native function. -/
def callNative (host : Host) : Native → Run Value
  | .clock => return .number (host.clock (← Run.countReading))

/-- Calls something with as many arguments as it takes. -/
def invoke (host : Host) (inner : Evaluator) (arguments : List Value) : Callee → Run Value
  | .native n => callNative host n
  | .closure c => inner.callClosure c arguments
  | .constructor c initializer => inner.construct c initializer arguments

/-- Executes a call, which fails with a stack overflow if the levels run out within it. -/
def guarded {α : Type} (place : Location) (body : Run α) : Run α := fun m =>
  match body m with
  | .error .tooDeep m => Run.fail place .stackOverflow m
  | result => result

/-- Calls a value, provided that it can be called with that many arguments. -/
def call (host : Host) (inner : Evaluator) (place : Location) (callee : Value)
    (arguments : List Value) : Run Value := do
  match (← get).callee? callee with
  | none => Run.fail place .notCallable
  | some callee =>
    if arguments.length = callee.arity then
      guarded place (inner.invoke host arguments callee)
    else
      Run.fail place (.argumentCount callee.arity arguments.length)

/-!
## Expressions

The rules are the general ones, with the steps of a run. Two steps are particular to evaluation with
frames: finding `this` just inside of the frame of `super`, and making a function in the present
frame.
-/

/-- Evaluates a method of the superclass, bound to the present instance. The frame that holds
`this` is the one just inside the frame that holds `super`. -/
def superExpr (id : UseId) (method : Name) : Run Value := do
  match ← Run.distance? id with
  | none => throw (.frame (.missing "super"))
  | some distance =>
    -- Both are counted from the present frame; only `super` was resolved.
    let superclass ← Run.readAt distance (← Run.currentFrame) "super"
    let this ← Run.readAt (distance - 1) (← Run.currentFrame) "this"
    match superclass with
    | .«class» c =>
      match (← get).method? c method.text with
      | some closure => return .function (← Run.newFunction (← Run.bind closure this))
      | none => Run.fail method.place (.undefinedProperty method.text)
    | _ => throw (.frame (.missing "super"))

/-- Evaluates a lambda. -/
def lambda (params : List Name) (body : List Stmt) : Run Value := do
  return .function (← Run.newFunction ⟨none, params, body, ← Run.currentFrame, false⟩)

/-- The steps that expressions are made of. -/
@[inline] def exprSteps : ExprSteps Run where
  fail := Run.fail
  orFail := Run.orFail
  readVariable := Run.readVariable
  writeVariable := Run.writeVariable
  property := Run.property
  staticProperty := Run.staticProperty
  setField := Run.setField
  lambda := lambda
  superMethod := superExpr

/-- Evaluates expressions from left to right. -/
def evalAll (inner : Evaluator) : List Expr → Run (List Value) :=
  ExprSteps.evalAll inner.eval

/-- Evaluates a call: callee, then arguments, then the call itself. -/
def callExpr (host : Host) (inner : Evaluator) : Expr → Nat → List Expr → Run Value :=
  ExprSteps.callExpr inner.eval (inner.call host)

/-- Evaluates an expression. -/
def exprRule (host : Host) (inner : Evaluator) : Expr → Run Value :=
  exprSteps.rule inner.eval (inner.call host)

/-!
## Statements

Declarations bind their names in the present frame. The methods of a class are made in a frame that
holds its superclass, if it has one, and its static methods are made outside of that frame.
-/

/-- A method or function of a declaration, made in a frame. -/
def closureOf (f : FunctionDecl) (frame : FrameId) (isInitializer : Bool) : Closure :=
  ⟨some f.name.text, f.params, f.body, frame, isInitializer⟩

/-- Executes a function declaration. -/
def function (f : FunctionDecl) : Run Unit := do
  let id ← Run.newFunction (closureOf f (← Run.currentFrame) false)
  Run.define f.name.text (.function id)

/-- The class that a declaration names as its superclass. -/
def superclass (use : VariableUse) : Run ClassId := do
  match ← Run.readVariable use.id use.name with
  | .«class» c => return c
  | _ => Run.fail use.name.place .superclassNotClass

/-- Makes the static methods of a class. -/
def staticMethods (frame : FrameId) : List FunctionDecl → Run (Bindings FunctionId)
  | [] => return []
  | f :: rest => do
    let id ← Run.newFunction (closureOf f frame false)
    let others ← staticMethods frame rest
    return (f.name.text, id) :: others

/-- The methods of a class. -/
def methods (frame : FrameId) (fs : List FunctionDecl) : Bindings Closure :=
  Bindings.insertMany [] (fs.map fun f =>
    (f.name.text, closureOf f frame (f.name.text = initializerName)))

/-- Does something in the frame in which the methods of a class are made: one around them that holds
`super` if there is a superclass, and otherwise the present one. -/
def aroundMethods {α : Type} (parent : Option ClassId) (body : Run α) : Run α :=
  match parent with
  | none => body
  | some c => do
    Run.enter [("super", .«class» c)]
    let a ← body
    Run.leave
    return a

/-- Makes a class with methods that are made in the present frame. -/
def makeClass (name : Name) (parent : Option ClassId) (instanceMethods : List FunctionDecl)
    (statics : Bindings FunctionId) : Run ClassId := do
  let frame ← Run.currentFrame
  Run.newClass ⟨name.text, parent, methods frame instanceMethods, statics⟩

/-- Executes a class declaration, given the superclass. The name is defined before the class is
made, so that methods can refer to it. -/
def declareClass (name : Name) (parent : Option ClassId) (instanceMethods : List FunctionDecl)
    (classMethods : List FunctionDecl) : Run Unit := do
  Run.define name.text .nil
  let statics ← staticMethods (← Run.currentFrame) classMethods
  let id ← aroundMethods parent
    (makeClass name parent instanceMethods (Bindings.insertMany [] statics))
  Run.writeFrom (← Run.currentFrame) name (.«class» id)

/-- Executes a class declaration. Nothing is defined before the superclass has been found. -/
def classDecl (name : Name) (parent : Option VariableUse) (instanceMethods : List FunctionDecl)
    (classMethods : List FunctionDecl) : Run Unit :=
  match parent with
  | none => declareClass name none instanceMethods classMethods
  | some use => do
    let c ← superclass use
    declareClass name (some c) instanceMethods classMethods

/-- Does something in a frame of its own. -/
def inBlock (body : Run Completion) : Run Completion := do
  let frame ← Run.newFrame (← Run.currentFrame) []
  Run.inFrame frame body

/-- Executes the statements of a block. -/
def block (inner : Evaluator) (body : List Stmt) : Run Completion :=
  inBlock (inner.execAll body)

/-- The steps that statements are made of. -/
@[inline] def stmtSteps : StmtSteps Run Completion where
  toEndings := Completion.endings
  print := Run.print
  define := Run.define
  inBlock := inBlock
  function := function
  classDecl := classDecl

/-- Executes a statement. -/
def stmtRule (host : Host) (inner : Evaluator) : Stmt → Run Completion :=
  stmtSteps.rule inner.eval inner.exec host.iterations

/-!
## Tying the knot

Each level is the rules around those of the level below. At the last one every tree is nested too
deeply.
-/

/-- Nothing can be nested any further. -/
def innermost : Evaluator where
  eval _ := throw .tooDeep
  exec _ := throw .tooDeep

/-- The rules around rules one level further in. -/
def around (host : Host) (inner : Evaluator) : Evaluator where
  eval := inner.exprRule host
  exec := inner.stmtRule host

end Evaluator

/-- Evaluation with at most `depth` levels of nesting. -/
def evaluator (host : Host) : Nat → Evaluator
  | 0 => .innermost
  | depth + 1 => (evaluator host depth).around host

/-- Runs the statements of a program one after the other. -/
def execute (host : Host) (depth : Nat) (program : List Stmt) : Run Unit :=
  let rules := evaluator host depth
  program.forM fun s => do
    let _ ← rules.exec s

end LoxLang
