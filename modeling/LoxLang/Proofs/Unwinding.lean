import LoxLang.Proofs.Sessions

/-!
# Evaluation in which `return` unwinds

A second evaluator, in which `return` is no way for a statement to end but a way to give up: it ends
the statement that is being executed, and with it all statements around that one, up to the call
of the function whose body they stand in. Only a call catches it (`catchReturn`). So statements are
executed one after the other without a look at how they end, and a loop goes on without one.

The rules are those of `LoxLang.Evaluation.Rules`, with other endings of statements (`endings`).
What a statement does in plain evaluation, read as a way to unwind, is `unwound`; what an expression
does is `plain`, which never unwinds.
-/

namespace LoxLang.Unwinding

/-- Why evaluation gives up: because a function returns, or for a reason that plain evaluation has
as well. -/
inductive Interrupt where
  | returned (v : Value)
  | abort (a : Abort)
deriving DecidableEq, Repr

/-- A step of a run. -/
abbrev Run := EStateM Interrupt Machine

namespace Run

variable {α : Type}

/-- A step of plain evaluation that does not return. -/
def plain (p : LoxLang.Run α) : Run α := fun m =>
  match p m with
  | .ok a m => .ok a m
  | .error a m => .error (.abort a) m

/-- The execution of a statement in plain evaluation, where returning is an end among others. -/
def unwound (p : LoxLang.Run Completion) : Run Unit := fun m =>
  match p m with
  | .ok .normal m => .ok () m
  | .ok (.returned v) m => .error (.returned v) m
  | .error a m => .error (.abort a) m

/-- Executes something in a frame, and comes back to the present one however that ends. -/
def inFrame (frame : FrameId) (body : Run α) : Run α := fun m =>
  let previous := m.current
  match body { m with current := frame } with
  | .ok a m => .ok a { m with current := previous }
  | .error e m => .error e { m with current := previous }

/-- Executes the body of a function. Its value is what it returns, and `nil` if it comes to its
end. -/
def catchReturn (body : Run Unit) : Run Value := fun m =>
  match body m with
  | .ok () m => .ok .nil m
  | .error (.returned v) m => .ok v m
  | .error (.abort a) m => .error (.abort a) m

end Run

/-- What is done at the ends of statements: to return is to give up. -/
def endings : Endings Run Unit where
  normal := ()
  returning v := throw (.returned v)
  andThen p q := do
    p
    q
  endless := throw (.abort .endless)

/-- The rules for the parts of a tree that lie one level further in. -/
structure Evaluator where
  eval : Expr → Run Value
  exec : Stmt → Run Unit

namespace Evaluator

open Unwinding.Run

variable (host : Host) (inner : Evaluator)

/-! ## Calls -/

/-- Calls a function. An initializer gives the instance that it is bound to, which the frame around
it holds, whatever its body returns. -/
def callClosure (c : Closure) (arguments : List Value) : Run Value := do
  let frame ← plain (LoxLang.Evaluator.callFrame c arguments)
  let v ← catchReturn (inFrame frame (endings.execAll inner.exec c.body))
  if c.isInitializer then plain (LoxLang.Run.readAt 0 c.frame "this") else return v

/-- Makes an instance of a class and initializes it. -/
def construct (c : ClassId) (initializer : Option Closure) (arguments : List Value) :
    Run Value := do
  let object := .object (← plain (LoxLang.Run.newInstance c))
  match initializer with
  | none => return object
  | some init =>
    let bound ← plain (LoxLang.Run.bind init object)
    let _ ← inner.callClosure bound arguments
    return object

/-- Calls something with as many arguments as it takes. -/
def invoke (arguments : List Value) : Callee → Run Value
  | .native n => plain (LoxLang.Evaluator.callNative host n)
  | .closure c => inner.callClosure c arguments
  | .constructor c initializer => inner.construct c initializer arguments

/-- Executes a call, which fails with a stack overflow if the levels run out within it. -/
def guarded {α : Type} (place : Location) (body : Run α) : Run α := fun m =>
  match body m with
  | .error (.abort .tooDeep) m => plain (LoxLang.Run.fail place .stackOverflow) m
  | result => result

/-- Calls a value, provided that it can be called with that many arguments. -/
def call (place : Location) (callee : Value) (arguments : List Value) : Run Value := do
  match (← get).callee? callee with
  | none => plain (LoxLang.Run.fail place .notCallable)
  | some callee =>
    if arguments.length = callee.arity then
      guarded place (inner.invoke host arguments callee)
    else
      plain (LoxLang.Run.fail place (.argumentCount callee.arity arguments.length))

/-! ## Expressions -/

/-- Evaluates an expression, in plain steps. -/
def exprRule : Expr → Run Value :=
  (LoxLang.Evaluator.exprSteps.lift plain).rule inner.eval (inner.call host)

/-! ## Statements -/

/-- Does something in a frame of its own. -/
def inBlock (body : Run Unit) : Run Unit := do
  let frame ← plain (LoxLang.Run.newFrame (← plain LoxLang.Run.currentFrame) [])
  inFrame frame body

/-- The steps that statements are made of. -/
def stmtSteps : StmtSteps Run Unit where
  toEndings := endings
  print v := plain (LoxLang.Run.print v)
  define x v := plain (LoxLang.Run.define x v)
  inBlock := inBlock
  function f := plain (LoxLang.Evaluator.function f)
  classDecl name parent instanceMethods classMethods :=
    plain (LoxLang.Evaluator.classDecl name parent instanceMethods classMethods)

/-- Executes a statement. -/
def stmtRule : Stmt → Run Unit :=
  stmtSteps.rule inner.eval inner.exec host.iterations

/-! ## Tying the knot -/

/-- Nothing can be nested any further. -/
def innermost : Evaluator where
  eval _ := throw (.abort .tooDeep)
  exec _ := throw (.abort .tooDeep)

/-- The rules around rules one level further in. -/
def around : Evaluator where
  eval := inner.exprRule host
  exec := inner.stmtRule host

end Evaluator

/-- Evaluation with at most `depth` levels of nesting. -/
def evaluator (host : Host) : Nat → Evaluator
  | 0 => .innermost
  | depth + 1 => (evaluator host depth).around host

/-- Runs the statements of a program one after the other. -/
def execute (host : Host) (depth : Nat) (program : List Stmt) : Run Unit :=
  program.forM (evaluator host depth).exec

/-! ## Sessions -/

/-- Executes the statements of a program. A `return` that no call catches ends the program. -/
def executeProgram (host : Host) (depth endLine : Nat) (program : List Stmt)
    (uses : List Resolved) (m : Machine) : Ending × Machine :=
  let m := { m with output := "", distances := m.distances.insertAll uses }
  match execute host depth program m with
  | .ok _ m => (.finished, m)
  | .error (.returned _) m => (.finished, m)
  | .error (.abort abort) m => (.ofAbort endLine abort, m)

/-- Runs a source text. -/
def run (host : Host) (depth : Nat) (s : Session) (source : String) : Transcript × Session :=
  let lexed := lex source
  let parsed := parse depth s.nextUse lexed
  let reports := lexed.reports ++ parsed.reports
  let s := { s with nextUse := parsed.nextUse, hadError := s.hadError || !reports.isEmpty }
  if s.hadError then (⟨"", reports, .refused⟩, s)
  else
    let resolution := resolve depth lexed.endLine parsed.statements
    if !resolution.reports.isEmpty then
      (⟨"", resolution.reports, .refused⟩, { s with hadError := true })
    else
      let (ending, machine) :=
        executeProgram host depth lexed.endLine parsed.statements resolution.uses s.machine
      (⟨machine.output, [], ending⟩,
        { s with machine, hadRuntimeError := s.hadRuntimeError || ending.isFailure })

/-- Leads a session through steps. -/
def play (host : Host) (depth : Nat) : Session → List SessionStep → List Transcript × Session :=
  playSteps (run host depth) Session.reset

end LoxLang.Unwinding
