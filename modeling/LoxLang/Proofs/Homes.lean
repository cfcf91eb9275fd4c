import LoxLang.Proofs.Sessions

/-!
# Evaluation with homes

A second evaluator, which says what `super` means without looking into frames. It carries along the
home of the place that is being executed: the instance that the innermost method around the place is
bound to, and the superclass of the class that declares this method. A class has its superclass from
the one time that its declaration is executed, and keeps it.

A method gets its home when it is bound. Functions, lambdas and static methods keep the home of the
place where they are made, so that they still have it when they are called from elsewhere, even
after the method has ended. `super` looks for a method from the superclass of the home on upwards,
and binds it to the instance of the home.

All else is as in `LoxLang.Evaluation`: the rules are the same, and so are the steps that make no
function. Before each expression something more is done, which may look at the home and at the state
(compare `LoxLang.Proofs.Watching`).
-/

namespace LoxLang.Homed

/-- What the innermost method around a place has been bound to. -/
structure Home where
  /-- The superclass of the class that declares the method. -/
  superclass : Option ClassId
  receiver : InstanceId
deriving DecidableEq, Repr

/-- The state of a running program, with the homes of its functions. -/
structure State where
  machine : Machine
  homes : Array (Option Home)

/-- A step of a run. -/
abbrev Run := EStateM Abort State

/-- A method as it is found in a class, with the superclass of that class. -/
structure Method where
  closure : Closure
  superclass : Option ClassId

/-- The method of a name that instances of a class have. -/
def method? (m : Machine) (c : ClassId) (name : String) : Option Method :=
  m.inClasses? (fun info => (info.methods.get? name).map (⟨·, info.superclass⟩)) c

/-- What a call can call. -/
inductive Callee where
  | native (n : Native)
  | closure (home : Option Home) (c : Closure)
  | constructor (c : ClassId) (initializer : Option Method)

/-- A callee without its home. -/
def Callee.plain : Callee → LoxLang.Callee
  | native n => .native n
  | closure _ c => .closure c
  | constructor c initializer => .constructor c (initializer.map (·.closure))

/-- What a value is as the callee of a call. -/
def State.callee? (s : State) : Value → Option Callee
  | .native n => some (.native n)
  | .function f => s.machine.functions[f]?.map (.closure s.homes[f]?.join)
  | .«class» c => some (.constructor c (method? s.machine c initializerName))
  | _ => none

/-!
## Steps

The steps of the plain evaluator, in a state that has a home for each function besides. The home of
the place is no part of the state; the rules hand it down.
-/

namespace Run

/-- A step of plain evaluation that makes no function. -/
def plain {α : Type} (p : LoxLang.Run α) : Run α := fun s =>
  match p s.machine with
  | .ok a m => .ok a { s with machine := m }
  | .error e m => .error e { s with machine := m }

/-- Executes something in a frame, and comes back to the present one however that ends. -/
def inFrame {α : Type} (frame : FrameId) (body : Run α) : Run α := fun s =>
  let previous := s.machine.current
  match body { s with machine := { s.machine with current := frame } } with
  | .ok a s => .ok a { s with machine := { s.machine with current := previous } }
  | .error e s => .error e { s with machine := { s.machine with current := previous } }

/-- Makes a function with a home. -/
def newFunction (home : Option Home) (c : Closure) : Run FunctionId := fun s =>
  let id := s.machine.functions.size
  .ok id ⟨{ s.machine with functions := s.machine.functions.push c }, s.homes.push home⟩

/-- Binds a method to an instance, and makes a function of it. -/
def boundMethod (method : Method) (i : InstanceId) : Run Value := do
  let c ← plain (LoxLang.Run.bind method.closure (.object i))
  return .function (← newFunction (some ⟨method.superclass, i⟩) c)

/-- The property of an instance. -/
def property (i : InstanceId) (name : Name) : Run Value := do
  let m := (← get).machine
  let found : Option (Value ⊕ Method) := do
    let object ← m.instances[i]?
    match object.fields.get? name.text with
    | some v => return .inl v
    | none => return .inr (← method? m object.classId name.text)
  match found with
  | some (.inl v) => return v
  | some (.inr method) => boundMethod method i
  | none => plain (LoxLang.Run.fail name.place (.undefinedProperty name.text))

end Run

/-- The rules for the parts of a tree that lie one level further in, at a place with some home. -/
structure Evaluator where
  eval : Option Home → Expr → Run Value
  exec : Option Home → Stmt → Run Completion

namespace Evaluator

open Homed.Run

variable (host : Host) (inner : Evaluator) (home : Option Home)

/-!
## Calls

The body of a function is evaluated with the home that the function was made with, and not with that
of the caller.
-/

/-- Executes statements up to the first that returns. -/
def execAll : List Stmt → Run Completion :=
  Completion.endings.execAll (inner.exec home)

/-- Calls a function, whose body has the home of the function. -/
def callClosure (c : Closure) (arguments : List Value) : Run Value := do
  let frame ← plain (LoxLang.Evaluator.callFrame c arguments)
  let completion ← inFrame frame (inner.execAll home c.body)
  plain (LoxLang.Evaluator.callResult c completion)

/-- Makes an instance of a class and initializes it. -/
def construct (c : ClassId) (initializer : Option Method) (arguments : List Value) :
    Run Value := do
  let i ← plain (LoxLang.Run.newInstance c)
  match initializer with
  | none => return .object i
  | some init =>
    -- The initializer is bound for this call only, so no function is made of it.
    let bound ← plain (LoxLang.Run.bind init.closure (.object i))
    let _ ← inner.callClosure (some ⟨init.superclass, i⟩) bound arguments
    return .object i

/-- Calls something with as many arguments as it takes. -/
def invoke (arguments : List Value) : Callee → Run Value
  | .native n => plain (LoxLang.Evaluator.callNative host n)
  | .closure home c => inner.callClosure home c arguments
  | .constructor c initializer => inner.construct c initializer arguments

/-- Executes a call, which fails with a stack overflow if the levels run out within it. -/
def guarded {α : Type} (place : Location) (body : Run α) : Run α := fun s =>
  match body s with
  | .error .tooDeep s => plain (LoxLang.Run.fail place .stackOverflow) s
  | result => result

/-- Calls a value, provided that it can be called with that many arguments. -/
def call (place : Location) (callee : Value) (arguments : List Value) : Run Value := do
  match (← get).callee? callee with
  | none => plain (LoxLang.Run.fail place .notCallable)
  | some callee =>
    if arguments.length = callee.plain.arity then
      guarded place (inner.invoke host arguments callee)
    else
      plain (LoxLang.Run.fail place (.argumentCount callee.plain.arity arguments.length))

/-! ## Expressions -/

/-- Evaluates a method of the superclass of the home, bound to the instance of the home. -/
def superExpr (method : Name) : Run Value := do
  match home with
  | some ⟨some c, i⟩ =>
    match method? (← get).machine c method.text with
    | some found => boundMethod found i
    | none => plain (LoxLang.Run.fail method.place (.undefinedProperty method.text))
  | _ => throw (.frame (.missing "super"))

/-- Makes a function at the present place. -/
def functionHere (name? : Option String) (params : List Name) (body : List Stmt) :
    Run FunctionId := do
  newFunction home ⟨name?, params, body, ← plain LoxLang.Run.currentFrame, false⟩

/-- The steps that expressions are made of: plain ones, unless they make functions. -/
def exprSteps : ExprSteps Run :=
  { LoxLang.Evaluator.exprSteps.lift plain with
    property
    lambda := fun params body => return .function (← functionHere home none params body)
    superMethod := fun _ method => superExpr home method }

/-- Evaluates an expression. -/
def exprRule : Expr → Run Value :=
  (exprSteps home).rule (inner.eval home) (inner.call host)

/-!
## Statements

Functions and static methods are at home where their declaration stands. Methods have no home before
they are bound.
-/

/-- Does something in a frame of its own. -/
def inBlock (body : Run Completion) : Run Completion := do
  let frame ← plain (LoxLang.Run.newFrame (← plain LoxLang.Run.currentFrame) [])
  inFrame frame body

/-- Executes a function declaration. -/
def function (f : FunctionDecl) : Run Unit := do
  let id ← functionHere home (some f.name.text) f.params f.body
  plain (LoxLang.Run.define f.name.text (.function id))

/-- Makes the static methods of a class. -/
def staticMethods (frame : FrameId) : List FunctionDecl → Run (Bindings FunctionId)
  | [] => return []
  | f :: rest => do
    let id ← newFunction home (LoxLang.Evaluator.closureOf f frame false)
    let others ← staticMethods frame rest
    return (f.name.text, id) :: others

/-- Executes a class declaration, given the superclass. -/
def declareClass (name : Name) (parent : Option ClassId) (instanceMethods : List FunctionDecl)
    (classMethods : List FunctionDecl) : Run Unit := do
  plain (LoxLang.Run.define name.text .nil)
  let statics ← staticMethods home (← plain LoxLang.Run.currentFrame) classMethods
  -- The methods of instances have no home before they are bound.
  let id ← plain (LoxLang.Evaluator.aroundMethods parent (LoxLang.Evaluator.makeClass name parent
    instanceMethods (Bindings.insertMany [] statics)))
  plain (LoxLang.Run.writeFrom (← plain LoxLang.Run.currentFrame) name (.«class» id))

/-- Executes a class declaration. -/
def classDecl (name : Name) (parent : Option VariableUse) (instanceMethods : List FunctionDecl)
    (classMethods : List FunctionDecl) : Run Unit :=
  match parent with
  | none => declareClass home name none instanceMethods classMethods
  | some use => do
    let c ← plain (LoxLang.Evaluator.superclass use)
    declareClass home name (some c) instanceMethods classMethods

/-- The steps that statements are made of. -/
def stmtSteps : StmtSteps Run Completion where
  toEndings := Completion.endings
  print v := plain (LoxLang.Run.print v)
  define x v := plain (LoxLang.Run.define x v)
  inBlock := inBlock
  function := function home
  classDecl := classDecl home

/-- Executes a statement. -/
def stmtRule : Stmt → Run Completion :=
  (stmtSteps home).rule (inner.eval home) (inner.exec home) host.iterations

/-! ## Tying the knot -/

/-- Nothing can be nested any further. -/
def innermost : Evaluator where
  eval _ _ := throw .tooDeep
  exec _ _ := throw .tooDeep

/-- The rules around rules one level further in, under watch. -/
def around (watch : Option Home → Expr → Run Unit) : Evaluator where
  eval home e := do
    watch home e
    inner.exprRule host home e
  exec home s := inner.stmtRule host home s

end Evaluator

/-- Evaluation under watch with at most `depth` levels of nesting. -/
def evaluator (host : Host) (watch : Option Home → Expr → Run Unit) : Nat → Evaluator
  | 0 => .innermost
  | depth + 1 => (evaluator host watch depth).around host watch

/-- Runs the statements of a program one after the other. No method is around them. -/
def execute (host : Host) (watch : Option Home → Expr → Run Unit) (depth : Nat)
    (program : List Stmt) : Run Unit :=
  let rules := evaluator host watch depth
  program.forM fun s => do
    let _ ← rules.exec none s

/-!
## Sessions

Functions may be called in later runs, so their homes are kept from one run to the next. The
statements of a program are at home nowhere.
-/

/-- A session, with the homes of its functions. -/
structure Session where
  session : LoxLang.Session
  homes : Array (Option Home)

namespace Session

/-- A session in which nothing has run. -/
def initial : Session := ⟨.initial, #[]⟩

/-- Forgets that there were errors. -/
def reset (s : Session) : Session := { s with session := s.session.reset }

/-- Executes the statements of a program. -/
def executeProgram (host : Host) (watch : Option Home → Expr → Run Unit) (depth endLine : Nat)
    (program : List Stmt) (uses : List Resolved) (s : State) : Ending × State :=
  let m := { s.machine with output := "", distances := s.machine.distances.insertAll uses }
  match execute host watch depth program { s with machine := m } with
  | .ok _ s => (.finished, s)
  | .error abort s => (.ofAbort endLine abort, s)

/-- Runs a source text. -/
def run (host : Host) (watch : Option Home → Expr → Run Unit) (depth : Nat) (s : Session)
    (source : String) : Transcript × Session :=
  let lexed := lex source
  let parsed := parse depth s.session.nextUse lexed
  let reports := lexed.reports ++ parsed.reports
  let session := { s.session with
    nextUse := parsed.nextUse
    hadError := s.session.hadError || !reports.isEmpty }
  if session.hadError then (⟨"", reports, .refused⟩, { s with session })
  else
    let resolution := resolve depth lexed.endLine parsed.statements
    if !resolution.reports.isEmpty then
      (⟨"", resolution.reports, .refused⟩, { s with session := { session with hadError := true } })
    else
      let (ending, state) := executeProgram host watch depth lexed.endLine parsed.statements
        resolution.uses ⟨session.machine, s.homes⟩
      (⟨state.machine.output, [], ending⟩,
        ⟨{ session with
            machine := state.machine
            hadRuntimeError := session.hadRuntimeError || ending.isFailure }, state.homes⟩)

/-- Leads a session through steps. -/
def play (host : Host) (watch : Option Home → Expr → Run Unit) (depth : Nat) :
    Session → List SessionStep → List Transcript × Session :=
  playSteps (run host watch depth) reset

end Session

/-!
## What holds where `super` and `this` are evaluated

What plain evaluation reads from frames for `super` and `this` is what the home of the place says,
and it fails where the home has nothing to give. A watch may assume this.
-/

/-- The first method of a name among a class and its superclasses, nearest first, bound to an
instance. If there is none, the run fails. -/
def boundFrom (c : ClassId) (i : InstanceId) (method : Name) : LoxLang.Run Value := do
  match (← get).method? c method.text with
  | some closure =>
    return .function (← LoxLang.Run.newFunction (← LoxLang.Run.bind closure (.object i)))
  | none => LoxLang.Run.fail method.place (.undefinedProperty method.text)

theorem boundFrom_apply (c : ClassId) (i : InstanceId) (method : Name) (m : Machine) :
    boundFrom c i method m = (match m.method? c method.text with
      | some closure => do
        return .function (← LoxLang.Run.newFunction (← LoxLang.Run.bind closure (.object i)))
      | none => LoxLang.Run.fail method.place (.undefinedProperty method.text) :
        LoxLang.Run Value) m := rfl

/-- The method that is found, made into a function in a frame that holds the instance as `this`. -/
theorem boundFrom_of_method? {c : ClassId} {method : Name} {m : Machine} {closure : Closure}
    (i : InstanceId) (h : m.method? c method.text = some closure) :
    ∃ f id m', boundFrom c i method m = .ok (.function id) m' ∧
      m'.functions[id]? = some { closure with frame := f } ∧
      m'.frames.frame? f = some ⟨[("this", .object i)], some closure.frame⟩ := by
  rw [boundFrom_apply, h]
  exact ⟨m.frames.size, m.functions.size, _, rfl, Array.getElem?_push_size,
    Array.getElem?_push_size⟩

theorem boundFrom_of_none {c : ClassId} {method : Name} {m : Machine} (i : InstanceId)
    (h : m.method? c method.text = none) :
    boundFrom c i method m =
      .error (.failure ⟨method.place, .undefinedProperty method.text⟩) m := by
  rw [boundFrom_apply, h]
  rfl

/-- If an expression is a use of `super`, then its place has a home with a superclass, and plain
evaluation gives the method found from that superclass, bound to the instance of the home. -/
def SuperFixed (home : Option Home) (e : Expr) (m : Machine) : Prop :=
  ∀ id line method, e = .super id line method →
    ∃ c i, home = some ⟨some c, i⟩ ∧
      LoxLang.Evaluator.superExpr id method m = boundFrom c i method m

/-- If an expression is a use of `this`, then its place has a home, and plain evaluation gives the
instance of the home. -/
def ThisFixed (home : Option Home) (e : Expr) (m : Machine) : Prop :=
  ∀ id line, e = .this id line →
    ∃ c? i, home = some ⟨c?, i⟩ ∧
      LoxLang.Run.readVariable id ⟨"this", line⟩ m = .ok (.object i) m

/-- What the home of a place says of an expression there. -/
structure Fixed (home : Option Home) (e : Expr) (m : Machine) : Prop where
  super : SuperFixed home e m
  this : ThisFixed home e m

end LoxLang.Homed
