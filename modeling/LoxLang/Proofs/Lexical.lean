import LoxLang.Session

/-!
# Evaluation by cells

A second evaluator, without frames and without distances, which says what lexical scoping means.
Each execution of a local declaration, each binding of a parameter and of `this` and `super` makes a
cell of its own. An environment is a list of names with their cells, the innermost first; it is
never changed, only extended, and a function keeps the one of the place where it stands. A use of a
name means the innermost cell of that name, and where there is none, the global variable. The cell
of a `var` is there from before its initializer on, and is empty until a value is written to it.

All else is as in `LoxLang.Evaluation`: operators, calls, classes, failures, and the bounds on
nesting and on loops. The rules for expressions are the same, in steps of another kind.
-/

namespace LoxLang.Lexical

/-- The number of a cell, in the order in which cells were made. -/
abbrev CellId := Nat

/-- The names that are visible at a place with their cells, innermost first. -/
abbrev Environment := Bindings CellId

/-- A place at which declarations are executed. -/
inductive Place where
  | topLevel
  | inside (environment : Environment)

/-- What is visible at a place. -/
def Place.environment : Place → Environment
  | topLevel => []
  | inside environment => environment

/-- A function together with what is visible where it stands. -/
structure Closure where
  name? : Option String
  params : List Name
  body : List Stmt
  environment : Environment
  isInitializer : Bool

/-- The text of a function. -/
def Closure.text (c : Closure) : String :=
  match c.name? with
  | none => "<fn lambda>"
  | some name => s!"<fn {name}>"

/-- A class. -/
structure ClassInfo where
  name : String
  superclass : Option ClassId
  methods : Bindings Closure
  staticMethods : Bindings FunctionId

/-- The state of a running program. -/
structure Store where
  /-- The cells, some of which are still empty. -/
  cells : Array (Option Value)
  globals : Bindings Value
  functions : Array Closure
  classes : Array ClassInfo
  instances : Array Instance
  output : String
  clockReadings : Nat

/-- What a call can call. -/
inductive Callee where
  | native (n : Native)
  | closure (c : Closure)
  | constructor (c : ClassId) (initializer : Option Closure)

/-- The number of arguments that a callee takes. -/
def Callee.arity : Callee → Nat
  | native n => n.arity
  | closure c => c.params.length
  | constructor _ none => 0
  | constructor _ (some init) => init.params.length

/-- A step of a run. -/
abbrev Run := EStateM Abort Store

namespace Store

/-- The state in which a program starts. -/
def initial : Store where
  cells := #[]
  globals := Native.all.map fun n => (n.name, .native n)
  functions := #[]
  classes := #[]
  instances := #[]
  output := ""
  clockReadings := 0

/-- What the nearest class holds among a class and its superclasses. -/
def inClasses? {α : Type} (w : Store) (own? : ClassInfo → Option α) (c : ClassId) : Option α :=
  inLineage? (·.superclass) own? w.classes c

/-- The method of a name that instances of a class have. -/
def method? (w : Store) (c : ClassId) (name : String) : Option Closure :=
  w.inClasses? (·.methods.get? name) c

/-- The static method of a name that a class has. -/
def staticMethod? (w : Store) (c : ClassId) (name : String) : Option FunctionId :=
  w.inClasses? (·.staticMethods.get? name) c

/-- What a value is as the callee of a call. -/
def callee? (w : Store) : Value → Option Callee
  | .native n => some (.native n)
  | .function f => w.functions[f]?.map .closure
  | .«class» c => some (.constructor c (w.method? c initializerName))
  | _ => none

/-- The text that `print` shows for a value. -/
def text (w : Store) : Value → String
  | .nil => "nil"
  | .bool b => if b then "true" else "false"
  | .number x => Number.text x
  | .string s => s
  | .native _ => "<native fn>"
  | .function f => (w.functions[f]?.map Closure.text).getD ""
  | .«class» c => (w.classes[c]?.map (·.name)).getD ""
  | .object i =>
    match w.instances[i]? with
    | none => ""
    | some object => (w.classes[object.classId]?.map (·.name)).getD "" ++ " instance"

end Store

namespace Run

/-- Ends the run with a failure at a place. -/
def fail {α : Type} (place : Location) (error : RuntimeError) : Run α :=
  throw (.failure ⟨place, error⟩)

/-- Ends the run if an operation refuses its operands. -/
def orFail {α : Type} (place : Location) : Except RuntimeError α → Run α
  | .ok a => pure a
  | .error e => fail place e

/-! ## Cells -/

/-- Makes a cell. -/
def newCell (content : Option Value) : Run CellId := fun w =>
  let id := w.cells.size
  .ok id { w with cells := w.cells.push content }

/-- Writes a value to a cell. -/
def fill (c : CellId) (v : Value) : Run Unit := fun w =>
  .ok () { w with cells := w.cells.setIfInBounds c (some v) }

/-- The value in the cell of a name, which may not have been written yet. -/
def readCell (c : CellId) (name : String) : Run Value := fun w =>
  match w.cells[c]? with
  | some (some v) => .ok v w
  | _ => .error (.frame (.missing name)) w

/-! ## Variables -/

/-- The value of a global variable. -/
def readGlobal (name : Name) : Run Value := fun w =>
  match w.globals.get? name.text with
  | some v => .ok v w
  | none => fail name.place (.undefinedVariable name.text) w

/-- Binds a global name, whether or not it is bound already. -/
def setGlobal (name : String) (v : Value) : Run Unit := fun w =>
  .ok () { w with globals := w.globals.insert name v }

/-- Writes a global variable. -/
def writeGlobal (name : Name) (v : Value) : Run Unit := fun w =>
  match w.globals.get? name.text with
  | some _ => setGlobal name.text v w
  | none => fail name.place (.undefinedVariable name.text) w

/-- The value of the variable that a name means. -/
def readVariable (environment : Environment) (name : Name) : Run Value :=
  match environment.get? name.text with
  | some c => readCell c name.text
  | none => readGlobal name

/-- Writes the variable that a name means. -/
def writeVariable (environment : Environment) (name : Name) (v : Value) : Run Unit :=
  match environment.get? name.text with
  | some c => fill c v
  | none => writeGlobal name v

/-- The value of `this` or `super`. -/
def readHidden (environment : Environment) (name : String) : Run Value :=
  match environment.get? name with
  | some c => readCell c name
  | none => throw (.frame (.missing name))

/-! ## Declarations -/

/-- Makes a declared name visible, with an empty cell unless it is global. -/
def declare (place : Place) (name : String) : Run Place :=
  match place with
  | .topLevel => return .topLevel
  | .inside environment => return .inside ((name, ← newCell none) :: environment)

/-- Gives a declared name its value. -/
def define (place : Place) (name : String) (v : Value) : Run Unit :=
  match place with
  | .topLevel => setGlobal name v
  | .inside environment =>
    match environment.get? name with
    | some c => fill c v
    | none => pure ()

/-- Extends an environment by names with cells for their values. -/
def bindAll (environment : Environment) : List (String × Value) → Run Environment
  | [] => return environment
  | (name, v) :: rest => do
    let c ← newCell (some v)
    bindAll ((name, c) :: environment) rest

/-!
## Functions, classes and instances

As in the plain evaluator, but a function keeps the environment of the place where it stands, and no
frame.
-/

/-- Makes a function. -/
def newFunction (c : Closure) : Run FunctionId := fun w =>
  let id := w.functions.size
  .ok id { w with functions := w.functions.push c }

/-- Makes a class. -/
def newClass (info : ClassInfo) : Run ClassId := fun w =>
  let id := w.classes.size
  .ok id { w with classes := w.classes.push info }

/-- Makes an instance without fields. -/
def newInstance (c : ClassId) : Run InstanceId := fun w =>
  let id := w.instances.size
  .ok id { w with instances := w.instances.push ⟨c, []⟩ }

/-- Binds a method to an instance: the method with `this` visible. -/
def bind (method : Closure) (this : Value) : Run Closure := do
  let c ← newCell (some this)
  return { method with environment := ("this", c) :: method.environment }

/-- The property of an instance. -/
def property (i : InstanceId) (name : Name) : Run Value := do
  let w ← get
  let found : Option (Value ⊕ Closure) := do
    let object ← w.instances[i]?
    match object.fields.get? name.text with
    | some v => return .inl v
    | none => return .inr (← w.method? object.classId name.text)
  match found with
  | some (.inl v) => return v
  | some (.inr method) => return .function (← newFunction (← bind method (.object i)))
  | none => fail name.place (.undefinedProperty name.text)

/-- The static method of a class. -/
def staticProperty (c : ClassId) (name : Name) : Run Value := fun w =>
  match w.staticMethod? c name.text with
  | some f => .ok (.function f) w
  | none => fail name.place (.undefinedStaticMethod name.text) w

/-- Sets a field of an instance. -/
def setField (i : InstanceId) (name : String) (v : Value) : Run Unit := fun w =>
  .ok () { w with
    instances := w.instances.modify i fun object =>
      { object with fields := object.fields.insert name v } }

/-- Prints a value on a line of its own. -/
def print (v : Value) : Run Unit := fun w =>
  let line := w.text v ++ "\n"
  .ok () { w with output := w.output ++ line }

/-- Counts a reading of the clock. -/
def countReading : Run Nat := fun w =>
  .ok w.clockReadings { w with clockReadings := w.clockReadings + 1 }

end Run

/-- The rules for the parts of a tree that lie one level further in. A statement gives the place
behind it. -/
structure Evaluator where
  eval : Environment → Expr → Run Value
  exec : Place → Stmt → Run (Completion × Place)

namespace Evaluator

/-!
## Calls

Parameters get cells in the environment of the function that is called, and none is seen from the
place of the call.
-/

/-- Executes statements up to the first that returns. -/
def execAll (inner : Evaluator) (place : Place) : List Stmt → Run Completion
  | [] => return .normal
  | s :: rest => do
    match ← inner.exec place s with
    | (.normal, place) => execAll inner place rest
    | (.returned v, _) => return .returned v

/-- What a call gives when the body has ended. -/
def callResult (c : Closure) (completion : Completion) : Run Value :=
  if c.isInitializer then Run.readHidden c.environment "this"
  else
    match completion with
    | .normal => return .nil
    | .returned v => return v

/-- Calls a function with as many arguments as it has parameters. -/
def callClosure (inner : Evaluator) (c : Closure) (arguments : List Value) : Run Value := do
  let environment ← Run.bindAll c.environment ((c.params.map (·.text)).zip arguments)
  let completion ← inner.execAll (.inside environment) c.body
  callResult c completion

/-- Makes an instance of a class and initializes it. -/
def construct (inner : Evaluator) (c : ClassId) (initializer : Option Closure)
    (arguments : List Value) : Run Value := do
  let object := .object (← Run.newInstance c)
  match initializer with
  | none => return object
  | some init =>
    let bound ← Run.bind init object
    let _ ← inner.callClosure bound arguments
    return object

/-- Calls a native function. -/
def callNative (host : Host) : Native → Run Value
  | .clock => return .number (host.clock (← Run.countReading))

/-- Calls something with as many arguments as it takes. -/
def invoke (host : Host) (inner : Evaluator) (arguments : List Value) : Callee → Run Value
  | .native n => callNative host n
  | .closure c => inner.callClosure c arguments
  | .constructor c initializer => inner.construct c initializer arguments

/-- Executes a call, which fails with a stack overflow if the levels run out within it. -/
def guarded {α : Type} (place : Location) (body : Run α) : Run α := fun w =>
  match body w with
  | .error .tooDeep w => Run.fail place .stackOverflow w
  | result => result

/-- Calls a value, provided that it can be called with that many arguments. -/
def call (host : Host) (inner : Evaluator) (place : Location) (callee : Value)
    (arguments : List Value) : Run Value := do
  match (← get).callee? callee with
  | none => Run.fail place .notCallable
  | some callee =>
    if arguments.length = callee.arity then
      guarded place (inner.invoke host arguments callee)
    else
      Run.fail place (.argumentCount callee.arity arguments.length)

/-! ## Expressions -/

/-- Evaluates a method of the superclass, bound to the present instance. -/
def superExpr (environment : Environment) (method : Name) : Run Value := do
  let superclass ← Run.readHidden environment "super"
  let this ← Run.readHidden environment "this"
  match superclass with
  | .«class» c =>
    match (← get).method? c method.text with
    | some closure => return .function (← Run.newFunction (← Run.bind closure this))
    | none => Run.fail method.place (.undefinedProperty method.text)
  | _ => throw (.frame (.missing "super"))

/-- The steps that expressions are made of, where some names are visible. -/
def exprSteps (environment : Environment) : ExprSteps Run where
  fail := Run.fail
  orFail := Run.orFail
  readVariable _ name := Run.readVariable environment name
  writeVariable _ name v := Run.writeVariable environment name v
  property := Run.property
  staticProperty := Run.staticProperty
  setField := Run.setField
  lambda params body :=
    return .function (← Run.newFunction ⟨none, params, body, environment, false⟩)
  superMethod _ method := superExpr environment method

/-- Evaluates an expression. -/
def exprRule (host : Host) (inner : Evaluator) (environment : Environment) : Expr → Run Value :=
  (exprSteps environment).rule (inner.eval environment) (inner.call host)

/-!
## Statements

A statement gives the place behind it, which has the cells of what it declares. Where a `var` stands
in a block, its cell is there before its initializer is evaluated, and is still empty.
-/

/-- Executes a statement behind which the place is not looked at. -/
def complete (inner : Evaluator) (place : Place) (s : Stmt) : Run Completion :=
  return (← inner.exec place s).1

/-- Repeats a statement while a condition holds. -/
def loop (inner : Evaluator) (place : Place) : Expr → Stmt → Nat → Run Completion :=
  Completion.endings.loop (inner.eval place.environment) (inner.complete place)

/-- Executes an if statement. -/
def ifThen (inner : Evaluator) (place : Place) : Expr → Stmt → Option Stmt → Run Completion :=
  Completion.endings.ifThen (inner.eval place.environment) (inner.complete place)

/-- Executes a variable declaration. -/
def var (inner : Evaluator) (place : Place) (name : Name) (initializer : Option Expr) :
    Run Place := do
  let place ← Run.declare place name.text
  let v ← match initializer with
    | none => pure .nil
    | some e => inner.eval place.environment e
  Run.define place name.text v
  return place

/-- A method or function of a declaration, with what is visible where it stands. -/
def closureOf (f : FunctionDecl) (environment : Environment) (isInitializer : Bool) : Closure :=
  ⟨some f.name.text, f.params, f.body, environment, isInitializer⟩

/-- Executes a function declaration. -/
def function (place : Place) (f : FunctionDecl) : Run Place := do
  let place ← Run.declare place f.name.text
  let id ← Run.newFunction (closureOf f place.environment false)
  Run.define place f.name.text (.function id)
  return place

/-- The class that a declaration names as its superclass. -/
def superclass (environment : Environment) (use : VariableUse) : Run ClassId := do
  match ← Run.readVariable environment use.name with
  | .«class» c => return c
  | _ => Run.fail use.name.place .superclassNotClass

/-- Makes the static methods of a class. -/
def staticMethods (environment : Environment) : List FunctionDecl → Run (Bindings FunctionId)
  | [] => return []
  | f :: rest => do
    let id ← Run.newFunction (closureOf f environment false)
    let others ← staticMethods environment rest
    return (f.name.text, id) :: others

/-- The methods of a class. -/
def methods (environment : Environment) (fs : List FunctionDecl) : Bindings Closure :=
  Bindings.insertMany [] (fs.map fun f =>
    (f.name.text, closureOf f environment (f.name.text = initializerName)))

/-- What is visible to the methods of a class: also `super`, if there is a superclass. -/
def methodEnvironment (environment : Environment) : Option ClassId → Run Environment
  | none => return environment
  | some c => return ("super", ← Run.newCell (some (.«class» c))) :: environment

/-- Executes a class declaration. -/
def classDecl (place : Place) (name : Name) (parent : Option VariableUse)
    (instanceMethods classMethods : List FunctionDecl) : Run Place := do
  let place ← Run.declare place name.text
  let environment := place.environment
  let parent ← match parent with
    | none => pure none
    | some use => some <$> superclass environment use
  Run.define place name.text .nil
  let statics ← staticMethods environment classMethods
  let inner ← methodEnvironment environment parent
  let id ← Run.newClass
    ⟨name.text, parent, methods inner instanceMethods, Bindings.insertMany [] statics⟩
  Run.define place name.text (.«class» id)
  return place

/-- Executes a return statement. -/
def returnValue (inner : Evaluator) (environment : Environment) : Option Expr → Run Completion :=
  Completion.endings.returnValue (inner.eval environment)

/-- Executes a statement. Only declarations lead to another place. -/
def stmtRule (host : Host) (inner : Evaluator) (place : Place) : Stmt → Run (Completion × Place)
  | .expression e => do
    let _ ← inner.eval place.environment e
    return (.normal, place)
  | .print e => do
    Run.print (← inner.eval place.environment e)
    return (.normal, place)
  | .var name initializer => return (.normal, ← inner.var place name initializer)
  | .block body => return (← inner.execAll (.inside place.environment) body, place)
  | .ifThen condition consequence alternative =>
    return (← inner.ifThen place condition consequence alternative, place)
  | .whileDo condition body => return (← inner.loop place condition body host.iterations, place)
  | .function f => return (.normal, ← function place f)
  | .returnValue _ value => return (← inner.returnValue place.environment value, place)
  | .classDecl name parent instanceMethods classMethods =>
    return (.normal, ← classDecl place name parent instanceMethods classMethods)

/-! ## Tying the knot -/

/-- Nothing can be nested any further. -/
def innermost : Evaluator where
  eval _ _ := throw .tooDeep
  exec _ _ := throw .tooDeep

/-- The rules around rules one level further in. -/
def around (host : Host) (inner : Evaluator) : Evaluator where
  eval := inner.exprRule host
  exec := inner.stmtRule host

end Evaluator

/-- Evaluation with at most `depth` levels of nesting. -/
def evaluator (host : Host) : Nat → Evaluator
  | 0 => .innermost
  | depth + 1 => (evaluator host depth).around host

/-- Runs the statements of a program one after the other. -/
def execute (host : Host) (depth : Nat) (program : List Stmt) : Run Unit :=
  program.forM fun s => do
    let _ ← (evaluator host depth).exec .topLevel s

/-!
## Sessions

A session has the globals, functions, classes and instances of its runs. Cells stay, since functions
may keep them.
-/

/-- A session between two runs. -/
structure Session where
  store : Store
  nextUse : UseId
  hadError : Bool
  hadRuntimeError : Bool

namespace Session

/-- A session in which nothing has run. -/
def initial : Session := ⟨.initial, 0, false, false⟩

/-- Forgets that there were errors. -/
def reset (s : Session) : Session := { s with hadError := false, hadRuntimeError := false }

/-- The globals with the texts of their values, sorted by name. -/
def globals (s : Session) : Bindings String :=
  s.store.globals.sorted.map fun (name, v) => (name, s.store.text v)

/-- Executes the statements of a program. What was printed before is not kept. -/
def executeProgram (host : Host) (depth endLine : Nat) (program : List Stmt) (w : Store) :
    Ending × Store :=
  match execute host depth program { w with output := "" } with
  | .ok _ w => (.finished, w)
  | .error abort w => (.ofAbort endLine abort, w)

/-- Runs a source text. It is read and resolved as ever, but of resolving nothing counts except
whether it reports anything. -/
def run (host : Host) (depth : Nat) (s : Session) (source : String) : Transcript × Session :=
  let lexed := lex source
  let parsed := parse depth s.nextUse lexed
  let reports := lexed.reports ++ parsed.reports
  let s := { s with nextUse := parsed.nextUse, hadError := s.hadError || !reports.isEmpty }
  if s.hadError then (⟨"", reports, .refused⟩, s)
  else
    let resolution := resolve depth lexed.endLine parsed.statements
    if !resolution.reports.isEmpty then
      (⟨"", resolution.reports, .refused⟩, { s with hadError := true })
    else
      let (ending, store) := executeProgram host depth lexed.endLine parsed.statements s.store
      (⟨store.output, [], ending⟩,
        { s with store, hadRuntimeError := s.hadRuntimeError || ending.isFailure })

end Session

end LoxLang.Lexical
