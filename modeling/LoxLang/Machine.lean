import LoxLang.Frames
import LoxLang.Number.Text
import LoxLang.RuntimeError
import LoxLang.Scope
import LoxLang.Value

/-!
# The state of a running program

Frames hold variables; functions, classes and instances live beside them, each found by its
position. What a step of a program does is a function on this state that gives a result or ends
the run.
-/

namespace LoxLang

/-- A function together with the frame in which it was made. -/
structure Closure where
  /-- The name, unless it is a lambda. -/
  name? : Option String
  params : List Name
  body : List Stmt
  frame : FrameId
  /-- Whether calling it yields the instance it is bound to, whatever it returns. -/
  isInitializer : Bool

/-- The text of a function. -/
def Closure.text (c : Closure) : String :=
  match c.name? with
  | none => "<fn lambda>"
  | some name => s!"<fn {name}>"

/-- A class. Its methods are not values before they are bound to an instance; its static methods
are. -/
structure ClassInfo where
  name : String
  superclass : Option ClassId
  methods : Bindings Closure
  staticMethods : Bindings FunctionId

/-- An instance of a class. -/
structure Instance where
  classId : ClassId
  fields : Bindings Value
deriving DecidableEq, Repr

/-- The state of a running program. -/
structure Machine where
  frames : Frames Value
  functions : Array Closure
  classes : Array ClassInfo
  instances : Array Instance
  /-- The frame of the place that is being executed. -/
  current : FrameId
  /-- The distances of the uses of local names in all programs so far. -/
  distances : Distances
  /-- What was printed. -/
  output : String
  /-- How often the clock was read. -/
  clockReadings : Nat

/-- What a call can call. -/
inductive Callee where
  | native (n : Native)
  | closure (c : Closure)
  /-- A class, with the method that initializes its instances if there is one. -/
  | constructor (c : ClassId) (initializer : Option Closure)

/-- The number of arguments that a callee takes. -/
def Callee.arity : Callee → Nat
  | native n => n.arity
  | closure c => c.params.length
  | constructor _ none => 0
  | constructor _ (some init) => init.params.length

/-- Why a run ends early. -/
inductive Abort where
  | failure (f : Failure)
  /-- A local name was looked up where it is not. -/
  | frame (e : FrameError)
  /-- Nesting beyond the bound, not yet turned into a failure. -/
  | tooDeep
  /-- A loop went on for more iterations than are allowed for. -/
  | endless
deriving DecidableEq, Repr

/-- A step of a run. What it has done stays done even if it ends the run. -/
abbrev Run := EStateM Abort Machine

/-- What is held nearest among a class and its superclasses, by something about each class.
Superclasses are older than their subclasses, and the walk follows no other links. -/
def inLineage? {κ α : Type} (superclass : κ → Option ClassId) (own? : κ → Option α)
    (classes : Array κ) (c : ClassId) : Option α :=
  match classes[c]? with
  | none => none
  | some info =>
    match own? info with
    | some a => some a
    | none =>
      match superclass info with
      | none => none
      | some d => if d < c then inLineage? superclass own? classes d else none
termination_by c

namespace Machine

/-- The frame of the globals. -/
def globalFrame : FrameId := 0

/-- The state in which a program starts: the native functions are defined. -/
def initial : Machine where
  frames := Frames.empty.push ⟨Native.all.map fun n => (n.name, .native n), none⟩
  functions := #[]
  classes := #[]
  instances := #[]
  current := globalFrame
  distances := ∅
  output := ""
  clockReadings := 0

/-!
## Classes and their methods

A method is that of the nearest class that has one of the name. Calling a class makes an instance,
and takes as many arguments as the method that initializes it.
-/

/-- What the nearest class holds among a class and its superclasses. -/
def inClasses? {α : Type} (m : Machine) (own? : ClassInfo → Option α) (c : ClassId) : Option α :=
  inLineage? (·.superclass) own? m.classes c

/-- The method of a name that instances of a class have. -/
def method? (m : Machine) (c : ClassId) (name : String) : Option Closure :=
  m.inClasses? (·.methods.get? name) c

/-- The static method of a name that a class has. -/
def staticMethod? (m : Machine) (c : ClassId) (name : String) : Option FunctionId :=
  m.inClasses? (·.staticMethods.get? name) c

/-- The method that initializes the instances of a class. -/
def initializer? (m : Machine) (c : ClassId) : Option Closure :=
  m.method? c initializerName

/-- What a value is as the callee of a call, if it can be called. -/
def callee? (m : Machine) : Value → Option Callee
  | .native n => some (.native n)
  | .function f => m.functions[f]?.map .closure
  | .«class» c => some (.constructor c (m.initializer? c))
  | _ => none

/-!
## Texts

What is shown of a state: values as `print` shows them, and the globals.
-/

/-- The text that `print` shows for a value. -/
def text (m : Machine) : Value → String
  | .nil => "nil"
  | .bool b => if b then "true" else "false"
  | .number x => Number.text x
  | .string s => s
  | .native _ => "<native fn>"
  | .function f => (m.functions[f]?.map Closure.text).getD ""
  | .«class» c => (m.classes[c]?.map (·.name)).getD ""
  | .object i =>
    match m.instances[i]? with
    | none => ""
    | some object => (m.classes[object.classId]?.map (·.name)).getD "" ++ " instance"

/-- The globals and their values, sorted by name. -/
def globals (m : Machine) : Bindings Value :=
  match m.frames.frame? globalFrame with
  | none => []
  | some frame => frame.values.sorted

end Machine

namespace Run

/-!
## Failing

Failures are of two kinds. A failure of the program has a place in its text; a name that is not
where it was resolved to be has none.
-/

/-- Ends the run with a failure at a place. -/
def fail {α : Type} (place : Location) (error : RuntimeError) : Run α :=
  throw (.failure ⟨place, error⟩)

/-- Ends the run if an operation refuses its operands. -/
def orFail {α : Type} (place : Location) : Except RuntimeError α → Run α
  | .ok a => pure a
  | .error e => fail place e

/-- Ends the run if a name is not where it was looked up. -/
def orAbort {α : Type} : Except FrameError α → Run α
  | .ok a => pure a
  | .error e => throw (.frame e)

/-!
## Variables

A use with a distance is looked up along the chain of the present frame, and one without a distance
from the global frame.
-/

/-- The frame of the place that is being executed. -/
def currentFrame : Run FrameId := fun m => .ok m.current m

/-- Makes a frame inside another one. -/
def newFrame (enclosing : FrameId) (values : Bindings Value) : Run FrameId := fun m =>
  let id := m.frames.size
  .ok id { m with frames := m.frames.push ⟨values, some enclosing⟩ }

/-- Executes something in a frame, and comes back to the present one however that ends. -/
def inFrame {α : Type} (frame : FrameId) (body : Run α) : Run α := fun m =>
  let previous := m.current
  match body { m with current := frame } with
  | .ok a m => .ok a { m with current := previous }
  | .error e m => .error e { m with current := previous }

/-- Goes into a new frame inside the present one. The way back is `leave`, and only that. -/
def enter (values : Bindings Value) : Run Unit := fun m =>
  .ok () { m with
    frames := m.frames.push ⟨values, some m.current⟩
    current := m.frames.size }

/-- Goes to the frame around the present one. -/
def leave : Run Unit := fun m =>
  match m.frames.enclosing? m.current with
  | some f => .ok () { m with current := f }
  | none => .error (.frame .pastOutermost) m

/-- Binds a name in the present frame. -/
def define (name : String) (v : Value) : Run Unit := fun m =>
  let current := m.current
  .ok () { m with frames := m.frames.define current name v }

/-- The distance of a use of a name, if the name is local. -/
def distance? (id : UseId) : Run (Option Nat) := fun m => .ok m.distances[id]? m

/-- The value of a name at a distance from a frame. -/
def readAt (distance : Nat) (frame : FrameId) (name : String) : Run Value := fun m =>
  orAbort (m.frames.getAt distance frame name) m

/-- Writes a name at a distance from the present frame. -/
def writeAt (distance : Nat) (name : String) (v : Value) : Run Unit := fun m =>
  match m.frames.ancestor? distance m.current with
  | none => .error (.frame .pastOutermost) m
  | some f => .ok () { m with frames := m.frames.define f name v }

/-- The value of a name, from a frame outwards. -/
def readFrom (frame : FrameId) (name : Name) : Run Value := fun m =>
  match m.frames.get? frame name.text with
  | some v => .ok v m
  | none => fail name.place (.undefinedVariable name.text) m

/-- Writes a name, from a frame outwards. -/
def writeFrom (frame : FrameId) (name : Name) (v : Value) : Run Unit := fun m =>
  match m.frames.holder? frame name.text with
  | some f => .ok () { m with frames := m.frames.define f name.text v }
  | none => fail name.place (.undefinedVariable name.text) m

/-- Reads the variable that a use of a name means. -/
def readVariable (id : UseId) (name : Name) : Run Value := do
  match ← distance? id with
  | some distance => readAt distance (← currentFrame) name.text
  | none => readFrom Machine.globalFrame name

/-- Writes the variable that a use of a name means. -/
def writeVariable (id : UseId) (name : Name) (v : Value) : Run Unit := do
  match ← distance? id with
  | some distance => writeAt distance name.text v
  | none => writeFrom Machine.globalFrame name v

/-!
## Functions, classes and instances

Objects are numbered as they are made, and values refer to them by their numbers. So two values are
the same object if they are equal.
-/

/-- Makes a function. -/
def newFunction (c : Closure) : Run FunctionId := fun m =>
  let id := m.functions.size
  .ok id { m with functions := m.functions.push c }

/-- Makes a class. -/
def newClass (info : ClassInfo) : Run ClassId := fun m =>
  let id := m.classes.size
  .ok id { m with classes := m.classes.push info }

/-- Makes an instance without fields. -/
def newInstance (c : ClassId) : Run InstanceId := fun m =>
  let id := m.instances.size
  .ok id { m with instances := m.instances.push ⟨c, []⟩ }

/-- Binds a method to an instance: the method with a frame around it that holds `this`. -/
def bind (method : Closure) (this : Value) : Run Closure := do
  let frame ← newFrame method.frame [("this", this)]
  return { method with frame }

/-- The property of an instance: the field of the name, or else the method of the name, freshly
bound. -/
def property (i : InstanceId) (name : Name) : Run Value := do
  let m ← get
  let found : Option (Value ⊕ Closure) := do
    let object ← m.instances[i]?
    match object.fields.get? name.text with
    | some v => return .inl v
    | none => return .inr (← m.method? object.classId name.text)
  match found with
  | some (.inl v) => return v
  | some (.inr method) => return .function (← newFunction (← bind method (.object i)))
  | none => fail name.place (.undefinedProperty name.text)

/-- The static method of a class. -/
def staticProperty (c : ClassId) (name : Name) : Run Value := fun m =>
  match m.staticMethod? c name.text with
  | some f => .ok (.function f) m
  | none => fail name.place (.undefinedStaticMethod name.text) m

/-- Sets a field of an instance. -/
def setField (i : InstanceId) (name : String) (v : Value) : Run Unit := fun m =>
  .ok () { m with
    instances := m.instances.modify i fun object =>
      { object with fields := object.fields.insert name v } }

/-!
## The world outside

Output is kept in the state until the run has ended, and the clock is asked by the number of its
readings.
-/

/-- Prints a value on a line of its own. -/
def print (v : Value) : Run Unit := fun m =>
  let line := m.text v ++ "\n"
  .ok () { m with output := m.output ++ line }

/-- Counts a reading of the clock. Gives the number of readings before. -/
def countReading : Run Nat := fun m =>
  .ok m.clockReadings { m with clockReadings := m.clockReadings + 1 }

end Run

end LoxLang
