import LoxLang.Proofs.Depth.Sessions

/-!
# The protocol of calls

Evaluation in which calls are carried out as they are meant. An instance that is constructed is
given back by the construction itself, whatever its initializer does, and the initializer is looked
up where it is run. The instance that an initializer is bound to is looked up before its body runs,
and given back afterwards, whatever the body gives. And something may be done when an instance has
been made, and when the body of a function is entered: what is done may look at the state and end
the run.

What the protocol says of these moments (`Moment.Proper`) speaks of states only. So it is said by
evaluation with a watch that lets proper moments pass, if that is evaluation as ever.
-/

namespace LoxLang

/-!
## Chains of classes

The nearest among a class and its superclasses, described by the links themselves. Plain evaluation
follows a link only if it leads to an older class. In an orderly state all of them do, so the lookup
finds what is described (`Orderly.nearest`).
-/

namespace Machine

/-- What the nearest class holds among a class and its superclasses, along all links. -/
inductive Nearest {α : Type} (m : Machine) (own? : ClassInfo → Option α) :
    ClassId → Option α → Prop
  | own {c : ClassId} {info : ClassInfo} {a : α} (hclass : m.classes[c]? = some info)
      (hown : own? info = some a) : Nearest m own? c (some a)
  | inherited {c d : ClassId} {info : ClassInfo} {found : Option α}
      (hclass : m.classes[c]? = some info) (hown : own? info = none)
      (hsuper : info.superclass = some d) (h : Nearest m own? d found) : Nearest m own? c found
  | nowhere {c : ClassId} {info : ClassInfo} (hclass : m.classes[c]? = some info)
      (hown : own? info = none) (hsuper : info.superclass = none) : Nearest m own? c none

/-- Superclasses are older than their subclasses, and methods of the name for it initialize. -/
structure Orderly (m : Machine) : Prop where
  older : ∀ (c : ClassId) info d, m.classes[c]? = some info → info.superclass = some d → d < c
  initializers : ∀ (c : ClassId) info method, m.classes[c]? = some info →
    info.methods.get? initializerName = some method → method.isInitializer = true

variable {m m' : Machine} {α : Type} {own? : ClassInfo → Option α} {c : ClassId}

theorem Orderly.congr (h : m.Orderly) (hclasses : m'.classes = m.classes) : m'.Orderly :=
  ⟨fun c info d hc => h.older c info d (hclasses ▸ hc),
    fun c info method hc => h.initializers c info method (hclasses ▸ hc)⟩

/-- Where superclasses are older, looking through a class and its superclasses leaves none out. -/
theorem Orderly.nearest (h : m.Orderly) (hc : c < m.classes.size) :
    m.Nearest own? c (m.inClasses? own? c) := by
  -- Along the chain the numbers of classes go down.
  induction c using Nat.strongRecOn with
  | ind c ih =>
  have hclass : m.classes[c]? = some m.classes[c] := Array.getElem?_eq_getElem hc
  rw [inClasses?, inLineage?, hclass]
  dsimp only
  cases hown : own? m.classes[c] with
  | some a => exact .own hclass hown
  | none =>
    cases hsuper : m.classes[c].superclass with
    | none => exact .nowhere hclass hown hsuper
    | some d =>
      have hd : d < c := h.older c _ d hclass hsuper
      simp only [hd, if_true]
      exact .inherited hclass hown hsuper (ih d hd (Nat.lt_trans hd hc))

theorem inClasses?_congr (hclasses : m'.classes = m.classes) (c : ClassId) :
    m'.inClasses? own? c = m.inClasses? own? c := by
  rw [inClasses?, inClasses?, hclasses]

end Machine

namespace Protocol

/-! ## Moments of a call -/

/-- The moments of calls at which something may be done. -/
inductive Moment where
  /-- An instance of a class has been made, and is now initialized by a method, or not at all. -/
  | creation (k : ClassId) (i : InstanceId) (initializer : Option Closure) (arguments : List Value)
  /-- The body of a function is entered. -/
  | entry (c : Closure) (arguments : List Value)

/-- An instance that has just been made. Nothing refers to it, and the method that will initialize
it is the nearest among those of its class and the superclasses, if there is one. So many arguments
are given as it takes. -/
structure Creates (m : Machine) (k : ClassId) (i : InstanceId) (initializer : Option Closure)
    (arguments : List Value) : Prop where
  made : m.instances[i]? = some ⟨k, []⟩
  unbound : ∀ f x, m.frames.local? f x ≠ some (.object i)
  unstored : ∀ (j : InstanceId) object x, m.instances[j]? = some object →
    object.fields.get? x ≠ some (.object i)
  nearest : m.Nearest (·.methods.get? initializerName) k initializer
  arity : arguments.length = (Callee.constructor k initializer).arity

/-- The body of a function is entered with as many arguments as the function has parameters, in a
frame that binds each parameter to its argument, and nothing else. An initializer is bound to an
instance; and what is bound of a method of the name for it is an initializer. -/
structure Enters (m : Machine) (c : Closure) (arguments : List Value) : Prop where
  arity : arguments.length = c.params.length
  distinct : (c.params.map (·.text)).Nodup
  frame : m.frames.frame? m.current = some ⟨(c.params.map (·.text)).zip arguments, some c.frame⟩
  receiver : c.isInitializer = true → ∃ i, m.frames.local? c.frame "this" = some (.object i)
  initializer : ∀ (k : ClassId) info method, m.classes[k]? = some info →
    info.methods.get? initializerName = some method → c = { method with frame := c.frame } →
    c.isInitializer = true

/-- What the protocol says of a moment. -/
def Moment.Proper (m : Machine) : Moment → Prop
  | creation k i initializer arguments => Creates m k i initializer arguments
  | entry c arguments => Enters m c arguments

/-!
## Rules

Only the rules for calls are written anew. All others are the plain ones, with calls by the protocol
put in where an expression calls something.
-/

section Rules

variable (host : Host) (watch : Moment → Run Unit) (inner : Evaluator)

/-- Executes the body of a function. -/
def body (c : Closure) (arguments : List Value) : Run Completion := do
  let frame ← Evaluator.callFrame c arguments
  Run.inFrame frame do
    watch (.entry c arguments)
    inner.execAll c.body

/-- Calls a function. An initializer gives the instance that it was bound to before its body ran,
whatever the body gives. -/
def callClosure (c : Closure) (arguments : List Value) : Run Value := do
  if c.isInitializer then
    -- From here on nothing that the body does can change what is given.
    let this ← Run.readAt 0 c.frame "this"
    let _ ← body watch inner c arguments
    return this
  else
    match ← body watch inner c arguments with
    | .normal => return .nil
    | .returned v => return v

/-- Makes an instance of a class, and runs the initializer that the class has on it, if any. The
instance is given back whatever the initializer gives. -/
def construct (k : ClassId) (arguments : List Value) : Run Value := do
  let i ← Run.newInstance k
  -- When the arguments were counted, the initializer was looked up without the instance.
  let initializer := (← get).initializer? k
  watch (.creation k i initializer arguments)
  match initializer with
  | none => return .object i
  | some init => do
    let bound ← Run.bind init (.object i)
    let _ ← body watch inner bound arguments
    return .object i

/-- Calls something with as many arguments as it takes. -/
def invoke (arguments : List Value) : Callee → Run Value
  | .native n => Evaluator.callNative host n
  | .closure c => callClosure watch inner c arguments
  | .constructor k _ => construct watch inner k arguments

/-- Calls a value. Unless it takes that many arguments, nothing of it is executed. -/
def call (place : Location) (callee : Value) (arguments : List Value) : Run Value := do
  match (← get).callee? callee with
  | none => Run.fail place .notCallable
  | some callee =>
    if arguments.length = callee.arity then
      Evaluator.guarded place (invoke host watch inner arguments callee)
    else
      Run.fail place (.argumentCount callee.arity arguments.length)

/-- Evaluates an expression. Only calls are evaluated otherwise than ever. -/
def exprRule : Expr → Run Value :=
  Evaluator.exprSteps.rule inner.eval (call host watch inner)

/-- The rules around rules one level further in. -/
def around : Evaluator where
  eval := exprRule host watch inner
  exec := inner.stmtRule host

end Rules

/-- Evaluation by the protocol with at most `depth` levels of nesting. -/
def evaluator (host : Host) (watch : Moment → Run Unit) : Nat → Evaluator
  | 0 => .innermost
  | depth + 1 => around host watch (evaluator host watch depth)

/-- Leads a session through steps in which programs are evaluated by the protocol. -/
def play (host : Host) (watch : Moment → Run Unit) (depth : Nat) :
    Session → List SessionStep → List Transcript × Session :=
  playSteps (Session.runBy ⟨grammar depth, scopeWalk depth, evaluator host watch depth⟩)
    Session.reset

end Protocol

end LoxLang
