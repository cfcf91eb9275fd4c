import LoxLang.Proofs.Homes.Rules

/-!
# The functions that a program holds

Every function that a program can hold has come about in one of a few ways (`Machine.Origin`): a
function declaration, a lambda or the declaration of a static method has made it, or it is a method
that has been bound to an instance. A method that is not bound is in the table of its class and
nowhere else.

This is part of an invariant of states (`Machine.Genuine`): all values that are held in variables
and fields are there, all functions have an origin, and what a frame holds as `this` is an instance.
It speaks of what is written in the programs so far (`Belongs`).
-/

namespace LoxLang

open Homed (Extends)

/-!
## The functions of a text

Each function that stands in a text, with the way in which it was written: this is what tells a
method from a static method, and a declaration from a lambda. Functions in the bodies of others are
listed with them.
-/

/-- A function as it is written down. -/
inductive FunctionText where
  | named (f : FunctionDecl)
  | lambda (params : List Name) (body : List Stmt)
  | method (f : FunctionDecl)
  | staticMethod (f : FunctionDecl)

mutual

/-- The functions in an expression. -/
@[simp] def Expr.functions : Expr → List FunctionText
  | .literal _ | .«variable» _ | .this _ _ | .super _ _ _ => []
  | .grouping e => e.functions
  | .unary _ _ e => e.functions
  | .binary _ _ left right => left.functions ++ right.functions
  | .logical _ _ left right => left.functions ++ right.functions
  | .assign _ _ value => value.functions
  | .call callee _ arguments => callee.functions ++ exprsFunctions arguments
  | .get object _ => object.functions
  | .set object _ value => value.functions ++ object.functions
  | .lambda _ params body => .lambda params body :: stmtsFunctions body

/-- The functions in a statement. -/
@[simp] def Stmt.functions : Stmt → List FunctionText
  | .expression e => e.functions
  | .print e => e.functions
  | .var _ none => []
  | .var _ (some e) => e.functions
  | .block body => stmtsFunctions body
  | .ifThen condition s none => condition.functions ++ s.functions
  | .ifThen condition s (some t) => condition.functions ++ (s.functions ++ t.functions)
  | .whileDo condition s => condition.functions ++ s.functions
  | .function f => .named f :: f.functions
  | .returnValue _ none => []
  | .returnValue _ (some e) => e.functions
  | .classDecl _ _ methods staticMethods =>
    functionsIn .staticMethod staticMethods ++ functionsIn .method methods

/-- The functions in the body of a function. -/
@[simp] def FunctionDecl.functions : FunctionDecl → List FunctionText
  | ⟨_, _, body⟩ => stmtsFunctions body

/-- The functions in expressions. -/
@[simp] def exprsFunctions : List Expr → List FunctionText
  | [] => []
  | e :: es => e.functions ++ exprsFunctions es

/-- The functions in statements. -/
@[simp] def stmtsFunctions : List Stmt → List FunctionText
  | [] => []
  | s :: ss => s.functions ++ stmtsFunctions ss

/-- Functions of one kind, with those in their bodies. -/
@[simp] def functionsIn (kind : FunctionDecl → FunctionText) : List FunctionDecl → List FunctionText
  | [] => []
  | f :: fs => kind f :: (f.functions ++ functionsIn kind fs)

end

theorem FunctionDecl.functions_eq (f : FunctionDecl) : f.functions = stmtsFunctions f.body := by
  cases f
  rfl

/-- A piece of text belongs to some programs: its names are no keywords, and its functions are among
those of the programs. -/
structure Belongs (F : FunctionText → Prop) (os : List Occurrence) (fs : List FunctionText) :
    Prop where
  written : ∀ o ∈ os, o.Written
  known : ∀ f ∈ fs, F f

namespace Belongs

variable {F F' : FunctionText → Prop} {os os' : List Occurrence} {o : Occurrence}
  {fs fs' : List FunctionText} {f : FunctionText}

theorem left (h : Belongs F (os ++ os') (fs ++ fs')) : Belongs F os fs :=
  ⟨fun o ho => h.written o (List.mem_append_left _ ho),
    fun f hf => h.known f (List.mem_append_left _ hf)⟩

theorem right (h : Belongs F (os ++ os') (fs ++ fs')) : Belongs F os' fs' :=
  ⟨fun o ho => h.written o (List.mem_append_right _ ho),
    fun f hf => h.known f (List.mem_append_right _ hf)⟩

theorem head (h : Belongs F (o :: os) fs) : o.Written := h.written o List.mem_cons_self

theorem tail (h : Belongs F (o :: os) fs) : Belongs F os fs :=
  ⟨fun o ho => h.written o (List.mem_cons_of_mem _ ho), h.known⟩

theorem first (h : Belongs F os (f :: fs)) : F f := h.known f List.mem_cons_self

theorem others (h : Belongs F os (f :: fs)) : Belongs F os fs :=
  ⟨h.written, fun f hf => h.known f (List.mem_cons_of_mem _ hf)⟩

theorem front (h : Belongs F (os ++ os') fs) : Belongs F os fs :=
  ⟨fun o ho => h.written o (List.mem_append_left _ ho), h.known⟩

theorem back (h : Belongs F (os ++ os') fs) : Belongs F os' fs :=
  ⟨fun o ho => h.written o (List.mem_append_right _ ho), h.known⟩

theorem mono (h : Belongs F os fs) (hF : ∀ f, F f → F' f) : Belongs F' os fs :=
  ⟨h.written, fun f hf => hF f (h.known f hf)⟩

end Belongs

/-!
## States

The invariant says of each place where a value can be held that what it holds is there, and of each
function how it has come about. What stays from a state to a later one is said besides (`Later`),
since values outlive the state in which they were made.
-/

namespace Machine

variable (F : FunctionText → Prop) (m : Machine)

/-- How a function has come about. -/
inductive Origin (c : Closure) : Prop
  | named (f : FunctionDecl) (hf : F (.named f))
      (hc : c = Evaluator.closureOf f c.frame false) : Origin c
  | lambda (params : List Name) (body : List Stmt) (hf : F (.lambda params body))
      (hc : c = ⟨none, params, body, c.frame, false⟩) : Origin c
  | staticMethod (f : FunctionDecl) (hf : F (.staticMethod f))
      (hc : c = Evaluator.closureOf f c.frame false) : Origin c
  /-- A method of a class, with a frame around it that holds the instance it is bound to. -/
  | bound (k : ClassId) (info : ClassInfo) (x : String) (method : Closure) (i : InstanceId)
      (hclass : m.classes[k]? = some info) (hmethod : info.methods.get? x = some method)
      (hc : c = { method with frame := c.frame })
      (hlink : m.frames.enclosing? c.frame = some method.frame)
      (hthis : m.frames.local? c.frame "this" = some (.object i)) : Origin c

/-- What is written in a function belongs to the programs. -/
def Written (c : Closure) : Prop :=
  ∃ S, Belongs F (bodyOccurrences S c.params c.body) (stmtsFunctions c.body)

/-- What holds of the states of a running program. -/
structure Genuine : Prop where
  held : ∀ f x v, m.frames.local? f x = some v → m.Holds v
  receivers : ∀ f v, m.frames.local? f "this" = some v → ∃ i, v = .object i
  fields : ∀ (i : InstanceId) object x v, m.instances[i]? = some object →
    object.fields.get? x = some v → m.Holds v
  functions : ∀ (id : FunctionId) c, m.functions[id]? = some c → m.Origin F c ∧ Written F c
  staticMethods : ∀ (k : ClassId) info x id, m.classes[k]? = some info →
    info.staticMethods.get? x = some id → id < m.functions.size
  methods : ∀ (k : ClassId) info x c, m.classes[k]? = some info →
    info.methods.get? x = some c → (∃ f, F (.method f) ∧
      c = Evaluator.closureOf f c.frame (f.name.text = initializerName)) ∧ Written F c

/-- A later state: frames keep their links and what they hold as `this` and `super`; functions and
classes stay what they are; and no instance vanishes. -/
structure Later (m m' : Machine) : Prop where
  frames : Extends m.frames m'.frames
  functions : ∀ {id : FunctionId} {c}, m.functions[id]? = some c → m'.functions[id]? = some c
  classes : ∀ {k : ClassId} {info}, m.classes[k]? = some info → m'.classes[k]? = some info
  instances : m.instances.size ≤ m'.instances.size

variable {F} {m} {m' m'' : Machine}

namespace Later

theorem refl (m : Machine) : Later m m := ⟨.refl _, id, id, Nat.le_refl _⟩

theorem trans (h : Later m m') (h' : Later m' m'') : Later m m'' :=
  ⟨h.frames.trans h'.frames, fun hc => h'.functions (h.functions hc),
    fun hk => h'.classes (h.classes hk), Nat.le_trans h.instances h'.instances⟩

theorem lt_functions (h : Later m m') {id : FunctionId} (hid : id < m.functions.size) :
    id < m'.functions.size :=
  (Array.getElem?_eq_some_iff.mp (h.functions (Array.getElem?_eq_getElem hid))).1

theorem holds (h : Later m m') {v : Value} (hv : m.Holds v) : m'.Holds v := by
  cases v with
  | function id => exact h.lt_functions hv
  | «class» k => exact (Array.getElem?_eq_some_iff.mp (h.classes (Array.getElem?_eq_getElem hv))).1
  | object i => exact Nat.lt_of_lt_of_le hv h.instances
  | _ => trivial

theorem origin (h : Later m m') {c : Closure} (hc : m.Origin F c) : m'.Origin F c := by
  cases hc with
  | named f hf hc => exact .named f hf hc
  | lambda params body hf hc => exact .lambda params body hf hc
  | staticMethod f hf hc => exact .staticMethod f hf hc
  | bound k info x method i hclass hmethod hc hlink hthis =>
    exact .bound k info x method i (h.classes hclass) hmethod hc (h.frames.enclosing hlink)
      (h.frames.hidden not_isName_this hthis)

end Later

theorem Origin.mono {F' : FunctionText → Prop} {c : Closure} (h : m.Origin F c)
    (hF : ∀ f, F f → F' f) : m.Origin F' c := by
  cases h with
  | named f hf hc => exact .named f (hF _ hf) hc
  | lambda params body hf hc => exact .lambda params body (hF _ hf) hc
  | staticMethod f hf hc => exact .staticMethod f (hF _ hf) hc
  | bound k info x method i hclass hmethod hc hlink hthis =>
    exact .bound k info x method i hclass hmethod hc hlink hthis

theorem Written.mono {F' : FunctionText → Prop} {c : Closure} (h : Written F c)
    (hF : ∀ f, F f → F' f) : Written F' c := by
  obtain ⟨S, h⟩ := h
  exact ⟨S, h.mono hF⟩

/-- Only what is bound is an initializer. -/
theorem Origin.receiver {c : Closure} (h : m.Origin F c) (hinit : c.isInitializer = true) :
    ∃ i, m.frames.local? c.frame "this" = some (.object i) := by
  cases h with
  | bound k info x method i hclass hmethod hc hlink hthis => exact ⟨i, hthis⟩
  | named f hf hc | staticMethod f hf hc | lambda params body hf hc =>
    rw [hc] at hinit
    cases hinit

/-- The first state of a session holds a native function, and nothing else. -/
theorem local?_initial {f : FrameId} {x : String} {v : Value}
    (hv : Machine.initial.frames.local? f x = some v) : x = "clock" ∧ v = .native .clock := by
  unfold Machine.initial at hv
  rw [Frames.local?_push] at hv
  split at hv
  · unfold Native.all at hv
    simp only [List.map_cons, List.map_nil, Bindings.get?] at hv
    split at hv
    · next hx => exact ⟨hx.symm, (Option.some.inj hv).symm⟩
    · cases hv
  · cases hv

namespace Genuine

theorem mono {F' : FunctionText → Prop} (h : m.Genuine F) (hF : ∀ f, F f → F' f) :
    m.Genuine F' where
  held := h.held
  receivers := h.receivers
  fields := h.fields
  functions id c hc := ⟨(h.functions id c hc).1.mono hF, (h.functions id c hc).2.mono hF⟩
  staticMethods := h.staticMethods
  methods k info x c hinfo hx := by
    obtain ⟨⟨f, hf, hc⟩, hwritten⟩ := h.methods k info x c hinfo hx
    exact ⟨⟨f, hF _ hf, hc⟩, hwritten.mono hF⟩

/-- A later state is genuine if what is new in it is. -/
theorem later (h : m.Genuine F) (hlater : Later m m')
    (hheld : ∀ f x v, m'.frames.local? f x = some v →
      m.frames.local? f x = some v ∨ m'.Holds v ∧ (x = "this" → ∃ i, v = .object i))
    (hfields : ∀ (i : InstanceId) object x v, m'.instances[i]? = some object →
      object.fields.get? x = some v → m'.Holds v)
    (hfunctions : ∀ (id : FunctionId) c, m'.functions[id]? = some c →
      m.functions[id]? = some c ∨ m'.Origin F c ∧ Written F c)
    (hclasses : ∀ (k : ClassId) info, m'.classes[k]? = some info → m.classes[k]? = some info ∨
      (∀ x id, info.staticMethods.get? x = some id → id < m'.functions.size) ∧
        ∀ x c, info.methods.get? x = some c → (∃ f, F (.method f) ∧
          c = Evaluator.closureOf f c.frame (f.name.text = initializerName)) ∧ Written F c) :
    m'.Genuine F where
  held f x v hv := by
    rcases hheld f x v hv with hv | hv
    · exact hlater.holds (h.held f x v hv)
    · exact hv.1
  receivers f v hv := by
    rcases hheld f "this" v hv with hv | hv
    · exact h.receivers f v hv
    · exact hv.2 rfl
  fields := hfields
  functions id c hc := by
    rcases hfunctions id c hc with hc | hc
    · exact ⟨hlater.origin (h.functions id c hc).1, (h.functions id c hc).2⟩
    · exact hc
  staticMethods k info x id hk hx := by
    rcases hclasses k info hk with hk | hk
    · exact hlater.lt_functions (h.staticMethods k info x id hk hx)
    · exact hk.1 x id hx
  methods k info x c hk hx := by
    rcases hclasses k info hk with hk | hk
    · exact h.methods k info x c hk hx
    · exact hk.2 x c hx

/-- Only frames are new in a later state. -/
theorem frames (h : m.Genuine F) {fs : Frames Value} (hlater : Later m { m with frames := fs })
    (hheld : ∀ f x v, fs.local? f x = some v →
      m.frames.local? f x = some v ∨ m.Holds v ∧ (x = "this" → ∃ i, v = .object i)) :
    { m with frames := fs }.Genuine F := by
  refine h.later hlater (fun f x v hv => ?_) (fun i object x v hi hx => h.fields i object x v hi hx)
    (fun _ _ hc => .inl hc) fun _ _ hk => .inl hk
  exact (hheld f x v hv).imp_right fun ⟨hv, hthis⟩ => ⟨hlater.holds hv, hthis⟩

/-- The same frames, functions, classes and instances. -/
theorem congr (h : m.Genuine F) (m' : Machine) (hframes : m'.frames = m.frames)
    (hfunctions : m'.functions = m.functions) (hclasses : m'.classes = m.classes)
    (hinstances : m'.instances = m.instances) : m'.Genuine F ∧ Later m m' := by
  have hlater : Later m m' := ⟨hframes ▸ .refl _, fun hc => hfunctions ▸ hc,
    fun hk => hclasses ▸ hk, hinstances ▸ Nat.le_refl _⟩
  refine ⟨h.later hlater (fun f x v hv => .inl (hframes ▸ hv)) (fun i object x v hi hx => ?_)
    (fun id c hc => .inl (hfunctions ▸ hc)) fun k info hk => .inl (hclasses ▸ hk), hlater⟩
  exact hlater.holds (h.fields i object x v (hinstances ▸ hi) hx)

theorem initial : Machine.initial.Genuine F := by
  refine ⟨fun f x v hv => ?_, fun f v hv => ?_, fun _ _ _ _ h => (by cases h),
    fun _ _ h => (by cases h), fun _ _ _ _ h => (by cases h), fun _ _ _ _ h => (by cases h)⟩
  · obtain ⟨-, rfl⟩ := local?_initial hv
    trivial
  · exact absurd (local?_initial hv).1 (by decide)

end Genuine

end Machine

end LoxLang
