import LoxLang.Proofs.ClassDeclarations
import LoxLang.Proofs.Correspondence
import LoxLang.Proofs.Likeness
import LoxLang.Proofs.Mirroring

/-!
# Running trees that correspond

A running program sees of its tree neither the lines, which only failures show, nor the numbers of
uses, which only lead to distances. From states that correspond, trees that correspond do the same
(`execute_corresponds`). What was printed before does not matter either.
-/

namespace LoxLang

variable {κ : Correspondence} {before : String} {m m' : Machine}

/-!
## States

States correspond if all is equal in them but the texts of functions and the table, and if the one
has printed something more before.
-/

/-- The same function but for lines and numbers. -/
structure Closure.Corresponds (κ : Correspondence) (c c' : Closure) : Prop where
  name : c.name? = c'.name?
  params : List.Forall₂ (Name.Corresponds κ) c.params c'.params
  body : List.Forall₂ (Stmt.Corresponds κ) c.body c'.body
  frame : c.frame = c'.frame
  isInitializer : c.isInitializer = c'.isInitializer

/-- The same method of the same name. -/
def MethodsCorrespond (κ : Correspondence) (bs bs' : Bindings Closure) : Prop :=
  List.Forall₂ (fun b b' => b.1 = b'.1 ∧ b.2.Corresponds κ b'.2) bs bs'

/-- The same class but for lines and numbers in its methods. -/
structure ClassInfo.Corresponds (κ : Correspondence) (info info' : ClassInfo) : Prop where
  name : info.name = info'.name
  superclass : info.superclass = info'.superclass
  methods : MethodsCorrespond κ info.methods info'.methods
  staticMethods : info.staticMethods = info'.staticMethods

/-- States that hold the same but for lines and numbers in functions. Uses whose numbers go together
have the same distance. In one of the two, some text was printed before. -/
structure Machine.Corresponds (κ : Correspondence) (before : String) (m m' : Machine) : Prop where
  frames : m.frames = m'.frames
  functions : Alike (Closure.Corresponds κ) m.functions m'.functions
  classes : Alike (ClassInfo.Corresponds κ) m.classes m'.classes
  instances : m.instances = m'.instances
  current : m.current = m'.current
  distances : ∀ i i', κ.use i i' → m.distances[i]? = m'.distances[i']?
  output : m'.output = before ++ m.output
  clockReadings : m.clockReadings = m'.clockReadings

/-- Runs that end early for the same reason at places that go together. -/
inductive Abort.Corresponds (κ : Correspondence) : Abort → Abort → Prop
  | failure {p p' : Location} (hp : p.Corresponds κ p') (e : RuntimeError) :
      Corresponds κ (.failure ⟨p, e⟩) (.failure ⟨p', e⟩)
  | frame (e : FrameError) : Corresponds κ (.frame e) (.frame e)
  | tooDeep : Corresponds κ .tooDeep .tooDeep
  | endless : Corresponds κ .endless .endless

/-- Runs that do the same. -/
abbrev Run.Mirror (κ : Correspondence) (before : String) {α : Type} (Q : α → α → Prop)
    (p p' : Run α) : Prop :=
  Mirrors (Machine.Corresponds κ before) (Abort.Corresponds κ) Q p p'

/-!
## Lookups in states

What is looked up in states that correspond is found in both or in neither, and goes together.
-/

/-- A function is made of its text. -/
theorem closureOf_corresponds {f f' : FunctionDecl} (hf : f.Corresponds κ f') (frame : FrameId)
    (isInitializer : Bool) : (Evaluator.closureOf f frame isInitializer).Corresponds κ
      (Evaluator.closureOf f' frame isInitializer) := by
  obtain ⟨hx, hparams, hbody⟩ := hf
  exact ⟨congrArg some hx.text, hparams, hbody, rfl, rfl⟩

/-- Functions that go together have the same name. -/
theorem FunctionDecl.Corresponds.name {f f' : FunctionDecl} (h : f.Corresponds κ f') :
    f.name.text = f'.name.text := by
  obtain ⟨hx, -, -⟩ := h
  exact hx.text

/-- The methods of classes have the same names, in the same order. -/
theorem methods_correspond {fs fs' : List FunctionDecl}
    (h : List.Forall₂ (FunctionDecl.Corresponds κ) fs fs') (frame : FrameId) :
    MethodsCorrespond κ (Evaluator.methods frame fs) (Evaluator.methods frame fs') :=
  methodsAlike_methods (h.imp fun _ _ hf => ⟨hf.name, closureOf_corresponds hf frame⟩)

namespace Machine.Corresponds

variable (h : m.Corresponds κ before m')
include h

/-- All but frames is alike. -/
theorem akin : m.Akin (Closure.Corresponds κ) (Closure.Corresponds κ) m' :=
  ⟨h.functions, h.classes.mono fun _ _ hc => ⟨hc.name, hc.superclass,
    MethodsAlike.get? hc.methods, hc.staticMethods⟩, h.instances⟩

/-- The nearest method of a name is that of the same class. -/
theorem method? (c : ClassId) (x : String) :
    Found (Closure.Corresponds κ) (m.method? c x) (m'.method? c x) := h.akin.method? c x

/-- Static methods are functions, which have the same numbers. -/
theorem staticMethod? (c : ClassId) (x : String) : m.staticMethod? c x = m'.staticMethod? c x :=
  h.akin.staticMethod? c x

/-- Values look the same. -/
theorem text (v : Value) : m.text v = m'.text v := h.akin.text (fun _ _ hc => hc.name) v

end Machine.Corresponds

/-- What is called is the same. -/
inductive Callee.Corresponds (κ : Correspondence) : Callee → Callee → Prop
  | native (n : Native) : Corresponds κ (.native n) (.native n)
  | closure {c c' : Closure} (h : c.Corresponds κ c') : Corresponds κ (.closure c) (.closure c')
  | constructor (c : ClassId) {init? init'? : Option Closure}
      (h : Found (Closure.Corresponds κ) init? init'?) :
      Corresponds κ (.constructor c init?) (.constructor c init'?)

/-- As many arguments are wanted by both. -/
theorem Callee.Corresponds.arity_eq {c c' : Callee} (h : c.Corresponds κ c') :
    c.arity = c'.arity := by
  cases h with
  | native n => rfl
  | closure h => exact h.params.length_eq
  | constructor c h =>
    obtain ⟨rfl, rfl⟩ | ⟨init, init', rfl, rfl, h⟩ := h.cases
    · rfl
    · exact h.params.length_eq

/-- The same can be called in both. -/
theorem Machine.Corresponds.callee? (h : m.Corresponds κ before m') (v : Value) :
    Found (Callee.Corresponds κ) (m.callee? v) (m'.callee? v) :=
  (h.akin.callee? v).imp fun _ _ hc => by
    cases hc with
    | native n => exact .native n
    | closure hc => exact .closure hc
    | constructor c hinit => exact .constructor c hinit

/-!
## Steps

A step and its counterpart end alike from states that correspond: with equal values, or for reasons
that go together.
-/

section Steps

variable {α : Type} {Q : α → α → Prop}

/-- The same failure is told at places that go together. -/
theorem mirror_failAt {p p' : Location} (hp : p.Corresponds κ p') (e : RuntimeError) :
    Run.Mirror κ before Q (Run.fail p e) (Run.fail p' e) := .throw (.failure hp e)

/-- The result was computed without the state. -/
theorem mirror_orFail {p p' : Location} (hp : p.Corresponds κ p') (r : Except RuntimeError α) :
    Run.Mirror κ before Eq (Run.orFail p r) (Run.orFail p' r) := by
  cases r with
  | ok a => exact .pure rfl
  | error e => exact mirror_failAt hp e

/-- Frames have the same numbers in both. -/
theorem mirror_inFrame (f : FrameId) {p p' : Run α} (h : Run.Mirror κ before Q p p') :
    Run.Mirror κ before Q (Run.inFrame f p) (Run.inFrame f p') := by
  intro m m' hm
  have hends := h { m with current := f } { m' with current := f } { hm with current := rfl }
  unfold Run.inFrame
  dsimp only
  generalize p _ = r at hends
  generalize p' _ = r' at hends
  cases hends with
  | ok ha hs => exact .ok ha { hs with current := hm.current }
  | error he hs => exact .error he { hs with current := hm.current }

theorem mirror_currentFrame : Run.Mirror κ before Eq Run.currentFrame Run.currentFrame :=
  fun _ _ h => .ok h.current h

/-- The new frame has the same number in both. -/
theorem mirror_newFrame (f : FrameId) (values : Bindings Value) :
    Run.Mirror κ before Eq (Run.newFrame f values) (Run.newFrame f values) := fun _ _ h =>
  .ok (congrArg Frames.size h.frames) { h with frames := congrArg (Frames.push · _) h.frames }

theorem mirror_defineName (x : String) (v : Value) :
    Run.Mirror κ before Eq (Run.define x v) (Run.define x v) := by
  refine fun m m' h => .ok rfl { h with frames := ?_ }
  show m.frames.define m.current x v = m'.frames.define m'.current x v
  rw [h.frames, h.current]

/-- Numbers of uses that go together have the same distance. -/
theorem mirror_distance? {i i' : UseId} (hi : κ.use i i') :
    Run.Mirror κ before Eq (Run.distance? i) (Run.distance? i') := fun _ _ h =>
  .ok (h.distances i i' hi) h

/-- The same frame is read. -/
theorem mirror_readAt (d : Nat) (f : FrameId) (x : String) :
    Run.Mirror κ before Eq (Run.readAt d f x) (Run.readAt d f x) := by
  intro m m' h
  unfold Run.readAt
  rw [h.frames]
  cases m'.frames.getAt d f x with
  | ok v => exact .ok rfl h
  | error e => exact .error (.frame e) h

/-- The same frame is written. -/
theorem mirror_writeAt (d : Nat) (x : String) (v : Value) :
    Run.Mirror κ before Eq (Run.writeAt d x v) (Run.writeAt d x v) := by
  intro m m' h
  unfold Run.writeAt
  rw [h.frames, h.current]
  cases m'.frames.ancestor? d m'.current with
  | none => exact .error (.frame _) h
  | some f => exact .ok rfl { h with frames := rfl, current := rfl }

/-- The nearest holder is the same frame; a name that is missing is reported where it stands. -/
theorem mirror_readFrom (f : FrameId) {x x' : Name} (hx : x.Corresponds κ x') :
    Run.Mirror κ before Eq (Run.readFrom f x) (Run.readFrom f x') := by
  intro m m' h
  unfold Run.readFrom
  rw [h.frames, hx.text]
  cases m'.frames.get? f x'.text with
  | none => exact .error (.failure hx.place _) h
  | some v => exact .ok rfl h

/-- The nearest holder is the same frame; a name that is missing is reported where it stands. -/
theorem mirror_writeFrom (f : FrameId) {x x' : Name} (hx : x.Corresponds κ x') (v : Value) :
    Run.Mirror κ before Eq (Run.writeFrom f x v) (Run.writeFrom f x' v) := by
  intro m m' h
  unfold Run.writeFrom
  rw [h.frames, hx.text]
  cases m'.frames.holder? f x'.text with
  | none => exact .error (.failure hx.place _) h
  | some g => exact .ok rfl { h with frames := rfl }

/-- By distance or by name, as the table says of both. -/
theorem mirror_readVariable {i i' : UseId} (hi : κ.use i i') {x x' : Name}
    (hx : x.Corresponds κ x') :
    Run.Mirror κ before Eq (Run.readVariable i x) (Run.readVariable i' x') := by
  refine (mirror_distance? hi).bind_same fun d? => ?_
  cases d? with
  | none => exact mirror_readFrom _ hx
  | some d =>
    refine mirror_currentFrame.bind_same fun f => ?_
    rw [hx.text]
    exact mirror_readAt d f x'.text

/-- By distance or by name, as the table says of both. -/
theorem mirror_writeVariable {i i' : UseId} (hi : κ.use i i') {x x' : Name}
    (hx : x.Corresponds κ x') (v : Value) :
    Run.Mirror κ before Eq (Run.writeVariable i x v) (Run.writeVariable i' x' v) := by
  refine (mirror_distance? hi).bind_same fun d? => ?_
  cases d? with
  | none => exact mirror_writeFrom _ hx v
  | some d =>
    dsimp only
    rw [hx.text]
    exact mirror_writeAt d x'.text v

/-- The new functions have the same number, and go together. -/
theorem mirror_newFunction {c c' : Closure} (hc : c.Corresponds κ c') :
    Run.Mirror κ before Eq (Run.newFunction c) (Run.newFunction c') := fun _ _ h =>
  .ok h.functions.size { h with functions := h.functions.push hc }

/-- The new classes have the same number, and go together. -/
theorem mirror_newClass {info info' : ClassInfo} (hinfo : info.Corresponds κ info') :
    Run.Mirror κ before Eq (Run.newClass info) (Run.newClass info') := fun _ _ h =>
  .ok h.classes.size { h with classes := h.classes.push hinfo }

/-- The new instances have the same number. -/
theorem mirror_newInstance (c : ClassId) :
    Run.Mirror κ before Eq (Run.newInstance c) (Run.newInstance c) := fun _ _ h =>
  .ok (congrArg Array.size h.instances)
    { h with instances := congrArg (Array.push · _) h.instances }

/-- Methods that go together are bound in the same frame. -/
theorem mirror_bindMethod {c c' : Closure} (hc : c.Corresponds κ c') (this : Value) :
    Run.Mirror κ before (Closure.Corresponds κ) (Run.bind c this) (Run.bind c' this) := by
  unfold Run.bind
  rw [hc.frame]
  refine (mirror_newFrame _ _).bind_same fun f => .pure ?_
  exact ⟨hc.name, hc.params, hc.body, rfl, hc.isInitializer⟩

/-- A method is bound to an instance and becomes a function. -/
theorem mirror_boundMethod {c c' : Closure} (hc : c.Corresponds κ c') (this : Value) :
    Run.Mirror κ before Eq (do return Value.function (← Run.newFunction (← Run.bind c this)))
      (do return Value.function (← Run.newFunction (← Run.bind c' this))) :=
  (mirror_bindMethod hc this).bind fun _ _ hbound =>
    (mirror_newFunction hbound).bind_same fun _ => .pure rfl

/-- Fields are equal, and methods go together. -/
theorem mirror_property (i : InstanceId) {x x' : Name} (hx : x.Corresponds κ x') :
    Run.Mirror κ before Eq (Run.property i x) (Run.property i x') := by
  refine Mirrors.get.bind fun m m' h => ?_
  rw [h.instances, hx.text]
  cases m'.instances[i]? with
  | none => exact mirror_failAt hx.place _
  | some object =>
    simp only [Option.bind_eq_bind, Option.bind_some]
    cases object.fields.get? x'.text with
    | some v => exact .pure rfl
    | none =>
      obtain ⟨hnone, hnone'⟩ | ⟨c, c', hc, hc', hcc⟩ := (h.method? object.classId x'.text).cases
      · rw [hnone, hnone']
        exact mirror_failAt hx.place _
      · rw [hc, hc']
        exact mirror_boundMethod hcc _

/-- The same function is found. -/
theorem mirror_staticProperty (c : ClassId) {x x' : Name} (hx : x.Corresponds κ x') :
    Run.Mirror κ before Eq (Run.staticProperty c x) (Run.staticProperty c x') := by
  intro m m' h
  unfold Run.staticProperty
  rw [h.staticMethod?, hx.text]
  cases m'.staticMethod? c x'.text with
  | none => exact .error (.failure hx.place _) h
  | some f => exact .ok rfl h

theorem mirror_setField (i : InstanceId) (x : String) (v : Value) :
    Run.Mirror κ before Eq (Run.setField i x v) (Run.setField i x v) := by
  refine fun m m' h => .ok rfl { h with instances := ?_ }
  dsimp only
  rw [h.instances]

/-- Values have the same texts in both. -/
theorem mirror_printValue (v : Value) :
    Run.Mirror κ before Eq (Run.print v) (Run.print v) := by
  refine fun m m' h => .ok rfl { h with output := ?_ }
  show m'.output ++ (m'.text v ++ "\n") = before ++ (m.output ++ (m.text v ++ "\n"))
  rw [h.output, h.text, String.append_assoc]

theorem mirror_countReading :
    Run.Mirror κ before Eq Run.countReading Run.countReading := fun _ _ h =>
  .ok h.clockReadings { h with clockReadings := congrArg (· + 1) h.clockReadings }

end Steps

/-!
## Rules

If the rules one level further in mirror each other on trees that go together, then so do these. The
cases are those of the trees.
-/

/-- The rules one level further in do the same. -/
structure Evaluator.Mirror (κ : Correspondence) (before : String) (inner : Evaluator) : Prop where
  eval : ∀ {e e' : Expr}, e.Corresponds κ e' →
    Run.Mirror κ before Eq (inner.eval e) (inner.eval e')
  exec : ∀ {s s' : Stmt}, s.Corresponds κ s' →
    Run.Mirror κ before Eq (inner.exec s) (inner.exec s')

section Calls

variable {inner : Evaluator} (h : inner.Mirror κ before)
include h

/-- Arguments from left to right. -/
theorem mirror_evalAll {es es' : List Expr} (hes : List.Forall₂ (Expr.Corresponds κ) es es') :
    Run.Mirror κ before Eq (inner.evalAll es) (inner.evalAll es') := by
  induction hes with
  | nil => exact .pure rfl
  | cons he _ ih =>
    exact (h.eval he).bind_same fun v => ih.bind_same fun vs => .pure rfl

/-- Statements up to one that returns. -/
theorem mirror_execAll {ss ss' : List Stmt} (hss : List.Forall₂ (Stmt.Corresponds κ) ss ss') :
    Run.Mirror κ before Eq (inner.execAll ss) (inner.execAll ss') := by
  induction hss with
  | nil => exact .pure rfl
  | cons hs _ ih =>
    refine (h.exec hs).bind_same fun c => ?_
    cases c with
    | normal => exact ih
    | returned v => exact .pure rfl

/-- The bodies of functions that go together do. -/
theorem mirror_callClosure {c c' : Closure} (hc : c.Corresponds κ c') (arguments : List Value) :
    Run.Mirror κ before Eq (inner.callClosure c arguments) (inner.callClosure c' arguments) := by
  -- Frames bind the texts of names, which do not depend on lines.
  have hnames : c.params.map (·.text) = c'.params.map (·.text) := by
    have hparams := hc.params
    generalize c.params = xs at hparams
    generalize c'.params = xs' at hparams
    induction hparams with
    | nil => rfl
    | cons hx _ ih => rw [List.map_cons, List.map_cons, hx.text, ih]
  unfold Evaluator.callClosure Evaluator.callFrame
  rw [hnames, hc.frame]
  refine (mirror_newFrame _ _).bind_same fun f => ?_
  refine (mirror_inFrame f (mirror_execAll h hc.body)).bind_same fun completion => ?_
  unfold Evaluator.callResult
  rw [hc.isInitializer, hc.frame]
  split
  · exact mirror_readAt 0 c'.frame "this"
  · cases completion with
    | normal => exact .pure rfl
    | returned v => exact .pure rfl

/-- Initializers are found in both or in neither. -/
theorem mirror_construct (c : ClassId) {init? init'? : Option Closure}
    (hinit : Found (Closure.Corresponds κ) init? init'?) (arguments : List Value) :
    Run.Mirror κ before Eq (inner.construct c init? arguments)
      (inner.construct c init'? arguments) := by
  refine (mirror_newInstance c).bind_same fun i => ?_
  obtain ⟨rfl, rfl⟩ | ⟨init, init', rfl, rfl, hinit⟩ := hinit.cases
  · exact .pure rfl
  · exact (mirror_bindMethod hinit _).bind fun _ _ hbound =>
      (mirror_callClosure h hbound arguments).bind_same fun _ => .pure rfl

/-- Each kind of callee on its own. -/
theorem mirror_invoke (host : Host) (arguments : List Value) {c c' : Callee}
    (hc : c.Corresponds κ c') : Run.Mirror κ before Eq (inner.invoke host arguments c)
      (inner.invoke host arguments c') := by
  cases hc with
  | native n =>
    exact mirror_countReading.bind_same fun n => .pure rfl
  | closure hc => exact mirror_callClosure h hc arguments
  | constructor c hinit => exact mirror_construct h c hinit arguments

omit h in
/-- Levels run out in both, and the failure is told at places that go together. -/
theorem mirror_guarded {α : Type} {Q : α → α → Prop} {place place' : Location}
    (hplace : place.Corresponds κ place') {p p' : Run α} (hp : Run.Mirror κ before Q p p') :
    Run.Mirror κ before Q (Evaluator.guarded place p) (Evaluator.guarded place' p') := by
  intro m m' hm
  have hends := hp m m' hm
  unfold Evaluator.guarded
  generalize p m = r at hends
  generalize p' m' = r' at hends
  cases hends with
  | ok ha hs => exact .ok ha hs
  | error he hs =>
    cases he with
    | tooDeep => exact .error (.failure hplace _) hs
    | failure hp e => exact .error (.failure hp e) hs
    | frame e => exact .error (.frame e) hs
    | endless => exact .error .endless hs

/-- Both are called with as many arguments as they take, or neither is. -/
theorem mirror_call (host : Host) {place place' : Location} (hplace : place.Corresponds κ place')
    (callee : Value) (arguments : List Value) :
    Run.Mirror κ before Eq (inner.call host place callee arguments)
      (inner.call host place' callee arguments) := by
  refine Mirrors.get.bind fun m m' hm => ?_
  -- Whether something can be called, and with how many arguments, does not depend on its tree.
  obtain ⟨hnone, hnone'⟩ | ⟨c, c', hc, hc', hcc⟩ := (hm.callee? callee).cases
  · rw [hnone, hnone']
    exact mirror_failAt hplace _
  · rw [hc, hc']
    dsimp only
    rw [hcc.arity_eq]
    split
    · exact mirror_guarded hplace (mirror_invoke h host arguments hcc)
    · exact mirror_failAt hplace _

end Calls

section Rules

variable {inner : Evaluator} (h : inner.Mirror κ before) {l l' : Nat} {x x' : Name}
include h

/-- The property of the same object is read. -/
theorem mirror_getExpr {e e' : Expr} (he : e.Corresponds κ e') (hx : x.Corresponds κ x') :
    Run.Mirror κ before Eq (Evaluator.exprSteps.getExpr inner.eval e x)
      (Evaluator.exprSteps.getExpr inner.eval e' x') := by
  refine (h.eval he).bind_same fun v => ?_
  split
  · exact mirror_property _ hx
  · exact mirror_staticProperty _ hx
  · exact mirror_failAt hx.place _

/-- The field of the same instance is set. -/
theorem mirror_setExpr {e e' v v' : Expr} (he : e.Corresponds κ e') (hx : x.Corresponds κ x')
    (hv : v.Corresponds κ v') :
    Run.Mirror κ before Eq (Evaluator.exprSteps.setExpr inner.eval e x v)
      (Evaluator.exprSteps.setExpr inner.eval e' x' v') := by
  refine (h.eval he).bind_same fun u => ?_
  split
  · refine (h.eval hv).bind_same fun u => ?_
    rw [hx.text]
    exact (mirror_setField _ _ u).bind_same fun _ => .pure rfl
  · exact mirror_failAt hx.place _

omit h in
/-- The superclass and the instance are read by the same distances. -/
theorem mirror_superExpr {i i' : UseId} (hi : κ.use i i') (hx : x.Corresponds κ x') :
    Run.Mirror κ before Eq (Evaluator.superExpr i x) (Evaluator.superExpr i' x') := by
  refine (mirror_distance? hi).bind_same fun d? => ?_
  cases d? with
  | none => exact .throw (.frame _)
  | some d =>
    -- The numbers of uses differ, but the distances that the tables hold for them do not.
    refine mirror_currentFrame.bind_same fun f => ?_
    refine (mirror_readAt d f "super").bind_same fun superclass => ?_
    refine mirror_currentFrame.bind_same fun f => ?_
    refine (mirror_readAt (d - 1) f "this").bind_same fun this => ?_
    split
    · refine Mirrors.get.bind fun m m' hm => ?_
      rw [hx.text]
      obtain ⟨hnone, hnone'⟩ | ⟨c, c', hc, hc', hcc⟩ := (hm.method? _ x'.text).cases
      · rw [hnone, hnone']
        exact mirror_failAt hx.place _
      · rw [hc, hc']
        exact mirror_boundMethod hcc this
    · exact .throw (.frame _)

/-- Expressions that go together do the same. -/
theorem mirror_exprRule (host : Host) {e e' : Expr} (he : e.Corresponds κ e') :
    Run.Mirror κ before Eq (inner.exprRule host e) (inner.exprRule host e') := by
  cases he with
  | literal value => exact .pure rfl
  | grouping he => exact h.eval he
  | unary hl he =>
    refine (h.eval he).bind_same fun v => ?_
    refine mirror_orFail ?_ _
    exact .token ⟨rfl, hl⟩
  | binary hl hleft hright =>
    refine (h.eval hleft).bind_same fun v => (h.eval hright).bind_same fun w => ?_
    refine mirror_orFail ?_ _
    exact .token ⟨rfl, hl⟩
  | logical hl hleft hright =>
    refine (h.eval hleft).bind_same fun v => ?_
    exact .ite Iff.rfl (.pure rfl) (h.eval hright)
  | «variable» hu => exact mirror_readVariable hu.id hu.name
  | assign hi hx he =>
    refine (h.eval he).bind_same fun v => ?_
    exact (mirror_writeVariable hi hx v).bind_same fun _ => .pure rfl
  | call hcallee hl hargs =>
    refine (h.eval hcallee).bind_same fun v => (mirror_evalAll h hargs).bind_same fun vs => ?_
    exact mirror_call h host (Mark.corresponds_place _ hl) v vs
  | get he hx => exact mirror_getExpr h he hx
  | set he hx hv => exact mirror_setExpr h he hx hv
  -- The line of a lambda is not kept in the function.
  | lambda _ hparams hbody =>
    refine mirror_currentFrame.bind_same fun f =>
      (mirror_newFunction ?_).bind_same fun _ => .pure rfl
    exact ⟨rfl, hparams, hbody, rfl, rfl⟩
  | this hi hl => exact mirror_readVariable hi ⟨rfl, hl⟩
  | super hi _ hx => exact mirror_superExpr hi hx

/-- Both blocks get a frame. -/
theorem mirror_blockRule {body body' : List Stmt}
    (hbody : List.Forall₂ (Stmt.Corresponds κ) body body') :
    Run.Mirror κ before Eq (inner.block body) (inner.block body') := by
  refine mirror_currentFrame.bind_same fun f => ?_
  refine (mirror_newFrame f []).bind_same fun g => ?_
  exact mirror_inFrame g (mirror_execAll h hbody)

/-- Induction on the iterations that are left. -/
theorem mirror_loop {c c' : Expr} {s s' : Stmt} (hc : c.Corresponds κ c') (hs : s.Corresponds κ s')
    (iterations : Nat) :
    Run.Mirror κ before Eq (Completion.endings.loop inner.eval inner.exec c s iterations)
      (Completion.endings.loop inner.eval inner.exec c' s' iterations) := by
  induction iterations with
  | zero => exact .throw .endless
  | succ iterations ih =>
    refine (h.eval hc).bind_same fun v => ?_
    refine .ite Iff.rfl ((h.exec hs).bind_same fun completion => ?_) (.pure rfl)
    cases completion with
    | normal => exact ih
    | returned v => exact .pure rfl

/-- The same branch is taken. -/
theorem mirror_ifRule {c c' : Expr} {s s' : Stmt} {t t' : Option Stmt} (hc : c.Corresponds κ c')
    (hs : s.Corresponds κ s') (ht : Option.Rel (Stmt.Corresponds κ) t t') :
    Run.Mirror κ before Eq (Completion.endings.ifThen inner.eval inner.exec c s t)
      (Completion.endings.ifThen inner.eval inner.exec c' s' t') := by
  refine (h.eval hc).bind_same fun v => ?_
  refine .ite Iff.rfl (h.exec hs) ?_
  cases ht with
  | none => exact .pure rfl
  | some ht => exact h.exec ht

/-- Both bind the name, to the same value. -/
theorem mirror_varRule (hx : x.Corresponds κ x') {e e' : Option Expr}
    (he : Option.Rel (Expr.Corresponds κ) e e') :
    Run.Mirror κ before Eq (Evaluator.stmtSteps.var inner.eval x e)
      (Evaluator.stmtSteps.var inner.eval x' e') := by
  unfold StmtSteps.var
  rw [hx.text]
  cases he with
  | none => exact mirror_defineName _ _
  | some he =>
    refine (h.eval he).bind_same fun v => ?_
    exact mirror_defineName _ v

omit h in
/-- Both make a function and bind the name. -/
theorem mirror_functionRule {f f' : FunctionDecl} (hf : f.Corresponds κ f') :
    Run.Mirror κ before Eq (Evaluator.function f) (Evaluator.function f') := by
  refine mirror_currentFrame.bind_same fun g => ?_
  refine (mirror_newFunction (closureOf_corresponds hf g false)).bind_same fun i => ?_
  rw [hf.name]
  exact mirror_defineName _ _

omit h in
/-- The same class is the superclass, or the same failure is told. -/
theorem mirror_superclassRule {u u' : VariableUse} (hu : u.Corresponds κ u') :
    Run.Mirror κ before Eq (Evaluator.superclass u) (Evaluator.superclass u') := by
  refine (mirror_readVariable hu.id hu.name).bind_same fun v => ?_
  split
  · exact .pure rfl
  · exact mirror_failAt hu.name.place _

omit h in
/-- As many functions are made. -/
theorem mirror_staticMethods (frame : FrameId) {fs fs' : List FunctionDecl}
    (hfs : List.Forall₂ (FunctionDecl.Corresponds κ) fs fs') :
    Run.Mirror κ before Eq (Evaluator.staticMethods frame fs)
      (Evaluator.staticMethods frame fs') := by
  induction hfs with
  | nil => exact .pure rfl
  | cons hf _ ih =>
    exact (mirror_newFunction (closureOf_corresponds hf frame false)).bind_same fun i =>
      ih.bind_same fun others => .pure (by rw [hf.name])

omit h in
/-- The same frames, functions and class are made, in the same order. -/
theorem mirror_declareClass (hx : x.Corresponds κ x') (parent : Option ClassId)
    {methods methods' statics statics' : List FunctionDecl}
    (hmethods : List.Forall₂ (FunctionDecl.Corresponds κ) methods methods')
    (hstatics : List.Forall₂ (FunctionDecl.Corresponds κ) statics statics') :
    Run.Mirror κ before Eq (Evaluator.declareClass x parent methods statics)
      (Evaluator.declareClass x' parent methods' statics') := by
  have hframe (f : FrameId) : Run.Mirror κ before Eq (Evaluator.methodFrame f parent)
      (Evaluator.methodFrame f parent) := by
    cases parent with
    | none => exact .pure rfl
    | some c => exact mirror_newFrame f _
  rw [Evaluator.declareClass_eq, Evaluator.declareClass_eq]
  unfold Evaluator.classBody
  rw [hx.text]
  -- In the order of evaluation: the name, the static methods, the frame of the methods, the class.
  refine (mirror_defineName _ _).bind_same fun _ => mirror_currentFrame.bind_same fun f => ?_
  refine (mirror_staticMethods f hstatics).bind_same fun ids => ?_
  refine (hframe f).bind_same fun g => ?_
  refine (mirror_newClass ?_).bind_same fun c => mirror_writeFrom f hx _
  exact ⟨rfl, rfl, methods_correspond hmethods g, rfl⟩

omit h in
/-- A superclass is named in both or in neither. -/
theorem mirror_classRule (hx : x.Corresponds κ x') {parent parent' : Option VariableUse}
    {methods methods' statics statics' : List FunctionDecl}
    (hparent : Option.Rel (VariableUse.Corresponds κ) parent parent')
    (hmethods : List.Forall₂ (FunctionDecl.Corresponds κ) methods methods')
    (hstatics : List.Forall₂ (FunctionDecl.Corresponds κ) statics statics') :
    Run.Mirror κ before Eq (Evaluator.classDecl x parent methods statics)
      (Evaluator.classDecl x' parent' methods' statics') := by
  cases hparent with
  | none => exact mirror_declareClass hx none hmethods hstatics
  | some hu =>
    refine (mirror_superclassRule hu).bind_same fun c => ?_
    exact mirror_declareClass hx (some c) hmethods hstatics

omit h in
/-- Both end normally, if they end. -/
theorem mirror_normally {α : Type} {Q : α → α → Prop} {p p' : Run α}
    (hp : Run.Mirror κ before Q p p') :
    Run.Mirror κ before Eq (Completion.endings.normally p) (Completion.endings.normally p') :=
  hp.bind fun _ _ _ => .pure rfl

/-- Statements that go together do the same. -/
theorem mirror_stmtRule (host : Host) {s s' : Stmt} (hs : s.Corresponds κ s') :
    Run.Mirror κ before Eq (inner.stmtRule host s) (inner.stmtRule host s') := by
  cases hs with
  | expression he => exact mirror_normally (h.eval he)
  | print he => exact mirror_normally ((h.eval he).bind_same mirror_printValue)
  | var hx he => exact mirror_normally (mirror_varRule h hx he)
  | block hbody => exact mirror_blockRule h hbody
  | ifThen hc hs ht => exact mirror_ifRule h hc hs ht
  | whileDo hc hs => exact mirror_loop h hc hs host.iterations
  | function hf => exact mirror_normally (mirror_functionRule hf)
  | returnValue _ he =>
    cases he with
    | none => exact .pure rfl
    | some he => exact (h.eval he).bind_same fun _ => .pure rfl
  | classDecl hx hparent hmethods hstatics =>
    exact mirror_normally (mirror_classRule hx hparent hmethods hstatics)

end Rules

/-!
## Programs

Induction on the levels of nesting, and then on the statements of a program.
-/

/-- At each depth, trees that go together do the same. -/
theorem mirror_evaluator (host : Host) (depth : Nat) :
    (evaluator host depth).Mirror κ before := by
  -- By induction on the nesting that is allowed for: a rule runs its parts one level further in.
  induction depth with
  | zero => exact ⟨fun _ => .throw .tooDeep, fun _ => .throw .tooDeep⟩
  | succ depth ih => exact ⟨mirror_exprRule ih host, mirror_stmtRule ih host⟩

/-- **Programs that correspond do the same.** -/
theorem execute_corresponds (host : Host) (depth : Nat) {ss ss' : List Stmt}
    (h : List.Forall₂ (Stmt.Corresponds κ) ss ss') :
    Run.Mirror κ before Eq (execute host depth ss) (execute host depth ss') :=
  .forM h fun _ _ hs => ((mirror_evaluator host depth).exec hs).bind_same fun _ => .pure rfl

end LoxLang
