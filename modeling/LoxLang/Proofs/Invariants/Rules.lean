import LoxLang.Proofs.Invariants
import LoxLang.Proofs.Sessions

/-!
# Evaluation keeps invariants

One lemma for each rule of evaluation: if the rules one level further in agree on whatever belongs
to the programs, then so do the rules around them. By induction on the levels, evaluation keeps each
maintained invariant (`Maintained.watchedEvaluator`), also under a watch that may end the run at any
moment.

Calls are kept apart from other expressions (`otherRule`, `callRule`), for evaluators that carry
calls out in another way.
-/

namespace LoxLang

/-! ## The parts of what is evaluated -/

section Parts

variable {P : Part → Prop}

/-- Parts of a whole that consists of two. -/
theorem parts_append {ps qs : List Part} (h : ∀ p ∈ ps ++ qs, P p) :
    (∀ p ∈ ps, P p) ∧ ∀ p ∈ qs, P p :=
  List.forall_mem_append.mp h

theorem parts_head {p : Part} {ps : List Part} (h : ∀ q ∈ p :: ps, P q) : P p :=
  (List.forall_mem_cons.mp h).1

theorem parts_tail {p : Part} {ps : List Part} (h : ∀ q ∈ p :: ps, P q) : ∀ q ∈ ps, P q :=
  (List.forall_mem_cons.mp h).2

/-- The body of a member belongs to the programs if the members do. -/
theorem parts_of_mem {fs : List FunctionDecl} (h : ∀ p ∈ membersParts fs, P p) {f : FunctionDecl}
    (hf : f ∈ fs) : ∀ p ∈ stmtsParts f.body, P p := by
  induction fs with
  | nil => cases hf
  | cons g fs ih =>
    rw [membersParts, FunctionDecl.parts_eq] at h
    obtain ⟨hg, hfs⟩ := parts_append (parts_tail h)
    rcases List.mem_cons.mp hf with rfl | hf
    · exact hg
    · exact ih hfs hf

end Parts

/-! ## Operators

What operators give refers to nothing. -/

namespace Evaluator

theorem holds_unary {op : UnaryOperator} {v w : Value} (hw : op.apply v = .ok w) (m : Machine) :
    m.Holds w := by
  cases op with
  | not =>
    cases hw
    trivial
  | negate =>
    cases v with
    | number x =>
      cases hw
      trivial
    | _ => cases hw

theorem holds_onNumbers {f : Float → Float → Value} {u v w : Value} {m : Machine}
    (hw : u.onNumbers f v = .ok w) (hf : ∀ x y, m.Holds (f x y)) : m.Holds w := by
  unfold Value.onNumbers at hw
  cases hxy : u.requireNumbers v with
  | error e =>
    rw [hxy] at hw
    cases hw
  | ok xy =>
    rw [hxy] at hw
    cases hw
    exact hf xy.1 xy.2

theorem holds_add {u v w : Value} (hw : u.add v = .ok w) (m : Machine) : m.Holds w := by
  unfold Value.add at hw
  split at hw <;> cases hw <;> trivial

theorem holds_binary {op : BinaryOperator} {u v w : Value} (hw : op.apply u v = .ok w)
    (m : Machine) : m.Holds w := by
  unfold BinaryOperator.apply at hw
  cases op with
  | notEqual | equal =>
    cases hw
    trivial
  | add => exact holds_add hw m
  | _ => exact holds_onNumbers hw fun _ _ => trivial

/-- A call consists of the run of the body and what the call gives. -/
theorem callClosure_eq (inner : Evaluator) (c : Closure) (arguments : List Value) :
    inner.callClosure c arguments = (do
      let frame ← callFrame c arguments
      Run.inFrame frame (inner.execAll c.body)) >>= callResult c := by
  rw [bind_assoc]
  rfl

/-- Each static method is made into a function under its name, in the order of the text. -/
theorem staticMethods_made (frame : FrameId) (ds : List FunctionDecl) (m : Machine) :
    ∃ ids functions, staticMethods frame ds m = .ok ids { m with functions } ∧
      (∀ (id : FunctionId) c, m.functions[id]? = some c → functions[id]? = some c) ∧
      List.Forall₂ (fun d b => b.1 = d.name.text ∧
        functions[b.2]? = some (closureOf d frame false)) ds ids := by
  induction ds generalizing m with
  | nil => exact ⟨[], m.functions, rfl, fun _ _ h => h, .nil⟩
  | cons d ds ih =>
    obtain ⟨ids, functions, hrest, hkept, hmade⟩ :=
      ih { m with functions := m.functions.push (closureOf d frame false) }
    refine ⟨(d.name.text, m.functions.size) :: ids, functions, Run.bind_of_ok hrest,
      fun id c hc => hkept id c ?_, .cons ⟨rfl, hkept _ _ Array.getElem?_push_size⟩ hmade⟩
    show (m.functions.push _)[id]? = some c
    rw [Array.getElem?_push, if_neg (Nat.ne_of_lt (Array.getElem?_eq_some_iff.mp hc).1)]
    exact hc

/-- The functions that were made for static methods are still there behind the frame of methods. -/
theorem functions_methodFrame {f g : FrameId} {parent : Option ClassId} {m m' : Machine}
    (h : methodFrame f parent m = .ok g m') : m'.functions = m.functions := by
  cases parent <;> cases h <;> rfl

end Evaluator

namespace Invariant

/-- Two evaluators agree on whatever belongs to the programs. -/
structure Agreement (I : Invariant) (inner' inner : Evaluator) : Prop where
  eval : ∀ {m e}, (∀ p ∈ e.parts, I.known p) →
    I.Agrees m (inner'.eval e) (inner.eval e) I.value
  exec : ∀ {m s}, (∀ p ∈ s.parts, I.known p) →
    I.Agrees m (inner'.exec s) (inner.exec s) I.completion

variable {I : Invariant} {m : Machine} {host : Host} {inner' inner : Evaluator}

theorem Maintained.nil (h : I.Maintained) (m : Machine) : I.value m .nil :=
  h.plain (v := .nil) (fun _ => trivial) m

theorem Maintained.completion_current (h : I.Maintained) {m : Machine} {c : Completion}
    (f : FrameId) (hc : I.completion m c) : I.completion { m with current := f } c := by
  cases c with
  | normal => trivial
  | returned v => exact h.value_current hc

theorem Maintained.values_later (h : I.Maintained) {m m' : Machine} {vs : List Value}
    (hlater : I.later m m') (hvs : ∀ v ∈ vs, I.value m v) : ∀ v ∈ vs, I.value m' v :=
  fun v hv => h.value_later hlater (hvs v hv)

/-! ## Rules that only lead on

These do nothing themselves, so it is enough that the rules one level further in agree. -/

namespace Agreement

open Agrees

variable (hinner : I.Agreement inner' inner)
include hinner

/-- Statements are executed up to the first that returns. -/
theorem execAll {ss : List Stmt} (hss : ∀ p ∈ stmtsParts ss, I.known p) :
    I.Agrees m (inner'.execAll ss) (inner.execAll ss) I.completion := by
  induction ss generalizing m with
  | nil => exact pure fun _ => trivial
  | cons s ss ih =>
    obtain ⟨hs, hss⟩ := parts_append hss
    refine (hinner.exec hs).bind fun c _ _ _ hc => ?_
    cases c with
    | normal => exact ih hss
    | returned v => exact pure fun _ => hc

/-- A loop goes on as long as its body ends normally. -/
theorem loop {condition : Expr} {body : Stmt} (hcondition : ∀ p ∈ condition.parts, I.known p)
    (hbody : ∀ p ∈ body.parts, I.known p) (n : Nat) :
    I.Agrees m (Completion.endings.loop inner'.eval inner'.exec condition body n)
      (Completion.endings.loop inner.eval inner.exec condition body n) I.completion := by
  induction n generalizing m with
  | zero => exact throw .endless
  | succ n ih =>
    refine (hinner.eval hcondition).bind fun v _ _ _ _ => ?_
    split
    · refine (hinner.exec hbody).bind fun c _ _ _ hc => ?_
      cases c with
      | normal => exact ih
      | returned u => exact pure fun _ => hc
    · exact pure fun _ => trivial

theorem ifThen {condition : Expr} {consequence : Stmt} {alternative : Option Stmt}
    (hs : ∀ p ∈ (Stmt.ifThen condition consequence alternative).parts, I.known p) :
    I.Agrees m (Completion.endings.ifThen inner'.eval inner'.exec condition consequence alternative)
      (Completion.endings.ifThen inner.eval inner.exec condition consequence alternative)
      I.completion := by
  cases alternative with
  | none =>
    obtain ⟨hcondition, hconsequence⟩ := parts_append (parts_tail hs)
    refine (hinner.eval hcondition).bind fun v _ _ _ _ => ?_
    split
    · exact hinner.exec hconsequence
    · exact pure fun _ => trivial
  | some t =>
    obtain ⟨hcondition, hbranches⟩ := parts_append (parts_tail hs)
    obtain ⟨hconsequence, halternative⟩ := parts_append hbranches
    refine (hinner.eval hcondition).bind fun v _ _ _ _ => ?_
    split
    · exact hinner.exec hconsequence
    · exact hinner.exec halternative

/-- What runs the statements of a program one after the other. -/
theorem executeAll {program : List Stmt} (hprogram : ∀ p ∈ stmtsParts program, I.known p) :
    I.Agrees m (program.forM fun s => do let _ ← inner'.exec s)
      (program.forM fun s => do let _ ← inner.exec s) fun _ _ => True := by
  induction program generalizing m with
  | nil => exact pure fun _ => trivial
  | cons s ss ih =>
    obtain ⟨hs, hss⟩ := parts_append hprogram
    exact ((hinner.exec hs).bind fun _ _ _ _ _ => pure (Q := fun _ _ => True) fun _ => trivial).bind
      fun _ _ _ _ _ => ih hss

omit hinner

/-- Nothing can be nested any further. -/
theorem innermost : I.Agreement .innermost .innermost :=
  ⟨fun _ => throw _, fun _ => throw _⟩

end Agreement

namespace Maintained

open Agrees

variable (h : I.Maintained) (hinner : I.Agreement inner' inner)
include h

/-!
## Calls

The frame of a call is made of parameters with known values. Its body is known, because the function
is.
-/

theorem callNative (host : Host) (n : Native) :
    I.Agrees m (Evaluator.callNative host n) (Evaluator.callNative host n) I.value := by
  cases n
  exact h.readClock.bind fun n m₁ _ _ _ =>
    pure fun _ => h.plain (v := .number (host.clock n)) (fun _ => trivial) m₁

/-- The frame of a call binds parameters to arguments, and nothing else. -/
theorem callFrame {c : Closure} {arguments : List Value} (hc : I.function m c)
    (harguments : ∀ v ∈ arguments, I.value m v) :
    I.Agrees m (Evaluator.callFrame c arguments) (Evaluator.callFrame c arguments) I.frame := by
  refine h.makeFrame (h.frame_of_function hc) fun x v hx => ?_
  rcases Bindings.exists_of_get?_insertMany hx with hnone | hmem
  · cases hnone
  · obtain ⟨hname, hv⟩ := List.of_mem_zip hmem
    obtain ⟨p, hp, rfl⟩ := List.mem_map.mp hname
    exact h.parameter hc hp (harguments v hv)

theorem callResult (c : Closure) {completion : Completion} (hc : I.completion m completion) :
    I.Agrees m (Evaluator.callResult c completion) (Evaluator.callResult c completion)
      I.value := by
  unfold Evaluator.callResult
  split
  · exact (h.readAt 0 c.frame "this").mono fun _ _ _ => h.bound
  · cases completion with
    | normal => exact pure fun _ => h.nil m
    | returned v => exact pure fun _ => hc

include hinner

theorem evalAll {es : List Expr} (hes : ∀ p ∈ exprsParts es, I.known p) :
    I.Agrees m (inner'.evalAll es) (inner.evalAll es) fun m vs => ∀ v ∈ vs, I.value m v := by
  induction es generalizing m with
  | nil => exact pure fun _ => nofun
  | cons e es ih =>
    obtain ⟨he, hes⟩ := parts_append hes
    refine (hinner.eval he).bind fun v _ _ _ hv => (ih hes).bind fun vs _ hlater _ hvs =>
      pure fun _ => List.forall_mem_cons.mpr ⟨h.value_later hlater hv, hvs⟩

/-- The body of a function that is called. -/
theorem callBody {c : Closure} {arguments : List Value} (hc : I.function m c)
    (harguments : ∀ v ∈ arguments, I.value m v) :
    I.Agrees m
      (do let frame ← Evaluator.callFrame c arguments; Run.inFrame frame (inner'.execAll c.body))
      (do let frame ← Evaluator.callFrame c arguments; Run.inFrame frame (inner.execAll c.body))
      I.completion :=
  (h.callFrame hc harguments).bind fun _ _ _ _ hf =>
    h.inFrame hf (hinner.execAll (h.body hc)) fun _ _ g hcompletion =>
      h.completion_current g hcompletion

theorem callClosure {c : Closure} {arguments : List Value} (hc : I.function m c)
    (harguments : ∀ v ∈ arguments, I.value m v) :
    I.Agrees m (inner'.callClosure c arguments) (inner.callClosure c arguments) I.value := by
  rw [Evaluator.callClosure_eq, Evaluator.callClosure_eq]
  exact (h.callBody hinner hc harguments).bind fun _ _ _ _ hcompletion =>
    h.callResult c hcompletion

/-- An instance is made, and the initializer is bound to it and called. -/
theorem construct {k : ClassId} {init? : Option Closure} {arguments : List Value}
    (hk : I.value m (.«class» k)) (hinit : ∀ init ∈ init?, I.method m init)
    (harguments : ∀ v ∈ arguments, I.value m v) :
    I.Agrees m (inner'.construct k init? arguments) (inner.construct k init? arguments)
      I.value := by
  refine (h.makeInstance hk).bind fun i m₁ hlater _ hi => ?_
  cases init? with
  | none => exact pure fun _ => hi
  | some init =>
    refine (h.bindTo (h.method_later hlater (hinit init rfl)) (h.this hi)).bind
      fun c m₂ hlater₂ _ hc => ?_
    exact (h.callClosure hinner hc
      (h.values_later hlater₂ (h.values_later hlater harguments))).bind fun _ _ hlater₃ _ _ =>
        pure fun _ => h.value_later hlater₃ (h.value_later hlater₂ hi)

theorem call (place : Location) {callee : Value} {arguments : List Value}
    (hcallee : I.value m callee) (harguments : ∀ v ∈ arguments, I.value m v) :
    I.Agrees m (inner'.call host place callee arguments) (inner.call host place callee arguments)
      I.value := by
  refine given fun hm => get ?_
  -- What is called has been known, as the state or the value holds it.
  cases htarget : m.callee? callee with
  | none => exact fail _ _
  | some target =>
    dsimp only
    split
    · refine guarded place ?_
      cases callee with
      | native n =>
        cases htarget
        exact h.callNative host n
      | function id =>
        obtain ⟨c, hc, rfl⟩ := Option.map_eq_some_iff.mp htarget
        exact h.callClosure hinner (h.functions hm hc) harguments
      | «class» k =>
        cases htarget
        exact h.construct hinner hcallee (fun init hinit => h.method_of_method? hm hinit)
          harguments
      | _ => cases htarget
    · exact fail _ _

/-!
## Expressions

Most expressions evaluate their parts and then take one step. Only calls and `super` take more.
-/

omit hinner in
/-- A method of the superclass is bound to the present instance. -/
theorem superExpr (id : UseId) (method : Name) :
    I.Agrees m (Evaluator.superExpr id method) (Evaluator.superExpr id method) I.value := by
  refine bind_look (.distance id) fun d? _ => ?_
  cases d? with
  | none => exact throw _
  | some d =>
    refine bind_look .currentFrame fun f _ => bind_look (.readAt d f "super") fun superclass _ =>
      bind_look .currentFrame fun f _ => (h.readAt (d - 1) f "this").exactly.bind
        fun this m₁ _ _ hthis => ?_
    split
    · refine given fun hm₁ => get ?_
      split
      · next closure hfound => exact h.boundMethod (h.method_of_method? hm₁ hfound) hthis.2
      · exact fail _ _
    · exact throw _

/-- All expressions but calls. -/
theorem otherRule (host : Host) {e : Expr} (he : ∀ p ∈ e.parts, I.known p)
    (hother : ∀ callee line arguments, e ≠ .call callee line arguments) :
    I.Agrees m (inner'.exprRule host e) (inner.exprRule host e) I.value := by
  cases e with
  | literal value => exact pure fun _ => h.plain (fun _ => by cases value <;> trivial) m
  | grouping e => exact hinner.eval (parts_tail he)
  -- Operators give values that refer to nothing.
  | unary op line e =>
    exact (hinner.eval (parts_tail he)).bind fun _ m₁ _ _ _ =>
      orFail _ fun _ hw => h.plain (Evaluator.holds_unary hw) m₁
  | binary op line left right =>
    obtain ⟨hleft, hright⟩ := parts_append (parts_tail he)
    exact (hinner.eval hleft).bind fun _ _ _ _ _ => (hinner.eval hright).bind fun _ m₂ _ _ _ =>
      orFail _ fun _ hw => h.plain (Evaluator.holds_binary hw) m₂
  -- The value is that of one of the operands.
  | logical op line left right =>
    obtain ⟨hleft, hright⟩ := parts_append (parts_tail he)
    refine (hinner.eval hleft).bind fun v _ _ _ hv => ?_
    split
    · exact pure fun _ => hv
    · exact hinner.eval hright
  | «variable» use => exact h.readVariable use.id use.name
  | assign id name value =>
    refine (hinner.eval (parts_tail he)).bind fun v _ _ _ hv => ?_
    exact (h.writeVariable id (h.target (parts_head he) rfl) hv).bind fun _ _ hlater _ _ =>
      pure fun _ => h.value_later hlater hv
  | call callee line arguments => exact absurd rfl (hother callee line arguments)
  | get object name =>
    refine (hinner.eval (parts_tail he)).bind fun v _ _ _ hv => ?_
    split
    · exact h.property hv name
    · exact h.staticProperty _ name
    · exact fail _ _
  | set object name value =>
    obtain ⟨hvalue, hobject⟩ := parts_append (parts_tail he)
    refine (hinner.eval hobject).bind fun _ _ _ _ _ => ?_
    split
    · exact (hinner.eval hvalue).bind fun v _ _ _ hv => (h.writeField _ name.text hv).bind
        fun _ _ hlater _ _ => pure fun _ => h.value_later hlater hv
    · exact fail _ _
  | lambda line params body =>
    exact h.currentFrame.bind fun _ _ _ _ hf =>
      (h.makeFunction (h.lambda (parts_head he) (parts_tail he) hf)).bind fun _ _ _ _ hid =>
        pure fun _ => hid
  | this id line => exact h.readVariable id ⟨"this", line⟩
  | super id line method => exact h.superExpr id method

theorem callRule {callee : Expr} {line : Nat} {arguments : List Expr}
    (he : ∀ p ∈ (Expr.call callee line arguments).parts, I.known p) :
    I.Agrees m (inner'.callExpr host callee line arguments)
      (inner.callExpr host callee line arguments) I.value := by
  obtain ⟨hcallee, harguments⟩ := parts_append (parts_tail he)
  exact (hinner.eval hcallee).bind fun _ _ _ _ hv => (h.evalAll hinner harguments).bind
    fun _ _ hlater _ hvs => h.call hinner _ (h.value_later hlater hv) hvs

theorem exprRule {e : Expr} (he : ∀ p ∈ e.parts, I.known p) :
    I.Agrees m (inner'.exprRule host e) (inner.exprRule host e) I.value := by
  cases e with
  | call callee line arguments => exact h.callRule hinner he
  | _ => exact h.otherRule hinner host he nofun

/-!
## Statements

The declaration of a class is taken apart into the steps by which it makes functions, a frame, and
the class.
-/

theorem block {body : List Stmt} (hbody : ∀ p ∈ stmtsParts body, I.known p) :
    I.Agrees m (inner'.block body) (inner.block body) I.completion :=
  h.currentFrame.bind fun _ _ _ _ hf => (h.makeFrame hf fun _ _ hx => by cases hx).bind
    fun _ _ _ _ hg => h.inFrame hg (hinner.execAll hbody) fun _ _ g hcompletion =>
      h.completion_current g hcompletion

theorem var {name : Name} {initializer : Option Expr}
    (hs : ∀ p ∈ (Stmt.var name initializer).parts, I.known p) :
    I.Agrees m (Evaluator.stmtSteps.var inner'.eval name initializer)
      (Evaluator.stmtSteps.var inner.eval name initializer) fun _ _ => True := by
  cases initializer with
  | none =>
    have hname : I.name name.text := h.target (parts_head hs) rfl
    exact h.defineName hname (h.nil m)
  | some e =>
    have hname : I.name name.text := h.target (parts_head hs) rfl
    exact (hinner.eval (parts_tail hs)).bind fun _ _ _ _ hv => h.defineName hname hv

omit hinner

/-- A function declaration makes a function and binds its name to it. -/
theorem function {f : FunctionDecl} (hs : ∀ p ∈ (Stmt.function f).parts, I.known p) :
    I.Agrees m (Evaluator.function f) (Evaluator.function f) fun _ _ => True := by
  have hf := parts_head hs
  have hbody := parts_tail hs
  rw [FunctionDecl.parts_eq] at hbody
  exact h.currentFrame.bind fun _ _ _ _ hg =>
    (h.makeFunction (h.declared hf hbody hg)).bind fun _ _ _ _ hid =>
      h.defineName (h.target hf rfl) hid

/-- The static methods of a class are made one after the other. -/
theorem makeStatics {name : Name} {use? : Option VariableUse} {methods statics : List FunctionDecl}
    {f : FrameId} (hknown : I.known (.stmt (.classDecl name use? methods statics)))
    {ds : List FunctionDecl} (hds : ∀ d ∈ ds, d ∈ statics ∧ ∀ p ∈ stmtsParts d.body, I.known p)
    (hf : I.frame m f) :
    I.Agrees m (Evaluator.staticMethods f ds) (Evaluator.staticMethods f ds)
      fun _ _ => True := by
  induction ds generalizing m with
  | nil => exact pure fun _ => trivial
  | cons d ds ih =>
    obtain ⟨⟨hmem, hbody⟩, hrest⟩ := List.forall_mem_cons.mp hds
    exact (h.makeFunction (h.staticMethod hknown hmem hbody hf)).bind fun _ _ hlater _ _ =>
      (ih hrest (h.frame_later hlater hf)).bind fun _ _ _ _ _ => pure fun _ => trivial

theorem methodFrame {f : FrameId} (hf : I.frame m f) {parent : Option ClassId}
    (hparent : ∀ k ∈ parent, I.value m (.«class» k)) :
    I.Agrees m (Evaluator.methodFrame f parent) (Evaluator.methodFrame f parent) I.frame := by
  cases parent with
  | none => exact pure fun _ => hf
  | some k =>
    refine h.makeFrame hf fun x v hx => ?_
    obtain ⟨rfl, rfl⟩ := Bindings.get?_singleton hx
    exact h.super (hparent k rfl)

/-- A class is made with the tables of its declaration. -/
theorem makeClass {name : Name} {use? : Option VariableUse} {parent : Option ClassId}
    {methods statics : List FunctionDecl} {f g : FrameId} {ids : Bindings FunctionId}
    (hs : ∀ p ∈ (Stmt.classDecl name use? methods statics).parts, I.known p)
    (hsome : parent.isSome = use?.isSome) (hparent : ∀ k ∈ parent, I.value m (.«class» k))
    (hg : I.frame m g) (hmade : List.Forall₂ (fun d b => b.1 = d.name.text ∧
      m.functions[b.2]? = some (Evaluator.closureOf d f false)) statics ids) :
    let info : ClassInfo :=
      ⟨name.text, parent, Evaluator.methods g methods, Bindings.insertMany [] ids⟩
    I.Agrees m (Run.newClass info) (Run.newClass info) fun m k => I.value m (.«class» k) := by
  obtain ⟨-, hmembers⟩ := parts_append (parts_tail hs)
  obtain ⟨-, hmethods⟩ := parts_append hmembers
  exact step rfl fun hm => h.newClass hm (parts_head hs) (fun d hd => parts_of_mem hmethods hd)
    hsome hparent hg hmade

/-- A class is made below a value of the program. -/
theorem declareClass {name : Name} {use? : Option VariableUse} {parent : Option ClassId}
    {methods statics : List FunctionDecl} (hsome : parent.isSome = use?.isSome)
    (hparent : ∀ k ∈ parent, I.value m (.«class» k))
    (hs : ∀ p ∈ (Stmt.classDecl name use? methods statics).parts, I.known p) :
    I.Agrees m (Evaluator.declareClass name parent methods statics)
      (Evaluator.declareClass name parent methods statics) fun _ _ => True := by
  rw [Evaluator.declareClass_eq]
  have hknown := parts_head hs
  have hname : I.name name.text := h.target hknown rfl
  obtain ⟨-, hmembers⟩ := parts_append (parts_tail hs)
  obtain ⟨hstatics, -⟩ := parts_append hmembers
  refine (h.defineName hname (h.nil m)).bind fun _ m₁ hlater₁ _ _ =>
    h.currentFrame.bind fun f m₂ hlater₂ _ hf => ?_
  refine (h.makeStatics hknown (fun d hd => ⟨hd, parts_of_mem hstatics hd⟩) hf).exactly.bind
    fun ids m₃ hlater₃ _ hids => ?_
  have hlater := I.trans hlater₁ (I.trans hlater₂ hlater₃)
  have hparent₃ : ∀ k ∈ parent, I.value m₃ (.«class» k) :=
    fun k hk => h.value_later hlater (hparent k hk)
  refine (h.methodFrame (h.frame_later hlater₃ hf) hparent₃).exactly.bind
    fun g m₄ hlater₄ _ hg => ?_
  obtain ⟨hframe, hg⟩ := hg
  -- What the static methods have been made into is said of the run that has made them.
  obtain ⟨ids', functions, hrun, -, hmade⟩ := Evaluator.staticMethods_made f statics m₂
  rw [hids.1] at hrun
  cases hrun
  have hparent₄ : ∀ k ∈ parent, I.value m₄ (.«class» k) :=
    fun k hk => h.value_later hlater₄ (hparent₃ k hk)
  have hsame : m₄.functions = functions := Evaluator.functions_methodFrame hframe
  rw [← hsame] at hmade
  exact (h.makeClass hs hsome hparent₄ hg hmade).bind fun k _ _ _ hk => h.writeFrom f hname hk

omit h in
theorem superclass (h : I.Maintained) (use : VariableUse) :
    I.Agrees m (Evaluator.superclass use) (Evaluator.superclass use)
      fun m k => I.value m (.«class» k) := by
  refine (h.readVariable use.id use.name).bind fun v _ _ _ hv => ?_
  split
  · exact pure fun _ => hv
  · exact fail _ _

theorem classDecl {name : Name} {parent : Option VariableUse}
    {methods statics : List FunctionDecl}
    (hs : ∀ p ∈ (Stmt.classDecl name parent methods statics).parts, I.known p) :
    I.Agrees m (Evaluator.classDecl name parent methods statics)
      (Evaluator.classDecl name parent methods statics) fun _ _ => True := by
  cases parent with
  | none => exact h.declareClass rfl nofun hs
  | some use =>
    refine (h.superclass use).bind fun k _ _ _ hk => h.declareClass rfl (fun k' hk' => ?_) hs
    obtain rfl := Option.some.inj hk'
    exact hk

include hinner

theorem stmtRule {s : Stmt} (hs : ∀ p ∈ s.parts, I.known p) :
    I.Agrees m (inner'.stmtRule host s) (inner.stmtRule host s) I.completion := by
  cases s with
  | expression e => exact normally (hinner.eval (parts_tail hs))
  | print e =>
    exact normally ((hinner.eval (parts_tail hs)).bind fun v _ _ _ _ => h.printValue v)
  | var name initializer => exact normally (h.var hinner hs)
  | block body => exact h.block hinner (parts_tail hs)
  | ifThen condition consequence alternative => exact hinner.ifThen hs
  | whileDo condition body =>
    obtain ⟨hcondition, hbody⟩ := parts_append (parts_tail hs)
    exact hinner.loop hcondition hbody host.iterations
  | function f => exact normally (h.function hs)
  | returnValue line value =>
    cases value with
    | none => exact pure fun _ => h.nil m
    | some e =>
      exact (hinner.eval (parts_tail hs)).bind fun v _ _ _ hv => pure fun _ => hv
  | classDecl name parent methods statics => exact normally (h.classDecl hs)

/-!
## Whole evaluators

By induction on the levels: where they run out nothing is changed.
-/

omit hinner

/-- Evaluation keeps a maintained invariant, at whatever moment it is ended. -/
theorem watchedEvaluator {watch : Expr → Run Unit}
    (hwatch : ∀ e m, I.Agrees m (watch e) (watch e) fun _ _ => True) (host : Host)
    (depth : Nat) :
    I.Agreement (watchedEvaluator host watch depth) (watchedEvaluator host watch depth) := by
  induction depth with
  | zero => exact .innermost
  | succ depth ih =>
    refine ⟨fun he => (hwatch _ _).bind fun _ _ _ _ _ => h.exprRule ih he,
      fun {m s} hs => Agrees.bind (Q := fun _ _ => True) ?_ fun _ _ _ _ _ => h.stmtRule ih hs⟩
    unfold Evaluator.watchSuperclass
    split
    · exact hwatch _ _
    · exact pure fun _ => trivial

/-- A program that begins in a good state leads to one, at whatever moment it is ended. -/
theorem watchedExecuteProgram {watch : Expr → Run Unit}
    (hwatch : ∀ e m, I.Agrees m (watch e) (watch e) fun _ _ => True) (host : Host)
    (depth endLine : Nat) {program : List Stmt} (uses : List Resolved)
    (hbegin : I.Step m { m with output := "", distances := m.distances.insertAll uses })
    (hprogram : ∀ p ∈ stmtsParts program, I.known p) :
    I.Step m (Session.watchedExecuteProgram host watch depth endLine program uses m).2 := by
  have hexecute := (h.watchedEvaluator hwatch host depth).executeAll hprogram hbegin.1
  have hlead := hexecute.2
  unfold Session.watchedExecuteProgram watchedExecute
  dsimp only
  unfold Leads at hlead
  -- Also a program that gives up leaves a good state behind.
  split at hlead
  · next hrun =>
    rw [hrun]
    exact ⟨hlead.1, I.trans hbegin.2 hlead.2.1⟩
  · next hrun =>
    rw [hrun]
    exact ⟨hlead.1, I.trans hbegin.2 hlead.2⟩

theorem evaluator (host : Host) (depth : Nat) :
    I.Agreement (evaluator host depth) (evaluator host depth) := by
  rw [← watchedEvaluator_pure]
  exact h.watchedEvaluator (fun _ _ => pure fun _ => trivial) host depth

end Maintained

end Invariant

end LoxLang
