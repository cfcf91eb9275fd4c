import LoxLang.Proofs.Homes.Steps

/-!
# Expressions and statements with homes

At a place whose frames hold its home, evaluation with homes does what plain evaluation does. One
lemma for each rule says so of rules one level further out (`Follows`), and by induction on the
levels whole evaluators do the same, under any watch that lets fixed expressions pass.
-/

namespace LoxLang.Homed

open Lexical (Fine)

variable {T : Distances} {P : Visit → Prop} {fs : Frames Value} {f g : FrameId} {S : List Scope}
  {home : Option Home} {α : Type}

/-!
## Calls

A call goes on in a new frame whose home is that of the closure. For a method this is the home it
was bound with, for all others that of the place where it was made.
-/

/-- Two evaluators do the same with whatever stands at a place whose frames hold its home. -/
structure Follows (T : Distances) (P : Visit → Prop) (inner : Evaluator)
    (inner' : LoxLang.Evaluator) : Prop where
  eval : ∀ {fs f S home e}, Place fs f (layers S) home → Fine T P (e.occurrences S) →
    Tracks T P fs f (inner.eval home e) (inner'.eval e)
  exec : ∀ {fs f S home s}, Place fs f (layers S) home → Fine T P (s.occurrences S) →
    Tracks T P fs f (inner.exec home s) (inner'.exec s)

/-- A callee was made at places with its homes. -/
def CalleeAt (T : Distances) (P : Visit → Prop) (fs : Frames Value) : Callee → Prop
  | .native _ => True
  | .closure home c => ClosureAt T P fs c home
  | .constructor _ initializer =>
    ∀ method ∈ initializer, MethodAt T P fs method.superclass method.closure

theorem callee?_plain (s : State) (v : Value) :
    (s.callee? v).map Callee.plain = s.machine.callee? v := by
  cases v with
  | function f =>
    show Option.map _ (Option.map _ _) = _
    rw [Option.map_map]
    rfl
  | «class» c =>
    show some (LoxLang.Callee.constructor c _) = some (LoxLang.Callee.constructor c _)
    rw [Machine.initializer?, ← method?_closure]
  | _ => rfl

theorem Settled.calleeAt {s : State} (h : Settled T P s) {v : Value} {c : Callee}
    (hc : s.callee? v = some c) : CalleeAt T P s.machine.frames c := by
  cases v with
  | native n =>
    cases hc
    trivial
  | function id =>
    obtain ⟨closure, hclosure, rfl⟩ := Option.map_eq_some_iff.mp hc
    -- Functions and homes are kept side by side, under the same numbers.
    obtain ⟨hnone, -⟩ | ⟨closure', home, hclosure', hhome, hat⟩ := (h.functions.found id).cases
    · rw [hnone] at hclosure
      cases hclosure
    · obtain rfl := Option.some.inj (hclosure.symm.trans hclosure')
      show ClosureAt T P _ _ s.homes[id]?.join
      rw [hhome]
      exact hat
  | «class» k =>
    cases hc
    exact fun method hmethod => h.methodAt hmethod
  | _ => cases hc

variable {inner : Evaluator} {inner' : LoxLang.Evaluator} {host : Host}

namespace Follows

open Tracks

section Calls

variable (h : Follows T P inner inner')
include h

theorem evalAll {es : List Expr} (hplace : Place fs f (layers S) home)
    (hfine : Fine T P (exprsOccurrences S es)) :
    Tracks T P fs f (ExprSteps.evalAll (inner.eval home) es) (inner'.evalAll es) := by
  induction es with
  | nil => exact pure []
  | cons e es ih =>
    rw [exprsOccurrences] at hfine
    exact (h.eval hplace hfine.left).bind fun v => (ih hfine.right).bind fun vs => pure (v :: vs)

theorem execAll {ss : List Stmt} (hplace : Place fs f (layers S) home)
    (hfine : Fine T P (stmtsOccurrences S ss)) :
    Tracks T P fs f (inner.execAll home ss) (inner'.execAll ss) := by
  induction ss generalizing S with
  | nil => exact pure Completion.normal
  | cons s ss ih =>
    rw [stmtsOccurrences] at hfine
    refine (h.exec hplace hfine.left).bind fun completion => ?_
    cases completion with
    | normal =>
      -- A declaration has entered its name, which is not a hidden one.
      exact ih (layers_scopesAfter hfine.left ▸ hplace) hfine.right
    | returned v => exact pure (Completion.returned v)

/-- Statements in a frame of their own, with names of their own. -/
theorem execInside {S' : List Scope} {ss : List Stmt} (hplace : Place fs g (layers S) home)
    (hlink : fs.enclosing? f = some g) (hlayers : layers S' = layers ([] :: S))
    (hfine : Fine T P (stmtsOccurrences S' ss)) :
    Tracks T P fs f (inner.execAll home ss) (inner'.execAll ss) := by
  refine h.execAll ?_ hfine
  rw [hlayers]
  exact .inside hlink hplace

theorem callClosure {c : Closure} (hc : ClosureAt T P fs c home) (arguments : List Value) :
    Tracks T P fs f (inner.callClosure home c arguments) (inner'.callClosure c arguments) := by
  obtain ⟨S, hplace, hfine⟩ := hc
  unfold bodyOccurrences at hfine
  refine newFrame fun fs' f' hext hlink _ => ?_
  have hbody : Tracks T P fs' f' (inner.execAll home c.body) (inner'.execAll c.body) :=
    h.execInside (hext.place hplace) hlink (layers_enterAll hfine.left) hfine.right
  exact hbody.inFrame.bind fun completion => look (.callResult c completion)

theorem construct (c : ClassId) {init? : Option Method}
    (hinit : ∀ method ∈ init?, MethodAt T P fs method.superclass method.closure)
    (arguments : List Value) :
    Tracks T P fs f (inner.construct c init? arguments)
      (inner'.construct c (init?.map (·.closure)) arguments) := by
  refine Tracks.bind (plain (Still.newInstance c)) fun i => ?_
  cases init? with
  | none => exact pure (Value.object i)
  | some init =>
    exact bindMethod (hinit init rfl) fun _ _ hc =>
      (h.callClosure hc arguments).bind fun _ => pure (Value.object i)

theorem invoke {c : Callee} (hc : CalleeAt T P fs c) (arguments : List Value) :
    Tracks T P fs f (inner.invoke host arguments c) (inner'.invoke host arguments c.plain) := by
  cases c with
  | native n => exact plain (Still.callNative host n)
  | closure home c => exact h.callClosure hc arguments
  | constructor c init? => exact h.construct c hc arguments

omit h in
theorem guarded (place : Location) {p : Run α} {q : LoxLang.Run α} (hp : Tracks T P fs f p q) :
    Tracks T P fs f (Evaluator.guarded place p) (LoxLang.Evaluator.guarded place q) := by
  intro s m hat
  have hends := hp s m hat
  unfold Evaluator.guarded LoxLang.Evaluator.guarded
  generalize p s = r at hends
  generalize q m = r' at hends
  cases hends with
  | ok ha hlater => exact .ok ha hlater
  | @error e e' s' m' he hlater =>
    subst he
    cases e with
    | tooDeep => exact fail place .stackOverflow s' m' hlater
    | _ => exact .error rfl hlater

theorem call (place : Location) (callee : Value) (arguments : List Value) :
    Tracks T P fs f (inner.call host place callee arguments)
      (inner'.call host place callee arguments) := by
  refine get fun s hs => ?_
  rw [← callee?_plain]
  cases hc : s.callee? callee with
  | none => exact fail place .notCallable
  | some c =>
    have hinvoke : Tracks T P s.machine.frames f
        (Evaluator.guarded place (inner.invoke host arguments c))
        (LoxLang.Evaluator.guarded place (inner'.invoke host arguments c.plain)) :=
      guarded place (h.invoke (hs.calleeAt hc) arguments)
    exact Mirrors.ite Iff.rfl hinvoke (fail place _)

end Calls

/-!
## Expressions

Parts are evaluated at the same place, so they have the home of the whole.
-/

section Expressions

variable (h : Follows T P inner inner') (hplace : Place fs f (layers S) home)
include h hplace

theorem getExpr {object : Expr} (name : Name) (hfine : Fine T P (object.occurrences S)) :
    Tracks T P fs f (inner.exprRule host home (.get object name))
      (inner'.exprRule host (.get object name)) := by
  refine (h.eval hplace hfine).bind fun v => ?_
  cases v with
  | object i => exact property i name
  | «class» c => exact look (.staticProperty c name)
  | _ => exact fail name.place .noProperties

theorem setExpr {object value : Expr} (name : Name)
    (hfine : Fine T P (value.occurrences S ++ object.occurrences S)) :
    Tracks T P fs f (inner.exprRule host home (.set object name value))
      (inner'.exprRule host (.set object name value)) := by
  refine (h.eval hplace hfine.right).bind fun v => ?_
  cases v with
  | object i =>
    exact (h.eval hplace hfine.left).bind fun u =>
      (plain (Still.setField i name.text u)).bind fun _ => pure u
  | _ => exact fail name.place .noFields

/-- Every expression. -/
theorem exprRule {e : Expr} (hfine : Fine T P (e.occurrences S)) :
    Tracks T P fs f (inner.exprRule host home e) (inner'.exprRule host e) := by
  cases e with
  | literal value => exact pure (Value.ofLiteral value)
  | grouping e =>
    rw [Expr.occurrences] at hfine
    exact h.eval hplace hfine
  | unary op line e =>
    rw [Expr.occurrences] at hfine
    exact (h.eval hplace hfine).bind fun v => look (.orFail _ _)
  | binary op line left right =>
    rw [Expr.occurrences] at hfine
    exact (h.eval hplace hfine.left).bind fun v =>
      (h.eval hplace hfine.right).bind fun w => look (.orFail _ _)
  | logical op line left right =>
    rw [Expr.occurrences] at hfine
    exact (h.eval hplace hfine.left).bind fun v =>
      Mirrors.ite Iff.rfl (pure v) (h.eval hplace hfine.right)
  | «variable» use => exact look (.readVariable use.id use.name)
  -- A name that is written is no hidden one, so the frames of homes stay as they are.
  | assign id name value =>
    rw [Expr.occurrences] at hfine
    have hname : IsName name.text := hfine.right.head.written (.inr rfl)
    exact (h.eval hplace hfine.left).bind fun v =>
      (plain (Still.writeVariable id hname v)).bind fun _ => pure v
  | call callee line arguments =>
    rw [Expr.occurrences] at hfine
    exact (h.eval hplace hfine.left).bind fun v =>
      (h.evalAll hplace hfine.right).bind fun vs => h.call _ v vs
  | get object name =>
    rw [Expr.occurrences] at hfine
    exact h.getExpr hplace name hfine
  | set object name value =>
    rw [Expr.occurrences] at hfine
    exact h.setExpr hplace name hfine
  -- A lambda keeps the home of the place where it stands.
  | lambda line params body =>
    rw [Expr.occurrences] at hfine
    exact functionHere none hplace hfine fun id => pure (Value.function id)
  | this id line => exact look (.readVariable id _)
  | super id line method => exact superExpr method hplace hfine

end Expressions

/-!
## Statements

Blocks make a frame within the same home. A `return` hands its value on and nothing else.
-/

section Statements

variable (h : Follows T P inner inner') (hplace : Place fs f (layers S) home)
include h hplace

theorem block {body : List Stmt} (hfine : Fine T P (stmtsOccurrences ([] :: S) body)) :
    Tracks T P fs f (Evaluator.inBlock (inner.execAll home body)) (inner'.block body) :=
  currentFrame (newFrame fun _ _ hext hlink _ =>
    inFrame (h.execInside (hext.place hplace) hlink rfl hfine))

theorem ifThen {condition : Expr} {consequence : Stmt} {alternative : Option Stmt}
    (hfine : Fine T P ((Stmt.ifThen condition consequence alternative).occurrences S)) :
    Tracks T P fs f
      (Completion.endings.ifThen (inner.eval home) (inner.exec home) condition consequence
        alternative)
      (Completion.endings.ifThen inner'.eval inner'.exec condition consequence alternative) := by
  cases alternative with
  | none =>
    rw [Stmt.occurrences] at hfine
    exact (h.eval hplace hfine.left).bind fun v =>
      -- Both sides branch on the same value.
      Mirrors.ite Iff.rfl (h.exec hplace hfine.right.tail) (pure Completion.normal)
  | some s =>
    rw [Stmt.occurrences] at hfine
    have hbranches : Fine T P (consequence.occurrences S ++ .body s :: s.occurrences S) :=
      hfine.right.tail
    exact (h.eval hplace hfine.left).bind fun v =>
      Mirrors.ite Iff.rfl (h.exec hplace hbranches.left) (h.exec hplace hbranches.right.tail)

theorem loop {condition : Expr} {body : Stmt}
    (hfine : Fine T P (condition.occurrences S ++ .body body :: body.occurrences S)) (n : Nat) :
    Tracks T P fs f (Completion.endings.loop (inner.eval home) (inner.exec home) condition body n)
      (Completion.endings.loop inner'.eval inner'.exec condition body n) := by
  induction n with
  | zero => exact throw .endless
  | succ n ih =>
    refine (h.eval hplace hfine.left).bind fun v => Mirrors.ite Iff.rfl ?_ (pure Completion.normal)
    refine (h.exec hplace hfine.right.tail).bind fun completion => ?_
    cases completion with
    | normal => exact ih
    | returned u => exact pure (Completion.returned u)

theorem var {name : Name} {initializer : Option Expr}
    (hfine : Fine T P ((Stmt.var name initializer).occurrences S)) :
    Tracks T P fs f ((Evaluator.stmtSteps home).var (inner.eval home) name initializer)
      (LoxLang.Evaluator.stmtSteps.var inner'.eval name initializer) := by
  cases initializer with
  | none =>
    rw [Stmt.occurrences] at hfine
    exact plain (Still.define hfine.head.written .nil)
  | some e =>
    rw [Stmt.occurrences] at hfine
    have hplace' : Place fs f (layers (Scope.enter name.text false S)) home := by
      rw [layers_enter hfine.head.written]
      exact hplace
    exact (h.eval hplace' hfine.tail.tail).bind fun v =>
      plain (Still.define hfine.head.written v)

theorem returnValue {line : Nat} {value : Option Expr}
    (hfine : Fine T P ((Stmt.returnValue line value).occurrences S)) :
    Tracks T P fs f (Completion.endings.returnValue (inner.eval home) value)
      (Completion.endings.returnValue inner'.eval value) := by
  cases value with
  | none => exact pure (Completion.returned .nil)
  | some e =>
    rw [Stmt.occurrences] at hfine
    exact (h.eval hplace hfine).bind fun v => pure (Completion.returned v)

end Statements

end Follows

/-!
## Declarations

The methods of a class are made in a frame that holds the superclass, if there is one. So the place
where a method looks for `super` agrees with the class that has it in its table.
-/

namespace Tracks

variable {name : Name} {methods statics : List FunctionDecl}

theorem function {d : FunctionDecl} (hplace : Place fs f (layers S) home)
    (hfine : Fine T P ((Stmt.function d).occurrences S)) :
    Tracks T P fs f (Evaluator.function home d) (LoxLang.Evaluator.function d) := by
  rw [Stmt.occurrences, FunctionDecl.occurrences_eq] at hfine
  have hplace' : Place fs f (layers (Scope.enter d.name.text true S)) home := by
    rw [layers_enter hfine.head.written]
    exact hplace
  exact functionHere (some d.name.text) hplace' hfine.tail fun id =>
    plain (Still.define hfine.head.written _)

theorem staticMethods (hplace : Place fs g (layers S) home)
    (hfine : Fine T P (functionsOccurrences S statics)) :
    Tracks T P fs f (Evaluator.staticMethods home g statics)
      (LoxLang.Evaluator.staticMethods g statics) := by
  induction statics with
  | nil => exact pure []
  | cons d ds ih =>
    rw [functionsOccurrences, FunctionDecl.occurrences_eq] at hfine
    have hclosure : ClosureAt T P fs (LoxLang.Evaluator.closureOf d g false) home :=
      ⟨S, hplace, hfine.left⟩
    exact (newFunction hclosure).bind fun id => (ih hfine.right).bind fun others =>
      pure ((d.name.text, id) :: others)

theorem newClass {info : ClassInfo}
    (hmethods : ∀ x c, info.methods.get? x = some c → MethodAt T P fs info.superclass c) :
    Tracks T P fs f (Run.plain (LoxLang.Run.newClass info)) (LoxLang.Run.newClass info) := by
  intro s m hat
  obtain rfl := hat.machine
  refine .ok rfl ⟨rfl, ⟨hat.settled.functions, ?_, hat.settled.distances⟩, hat.current, hat.grown⟩
  intro c info' x closure hinfo hx
  have hfound : (s.machine.classes.push info)[c]? = some info' := hinfo
  rw [Array.getElem?_push] at hfound
  split at hfound
  · obtain rfl := Option.some.inj hfound
    exact hat.grown.methodAt (hmethods x closure hx)
  · exact hat.settled.methods c info' x closure hfound hx

end Tracks

theorem fine_of_mem {d : FunctionDecl} {ds : List FunctionDecl}
    (hfine : Fine T P (functionsOccurrences S ds)) (hd : d ∈ ds) :
    Fine T P (bodyOccurrences S d.params d.body) := by
  induction ds with
  | nil => cases hd
  | cons d' ds ih =>
    rw [functionsOccurrences, FunctionDecl.occurrences_eq] at hfine
    rcases List.mem_cons.mp hd with rfl | hd
    · exact hfine.left
    · exact ih hfine.right hd

/-- The methods of a class are made where they belong. -/
theorem methodAt_of_methods {ds : List FunctionDecl} {c? : Option ClassId} {frame : FrameId}
    (hplace : MethodPlace fs c? frame (layers S))
    (hfine : Fine T P (functionsOccurrences ([("this", true)] :: S) ds)) {x : String} {c : Closure}
    (hx : (LoxLang.Evaluator.methods frame ds).get? x = some c) : MethodAt T P fs c? c := by
  rcases Bindings.exists_of_get?_insertMany hx with hnone | hmem
  · cases hnone
  · obtain ⟨d, hd, heq⟩ := List.mem_map.mp hmem
    obtain rfl := (Prod.mk.inj heq).2
    exact ⟨S, hplace, fine_of_mem hfine hd⟩

namespace Tracks

variable {name : Name} {methods statics : List FunctionDecl} {parent : Option VariableUse}
  {c? : Option ClassId}

/-- A class is made with its methods where they find the superclass. -/
theorem aroundMethods (hplace : Place fs f (layers S) home)
    (hsome : c?.isSome = parent.isSome)
    (hfine : Fine T P (functionsOccurrences (methodScopes S parent) methods))
    (ids : Bindings FunctionId) :
    Tracks T P fs f
      (Run.plain (LoxLang.Evaluator.aroundMethods c?
        (LoxLang.Evaluator.makeClass name c? methods ids)))
      (LoxLang.Evaluator.aroundMethods c? (LoxLang.Evaluator.makeClass name c? methods ids)) := by
  intro s m hat
  obtain rfl := hat.machine
  obtain rfl := hat.current
  unfold Run.plain
  rw [LoxLang.Evaluator.aroundMethods_makeClass]
  -- With a superclass there is one more frame around the methods, which holds it.
  cases parent with
  | none =>
    obtain rfl : c? = none := by simpa using hsome
    exact newClass (fun x c hx => methodAt_of_methods (.alone hplace) hfine hx) s _ hat
  | some use =>
    obtain ⟨c, rfl⟩ := Option.isSome_iff_exists.mp hsome
    have hmade : Tracks T P fs s.machine.current
        (Run.plain (LoxLang.Run.newFrame s.machine.current [("super", .«class» c)]) >>= fun inner =>
          Run.plain (LoxLang.Run.newClass
            ⟨name.text, some c, LoxLang.Evaluator.methods inner methods, ids⟩))
        (LoxLang.Run.newFrame s.machine.current [("super", .«class» c)] >>= fun inner =>
          LoxLang.Run.newClass
            ⟨name.text, some c, LoxLang.Evaluator.methods inner methods, ids⟩) := by
      refine newFrame fun fs' f' hext hlink hlocal => newClass fun x c hx => ?_
      have hbelow := MethodPlace.below hlink (hlocal "super") (hext.place hplace)
      exact methodAt_of_methods (S := [("super", true)] :: S) hbelow hfine hx
    exact hmade s _ hat

theorem declareClass (hplace : Place fs f (layers S) home) (hname : IsName name.text)
    (hsome : c?.isSome = parent.isSome) (hstatics : Fine T P (functionsOccurrences S statics))
    (hmethods : Fine T P (functionsOccurrences (methodScopes S parent) methods)) :
    Tracks T P fs f (Evaluator.declareClass home name c? methods statics)
      (LoxLang.Evaluator.declareClass name c? methods statics) := by
  exact (plain (Still.define hname .nil)).bind fun _ =>
    currentFrame ((staticMethods hplace hstatics).bind fun ids =>
      (aroundMethods hplace hsome hmethods _).bind fun id =>
        currentFrame (plain (Still.writeFrom f hname _)))

theorem classDecl (hplace : Place fs f (layers S) home)
    (hfine : Fine T P ((Stmt.classDecl name parent methods statics).occurrences S)) :
    Tracks T P fs f (Evaluator.classDecl home name parent methods statics)
      (LoxLang.Evaluator.classDecl name parent methods statics) := by
  rw [Stmt.occurrences] at hfine
  have hname : IsName name.text := hfine.head.written
  have hplace' : Place fs f (layers (Scope.enter name.text true S)) home := by
    rw [layers_enter hname]
    exact hplace
  have hstatics := hfine.tail.right.left
  have hmethods := hfine.tail.right.right
  cases parent with
  | none => exact declareClass hplace' hname rfl hstatics hmethods
  | some use =>
    exact (look (.superclass use)).bind fun c => declareClass hplace' hname rfl hstatics hmethods

theorem normally {p : Run α} {q : LoxLang.Run α} (h : Tracks T P fs f p q) :
    Tracks T P fs f (Completion.endings.normally p) (Completion.endings.normally q) :=
  h.bind fun _ => pure Completion.normal

end Tracks

/-!
## Whole evaluators

By induction on the levels. The watch may look at the home, since it is the home of the place.
-/

namespace Follows

open Tracks

variable (h : Follows T P inner inner')
include h

/-- Every statement. -/
theorem stmtRule {s : Stmt} (hplace : Place fs f (layers S) home)
    (hfine : Fine T P (s.occurrences S)) :
    Tracks T P fs f (inner.stmtRule host home s) (inner'.stmtRule host s) := by
  cases s with
  | expression e =>
    rw [Stmt.occurrences] at hfine
    exact normally (h.eval hplace hfine)
  | print e =>
    rw [Stmt.occurrences] at hfine
    exact normally ((h.eval hplace hfine).bind fun v => plain (Still.print v))
  | var name initializer => exact normally (h.var hplace hfine)
  | block body =>
    rw [Stmt.occurrences] at hfine
    exact h.block hplace hfine
  | ifThen condition consequence alternative => exact h.ifThen hplace hfine
  | whileDo condition body =>
    rw [Stmt.occurrences] at hfine
    exact h.loop hplace hfine host.iterations
  | function d => exact normally (function hplace hfine)
  | returnValue line value => exact h.returnValue hplace hfine
  | classDecl name parent methods statics => exact normally (classDecl hplace hfine)

/-- A watch that lets each fixed expression pass is not noticed one level further out. -/
theorem around {watch : Option Home → Expr → Run Unit}
    (hwatch : ∀ home e s, Fixed home e s.machine → watch home e s = .ok () s) :
    Follows T P (inner.around host watch) (inner'.around host) := by
  refine ⟨fun {fs f S home e} hplace hfine s m hat => ?_, fun hplace hfine =>
    h.stmtRule hplace hfine⟩
  have hquiet : (inner.around host watch).eval home e s = inner.exprRule host home e s := by
    show EStateM.bind (watch home e) _ s = _
    unfold EStateM.bind
    rw [hwatch home e s (hat.fixed hplace hfine)]
  rw [hquiet]
  exact h.exprRule hplace hfine s m hat

end Follows

section Evaluators

variable {watch : Option Home → Expr → Run Unit}
  (hwatch : ∀ home e s, Fixed home e s.machine → watch home e s = .ok () s)
include hwatch

theorem follows_evaluator (host : Host) (depth : Nat) :
    Follows T P (evaluator host watch depth) (LoxLang.evaluator host depth) := by
  induction depth with
  | zero => exact ⟨fun _ _ => .throw .tooDeep, fun _ _ => .throw .tooDeep⟩
  | succ depth ih => exact ih.around hwatch

/-- Programs run alike from the top level, which has no home. -/
theorem Tracks.execute (host : Host) (depth : Nat) {program : List Stmt}
    (hplace : Place fs f (layers S) none) (hfine : Fine T P (stmtsOccurrences S program)) :
    Tracks T P fs f (execute host watch depth program) (LoxLang.execute host depth program) := by
  unfold Homed.execute LoxLang.execute
  induction program generalizing S with
  | nil => exact pure ()
  | cons s ss ih =>
    rw [stmtsOccurrences] at hfine
    have hexec := (follows_evaluator hwatch host depth).exec hplace hfine.left
    exact (hexec.bind fun _ => pure ()).bind fun _ =>
      ih (layers_scopesAfter hfine.left ▸ hplace) hfine.right

end Evaluators

end LoxLang.Homed
