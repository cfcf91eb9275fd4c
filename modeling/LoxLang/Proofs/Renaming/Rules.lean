import LoxLang.Proofs.Renaming.Steps

/-!
# Expressions and statements under other names

At a place whose frames have the marks that the scopes around it have, a renamed tree does what the
tree does. One lemma for each rule says so of rules one level further out (`Evaluator.Renames`), and
by induction on the levels whole evaluators do the same (`Renaming.Mirror.execute`).
-/

namespace LoxLang

variable {ρ : Renaming} {w : World} {f g : FrameId} {marks hidden : List Bool} {c : Choice}
  {α : Type} {Q : α → α → Prop} {host : Host} {inner : Evaluator}

/-!
## Declared functions

What a declaration makes in a frame depends on its tree, which is renamed, and on the frame, which
has the marks of the scopes around the declaration.
-/

/-- A function of a declaration, made in a frame that has the marks of the scopes around it. -/
theorem closureOf_renamed (hg : w.Marked g marks) (d : FunctionDecl) (isInitializer : Bool) :
    (Evaluator.closureOf d g isInitializer).Renamed ρ w hidden
      (Evaluator.closureOf (d.rename ρ (hidden ++ marks) c) g isInitializer) := by
  obtain ⟨x, params, body⟩ := d
  rw [FunctionDecl.rename]
  exact ⟨rfl, rfl, rfl, marks, c, hg, rfl, rfl⟩

/-- The names of methods are no names of variables. -/
theorem FunctionDecl.name_rename (d : FunctionDecl) : (d.rename ρ marks c).name = d.name := by
  obtain ⟨x, params, body⟩ := d
  rw [FunctionDecl.rename]

/-- The methods of a class go together name by name. -/
theorem methods_renamed (hg : w.Marked g marks) (ds : List FunctionDecl) :
    MethodsAlike (Closure.Renamed ρ w hidden) (Evaluator.methods g ds)
      (Evaluator.methods g (functionsRename ρ (hidden ++ marks) c ds)) := by
  refine methodsAlike_methods ?_
  induction ds generalizing c with
  | nil => exact .nil
  | cons d ds ih =>
    rw [functionsRename]
    exact .cons ⟨congrArg Name.text d.name_rename.symm, closureOf_renamed hg d⟩ ih

/-- The frame of a call has the same arguments under the names of the parameters. -/
theorem Renaming.bindings_zip (b : Bool) (params : List Name) (arguments : List Value) :
    (((params.map (ρ.name b)).map (·.text)).zip arguments) =
      ρ.bindings b ((params.map (·.text)).zip arguments) := by
  induction params generalizing arguments with
  | nil => rfl
  | cons x params ih =>
    cases arguments with
    | nil => rfl
    | cons v arguments => exact congrArg (_ :: ·) (ih arguments)

/-!
## Calls

Parameters are bound under their other names, in a frame that is marked if the body of the function
is.
-/

/-- The rules one level further in do the same with renamed trees, wherever the frames have the
marks of the scopes. -/
structure Evaluator.Renames (ρ : Renaming) (inner : Evaluator) : Prop where
  eval : ∀ {w f marks e c}, w.Marked f marks →
    ρ.Mirror w f Eq (inner.eval e) (inner.eval (e.rename ρ marks c))
  exec : ∀ {w f marks s c}, w.Marked f marks → s.Keeps ρ marks →
    ρ.Mirror w f Eq (inner.exec s) (inner.exec (s.rename ρ marks c))

namespace Evaluator.Renames

open Renaming Renaming.Mirror

section Calls

variable (h : inner.Renames ρ)
include h

/-- Arguments from left to right. -/
theorem evalAll (hf : w.Marked f marks) (es : List Expr) :
    ρ.Mirror w f Eq (inner.evalAll es) (inner.evalAll (exprsRename ρ marks c es)) := by
  induction es generalizing c with
  | nil => exact Mirrors.pure rfl
  | cons e es ih =>
    rw [exprsRename]
    exact (h.eval hf).bind_same fun v => ih.bind_same fun vs => Mirrors.pure rfl

/-- Statements up to the first that returns. -/
theorem execAll (hf : w.Marked f marks) {ss : List Stmt} (hkeeps : ∀ s ∈ ss, s.Keeps ρ marks) :
    ρ.Mirror w f Eq (inner.execAll ss) (inner.execAll (stmtsRename ρ marks c ss)) := by
  induction ss generalizing c with
  | nil => exact Mirrors.pure rfl
  | cons s ss ih =>
    obtain ⟨hs, hss⟩ := List.forall_mem_cons.mp hkeeps
    rw [stmtsRename]
    refine (h.exec hf hs).bind_same fun completion => ?_
    cases completion with
    | normal => exact ih hss
    | returned v => exact Mirrors.pure rfl

variable (hρ : ρ.Faithful)
include hρ

/-- A function and the function that it is under other names. -/
theorem callClosure {k k' : Closure} (hk : k.Renamed ρ w [] k') (arguments : List Value) :
    ρ.Mirror w f Eq (inner.callClosure k arguments) (inner.callClosure k' arguments) := by
  obtain ⟨-, hframe, hinit, marks, choice, hmarked, hparams, hbody⟩ := hk
  have hresult {w' : World} (hgrow : w.Grows w') (completion : Completion) :
      ρ.Mirror w' f Eq (callResult k completion) (callResult k' completion) := by
    unfold callResult
    rw [← hinit, ← hframe]
    split
    · exact readHidden hρ (hmarked.grow hgrow) 0 fun hname => hname.1 rfl
    · cases completion <;> exact Mirrors.pure rfl
  -- The frame of the call has the mark of the scope that the parameters stand in.
  have hvalues : Bindings.insertMany [] ((k'.params.map (·.text)).zip arguments) =
      ρ.bindings (ρ.mark choice k.body)
        (Bindings.insertMany [] ((k.params.map (·.text)).zip arguments)) := by
    rw [hparams, bindings_zip, ← insertMany_bindings hρ.injective]
    rfl
  unfold Evaluator.callClosure callFrame
  rw [hvalues, ← hframe, hbody]
  refine newFrame hmarked fun w' g hgrow hg => ?_
  exact (inFrame (h.execAll hg (keeps_of_mark marks))).bind_same fun completion =>
    hresult hgrow completion

/-- The same class, with initializers that go together. -/
theorem construct (k : ClassId) {init? init'? : Option Closure}
    (hinit : Found (Closure.Renamed ρ w [false]) init? init'?) (arguments : List Value) :
    ρ.Mirror w f Eq (inner.construct k init? arguments) (inner.construct k init'? arguments) := by
  refine (newInstance k).bind_same fun i => ?_
  obtain ⟨rfl, rfl⟩ | ⟨init, init', rfl, rfl, hinit⟩ := hinit.cases
  · exact Mirrors.pure rfl
  · exact bindMethod hinit _ fun _ _ _ _ hbound =>
      (h.callClosure hρ hbound arguments).bind_same fun _ => Mirrors.pure rfl

/-- Whatever is called. -/
theorem invoke (arguments : List Value) {k k' : Callee}
    (hk : k.Alike (Closure.Renamed ρ w []) (Closure.Renamed ρ w [false]) k') :
    ρ.Mirror w f Eq (inner.invoke host arguments k) (inner.invoke host arguments k') := by
  cases hk with
  | native n => exact countReading.bind_same fun n => Mirrors.pure rfl
  | closure hc => exact h.callClosure hρ hc arguments
  | constructor k hinit => exact h.construct hρ k hinit arguments

omit h hρ in
/-- A statement that always ends normally. -/
theorem normally {p p' : Run α} (hp : ρ.Mirror w f Q p p') :
    ρ.Mirror w f Eq (Completion.endings.normally p) (Completion.endings.normally p') :=
  hp.bind fun _ _ _ => Mirrors.pure rfl

omit h hρ in
/-- Running out of levels becomes a failure in both. -/
theorem guarded (place : Location) {p p' : Run α} (hp : ρ.Mirror w f Q p p') :
    ρ.Mirror w f Q (Evaluator.guarded place p) (Evaluator.guarded place p') := by
  intro m m' hat
  have hends := hp m m' hat
  unfold Evaluator.guarded
  generalize p m = r at hends
  generalize p' m' = r' at hends
  cases hends with
  | ok ha hs => exact .ok ha hs
  | error he hs =>
    cases he with
    | tooDeep => exact .error (.failure rfl _) hs
    | failure hp e => exact .error (.failure hp e) hs
    | missing b x => exact .error (.missing b x) hs
    | pastOutermost => exact .error .pastOutermost hs
    | endless => exact .error .endless hs

/-- The same value is called in both, with the same arguments. -/
theorem call (place : Location) (callee : Value) (arguments : List Value) :
    ρ.Mirror w f Eq (inner.call host place callee arguments)
      (inner.call host place callee arguments) := by
  refine get fun m m' moved hm => ?_
  obtain ⟨hnone, hnone'⟩ | ⟨k, k', hk, hk', hkk⟩ := (hm.akin.callee? callee).cases
  · rw [hnone, hnone']
    exact fail rfl _
  · rw [hk, hk']
    dsimp only
    rw [hkk.arity_eq (fun _ _ hc => hc.length_params) fun _ _ hc => hc.length_params]
    split
    · exact guarded place (h.invoke hρ arguments hkk)
    · exact fail rfl _

end Calls

/-!
## Expressions

The values of expressions are the same in both programs, since names are no values.
-/

section Expressions

variable (h : inner.Renames ρ) (hf : w.Marked f marks)
include h hf

/-- The name of a property stays. -/
theorem getExpr (e : Expr) (x : Name) :
    ρ.Mirror w f Eq (Evaluator.exprSteps.getExpr inner.eval e x)
      (Evaluator.exprSteps.getExpr inner.eval (e.rename ρ marks c) x) := by
  refine (h.eval hf).bind_same fun v => ?_
  split
  · exact property _ x
  · exact staticProperty _ x
  · exact fail rfl _

/-- And so does that of a field. -/
theorem setExpr (e v : Expr) (x : Name) (c' : Choice) :
    ρ.Mirror w f Eq (Evaluator.exprSteps.setExpr inner.eval e x v)
      (Evaluator.exprSteps.setExpr inner.eval (e.rename ρ marks c) x (v.rename ρ marks c')) := by
  refine (h.eval hf).bind_same fun u => ?_
  split
  · exact (h.eval hf).bind_same fun u => (setField _ x.text u).bind_same fun _ => Mirrors.pure rfl
  · exact fail rfl _

variable (hρ : ρ.Faithful)
include hρ

omit h in
/-- The same method is found, and bound in both. -/
theorem superExpr (id : UseId) (x : Name) :
    ρ.Mirror w f Eq (Evaluator.superExpr id x) (Evaluator.superExpr id x) := by
  refine distance id ?_
  cases ρ.distance? id with
  | none => exact Mirrors.throw (.missing false _)
  | some d =>
    refine currentFrame ((readHidden hρ hf d fun hname => hname.2 rfl).bind_same fun parent => ?_)
    refine currentFrame ((readHidden hρ hf _ fun hname => hname.1 rfl).bind_same fun this => ?_)
    split
    · refine get fun m m' moved hm => ?_
      obtain ⟨hnone, hnone'⟩ | ⟨k, k', hk, hk', hkk⟩ := (hm.akin.method? _ x.text).cases
      · rw [hnone, hnone']
        exact fail rfl _
      · rw [hk, hk']
        exact boundMethod hkk this
    · exact Mirrors.throw (.missing false _)

/-- Every expression. -/
theorem exprRule (e : Expr) :
    ρ.Mirror w f Eq (inner.exprRule host e) (inner.exprRule host (e.rename ρ marks c)) := by
  cases e with
  | literal value => exact Mirrors.pure rfl
  | grouping e =>
    rw [Expr.rename]
    exact h.eval hf
  | unary op line e =>
    rw [Expr.rename]
    exact (h.eval hf).bind_same fun v => orFail _ _
  | binary op line left right =>
    rw [Expr.rename]
    exact (h.eval hf).bind_same fun v => (h.eval hf).bind_same fun u => orFail _ _
  | logical op line left right =>
    rw [Expr.rename]
    exact (h.eval hf).bind_same fun v => .ite Iff.rfl (Mirrors.pure rfl) (h.eval hf)
  | «variable» u =>
    rw [Expr.rename]
    exact readVariable hρ.injective hf u.id u.name
  | assign id x e =>
    rw [Expr.rename]
    exact (h.eval hf).bind_same fun v =>
      (writeVariable hρ.injective hf id x v).bind_same fun _ => Mirrors.pure rfl
  | call callee line arguments =>
    rw [Expr.rename]
    exact (h.eval hf).bind_same fun v => (h.evalAll hf arguments).bind_same fun vs =>
      h.call hρ _ v vs
  | get e x =>
    rw [Expr.rename]
    exact h.getExpr hf e x
  | set e x v =>
    rw [Expr.rename]
    exact h.setExpr hf e v x _
  -- The new closures correspond with the marks of the place where both are made.
  | lambda line params body =>
    rw [Expr.rename]
    refine currentFrame ((newFunction ?_).bind_same fun _ => Mirrors.pure rfl)
    exact ⟨rfl, rfl, rfl, marks, c, hf, rfl, rfl⟩
  -- The name `this` is read as it is, since the renaming leaves hidden names alone.
  | this id line =>
    have hread : ρ.Mirror w f Eq (Run.readVariable id ⟨"this", line⟩)
        (Run.readVariable id (ρ.name (ρ.moves marks id) ⟨"this", line⟩)) :=
      readVariable hρ.injective hf id _
    unfold name at hread
    rwa [hρ.text_of_hidden fun hname => hname.1 rfl] at hread
  | super id line x => exact superExpr hf hρ id x

end Expressions

/-!
## Statements

A statement is executed in a frame that is marked in the same way as its scope.
-/

section Statements

variable (h : inner.Renames ρ) (hf : w.Marked f marks)
include h hf

/-- The frame of a block is marked if its scope is. -/
theorem block (body : List Stmt) :
    ρ.Mirror w f Eq (inner.block body)
      (inner.block (stmtsRename ρ (ρ.mark c body :: marks) c body)) := by
  have hbody : ρ.Mirror w f Eq
      (Run.newFrame f [] >>= fun g => Run.inFrame g (inner.execAll body))
      (Run.newFrame f (ρ.bindings (ρ.mark c body) []) >>= fun g =>
        Run.inFrame g (inner.execAll (stmtsRename ρ (ρ.mark c body :: marks) c body))) :=
    newFrame hf fun w' g _ hg => inFrame (h.execAll hg (keeps_of_mark marks))
  exact currentFrame hbody

/-- Each round is the same. -/
theorem loop (condition : Expr) {s : Stmt} (hkeeps : s.Keeps ρ marks) (c' : Choice) (n : Nat) :
    ρ.Mirror w f Eq (Completion.endings.loop inner.eval inner.exec condition s n)
      (Completion.endings.loop inner.eval inner.exec (condition.rename ρ marks c)
        (s.rename ρ marks c') n) := by
  induction n with
  | zero => exact Mirrors.throw .endless
  | succ n ih =>
    refine (h.eval hf).bind_same fun v => .ite Iff.rfl ?_ (Mirrors.pure rfl)
    refine (h.exec hf hkeeps).bind_same fun completion => ?_
    cases completion with
    | normal => exact ih
    | returned v => exact Mirrors.pure rfl

/-- The same branch is taken. -/
theorem ifThen {condition : Expr} {s : Stmt} {alternative : Option Stmt}
    (hkeeps : (Stmt.ifThen condition s alternative).Keeps ρ marks) :
    ρ.Mirror w f Eq (inner.stmtRule host (.ifThen condition s alternative))
      (inner.stmtRule host ((Stmt.ifThen condition s alternative).rename ρ marks c)) := by
  cases alternative with
  | none =>
    rw [Stmt.rename]
    exact (h.eval hf).bind_same fun v => .ite Iff.rfl (h.exec hf hkeeps) (Mirrors.pure rfl)
  | some t =>
    have hbranches : ∀ x ∈ s.titles ++ t.titles, ρ.text (marks.headD false) x = x := hkeeps
    obtain ⟨hs, ht⟩ := List.forall_mem_append.mp hbranches
    rw [Stmt.rename]
    exact (h.eval hf).bind_same fun v => .ite Iff.rfl (h.exec hf hs) (h.exec hf ht)

/-- The value is bound under the other name. -/
theorem var (hρ : Function.Injective ρ.names) (x : Name) (e? : Option Expr) :
    ρ.Mirror w f Eq (inner.stmtRule host (.var x e?))
      (inner.stmtRule host ((Stmt.var x e?).rename ρ marks c)) := by
  cases e? with
  | none => exact normally (define hρ hf x.text _)
  | some e =>
    rw [Stmt.rename]
    exact normally ((h.eval hf).bind_same fun v => define hρ hf x.text v)

end Statements

/-!
## Declarations

What declares a function or a class at a place where names are not kept may be renamed, with all
that is in it.
-/

section Declarations

variable (hρ : Function.Injective ρ.names) (hf : w.Marked f marks)
include hρ hf

/-- A name that stays is bound in the present frame. -/
theorem defineTitle {x : String} (hx : ρ.text (marks.headD false) x = x) (v : Value) :
    ρ.Mirror w f Eq (Run.define x v) (Run.define x v) := by
  have hdefine := define (f := f) hρ hf x v
  rwa [hx] at hdefine

/-- The function goes together with that of the renamed declaration. -/
theorem function {d : FunctionDecl} (hkeeps : (Stmt.function d).Keeps ρ marks) :
    ρ.Mirror w f Eq (Evaluator.function d) (Evaluator.function (d.rename ρ marks c)) := by
  unfold Evaluator.function
  rw [d.name_rename]
  refine currentFrame ((newFunction ?_).bind_same fun i => ?_)
  · exact closureOf_renamed hf d false
  · exact defineTitle hρ hf (hkeeps _ List.mem_cons_self) _

omit hρ in
/-- One function after the other. -/
theorem staticMethods (ds : List FunctionDecl) :
    ρ.Mirror w g Eq (Evaluator.staticMethods f ds)
      (Evaluator.staticMethods f (functionsRename ρ marks c ds)) := by
  induction ds generalizing c with
  | nil => exact Mirrors.pure rfl
  | cons d ds ih =>
    rw [functionsRename]
    refine (newFunction (closureOf_renamed hf d false)).bind_same fun i => ?_
    exact ih.bind_same fun others => Mirrors.pure (by rw [d.name_rename])

omit hρ in
/-- What goes on in the frame in which methods are made. -/
theorem methodFrame {parent : Option VariableUse} {c? : Option ClassId}
    (hsome : c?.isSome = parent.isSome) {k k' : FrameId → Run α}
    (hk : ∀ w' g marks', w.Grows w' → w'.Marked g marks' →
      methodMarks marks parent = [false] ++ marks' → ρ.Mirror w' f Q (k g) (k' g)) :
    ρ.Mirror w f Q (Evaluator.methodFrame f c? >>= k) (Evaluator.methodFrame f c? >>= k') := by
  cases parent with
  | none =>
    obtain rfl : c? = none := by simpa using hsome
    exact hk w f marks (.refl w) hf rfl
  | some u =>
    obtain ⟨i, rfl⟩ := Option.isSome_iff_exists.mp hsome
    have hmade : ρ.Mirror w f Q (Run.newFrame f [("super", .«class» i)] >>= k)
        (Run.newFrame f (ρ.bindings false [("super", .«class» i)]) >>= k') :=
      newFrame hf fun w' g hgrow hg => hk w' g (false :: marks) hgrow hg rfl
    exact hmade

/-- Classes with tables that go together, under the same name. -/
theorem declareClass {x : Name} (hx : ρ.text (marks.headD false) x.text = x.text)
    {parent : Option VariableUse} {c? : Option ClassId} (hsome : c?.isSome = parent.isSome)
    (methods statics : List FunctionDecl) (c' : Choice) :
    ρ.Mirror w f Eq (Evaluator.declareClass x c? methods statics)
      (Evaluator.declareClass x c? (functionsRename ρ (methodMarks marks parent) c methods)
        (functionsRename ρ marks c' statics)) := by
  rintro m m' ⟨moved, hgrow, hrenamed, rfl⟩
  have hlt : m.current < m.frames.size := (hf.grow hgrow).lt_size hrenamed.rooted
  have hlt' : m'.current < m'.frames.size := by
    rw [hrenamed.current, hrenamed.frames, size_frames]
    exact hlt
  rw [declareClass_eq_define _ _ _ _ _ hlt, declareClass_eq_define _ _ _ _ _ hlt']
  refine Mirrors.bind_same (defineTitle hρ hf hx _) (fun _ => currentFrame ?_) m m'
    ⟨moved, hgrow, hrenamed, rfl⟩
  refine (staticMethods hf statics).bind_same fun ids => ?_
  -- Methods keep the marks around `this`, which is not there before they are bound.
  refine methodFrame hf hsome fun w' g marks' hgrow hg hmarks => ?_
  refine (newClass ?_).bind_same fun i => defineTitle hρ (hf.grow hgrow) hx _
  rw [hmarks]
  exact ⟨rfl, rfl, (methods_renamed hg methods).get?, rfl⟩

/-- The superclass is a variable, which may be renamed. -/
theorem classDecl {x : Name} {parent : Option VariableUse} {methods statics : List FunctionDecl}
    (hkeeps : (Stmt.classDecl x parent methods statics).Keeps ρ marks) :
    ρ.Mirror w f Eq (inner.stmtRule host (.classDecl x parent methods statics))
      (inner.stmtRule host ((Stmt.classDecl x parent methods statics).rename ρ marks c)) := by
  have hx := hkeeps x.text List.mem_cons_self
  rw [Stmt.rename]
  cases parent with
  | none => exact normally (declareClass hρ hf hx rfl methods statics _)
  | some u =>
    have hparent : ρ.Mirror w f Eq (superclass u) (superclass (ρ.use marks u)) := by
      refine (readVariable hρ hf u.id u.name).bind_same fun v => ?_
      -- The place of a failure shows the other name, but it is on the same line.
      have hline : u.name.place.line = (ρ.use marks u).name.place.line := rfl
      split
      · exact Mirrors.pure rfl
      · exact fail hline _
    exact normally (hparent.bind_same fun i =>
      declareClass hρ hf hx rfl methods statics _)

end Declarations

/-!
## Whole evaluators

By induction on the levels; and from there to whole programs.
-/

/-- Every statement. -/
theorem stmtRule (h : inner.Renames ρ) (hρ : ρ.Faithful) (hf : w.Marked f marks) {s : Stmt}
    (hkeeps : s.Keeps ρ marks) :
    ρ.Mirror w f Eq (inner.stmtRule host s) (inner.stmtRule host (s.rename ρ marks c)) := by
  cases s with
  | expression e =>
    rw [Stmt.rename]
    exact normally (h.eval hf)
  | print e =>
    rw [Stmt.rename]
    exact normally ((h.eval hf).bind_same fun v => Mirror.print v)
  | var x e? => exact h.var hf hρ.injective x e?
  | block body =>
    rw [Stmt.rename]
    exact h.block hf body
  | ifThen condition s alternative => exact h.ifThen hf hkeeps
  | whileDo condition s =>
    have hs : s.Keeps ρ marks := hkeeps
    rw [Stmt.rename]
    exact h.loop hf condition hs _ host.iterations
  -- The names of functions and classes are kept, because they can be printed.
  | function d =>
    rw [Stmt.rename]
    exact normally (function hρ.injective hf hkeeps)
  | returnValue line e? =>
    cases e? with
    | none => exact Mirrors.pure rfl
    | some e =>
      rw [Stmt.rename]
      exact (h.eval hf).bind_same fun v => Mirrors.pure rfl
  | classDecl x parent methods statics => exact classDecl hρ.injective hf hkeeps

end Evaluator.Renames

/-- Whatever is executed, the renamed tree does the same. -/
theorem renames_evaluator (hρ : ρ.Faithful) (host : Host) (depth : Nat) :
    (evaluator host depth).Renames ρ := by
  induction depth with
  | zero => exact ⟨fun _ => Mirrors.throw .tooDeep, fun _ _ => Mirrors.throw .tooDeep⟩
  | succ depth ih => exact ⟨fun hf => ih.exprRule hf hρ _, fun hf => ih.stmtRule hρ hf⟩

/-- **Renamed programs run alike.** -/
theorem Renaming.Mirror.execute (hρ : ρ.Faithful) (host : Host) (depth : Nat)
    (hf : w.Marked f marks) {program : List Stmt} (hkeeps : ∀ s ∈ program, s.Keeps ρ marks) :
    ρ.Mirror w f Eq (execute host depth program)
      (execute host depth (stmtsRename ρ marks c program)) := by
  unfold LoxLang.execute
  induction program generalizing c with
  | nil => exact Mirrors.pure rfl
  | cons s ss ih =>
    obtain ⟨hs, hss⟩ := List.forall_mem_cons.mp hkeeps
    have hexec := (renames_evaluator hρ host depth).exec (c := c.part 0) hf hs
    rw [stmtsRename]
    exact (hexec.bind_same fun _ => Mirrors.pure rfl).bind_same fun _ => ih hss

end LoxLang
