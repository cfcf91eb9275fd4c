import LoxLang.Proofs.Correspondence
import LoxLang.Proofs.Mirroring

/-!
# Resolving trees that correspond

Scopes hold names only, so that trees that are the same but for lines and numbers have the same
distances and the same faults (`resolve_corresponds`). That other uses have been resolved before
makes no difference.
-/

namespace LoxLang

open LoxLang.Resolver

/-- The same use but for its line and number. -/
structure Resolved.Corresponds (κ : Correspondence) (u u' : Resolved) : Prop where
  kind : u.kind = u'.kind
  name : u.name = u'.name
  line : κ.line u.line u'.line
  distance : u.distance = u'.distance
  id : κ.use u.id u'.id

/-- Where no two lines and no two numbers go together, uses that correspond are the same. -/
theorem Resolved.Corresponds.list_eq {us us' : List Resolved}
    (h : List.Forall₂ (Resolved.Corresponds .same) us us') : us = us' := by
  rw [← List.forall₂_eq_eq_eq]
  refine h.imp fun u u' hu => ?_
  obtain ⟨hkind, hname, hline, hdistance, hid⟩ := hu
  cases u
  cases u'
  simp_all [Correspondence.same]

/-- The walk stands at the same place of trees that correspond. The one has resolved some uses
before the other began. -/
structure ScopeState.Corresponds (κ : Correspondence) (before : List Resolved)
    (s s' : ScopeState) : Prop where
  scopes : s.scopes = s'.scopes
  initializing : s.initializing = s'.initializing
  uses : ∃ us, List.Forall₂ (Resolved.Corresponds κ) s.uses us ∧ s'.uses = us ++ before
  reports : List.Forall₂ (Report.Corresponds κ) s.reports s'.reports

/-- Walks that find the same. -/
abbrev Resolver.Mirror (κ : Correspondence) (before : List Resolved) {α : Type}
    (p p' : Resolver α) : Prop :=
  Mirrors (ScopeState.Corresponds κ before) Eq Eq p p'

variable {κ : Correspondence} {before : List Resolved} {l l' : Nat} {x x' : Name}

/-- Uses go together in the order in which they were resolved. -/
theorem ScopeState.Corresponds.usesInOrder {s s' : ScopeState} (h : s.Corresponds κ [] s') :
    List.Forall₂ (Resolved.Corresponds κ) s.uses.reverse s'.uses.reverse := by
  obtain ⟨us, hus, huses⟩ := h.uses
  rw [huses, List.append_nil]
  exact List.rel_reverse hus

/-!
## Steps

Names and scopes are the same in both walks. Lines come up in reports, and numbers of uses in the
entries that are recorded.
-/

/-- The same fault is reported at places that go together. -/
theorem mirror_reportAt {p p' : Location} (hp : p.Corresponds κ p') (e : ScopeError) :
    Mirror κ before (report p e) (report p' e) := fun _ _ h =>
  .ok rfl { h with reports := List.rel_append h.reports (.cons (.located hp _) .nil) }

/-- A fault is reported, or not, before the walk goes on. -/
theorem mirror_reportIf {c c' : Prop} [Decidable c] [Decidable c'] (hc : c ↔ c')
    {place place' : Location} (hplace : place.Corresponds κ place') (e : ScopeError)
    {p p' : Resolver Unit} (h : Mirror κ before p p') :
    Mirror κ before (if c then report place e >>= fun _ => p else p)
      (if c' then report place' e >>= fun _ => p' else p') :=
  .ite hc ((mirror_reportAt hplace e).bind_same fun _ => h) h

theorem mirror_openScope (scope : Scope) :
    Mirror κ before (openScope scope) (openScope scope) := fun _ _ h =>
  .ok rfl { h with scopes := congrArg (scope :: ·) h.scopes }

theorem mirror_closeScope : Mirror κ before closeScope closeScope := fun _ _ h =>
  .ok rfl { h with scopes := congrArg (·.drop 1) h.scopes }

theorem mirror_innermost? : Mirror κ before innermost? innermost? := fun _ _ h =>
  .ok (congrArg List.head? h.scopes) h

/-- The same name is entered in the same scope. -/
theorem mirror_setInnermost (name : String) (ready : Bool) :
    Mirror κ before (setInnermost name ready) (setInnermost name ready) := by
  intro s s' h
  refine .ok rfl ?_
  dsimp only
  rw [← h.scopes]
  split
  · exact h
  · exact { h with scopes := rfl }

/-- A name is declared in both, or is there already in both. -/
theorem mirror_declare (hx : x.Corresponds κ x') :
    Mirror κ before (declare x) (declare x') := by
  have hset : Mirror κ before (setInnermost x.text false) (setInnermost x.text false) :=
    mirror_setInnermost _ _
  refine mirror_innermost?.bind_same fun scope? => ?_
  rw [← hx.text]
  cases scope? with
  | none => exact hset
  | some scope => exact mirror_reportIf Iff.rfl hx.place _ hset

/-- A parameter or a function is declared in both. -/
theorem mirror_declareReady (hx : x.Corresponds κ x') :
    Mirror κ before (declareReady x) (declareReady x') := by
  refine (mirror_declare hx).bind_same fun _ => ?_
  rw [define, define, hx.text]
  exact mirror_setInnermost _ _

/-- The same distance is recorded for uses that go together. -/
theorem mirror_resolveUse (kind : UseKind) (name : String) (hl : κ.line l l') {i i' : UseId}
    (hi : κ.use i i') :
    Mirror κ before (resolveUse kind name l i) (resolveUse kind name l' i') := by
  intro s s' h
  refine .ok rfl ?_
  dsimp only
  rw [← h.scopes]
  split
  · exact h
  · obtain ⟨us, hus, huses⟩ := h.uses
    refine ⟨rfl, h.initializing, ⟨⟨kind, name, l', _, i'⟩ :: us, .cons ⟨rfl, rfl, hl, rfl, hi⟩ hus,
      ?_⟩, h.reports⟩
    dsimp only
    rw [huses, List.cons_append]

/-- The same variables are ready. -/
theorem mirror_isReady (name : String) : Mirror κ before (isReady name) (isReady name) := by
  refine Mirrors.get.bind fun s s' h => ?_
  rw [← h.scopes, ← h.initializing]
  split <;> exact .pure rfl

/-- A variable that is read in its own initializer is reported in both. -/
theorem mirror_readUse {u u' : VariableUse} (hu : u.Corresponds κ u') :
    Mirror κ before (Resolver.readVariable u) (Resolver.readVariable u') := by
  unfold Resolver.readVariable
  rw [← hu.name.text]
  have hresolve : Mirror κ before (resolveUse .«variable» u.name.text u.name.line u.id)
      (resolveUse .«variable» u.name.text u'.name.line u'.id) :=
    mirror_resolveUse _ _ hu.name.line hu.id
  refine (mirror_isReady _).bind_same fun ready => ?_
  exact .ite Iff.rfl hresolve ((mirror_reportAt hu.name.place _).bind_same fun _ => hresolve)

/-- The name goes to the same others. -/
theorem mirror_beginInitializer (name : String) :
    Mirror κ before (beginInitializer name) (beginInitializer name) := by
  intro s s' h
  refine .ok rfl ?_
  dsimp only
  rw [← h.scopes]
  split
  · exact { h with scopes := rfl, initializing := congrArg (name :: ·) h.initializing }
  · exact h

theorem mirror_endInitializer (name : String) :
    Mirror κ before (endInitializer name) (endInitializer name) := fun _ _ h =>
  .ok rfl { h with initializing := congrArg (List.filter (· ≠ name)) h.initializing }

/-!
## Rules

If the walks one level further in do the same on trees that go together, then so do these.
-/

/-- The walks one level further in find the same. -/
structure ScopeWalk.Mirror (κ : Correspondence) (before : List Resolved) (inner : ScopeWalk) :
    Prop where
  expr : ∀ context {e e' : Expr}, e.Corresponds κ e' →
    Resolver.Mirror κ before (inner.expr context e) (inner.expr context e')
  stmt : ∀ context {s s' : Stmt}, s.Corresponds κ s' →
    Resolver.Mirror κ before (inner.stmt context s) (inner.stmt context s')

section Rules

open ScopeWalk

variable {inner : ScopeWalk} (h : inner.Mirror κ before) (context : ScopeContext)
include h

/-- A scope with the parameters, and the body in it. -/
theorem mirror_functionBody {params params' : List Name} {body body' : List Stmt}
    (hparams : List.Forall₂ (Name.Corresponds κ) params params')
    (hbody : List.Forall₂ (Stmt.Corresponds κ) body body') :
    Mirror κ before (inner.function context params body)
      (inner.function context params' body') :=
  (mirror_openScope _).bind_same fun _ =>
    (Mirrors.forM hparams fun _ _ hx => mirror_declareReady hx).bind_same fun _ =>
      (Mirrors.forM hbody fun _ _ hs => h.stmt context hs).bind_same fun _ => mirror_closeScope

omit h in
/-- `this` is misplaced in both, or in neither. -/
theorem mirror_this (hl : κ.line l l') {i i' : UseId} (hi : κ.use i i') :
    Mirror κ before (ScopeWalk.this context i l) (ScopeWalk.this context i' l') := by
  unfold ScopeWalk.this
  cases context.inClass with
  | none | staticMethod => exact mirror_reportAt (Keyword.corresponds_place _ hl) _
  | «class» | subclass => exact mirror_resolveUse _ _ hl hi

omit h in
/-- The same of `super`. -/
theorem mirror_super (hl : κ.line l l') {i i' : UseId} (hi : κ.use i i') :
    Mirror κ before (ScopeWalk.super context i l) (ScopeWalk.super context i' l') := by
  unfold ScopeWalk.super
  cases context.inClass with
  | none | staticMethod | «class» => exact mirror_reportAt (Keyword.corresponds_place _ hl) _
  | subclass => exact mirror_resolveUse _ _ hl hi

/-- Whatever the expression is. -/
theorem mirror_exprWalk {e e' : Expr} (he : e.Corresponds κ e') :
    Mirror κ before (inner.exprRule context e) (inner.exprRule context e') := by
  cases he with
  | literal value => exact .pure rfl
  | grouping he | unary _ he | get he _ => exact h.expr context he
  | binary _ hleft hright | logical _ hleft hright =>
    exact (h.expr context hleft).bind_same fun _ => h.expr context hright
  | «variable» hu => exact mirror_readUse hu
  | assign hi hx he =>
    refine (h.expr context he).bind_same fun _ => ?_
    rw [hx.text]
    exact mirror_resolveUse _ _ hx.line hi
  | call hcallee _ hargs =>
    exact (h.expr context hcallee).bind_same fun _ =>
      .forM hargs fun _ _ he => h.expr context he
  | set he _ hv => exact (h.expr context hv).bind_same fun _ => h.expr context he
  | lambda _ hparams hbody => exact mirror_functionBody h _ hparams hbody
  | this hi hl => exact mirror_this context hl hi
  | super hi hl _ => exact mirror_super context hl hi

/-- The name is declared, the initializer is looked at, and then the name is ready. -/
theorem mirror_varWalk (hx : x.Corresponds κ x') {e e' : Option Expr}
    (he : Option.Rel (Expr.Corresponds κ) e e') :
    Mirror κ before (inner.varDeclaration context x e) (inner.varDeclaration context x' e') := by
  refine (mirror_declare hx).bind_same fun _ => ?_
  rw [define, define, ← hx.text]
  have hdefine : Mirror κ before (setInnermost x.text true) (setInnermost x.text true) :=
    mirror_setInnermost _ _
  cases he with
  | none => exact hdefine
  | some he =>
    exact (mirror_beginInitializer _).bind_same fun _ => (h.expr context he).bind_same fun _ =>
      (mirror_endInitializer _).bind_same fun _ => hdefine

/-- A `return` is misplaced in both, or in neither. -/
theorem mirror_returnWalk (hl : κ.line l l') {e e' : Option Expr}
    (he : Option.Rel (Expr.Corresponds κ) e e') :
    Mirror κ before (inner.returnValue context l e) (inner.returnValue context l' e') := by
  have hplace := Keyword.corresponds_place .«return» hl
  cases he with
  | none => exact mirror_reportIf Iff.rfl hplace _ (.pure rfl)
  | some he =>
    exact mirror_reportIf Iff.rfl hplace _ (mirror_reportIf Iff.rfl hplace _ (h.expr context he))

/-- A static method is looked at like a function. -/
theorem mirror_staticMethod {f f' : FunctionDecl} (hf : f.Corresponds κ f') :
    Mirror κ before (inner.staticMethod f) (inner.staticMethod f') := by
  obtain ⟨hx, hparams, hbody⟩ := hf
  have hfunction := mirror_functionBody h ⟨.method, .staticMethod⟩ hparams hbody
  exact mirror_reportIf (by rw [hx.text]) hx.place _ hfunction

/-- A method is looked at in the scope of `this`. -/
theorem mirror_instanceMethod (inClass : ClassContext) {f f' : FunctionDecl}
    (hf : f.Corresponds κ f') :
    Mirror κ before (inner.instanceMethod inClass f) (inner.instanceMethod inClass f') := by
  obtain ⟨hx, hparams, hbody⟩ := hf
  unfold instanceMethod Walk.instanceFunction
  dsimp only
  rw [hx.text]
  exact mirror_functionBody h _ hparams hbody

omit h in
/-- A class is below itself in both, or in neither. -/
theorem mirror_superclassWalk (hx : x.Corresponds κ x') {u u' : VariableUse}
    (hu : u.Corresponds κ u') :
    Mirror κ before (superclass x u) (superclass x' u') :=
  mirror_reportIf (by rw [hx.text, hu.name.text]) hu.name.place _ (mirror_readUse hu)

/-- The superclass, then the static methods, and then the methods. -/
theorem mirror_classWalk (hx : x.Corresponds κ x') {parent parent' : Option VariableUse}
    {methods methods' statics statics' : List FunctionDecl}
    (hparent : Option.Rel (VariableUse.Corresponds κ) parent parent')
    (hmethods : List.Forall₂ (FunctionDecl.Corresponds κ) methods methods')
    (hstatics : List.Forall₂ (FunctionDecl.Corresponds κ) statics statics') :
    Mirror κ before (inner.classDeclaration x parent methods statics)
      (inner.classDeclaration x' parent' methods' statics') := by
  have hstatic := Mirrors.forM hstatics fun _ _ hf => mirror_staticMethod h hf
  have hinstance (c : ClassContext) := Mirrors.forM hmethods fun _ _ hf =>
    mirror_instanceMethod h c hf
  refine (mirror_declareReady hx).bind_same fun _ => ?_
  cases hparent with
  | none =>
    exact hstatic.bind_same fun _ => (mirror_openScope _).bind_same fun _ =>
      (hinstance _).bind_same fun _ => mirror_closeScope.bind_same fun _ => .pure rfl
  | some hu =>
    exact (mirror_superclassWalk hx hu).bind_same fun _ => hstatic.bind_same fun _ =>
      (mirror_openScope _).bind_same fun _ => (mirror_openScope _).bind_same fun _ =>
        (hinstance _).bind_same fun _ => mirror_closeScope.bind_same fun _ => mirror_closeScope

/-- Whatever the statement is. -/
theorem mirror_stmtWalk {s s' : Stmt} (hs : s.Corresponds κ s') :
    Mirror κ before (inner.stmtRule context s) (inner.stmtRule context s') := by
  cases hs with
  | expression he | print he => exact h.expr context he
  | var hx he => exact mirror_varWalk h context hx he
  | block hbody =>
    exact (mirror_openScope _).bind_same fun _ =>
      (Mirrors.forM hbody fun _ _ hs => h.stmt context hs).bind_same fun _ => mirror_closeScope
  | ifThen hc hs ht =>
    refine (h.expr context hc).bind_same fun _ => (h.stmt context hs).bind_same fun _ => ?_
    cases ht with
    | none => exact .pure rfl
    | some ht => exact h.stmt context ht
  | whileDo hc hs => exact (h.expr context hc).bind_same fun _ => h.stmt context hs
  | function hf =>
    obtain ⟨hx, hparams, hbody⟩ := hf
    exact (mirror_declareReady hx).bind_same fun _ => mirror_functionBody h _ hparams hbody
  | returnValue hl he => exact mirror_returnWalk h context hl he
  | classDecl hx hparent hmethods hstatics => exact mirror_classWalk h hx hparent hmethods hstatics

end Rules

/-!
## Programs

Walks of all levels do the same, and so does the resolving of a program.
-/

/-- By induction on the levels. -/
theorem mirror_scopeWalk (depth : Nat) : (scopeWalk depth).Mirror κ before := by
  induction depth with
  | zero => exact ⟨fun _ _ _ _ => .throw rfl, fun _ _ _ _ => .throw rfl⟩
  | succ depth ih =>
    exact ⟨fun context _ _ he => mirror_exprWalk ih context he,
      fun context _ _ hs => mirror_stmtWalk ih context hs⟩

/-- What resolving finds, up to lines and numbers. -/
structure Resolution.Corresponds (κ : Correspondence) (r r' : Resolution) : Prop where
  uses : List.Forall₂ (Resolved.Corresponds κ) r.uses r'.uses
  reports : List.Forall₂ (Report.Corresponds κ) r.reports r'.reports

/-- **Resolving looks at names only.** Lines and numbers go into the table and the reports as they
are. -/
theorem resolve_corresponds (depth : Nat) {ss ss' : List Stmt} (hl : κ.line l l')
    (h : List.Forall₂ (Stmt.Corresponds κ) ss ss') :
    (resolve depth l ss).Corresponds κ (resolve depth l' ss') := by
  have hwalk : Mirror κ [] (ss.forM ((scopeWalk depth).stmt ⟨.none, .none⟩))
      (ss'.forM ((scopeWalk depth).stmt ⟨.none, .none⟩)) :=
    .forM h fun _ _ hs => (mirror_scopeWalk depth).stmt _ hs
  have hends := hwalk ⟨[], [], [], []⟩ ⟨[], [], [], []⟩ ⟨rfl, rfl, ⟨[], .nil, rfl⟩, .nil⟩
  unfold resolve
  generalize (ss.forM _ : Resolver Unit) _ = r at hends
  generalize (ss'.forM _ : Resolver Unit) _ = r' at hends
  cases hends with
  | ok _ hs => exact ⟨hs.usesInOrder, hs.reports⟩
  | @error e _ _ _ he hs =>
    subst he
    cases e
    exact ⟨hs.usesInOrder, List.rel_append hs.reports (.cons (.located (.endOfSource hl) _) .nil)⟩

end LoxLang
