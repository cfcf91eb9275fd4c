import LoxLang.Proofs.Reporting
import LoxLang.Proofs.Scoping

/-!
# The walk that resolves names

For each step of the walk: if it passes without a report, then it has met what stands in the tree
(`Met`). The scopes behind it are those that the text opens, the uses resolved on the way are the
occurrences with a distance, and every occurrence is placed where it may stand. The walks one level
further in are assumed to do so (`WalksAt`), and `walks_scopeWalk` ties the knot by induction on the
levels; `resolve_of_reports_eq_nil` states the outcome for programs.
-/

namespace LoxLang

open LoxLang.Resolver

/-!
## Distances

How entering a name changes the scopes, and with them the distances of names. Only the innermost
scope is touched.
-/

namespace Scope

theorem contains_insert (scope : Scope) (name other : String) (ready : Bool) :
    (Bindings.insert scope name ready).contains other =
      (name == other || scope.contains other) := by
  unfold Bindings.contains
  rw [Bindings.get?_insert]
  by_cases h : name = other <;> simp [h]

/-- Setting a name twice is setting it as it was set last. -/
theorem insert_insert (scope : Scope) (name : String) (a b : Bool) :
    Bindings.insert (Bindings.insert scope name a) name b = Bindings.insert scope name b := by
  induction scope with
  | nil => simp [Bindings.insert]
  | cons entry rest ih =>
    obtain ⟨key, c⟩ := entry
    by_cases h : key = name <;> simp [Bindings.insert, h, ih]

/-- A name that is declared and then ready is entered as ready. -/
theorem enter_enter (name : String) (a b : Bool) (scopes : List Scope) :
    enter name b (enter name a scopes) = enter name b scopes := by
  cases scopes with
  | nil => rfl
  | cons scope outer => simp [enter, insert_insert]

/-- The scopes around the innermost one stay. -/
theorem drop_enter (name : String) (ready : Bool) (scopes : List Scope) :
    (enter name ready scopes).drop 1 = scopes.drop 1 := by
  cases scopes <;> rfl

/-- Other names are as far away as before. -/
theorem distance?_enter {name other : String} (h : name ≠ other) (ready : Bool)
    (scopes : List Scope) : distance? (enter name ready scopes) other = distance? scopes other := by
  cases scopes with
  | nil => rfl
  | cons scope outer =>
    simp [distance?, enter, List.findIdx?_cons, contains_insert, h]

/-- A name of the innermost scope is at distance zero; any other is one further away. -/
theorem distance?_cons (scope : Scope) (scopes : List Scope) (name : String) :
    distance? (scope :: scopes) name =
      if scope.contains name then some 0 else (distance? scopes name).map (· + 1) :=
  List.findIdx?_cons

end Scope

/-!
## Classes around a place

Inside a class with a superclass there is a scope that holds `super`, and around a method one that
holds `this`. Entering other names and opening scopes leaves this as it is.
-/

/-- The open scopes are those that a class makes for its methods. -/
def ClassContext.Fits (scopes : List Scope) : ClassContext → Prop
  | none | staticMethod => True
  | «class» => ∃ k, Scope.distance? scopes "this" = some k
  | subclass => ∃ k, Scope.distance? scopes "super" = some (k + 1) ∧
      Scope.distance? scopes "this" = some k

namespace ClassContext.Fits

variable {c : ClassContext} {scopes : List Scope}

/-- Names are no keywords, so they do not hide `this` or `super`. -/
theorem enter (h : c.Fits scopes) {name : String} (hname : IsName name) (ready : Bool) :
    c.Fits (Scope.enter name ready scopes) := by
  have hthis := Scope.distance?_enter hname.1 ready scopes
  have hsuper := Scope.distance?_enter hname.2 ready scopes
  cases c with
  | none | staticMethod => trivial
  | «class» =>
    unfold Fits
    rwa [hthis]
  | subclass =>
    unfold Fits
    rwa [hthis, hsuper]

/-- A new scope holds nothing yet. -/
theorem inside (h : c.Fits scopes) : c.Fits ([] :: scopes) := by
  cases c with
  | none | staticMethod => trivial
  | «class» =>
    obtain ⟨k, hthis⟩ := h
    exact ⟨k + 1, by simp [Scope.distance?_cons, Bindings.contains, Bindings.get?, hthis]⟩
  | subclass =>
    obtain ⟨k, hsuper, hthis⟩ := h
    exact ⟨k + 1, by simp [Scope.distance?_cons, Bindings.contains, Bindings.get?, hsuper],
      by simp [Scope.distance?_cons, Bindings.contains, Bindings.get?, hthis]⟩

/-- The scopes that a class declaration opens are those of its methods. -/
theorem methodScopes (scopes : List Scope) (parent : Option VariableUse) :
    (if parent.isSome then subclass else «class» : ClassContext).Fits
      (methodScopes scopes parent) := by
  cases parent with
  | none => exact ⟨0, by simp [LoxLang.methodScopes, Scope.distance?_cons, Bindings.contains,
      Bindings.get?]⟩
  | some use => exact ⟨0, by simp [LoxLang.methodScopes, Scope.distance?_cons, Bindings.contains,
      Bindings.get?], by simp [LoxLang.methodScopes, Scope.distance?_cons, Bindings.contains,
      Bindings.get?]⟩

end ClassContext.Fits

/-!
## What was met between two states

Between two states of the walk some occurrences were met. The uses among them that have a distance
were recorded, in this order.
-/

/-- Between two states of the walk some occurrences were met, and all of them may stand where they
stand. Global names whose initializers are being looked at get fewer at most. -/
structure Met (os : List Occurrence) (scopes : List Scope) (s s' : ScopeState) : Prop where
  scopes : s'.scopes = scopes
  uses : s'.uses = (os.filterMap Occurrence.resolved?).reverse ++ s.uses
  initializing : ∀ x ∈ s'.initializing, x ∈ s.initializing
  placed : ∀ o ∈ os, o.Placed

/-- Nothing was met on no way. -/
theorem Met.refl (s : ScopeState) : Met [] s.scopes s s :=
  ⟨rfl, rfl, fun _ h => h, by simp⟩

/-- What was met on two ways, one after the other. -/
theorem Met.trans {os os' : List Occurrence} {S S' : List Scope} {s s' s'' : ScopeState}
    (h : Met os S s s') (h' : Met os' S' s' s'') : Met (os ++ os') S' s s'' := by
  refine ⟨h'.scopes, ?_, fun x hx => h.initializing x (h'.initializing x hx), ?_⟩
  · rw [h'.uses, h.uses, List.filterMap_append, List.reverse_append, List.append_assoc]
  · intro o ho
    rcases List.mem_append.mp ho with ho | ho
    · exact h.placed o ho
    · exact h'.placed o ho

/-- Scopes are opened and closed without anything being met. -/
theorem Met.rescope {os : List Occurrence} {S S₁ S₂ : List Scope} {s s' : ScopeState}
    (h : Met os S { s with scopes := S₁ } s') : Met os S₂ s { s' with scopes := S₂ } :=
  ⟨rfl, h.uses, h.initializing, h.placed⟩

/-!
## Single steps

Each step of the walk is described by the state behind it, provided that it reported nothing.
-/

namespace Resolver

/-- What holds of a step of the walk that passes without a report. -/
abbrev Walks {α : Type} (p : Resolver α) (Q : ScopeState → α → ScopeState → Prop) : Prop :=
  Unreported ScopeState.reports (fun _ => False) p Q

/-- A step that changes the state and reports nothing. -/
theorem walks_modify {f : ScopeState → ScopeState} (hf : ∀ s, (f s).reports = s.reports) :
    Walks (modify f) fun s _ s' => s' = f s := by
  intro s
  show s.reports <+: (f s).reports ∧ _
  rw [hf]
  exact ⟨List.prefix_refl _, fun _ => rfl⟩

theorem walks_get : Walks get fun s t s' => t = s ∧ s' = s :=
  fun _ => ⟨List.prefix_refl _, fun _ => ⟨rfl, rfl⟩⟩

/-- A step that reports does not pass without a report. -/
theorem walks_report (place : Location) (e : ScopeError) :
    Walks (report place e) fun _ _ _ => False := by
  intro s
  refine ⟨List.prefix_append _ _, fun h => ?_⟩
  simp at h

/-- The name is entered in the innermost scope. -/
theorem walks_setInnermost (name : String) (ready : Bool) :
    Walks (setInnermost name ready) fun s _ s' =>
      s' = { s with scopes := Scope.enter name ready s.scopes } := by
  refine (walks_modify fun s => ?_).mono fun s _ s' h => ?_
  · split <;> rfl
  · rw [h]
    obtain ⟨scopes, initializing, uses, reports⟩ := s
    cases scopes <;> rfl

/-- A name may be declared where its scope does not hold it yet. -/
theorem walks_declare (name : Name) :
    Walks (declare name) fun s _ s' =>
      (Occurrence.declaration name.text s.scopes).Placed ∧
        s' = { s with scopes := Scope.enter name.text false s.scopes } := by
  have hset := walks_setInnermost name.text false
  refine Unreported.mono (Unreported.bind
    (Q := fun s scope? s' => scope? = s.scopes.head? ∧ s' = s)
    (R := fun scope? s _ s' => (∀ scope ∈ scope?, Bindings.contains scope name.text = false) ∧
      s' = { s with scopes := Scope.enter name.text false s.scopes }) ?_ fun scope? => ?_) ?_
  · refine (walks_get.bind fun s => Unreported.pure _).mono ?_
    rintro s _ s' ⟨_, _, ⟨rfl, rfl⟩, rfl, rfl⟩
    exact ⟨rfl, rfl⟩
  -- A name that is there already is reported, which is excluded.
  · cases scope? with
    | none => exact hset.mono fun s _ s' h => ⟨by simp, h⟩
    | some scope =>
      refine (Unreported.ite (fun _ => (walks_report _ _).bind fun _ => hset)
        fun _ => hset).mono ?_
      rintro s _ s' (⟨-, _, _, hfalse, -⟩ | ⟨hnew, h⟩)
      · exact hfalse.elim
      · exact ⟨by simpa using hnew, h⟩
  · rintro s _ s' ⟨_, _, ⟨rfl, rfl⟩, hnew, h⟩
    exact ⟨hnew, h⟩

/-- Parameters and functions are ready as soon as they are declared. -/
theorem walks_declareReady (name : Name) :
    Walks (declareReady name) fun s _ s' =>
      (Occurrence.declaration name.text s.scopes).Placed ∧
        s' = { s with scopes := Scope.enter name.text true s.scopes } := by
  refine ((walks_declare name).bind fun _ => walks_setInnermost name.text true).mono ?_
  rintro s _ s' ⟨_, _, ⟨hnew, rfl⟩, rfl⟩
  exact ⟨hnew, by simp only [Scope.enter_enter]⟩

/-- One more scope, the innermost from now on. -/
theorem walks_openScope (scope : Scope) :
    Walks (openScope scope) fun s _ s' => s' = { s with scopes := scope :: s.scopes } :=
  walks_modify fun _ => rfl

/-- The innermost scope is left. -/
theorem walks_closeScope :
    Walks closeScope fun s _ s' => s' = { s with scopes := s.scopes.drop 1 } :=
  walks_modify fun _ => rfl

/-- A use is recorded with the distance of its name, if there is a scope that holds it. -/
theorem walks_resolveUse (kind : UseKind) (name : String) (line : Nat) (id : UseId) :
    Walks (resolveUse kind name line id) fun s _ s' =>
      s' = { s with uses :=
        ((⟨kind, name, line, id, s.scopes⟩ : Visit).resolved?).toList ++ s.uses } := by
  refine (walks_modify fun s => ?_).mono fun s _ s' h => ?_
  · split <;> rfl
  · rw [h]
    simp only [Visit.resolved?, Visit.distance?, Scope.distance?]
    cases s.scopes.findIdx? (·.contains name) <;> rfl

/-- A single use is met. -/
theorem Met.use {v : Visit} {s : ScopeState} (hplaced : v.Placed) :
    Met [.use v] s.scopes s { s with uses := v.resolved?.toList ++ s.uses } := by
  refine ⟨rfl, ?_, fun _ h => h, by simpa [Occurrence.Placed] using hplaced⟩
  show v.resolved?.toList ++ s.uses = _
  cases h : v.resolved? <;> simp [Occurrence.resolved?, h]

/-- A name that is ready is not one whose initializer is being walked. -/
theorem walks_isReady (name : String) :
    Walks (isReady name) fun s b s' =>
      s' = s ∧ (b = true → ∀ scope ∈ s.scopes.head?, scope.get? name ≠ some false) := by
  rintro ⟨scopes, initializing, uses, reports⟩
  cases scopes with
  | nil => exact ⟨List.prefix_refl _, fun _ => ⟨rfl, by simp⟩⟩
  | cons scope outer =>
    refine ⟨List.prefix_refl _, fun _ => ⟨rfl, fun hb => ?_⟩⟩
    simpa using hb

/-- A variable that is read without a report is not read in its own initializer. -/
theorem walks_readVariable (use : VariableUse) :
    Walks (Resolver.readVariable use) fun s _ s' =>
      Met [.use ⟨.«variable», use.name.text, use.name.line, use.id, s.scopes⟩] s.scopes s s' := by
  have hresolve := walks_resolveUse .«variable» use.name.text use.name.line use.id
  refine ((walks_isReady use.name.text).bind fun b => Unreported.ite (fun _ => hresolve)
    fun _ => (walks_report _ _).bind fun _ => hresolve).mono ?_
  rintro s _ s' ⟨b, _, ⟨rfl, hready⟩, ⟨hb, rfl⟩ | ⟨-, _, _, hfalse, -⟩⟩
  · exact Met.use (hready hb)
  · exact hfalse.elim

end Resolver

/-!
## Rules of the walk

If the walks one level further in meet what stands there, then so do those around them. The scopes
that a statement leaves behind differ from those before it in the innermost one only, which is what
lets scopes be closed again.
-/

/-- A step within a class meets some occurrences, which depend on the open scopes, and leaves the
scopes as they are. -/
abbrev Meets (c : ClassContext) (p : Resolver Unit) (os : List Scope → List Occurrence) : Prop :=
  Walks p fun s _ s' => c.Fits s.scopes → (∀ o ∈ os s.scopes, o.Written) →
    Met (os s.scopes) s.scopes s s'

/-- The walks one level further in meet what stands in the tree. -/
structure WalksAt (inner : ScopeWalk) : Prop where
  expr : ∀ context e, Meets context.inClass (inner.expr context e) (Expr.occurrences · e)
  stmt : ∀ context st, Walks (inner.stmt context st) fun s _ s' =>
    context.inClass.Fits s.scopes → (∀ o ∈ st.occurrences s.scopes, o.Written) →
      Met (st.occurrences s.scopes) (st.scopesAfter s.scopes) s s'

section Lists

variable {α : Type} {f : α → Resolver Unit} {c : ClassContext}
  (own : List Scope → α → List Occurrence) (after : List Scope → α → List Scope)
  (all : List Scope → List α → List Occurrence)

/-- The rule for a walk over a list, each part of which is walked in the scopes that are open behind
the parts before. -/
theorem walks_forM (hf : ∀ a, Walks (f a) fun s _ s' => c.Fits s.scopes →
      (∀ o ∈ own s.scopes a, o.Written) → Met (own s.scopes a) (after s.scopes a) s s')
    (hafter : ∀ S a, c.Fits S → (∀ o ∈ own S a, o.Written) → c.Fits (after S a))
    (hnil : ∀ S, all S [] = []) (hcons : ∀ S a as, all S (a :: as) = own S a ++ all (after S a) as)
    (as : List α) :
    Walks (as.forM f) fun s _ s' => c.Fits s.scopes → (∀ o ∈ all s.scopes as, o.Written) →
      Met (all s.scopes as) (as.foldl after s.scopes) s s' := by
  induction as with
  | nil =>
    refine (Unreported.pure _).mono ?_
    rintro s _ s' ⟨-, rfl⟩ - -
    rw [hnil]
    exact .refl _
  | cons a as ih =>
    refine ((hf a).bind fun _ => ih).mono ?_
    rintro s _ s' ⟨_, s₁, hfirst, hrest⟩ hfits hwritten
    rw [hcons] at hwritten ⊢
    have hown : ∀ o ∈ own s.scopes a, o.Written := fun o ho => hwritten o (by simp [ho])
    have hmet := hfirst hfits hown
    -- The others are walked in the scopes that the first one leaves.
    rw [hmet.scopes] at hrest
    exact hmet.trans (hrest (hafter _ a hfits hown) fun o ho => hwritten o (by simp [ho]))

end Lists

variable {inner : ScopeWalk}

/-- A statement declares in the innermost scope, if at all. -/
theorem Stmt.drop_scopesAfter (st : Stmt) (scopes : List Scope) :
    (st.scopesAfter scopes).drop 1 = scopes.drop 1 := by
  cases st <;> first | rfl | exact Scope.drop_enter _ _ _

/-- A declaration enters a name, and anything else leaves the scopes as they are. -/
theorem ClassContext.Fits.scopesAfter {c : ClassContext} {scopes : List Scope} {st : Stmt}
    (h : c.Fits scopes) (hwritten : ∀ o ∈ st.occurrences scopes, o.Written) :
    c.Fits (st.scopesAfter scopes) := by
  have hname {name : String} (hmem : .declaration name scopes ∈ st.occurrences scopes) :
      IsName name := hwritten (.declaration name scopes) hmem
  cases st with
  | var name initializer =>
    refine h.enter (hname ?_) true
    cases initializer <;> simp [Stmt.occurrences]
  | function f => exact h.enter (hname (by simp [Stmt.occurrences])) true
  | classDecl name parent methods staticMethods =>
    exact h.enter (hname (by simp [Stmt.occurrences])) true
  | _ => exact h

/-- Expressions are walked from left to right. -/
theorem walks_exprs (h : WalksAt inner) (context : ScopeContext) (es : List Expr) :
    Meets context.inClass (es.forM (inner.expr context)) (exprsOccurrences · es) := by
  have hfold (S : List Scope) : es.foldl (fun S _ => S) S = S := by
    induction es with
    | nil => rfl
    | cons _ _ ih => exact ih
  refine (walks_forM (fun S e => e.occurrences S) (fun S _ => S) exprsOccurrences
    (h.expr context) (fun _ _ hfits _ => hfits) (fun _ => rfl) (fun _ _ _ => rfl) es).mono
      fun s _ s' hmet hfits hwritten => ?_
  have hall := hmet hfits hwritten
  rwa [hfold] at hall

/-- Each statement is walked in the scopes that those before it leave behind. -/
theorem walks_stmts (h : WalksAt inner) (context : ScopeContext) (ss : List Stmt) :
    Walks (ss.forM (inner.stmt context)) fun s _ s' => context.inClass.Fits s.scopes →
      (∀ o ∈ stmtsOccurrences s.scopes ss, o.Written) →
        Met (stmtsOccurrences s.scopes ss)
          (ss.foldl (fun scopes st => st.scopesAfter scopes) s.scopes) s s' :=
  walks_forM (fun S st => st.occurrences S) (fun S st => st.scopesAfter S) stmtsOccurrences
    (h.stmt context) (fun _ _ hfits hw => hfits.scopesAfter hw) (fun _ => rfl) (fun _ _ _ => rfl) ss

/-- Parameters are declared one after the other, each ready at once. -/
theorem walks_parameters (c : ClassContext) (params : List Name) :
    Walks (params.forM declareReady) fun s _ s' => c.Fits s.scopes →
      (∀ o ∈ parameterOccurrences s.scopes params, o.Written) →
        Met (parameterOccurrences s.scopes params) (Scope.enterAll s.scopes params) s s' := by
  refine walks_forM (fun S x => [.declaration x.text S]) (fun S x => Scope.enter x.text true S)
    parameterOccurrences (fun x => ?_) (fun S x hfits hw => ?_) (fun _ => rfl) (fun _ _ _ => rfl)
      params
  · refine (walks_declareReady x).mono ?_
    rintro s _ _ ⟨hnew, rfl⟩ - -
    exact ⟨rfl, rfl, fun _ h => h, by simpa using hnew⟩
  · exact hfits.enter (hw _ (List.mem_singleton.mpr rfl)) true

/-- Parameters do not hide `this` or `super`. -/
theorem ClassContext.Fits.enterAll {c : ClassContext} {scopes : List Scope} {params : List Name}
    (h : c.Fits scopes) (hwritten : ∀ o ∈ parameterOccurrences scopes params, o.Written) :
    c.Fits (Scope.enterAll scopes params) := by
  induction params generalizing scopes with
  | nil => exact h
  | cons x xs ih =>
    have hname : IsName x.text := hwritten _ List.mem_cons_self
    exact ih (h.enter hname true) fun o ho => hwritten o (List.mem_cons_of_mem _ ho)

/-- Parameters are entered in the innermost scope. -/
theorem Scope.drop_enterAll (scopes : List Scope) (params : List Name) :
    (Scope.enterAll scopes params).drop 1 = scopes.drop 1 := by
  induction params generalizing scopes with
  | nil => rfl
  | cons x xs ih => exact (ih _).trans (Scope.drop_enter _ _ _)

/-- The same of several statements. -/
theorem drop_foldl_scopesAfter (scopes : List Scope) (ss : List Stmt) :
    (ss.foldl (fun S st => st.scopesAfter S) scopes).drop 1 = scopes.drop 1 := by
  induction ss generalizing scopes with
  | nil => rfl
  | cons st ss ih => exact (ih _).trans (st.drop_scopesAfter scopes)

/-- The scope of a function is closed again, whatever entered it. -/
theorem walks_function (h : WalksAt inner) (context : ScopeContext) (params : List Name)
    (body : List Stmt) :
    Meets context.inClass (inner.function context params body) fun S =>
      parameterOccurrences ([] :: S) params ++
        stmtsOccurrences (Scope.enterAll ([] :: S) params) body := by
  refine ((walks_openScope []).bind fun _ => (walks_parameters context.inClass params).bind fun _ =>
    (walks_stmts h context body).bind fun _ => walks_closeScope).mono ?_
  rintro s _ _ ⟨_, _, rfl, _, s₁, hparams, _, s₂, hbody, rfl⟩ hfits hwritten
  have hwritten₁ := fun o ho => hwritten o (List.mem_append_left _ ho)
  have hparams := hparams hfits.inside hwritten₁
  rw [hparams.scopes] at hbody
  have hmet := hparams.trans (hbody (hfits.inside.enterAll hwritten₁)
    fun o ho => hwritten o (List.mem_append_right _ ho))
  -- Parameters and statements enter names into the innermost scope only.
  have hclosed : s₂.scopes.drop 1 = s.scopes := by
    rw [hmet.scopes, drop_foldl_scopesAfter, Scope.drop_enterAll]
    rfl
  rw [hclosed]
  exact hmet.rescope

/-- The body of a function is walked in a scope with the parameters. -/
theorem walks_functionDecl (h : WalksAt inner) (context : ScopeContext) (f : FunctionDecl) :
    Meets context.inClass (inner.function context f.params f.body)
      (FunctionDecl.occurrences · f) := by
  obtain ⟨name, params, body⟩ := f
  exact walks_function h context params body

/-!
### Expressions

Parts are met from left to right, but for the value of an assignment, which comes before its target.
No expression changes the scopes around it.
-/

/-- `this` may stand in a class only, so there is a scope that holds it. -/
theorem walks_this (context : ScopeContext) (id : UseId) (line : Nat) :
    Meets context.inClass (ScopeWalk.this context id line)
      fun S => [.use ⟨.this, "this", line, id, S⟩] := by
  have hresolve := walks_resolveUse .this "this" line id
  unfold ScopeWalk.this
  split
  · exact (walks_report _ _).mono fun _ _ _ h => h.elim
  · exact (walks_report _ _).mono fun _ _ _ h => h.elim
  · next hclass =>
    refine hresolve.mono ?_
    rintro s _ _ rfl hfits -
    rw [hclass] at hfits
    exact Met.use hfits
  · next hclass =>
    refine hresolve.mono ?_
    rintro s _ _ rfl hfits -
    rw [hclass] at hfits
    -- With a superclass there are two scopes, of which that of `this` is the inner one.
    obtain ⟨k, -, hthis⟩ := hfits
    exact Met.use ⟨k, hthis⟩

/-- `super` may stand in a class with a superclass only. -/
theorem walks_super (context : ScopeContext) (id : UseId) (line : Nat) :
    Meets context.inClass (ScopeWalk.super context id line)
      fun S => [.use ⟨.super, "super", line, id, S⟩] := by
  unfold ScopeWalk.super
  split
  · exact (walks_report _ _).mono fun _ _ _ h => h.elim
  · exact (walks_report _ _).mono fun _ _ _ h => h.elim
  · exact (walks_report _ _).mono fun _ _ _ h => h.elim
  · next hclass =>
    refine (walks_resolveUse .super "super" line id).mono ?_
    rintro s _ _ rfl hfits -
    rw [hclass] at hfits
    exact Met.use hfits

/-- Two parts are met one after the other. -/
theorem walks_pair {p q : Resolver Unit} {os os' : List Scope → List Occurrence} {c : ClassContext}
    (hp : Meets c p os) (hq : Meets c q os') :
    Meets c (p >>= fun _ => q) fun S => os S ++ os' S := by
  refine (hp.bind fun _ => hq).mono ?_
  rintro s _ s' ⟨_, s₁, hfirst, hsecond⟩ hfits hwritten
  have hfirst := hfirst hfits fun o ho => hwritten o (List.mem_append_left _ ho)
  rw [hfirst.scopes] at hsecond
  exact hfirst.trans (hsecond hfits fun o ho => hwritten o (List.mem_append_right _ ho))

/-- Whatever the expression is. -/
theorem walks_exprRule (h : WalksAt inner) (context : ScopeContext) (e : Expr) :
    Meets context.inClass (inner.exprRule context e) (Expr.occurrences · e) := by
  cases e with
  | literal value =>
    refine (Unreported.pure _).mono ?_
    rintro s _ s' ⟨-, rfl⟩ - -
    exact .refl _
  | grouping e => exact h.expr context e
  | unary op line e => exact h.expr context e
  | binary op line left right => exact walks_pair (h.expr context left) (h.expr context right)
  | logical op line left right => exact walks_pair (h.expr context left) (h.expr context right)
  -- The two cases that enter a distance for a name of the program.
  | «variable» use => exact (walks_readVariable use).mono fun _ _ _ hmet _ _ => hmet
  | assign id name value =>
    have huse : Meets context.inClass (resolveUse .assignment name.text name.line id)
        fun S => [.use ⟨.assignment, name.text, name.line, id, S⟩] := by
      refine (walks_resolveUse _ _ _ _).mono ?_
      rintro s _ _ rfl - -
      exact Met.use trivial
    exact walks_pair (h.expr context value) huse
  | call callee line arguments =>
    exact walks_pair (h.expr context callee) (walks_exprs h context arguments)
  | get object name => exact h.expr context object
  | set object name value => exact walks_pair (h.expr context value) (h.expr context object)
  | lambda line params body => exact walks_function h ⟨.function, context.inClass⟩ params body
  | this id line => exact walks_this context id line
  | super id line method => exact walks_super context id line

/-!
### Statements

A variable is entered before its initializer is walked and is ready behind it. Bodies that a
condition governs declare nothing, so the scopes behind them are those before.
-/

/-- While an initializer is walked, the name of its variable may be among those that must not be
read. -/
theorem walks_beginInitializer (name : String) :
    Walks (beginInitializer name) fun s _ s' =>
      s'.scopes = s.scopes ∧ s'.uses = s.uses ∧
        ∀ x ∈ s'.initializing, x = name ∨ x ∈ s.initializing := by
  refine (walks_modify fun s => ?_).mono fun s _ s' h => ?_
  · split <;> rfl
  · rw [h]
    split
    · exact ⟨rfl, rfl, fun x hx => List.mem_cons.mp hx⟩
    · exact ⟨rfl, rfl, fun x hx => .inr hx⟩

/-- Behind the initializer the name is no longer among them. -/
theorem walks_endInitializer (name : String) :
    Walks (endInitializer name) fun s _ s' =>
      s'.scopes = s.scopes ∧ s'.uses = s.uses ∧
        ∀ x ∈ s'.initializing, x ≠ name ∧ x ∈ s.initializing := by
  unfold endInitializer
  refine (walks_modify ?_).mono ?_
  · exact fun _ => rfl
  rintro s _ _ rfl
  refine ⟨rfl, rfl, fun x hx => ?_⟩
  obtain ⟨hmem, hne⟩ := List.mem_filter.mp hx
  exact ⟨of_decide_eq_true hne, hmem⟩

/-- The name is declared first, then the initializer is walked, and then the name is ready. -/
theorem walks_varDeclaration (h : WalksAt inner) (context : ScopeContext) (name : Name)
    (initializer : Option Expr) :
    Walks (inner.varDeclaration context name initializer) fun s _ s' =>
      context.inClass.Fits s.scopes →
        (∀ o ∈ (Stmt.var name initializer).occurrences s.scopes, o.Written) →
          Met ((Stmt.var name initializer).occurrences s.scopes)
            (Scope.enter name.text true s.scopes) s s' := by
  have hdefine := walks_setInnermost name.text true
  cases initializer with
  | none =>
    refine ((walks_declare name).bind fun _ => hdefine).mono ?_
    rintro s _ _ ⟨_, _, ⟨hnew, rfl⟩, rfl⟩ - -
    exact ⟨Scope.enter_enter _ _ _ _, rfl, fun _ h => h, by simpa [Stmt.occurrences] using hnew⟩
  | some e =>
    refine ((walks_declare name).bind fun _ => (walks_beginInitializer name.text).bind fun _ =>
      (h.expr context e).bind fun _ => (walks_endInitializer name.text).bind
        fun _ => hdefine).mono ?_
    rintro s _ _ ⟨_, _, ⟨hnew, rfl⟩, _, s₁, ⟨hscopes, huses, hinit⟩, _, s₂, he, _, s₃,
      ⟨hscopes', huses', hinit'⟩, rfl⟩ hfits hwritten
    -- While the initializer is walked, its name is in scope and not ready yet.
    have hname : IsName name.text := hwritten _ List.mem_cons_self
    rw [hscopes] at he
    have hmet := he (hfits.enter hname false) fun o ho =>
      hwritten o (List.mem_cons_of_mem _ (List.mem_cons_of_mem _ ho))
    refine ⟨?_, ?_, fun x hx => ?_, ?_⟩
    · show Scope.enter name.text true s₃.scopes = _
      rw [hscopes', hmet.scopes, Scope.enter_enter]
    · show s₃.uses = _
      rw [huses', hmet.uses, huses]
      rfl
    · obtain ⟨hne, hx⟩ := hinit' x hx
      exact (hinit x (hmet.initializing x hx)).resolve_left hne
    · intro o ho
      rcases List.mem_cons.mp ho with rfl | ho
      · exact hnew
      · rcases List.mem_cons.mp ho with rfl | ho
        · trivial
        · exact hmet.placed o ho

/-- A `return` is reported at the top level, and with a value also in an initializer. -/
theorem walks_returnValue (h : WalksAt inner) (context : ScopeContext) (line : Nat)
    (value : Option Expr) :
    Meets context.inClass (inner.returnValue context line value)
      (Stmt.occurrences · (.returnValue line value)) := by
  cases value with
  | none =>
    refine (Unreported.ite (fun _ => (walks_report _ _).bind fun _ => Unreported.pure ())
      fun _ => Unreported.pure ()).mono ?_
    rintro s _ _ (⟨-, _, _, hfalse, -⟩ | ⟨-, -, rfl⟩) - -
    -- A report in one of the two checks is excluded.
    · exact hfalse.elim
    · exact .refl _
  | some e =>
    have hvalue := Unreported.ite (c := context.inFunction = .initializer)
      (fun _ => (walks_report (Keyword.«return».place line) .returnValueFromInitializer).bind
        fun _ => h.expr context e) fun _ => h.expr context e
    refine (Unreported.ite (fun _ => (walks_report _ _).bind fun _ => hvalue)
      fun _ => hvalue).mono ?_
    rintro s _ s' (⟨-, _, _, hfalse, -⟩ | ⟨-, ⟨-, _, _, hfalse, -⟩ | ⟨-, hmet⟩⟩)
    · exact hfalse.elim
    · exact hfalse.elim
    · exact hmet

/-- The body of a block has a scope of its own. -/
theorem walks_block (h : WalksAt inner) (context : ScopeContext) (body : List Stmt) :
    Meets context.inClass (inner.stmtRule context (.block body))
      (Stmt.occurrences · (.block body)) := by
  refine ((walks_openScope []).bind fun _ => (walks_stmts h context body).bind
    fun _ => walks_closeScope).mono ?_
  rintro s _ _ ⟨_, _, rfl, _, s₂, hbody, rfl⟩ hfits hwritten
  have hmet := hbody hfits.inside hwritten
  have hclosed : s₂.scopes.drop 1 = s.scopes := by
    rw [hmet.scopes, drop_foldl_scopesAfter]
    rfl
  rw [hclosed]
  exact hmet.rescope

/-- A statement that a condition governs leaves the scopes as they are. -/
theorem walks_body (h : WalksAt inner) (context : ScopeContext) (st : Stmt) :
    Meets context.inClass (inner.stmt context st) fun S => .body st :: st.occurrences S := by
  refine (h.stmt context st).mono ?_
  rintro s _ s' hst hfits hwritten
  have hbody : st.declares = false := hwritten _ List.mem_cons_self
  have hmet := hst hfits fun o ho => hwritten o (List.mem_cons_of_mem _ ho)
  rw [Stmt.scopesAfter_of_not_declares hbody] at hmet
  exact ⟨hmet.scopes, hmet.uses, hmet.initializing, List.forall_mem_cons.mpr ⟨trivial, hmet.placed⟩⟩

/-- The condition, and then both branches. -/
theorem walks_ifThen (h : WalksAt inner) (context : ScopeContext) (condition : Expr)
    (consequence : Stmt) (alternative : Option Stmt) :
    Meets context.inClass (inner.stmtRule context (.ifThen condition consequence alternative))
      (Stmt.occurrences · (.ifThen condition consequence alternative)) := by
  cases alternative with
  | none =>
    -- A branch that is missing is walked as nothing.
    have hpure : Meets context.inClass (pure ()) fun _ => [] := by
      refine (Unreported.pure ()).mono ?_
      rintro s _ s' ⟨-, rfl⟩ - -
      exact .refl _
    refine (walks_pair (h.expr context condition)
      (walks_pair (walks_body h context consequence) hpure)).mono fun s _ s' hmet => ?_
    simp only [List.append_nil] at hmet
    exact hmet
  | some s =>
    exact walks_pair (h.expr context condition)
      (walks_pair (walks_body h context consequence) (walks_body h context s))

/-!
### Classes

The name comes first, then the superclass and the static methods in the scopes around the class, and
then the methods in the scopes that hold `super` and `this`.
-/

/-- The superclass is a variable that is read, and not the class itself. -/
theorem walks_superclass (c : ClassContext) (name : Name) (use : VariableUse) :
    Meets c (ScopeWalk.superclass name use) (superclassOccurrences · name (some use)) := by
  have hread := walks_readVariable use
  refine (Unreported.ite (fun _ => (walks_report _ _).bind fun _ => hread) fun _ => hread).mono ?_
  rintro s _ s' (⟨-, _, _, hfalse, -⟩ | ⟨hne, hmet⟩) - -
  · exact hfalse.elim
  · exact ⟨hmet.scopes, hmet.uses, hmet.initializing,
      List.forall_mem_cons.mpr ⟨hne, hmet.placed⟩⟩

/-- Functions are walked in the same scopes one after the other. -/
theorem walks_functions {c : ClassContext} {p : FunctionDecl → Resolver Unit}
    (hp : ∀ f, Meets c (p f) (FunctionDecl.occurrences · f)) (fs : List FunctionDecl) :
    Meets c (fs.forM p) (functionsOccurrences · fs) := by
  have hfold (S : List Scope) : fs.foldl (fun S _ => S) S = S := by
    induction fs with
    | nil => rfl
    | cons _ _ ih => exact ih
  refine (walks_forM (fun S f => f.occurrences S) (fun S _ => S) functionsOccurrences
    hp (fun _ _ hfits _ => hfits) (fun _ => rfl) (fun _ _ _ => rfl) fs).mono
      fun s _ s' hmet hfits hwritten => ?_
  have hall := hmet hfits hwritten
  rwa [hfold] at hall

/-- A static method is walked like a function. -/
theorem walks_staticMethod (h : WalksAt inner) (c : ClassContext) (f : FunctionDecl) :
    Meets c (inner.staticMethod f) (FunctionDecl.occurrences · f) := by
  have hbody := walks_functionDecl h ⟨.method, .staticMethod⟩ f
  refine (Unreported.ite (fun _ => (walks_report _ _).bind fun _ => hbody) fun _ => hbody).mono ?_
  rintro s _ s' (⟨-, _, _, hfalse, -⟩ | ⟨-, hmet⟩) -
  · exact hfalse.elim
  · exact hmet trivial

/-- A method is walked in the scope that holds `this`. -/
theorem walks_instanceMethod (h : WalksAt inner) (c : ClassContext) (f : FunctionDecl) :
    Meets c (inner.instanceMethod c f) (FunctionDecl.occurrences · f) :=
  walks_functionDecl h ⟨_, c⟩ f

/-- What a class declaration meets behind its name. -/
def classBody (name : Name) (parent : Option VariableUse)
    (methods staticMethods : List FunctionDecl) (scopes : List Scope) : List Occurrence :=
  superclassOccurrences scopes name parent ++ (functionsOccurrences scopes staticMethods ++
    functionsOccurrences (methodScopes scopes parent) methods)

/-- The methods of a class are walked in scopes of their own, which are closed again. -/
theorem walks_methods (h : WalksAt inner) (c : ClassContext) (parent : Option VariableUse)
    (methods : List FunctionDecl) :
    Meets c (do
        if parent.isSome then
          openScope [("super", true)]
        openScope [("this", true)]
        methods.forM (inner.instanceMethod (if parent.isSome then .subclass else .«class»))
        closeScope
        if parent.isSome then
          closeScope)
      fun S => functionsOccurrences (methodScopes S parent) methods := by
  have hmethods := walks_functions
    (walks_instanceMethod h (if parent.isSome then .subclass else .«class»)) methods
  cases parent with
  | none =>
    refine ((walks_openScope _).bind fun _ => hmethods.bind fun _ => walks_closeScope.bind
      fun _ => Unreported.pure ()).mono ?_
    -- The scope that was opened is the one that is closed.
    rintro s _ _ ⟨_, _, rfl, _, s₁, hmet, _, _, rfl, -, rfl⟩ hfits hwritten
    have hmet := hmet (ClassContext.Fits.methodScopes s.scopes none) hwritten
    rw [hmet.scopes]
    exact hmet.rescope
  | some use =>
    refine ((walks_openScope _).bind fun _ => (walks_openScope _).bind fun _ => hmethods.bind
      fun _ => walks_closeScope.bind fun _ => walks_closeScope).mono ?_
    rintro s _ _ ⟨_, _, rfl, _, _, rfl, _, s₁, hmet, _, _, rfl, rfl⟩ hfits hwritten
    have hmet := hmet (ClassContext.Fits.methodScopes s.scopes (some use)) hwritten
    simp only [hmet.scopes]
    exact ⟨rfl, hmet.uses, hmet.initializing, hmet.placed⟩

/-- The superclass, then the static methods, and then the methods, in the scopes for `super` and
`this`. -/
theorem walks_classDeclaration (h : WalksAt inner) (c : ClassContext) (name : Name)
    (parent : Option VariableUse) (methods staticMethods : List FunctionDecl) :
    Walks (inner.classDeclaration name parent methods staticMethods) fun s _ s' =>
      c.Fits s.scopes →
        (∀ o ∈ (Stmt.classDecl name parent methods staticMethods).occurrences s.scopes,
          o.Written) →
        Met ((Stmt.classDecl name parent methods staticMethods).occurrences s.scopes)
          (Scope.enter name.text true s.scopes) s s' := by
  have hstatics := walks_functions (walks_staticMethod h c) staticMethods
  refine ((walks_declareReady name).bind fun _ =>
    (?_ : Meets c _ (classBody name parent methods staticMethods))).mono ?_
  -- Superclass, static methods and methods are met in this order.
  · have hrest := walks_pair hstatics (walks_methods h c parent methods)
    cases parent with
    | none => exact hrest
    | some use => exact walks_pair (walks_superclass c name use) hrest
  · rintro s _ s' ⟨_, _, ⟨hnew, rfl⟩, hmet⟩ hfits hwritten
    have hname : IsName name.text := hwritten _ List.mem_cons_self
    have hmet := hmet (hfits.enter hname true) fun o ho => hwritten o (List.mem_cons_of_mem _ ho)
    exact ⟨hmet.scopes, hmet.uses, hmet.initializing,
      List.forall_mem_cons.mpr ⟨hnew, hmet.placed⟩⟩

/-- The name of a function is there in its body. -/
theorem walks_functionDeclaration (h : WalksAt inner) (context : ScopeContext) (f : FunctionDecl) :
    Walks (inner.stmtRule context (.function f)) fun s _ s' => context.inClass.Fits s.scopes →
      (∀ o ∈ (Stmt.function f).occurrences s.scopes, o.Written) →
        Met ((Stmt.function f).occurrences s.scopes) (Scope.enter f.name.text true s.scopes)
          s s' := by
  refine ((walks_declareReady f.name).bind fun _ =>
    walks_functionDecl h ⟨.function, context.inClass⟩ f).mono ?_
  rintro s _ s' ⟨_, _, ⟨hnew, rfl⟩, hmet⟩ hfits hwritten
  have hname : IsName f.name.text := hwritten _ List.mem_cons_self
  have hmet := hmet (hfits.enter hname true) fun o ho => hwritten o (List.mem_cons_of_mem _ ho)
  exact ⟨hmet.scopes, hmet.uses, hmet.initializing, List.forall_mem_cons.mpr ⟨hnew, hmet.placed⟩⟩

/-- Whatever the statement is. -/
theorem walks_stmtRule (h : WalksAt inner) (context : ScopeContext) (st : Stmt) :
    Walks (inner.stmtRule context st) fun s _ s' => context.inClass.Fits s.scopes →
      (∀ o ∈ st.occurrences s.scopes, o.Written) →
        Met (st.occurrences s.scopes) (st.scopesAfter s.scopes) s s' := by
  cases st with
  | expression e => exact h.expr context e
  | print e => exact h.expr context e
  | var name initializer => exact walks_varDeclaration h context name initializer
  | block body => exact walks_block h context body
  | ifThen condition s alternative => exact walks_ifThen h context condition s alternative
  | whileDo condition s => exact walks_pair (h.expr context condition) (walks_body h context s)
  | function f => exact walks_functionDeclaration h context f
  | returnValue line value => exact walks_returnValue h context line value
  | classDecl name parent methods staticMethods =>
    exact walks_classDeclaration h context.inClass name parent methods staticMethods

/-! ## Tying the knot -/

/-- However many levels there are, by induction on them. -/
theorem walks_scopeWalk (depth : Nat) : WalksAt (scopeWalk depth) := by
  induction depth with
  | zero => exact ⟨fun _ _ => Unreported.throw (by simp), fun _ _ => Unreported.throw (by simp)⟩
  | succ depth ih => exact ⟨walks_exprRule ih, walks_stmtRule ih⟩

/-! ## Programs -/

/-- At the top level no scope is opened. -/
theorem foldl_scopesAfter_nil (ss : List Stmt) :
    ss.foldl (fun S st => st.scopesAfter S) ([] : List Scope) = [] := by
  induction ss with
  | nil => rfl
  | cons st ss ih =>
    have hst : st.scopesAfter [] = [] := by cases st <;> rfl
    rw [List.foldl_cons, hst]
    exact ih

/-- **What is resolved without a report.** The walk has met what stands in the program: the resolved
uses are those with a distance in the text, and everything stands where it may. -/
theorem resolve_of_reports_eq_nil {depth endLine : Nat} {program : List Stmt}
    (hwritten : ∀ o ∈ stmtsOccurrences [] program, o.Written)
    (h : (resolve depth endLine program).reports = []) :
    (resolve depth endLine program).uses =
        (stmtsOccurrences [] program).filterMap Occurrence.resolved? ∧
      ∀ o ∈ stmtsOccurrences [] program, o.Placed := by
  have hwalks := walks_stmts (walks_scopeWalk depth) ⟨.none, .none⟩ program ⟨[], [], [], []⟩
  unfold resolve at h ⊢
  split at hwalks
  · next s' hrun =>
    simp only [hrun] at h ⊢
    have hmet := hwalks.2 h trivial hwritten
    exact ⟨by simp [hmet.uses], hmet.placed⟩
  -- A walk that runs out of levels leaves a report behind.
  · next s' hrun =>
    simp [hrun] at h

end LoxLang
