import Mathlib.Logic.Equiv.Basic
import LoxLang.Proofs.Renaming.Trees
import LoxLang.Proofs.Scoping.Initializers
import LoxLang.Proofs.Scoping.Walk

/-!
# Resolving renamed trees

The walk over a renamed tree goes along with that over the tree itself (`Alongside`): the scopes are
the same with other names, and each use has the same distance (`distance?_scopes`), since no name
becomes one that occurs.

What is reported may differ in one respect. While the initializer of a global variable is walked,
the name of the variable is kept among those that must not be read. Any variable declaration inside
takes its own name out again, so a local variable of the same name lifts the ban, and lifts it no
more under another name. Where no global variable is read in its own initializer, this makes no
difference (`Settled`).
-/

namespace LoxLang

open LoxLang.Resolver

/-!
## Names that are exchanged

The old name becomes the new one, which occurs nowhere else. So different names stay different, and
`this` and `super` stay what they are.
-/

/-- No name changes but an old one into a new one and back. -/
structure Renaming.Exchanges (ρ : Renaming) (old new : String) : Prop extends ρ.Faithful where
  isName : IsName new
  others : ∀ x, x ≠ old → x ≠ new → ρ.names x = x
  target : ρ.names old = old ∨ ρ.names old = new

namespace Renaming

variable {ρ : Renaming} {old new : String} {S : List Scope} {marks : List Bool} {x y : String}

/-- A name stays as it is, or it becomes the new one. -/
theorem Exchanges.names_or (h : ρ.Exchanges old new) (hx : x ≠ new) :
    ρ.names x = x ∨ ρ.names x = new := by
  by_cases hold : x = old
  · subst hold
    exact h.target
  · exact .inl (h.others x hold hx)

/-- Names other than the new one do not become one, wherever they stand. -/
theorem Exchanges.eq_of_text (h : ρ.Exchanges old new) (hx : x ≠ new) (hy : y ≠ new)
    {moved moved' : Bool} (heq : ρ.text moved x = ρ.text moved' y) : x = y := by
  cases moved <;> cases moved'
  · exact heq
  · rcases h.names_or hy with hname | hname
    · exact (show x = ρ.names y from heq).trans hname
    · exact absurd ((show x = ρ.names y from heq).trans hname) hx
  · rcases h.names_or hx with hname | hname
    · exact hname.symm.trans heq
    · exact absurd ((show ρ.names x = y from heq).symm.trans hname) hy
  · exact h.injective heq

theorem contains_cons (scope : Scope) (key x : String) (ready : Bool) :
    Bindings.contains ((key, ready) :: scope) x = (key == x || scope.contains x) := by
  by_cases hkey : key = x <;> simp [Bindings.contains, Bindings.get?, hkey]

theorem get?_eq_none {scope : Scope} (h : scope.contains x = false) : scope.get? x = none :=
  Option.not_isSome_iff_eq_none.mp (by rw [← Bindings.contains, h]; exact Bool.false_ne_true)

/-- A scope does not hold a name under another one. -/
theorem Exchanges.not_contains (h : ρ.Exchanges old new) {scope : Scope}
    (hscope : scope.contains new = false) (hx : x ≠ new) (hnot : scope.contains x = false)
    (moved moved' : Bool) : (ρ.bindings moved scope).contains (ρ.text moved' x) = false := by
  induction scope with
  | nil => rfl
  | cons b scope ih =>
    obtain ⟨key, ready⟩ := b
    rw [contains_cons, Bool.or_eq_false_iff, beq_eq_false_iff_ne] at hscope hnot
    show Bindings.contains ((ρ.text moved key, ready) :: ρ.bindings moved scope) _ = false
    rw [contains_cons, Bool.or_eq_false_iff, beq_eq_false_iff_ne]
    exact ⟨fun heq => hnot.1 (h.eq_of_text hscope.1 hx heq), ih hscope.2 hnot.2⟩

/-- Names that do not become one can be exchanged instead of being replaced. -/
theorem exists_exchanges (hnew : IsName new) (old : String) (distance? : UseId → Option Nat) :
    ∃ ρ : Renaming, ρ.Exchanges old new ∧ ρ.distance? = distance? ∧
      ∀ y, IsName y → y ≠ new → ρ.names y = if y = old then new else y := by
  by_cases hold : IsName old
  -- Replacing would send two names to one. A swap does the same to the names that occur.
  · refine ⟨⟨Equiv.swap old new, distance?⟩, ⟨⟨(Equiv.swap old new).injective, fun y hy => ?_⟩,
      hnew, fun y => Equiv.swap_apply_of_ne_of_ne, .inr (Equiv.swap_apply_left old new)⟩, rfl,
      fun y _ hne => ?_⟩
    · have hne {z : String} (hz : IsName z) : y ≠ z := fun (h : y = z) => hy (h ▸ hz)
      exact Equiv.swap_apply_of_ne_of_ne (hne hold) (hne hnew)
    · split
      · next h =>
        rw [h]
        exact Equiv.swap_apply_left old new
      · next h => exact Equiv.swap_apply_of_ne_of_ne h hne
  · -- What is no name is not the name of a variable either.
    refine ⟨⟨id, distance?⟩, ⟨⟨Function.injective_id, fun _ _ => rfl⟩, hnew, fun _ _ _ => rfl,
      .inl rfl⟩, rfl, fun y hy _ => ?_⟩
    exact (if_neg fun h : y = old => hold (h ▸ hy)).symm

/-!
## Scopes

The scopes of the renamed tree are those of the tree with other names, depending on whether the
scope is one whose name is to change. What a name is found in has the same distance in both.
-/

/-- Scopes with other names in those that are marked. -/
def scopes (ρ : Renaming) : List Bool → List Scope → List Scope
  | moved :: marks, scope :: S => ρ.bindings moved scope :: ρ.scopes marks S
  | _, S => S

/-- Whether a name leads to a scope that is marked. -/
def found (marks : List Bool) (S : List Scope) (x : String) : Bool :=
  ((Scope.distance? S x).bind (marks[·]?)).getD false

/-- A use whose distance is known moves as the name does that it leads to. -/
theorem moves_eq_found {id : UseId} (h : ρ.distance? id = Scope.distance? S x) :
    ρ.moves marks id = found marks S x := by
  unfold moves found
  rw [h]

/-- A name means the innermost scope that holds it. -/
theorem found_cons {moved : Bool} {scope : Scope} :
    found (moved :: marks) (scope :: S) x =
      if scope.contains x then moved else found marks S x := by
  unfold found
  rw [Scope.distance?_cons]
  split
  · rfl
  · cases Scope.distance? S x <;> rfl

/-- The distance of a use stays. -/
theorem Exchanges.distance?_scopes (h : ρ.Exchanges old new)
    (hfresh : ∀ scope ∈ S, scope.contains new = false) (hx : x ≠ new) :
    Scope.distance? (ρ.scopes marks S) (ρ.text (found marks S x) x) = Scope.distance? S x := by
  induction S generalizing marks with
  | nil => cases marks <;> rfl
  | cons scope S ih =>
    obtain ⟨hscope, hS⟩ := List.forall_mem_cons.mp hfresh
    cases marks with
    | nil =>
      have hfound : found [] (scope :: S) x = false := by
        unfold found
        cases Scope.distance? (scope :: S) x <;> rfl
      rw [hfound]
      rfl
    | cons moved marks =>
      rw [scopes, found_cons, Scope.distance?_cons, Scope.distance?_cons]
      cases hhere : scope.contains x with
      | true => simp only [if_true, contains_bindings h.injective, hhere]
      -- The scope does not hold the name under its new spelling either, since it does not hold the
      -- new name.
      | false =>
        simp only [Bool.false_eq_true, if_false, h.not_contains hscope hx hhere, ih hS]

/-- The innermost scope says the same of a name that is used. -/
theorem Exchanges.get?_innermost (h : ρ.Exchanges old new) {scope : Scope}
    (hscope : scope.contains new = false) (hx : x ≠ new) (moved : Bool) :
    (ρ.bindings moved scope).get? (ρ.text (found (moved :: marks) (scope :: S) x) x) =
      scope.get? x := by
  rw [found_cons]
  cases hhere : scope.contains x with
  | true => exact get?_bindings h.injective _ _ _
  | false => rw [get?_eq_none hhere, get?_eq_none (h.not_contains hscope hx hhere _ _)]

end Renaming

/-!
## What is met

Renaming asks of a tree that the new name does not occur in it. That no global variable of the old
name is read in its own initializer matters only to what is reported.
-/

/-- A global variable of a name is read, outside all functions. -/
def Occurrence.Reads (x : String) : Occurrence → Prop
  | use v => v.kind = .«variable» ∧ v.scopes = [] ∧ v.name = x
  | declaration _ _ | body _ | subclass _ _ | initializer _ _ _ => False

/-- The initializer of a global variable of a name does not read it, unless in a function there. -/
def Occurrence.Settled (x : String) : Occurrence → Prop
  | initializer y e [] => y = x → ∀ o ∈ e.occurrences [], ¬o.Reads x
  | _ => True

/-- No global variable of a name is read in its own initializer, unless in a function there. -/
def Settled (x : String) (program : List Stmt) : Prop :=
  ∀ o ∈ stmtsOccurrences [] program, o.Settled x

/-- A name does not occur as that of a variable. -/
def Occurrence.Avoids (x : String) : Occurrence → Prop
  | use v => v.name ≠ x
  | declaration y _ => y ≠ x
  | body _ | subclass _ _ | initializer _ _ _ => True

instance (x : String) : DecidablePred (Occurrence.Reads x)
  | .use v => inferInstanceAs (Decidable (v.kind = _ ∧ v.scopes = [] ∧ v.name = x))
  | .declaration _ _ | .body _ | .subclass _ _ | .initializer _ _ _ =>
    inferInstanceAs (Decidable False)

instance (x : String) : DecidablePred (Occurrence.Settled x)
  | .initializer y e [] =>
    inferInstanceAs (Decidable (y = x → ∀ o ∈ e.occurrences [], ¬o.Reads x))
  | .initializer _ _ (_ :: _) | .use _ | .declaration _ _ | .body _ | .subclass _ _ =>
    inferInstanceAs (Decidable True)

instance (x : String) (program : List Stmt) : Decidable (Settled x program) :=
  inferInstanceAs (Decidable (∀ o ∈ stmtsOccurrences [] program, o.Settled x))

instance (x : String) : DecidablePred (Occurrence.Avoids x)
  | .use v => inferInstanceAs (Decidable (v.name ≠ x))
  | .declaration y _ => inferInstanceAs (Decidable (y ≠ x))
  | .body _ | .subclass _ _ | .initializer _ _ _ => inferInstanceAs (Decidable True)

/-- What the walk needs of an occurrence: the new name is not there, and the distance of a use is
known. Where it matters what is read early, no global variable of the old name is read within its
initializer. -/
structure Occurrence.Clear (ρ : Renaming) (old new : String) (matters : Prop) (within : Bool)
    (o : Occurrence) : Prop where
  written : o.Written
  avoids : o.Avoids new
  known : ∀ v, o = .use v → ρ.distance? v.id = v.distance?
  quiet : matters → within = true → ¬o.Reads old
  settled : matters → o.Settled old

/-!
## States

Two states go together if one has the scopes of the other with names exchanged, and the same
distances. `matters` says whether it matters what has been reported.
-/

/-- What a resolved use has but for its name. -/
def Resolved.entry (u : Resolved) : UseKind × Nat × Nat × UseId :=
  (u.kind, u.line, u.distance, u.id)

/-- A point that the walk comes to: the marks of the open scopes, the scopes themselves, and whether
it lies within the initializer of a global variable of the old name. -/
structure Point where
  marks : List Bool
  scopes : List Scope
  within : Bool

/-- The states of two walks, over a tree and over the tree with other names, at the same point. -/
structure Point.Reached (p : Point) (ρ : Renaming) (old new : String) (matters : Prop)
    (s s' : ScopeState) : Prop where
  scopes : s.scopes = p.scopes
  scopes' : s'.scopes = ρ.scopes p.marks p.scopes
  length : p.marks.length = p.scopes.length
  fresh : ∀ scope ∈ p.scopes, scope.contains new = false
  uses : s'.uses.map Resolved.entry = s.uses.map Resolved.entry
  initializing : ∀ x, x ≠ old → x ≠ new → (x ∈ s'.initializing ↔ x ∈ s.initializing)
  outside : p.within = false → old ∉ s.initializing ∧ old ∉ s'.initializing
  reports : matters → s.reports = [] → s'.reports = []

/-- Two steps that end alike. -/
inductive EndTogether (Q : ScopeState → ScopeState → Prop) :
    EStateM.Result ScopeStop ScopeState Unit → EStateM.Result ScopeStop ScopeState Unit → Prop
  | ok {s s' : ScopeState} (h : Q s s') : EndTogether Q (.ok () s) (.ok () s')
  | error (e e' : ScopeStop) (s s' : ScopeState) : EndTogether Q (.error e s) (.error e' s')

section Steps

variable {ρ : Renaming} {old new : String} {matters : Prop} {marks : List Bool} {S : List Scope}
  {within : Bool} {P P' P'' : Point}

/-- Two steps lead from one point to another. -/
def Alongside (ρ : Renaming) (old new : String) (matters : Prop) (P P' : Point)
    (p p' : Resolver Unit) : Prop :=
  ∀ s s', P.Reached ρ old new matters s s' →
    EndTogether (P'.Reached ρ old new matters) (p s) (p' s')

namespace Alongside

/-- Nothing is done in either. -/
theorem pure : Alongside ρ old new matters P P (Pure.pure ()) (Pure.pure ()) :=
  fun _ _ h => .ok h

/-- Steps of both, one after the other. -/
theorem bind {p p' q q' : Resolver Unit} (hp : Alongside ρ old new matters P P' p p')
    (hq : Alongside ρ old new matters P' P'' q q') :
    Alongside ρ old new matters P P'' (p >>= fun _ => q) (p' >>= fun _ => q') := by
  intro s s' h
  have hends := hp s s' h
  show EndTogether _ (EStateM.bind p _ s) (EStateM.bind p' _ s')
  unfold EStateM.bind
  generalize p s = r at hends
  generalize p' s' = r' at hends
  cases hends with
  | ok h => exact hq _ _ h
  | error e e' t t' => exact .error e e' t t'

/-- Both report something, be it the same or not. -/
theorem report (place place' : Location) (e e' : ScopeError) :
    Alongside ρ old new matters P P (report place e) (report place' e') := fun _ _ h =>
  .ok { h with reports := fun _ hnil => absurd hnil (by simp) }

/-- Where it matters, a fault of the tree with other names is one of the tree. -/
theorem reportIf {f f' : Prop} [Decidable f] [Decidable f'] (hf : matters → f' → f)
    (place place' : Location) (e : ScopeError) {p p' : Resolver Unit}
    (h : Alongside ρ old new matters P P' p p') :
    Alongside ρ old new matters P P' (if f then Resolver.report place e >>= fun _ => p else p)
      (if f' then Resolver.report place' e >>= fun _ => p' else p') := by
  by_cases hfault : f
  · rw [if_pos hfault]
    have hleft : Alongside ρ old new matters P P (Resolver.report place e) (Pure.pure ()) :=
      fun _ _ h => .ok { h with reports := fun _ hnil => absurd hnil (by simp) }
    by_cases hfault' : f'
    · rw [if_pos hfault']
      exact (report place place' e e).bind h
    · rw [if_neg hfault']
      exact hleft.bind h
  · rw [if_neg hfault]
    by_cases hfault' : f'
    · rw [if_pos hfault']
      -- Only the tree with other names has this fault, so its reports do not matter.
      have hright : Alongside ρ old new matters P P (Pure.pure ()) (Resolver.report place' e) :=
        fun _ _ h => .ok { h with reports := fun hmatters => absurd (hf hmatters hfault') hfault }
      exact hright.bind h
    · rw [if_neg hfault']
      exact h

/-- Where one reports only if the other one does. -/
theorem reportUnless {f f' : Prop} [Decidable f] [Decidable f'] (hf : matters → f → f')
    (place place' : Location) (e : ScopeError) {p p' : Resolver Unit}
    (h : Alongside ρ old new matters P P' p p') :
    Alongside ρ old new matters P P' (if f then p else Resolver.report place e >>= fun _ => p)
      (if f' then p' else Resolver.report place' e >>= fun _ => p') := by
  rw [← ite_not, ← ite_not (p := f')]
  exact reportIf (fun hmatters => mt (hf hmatters)) place place' e h

/-- Both open a scope, of the same kind. -/
theorem openScope {scope : Scope} {moved : Bool} (hsame : ρ.bindings moved scope = scope)
    (hscope : scope.contains new = false) :
    Alongside ρ old new matters ⟨marks, S, within⟩ ⟨moved :: marks, scope :: S, within⟩
      (openScope scope) (openScope scope) := fun s s' h =>
  .ok { h with
    scopes := congrArg (scope :: ·) h.scopes
    scopes' := by
      show scope :: s'.scopes = ρ.bindings moved scope :: ρ.scopes marks S
      rw [h.scopes', hsame]
    length := congrArg (· + 1) h.length
    fresh := List.forall_mem_cons.mpr ⟨hscope, h.fresh⟩ }

/-- Both leave a scope. -/
theorem closeScope :
    Alongside ρ old new matters ⟨marks, S, within⟩ ⟨marks.drop 1, S.drop 1, within⟩
      closeScope closeScope := fun s s' h => by
  obtain ⟨hscopes, hscopes', hlength, hfresh, huses, hinit, hout, hreports⟩ := h
  dsimp only at *
  refine .ok ⟨congrArg (·.drop 1) hscopes, ?_, ?_, fun scope hs => hfresh scope
    (List.mem_of_mem_drop hs), huses, hinit, hout, hreports⟩
  · show s'.scopes.drop 1 = _
    rw [hscopes']
    cases S <;> cases marks <;> first | rfl | (dsimp only at *; cases hlength)
  · dsimp only
    rw [List.length_drop, List.length_drop, hlength]

/-!
### Declarations

A name is declared in both walks or found to be declared in both, since names that differ still
differ under their other names.
-/

section Declarations

variable (hρ : ρ.Exchanges old new) {x : Name}
include hρ

/-- The name is entered, and its new name in the renamed tree. -/
theorem setInnermost (hx : x.text ≠ new) (ready : Bool) :
    Alongside ρ old new matters ⟨marks, S, within⟩ ⟨marks, Scope.enter x.text ready S, within⟩
      (setInnermost x.text ready) (setInnermost (ρ.text (marks.headD false) x.text) ready) := by
  intro s s' h
  obtain ⟨hscopes, hscopes', hlength, hfresh, huses, hinit, hout, hreports⟩ := h
  refine .ok ?_
  dsimp only at *
  cases S with
  -- Without scopes, at top level, nothing is entered on either side.
  | nil =>
    obtain rfl := List.eq_nil_of_length_eq_zero hlength
    rw [hscopes, hscopes']
    exact ⟨hscopes, hscopes', rfl, hfresh, huses, hinit, hout, hreports⟩
  | cons scope S =>
    cases marks with
    | nil => cases hlength
    | cons moved marks =>
      rw [hscopes, hscopes']
      obtain ⟨hscope, hS⟩ := List.forall_mem_cons.mp hfresh
      refine ⟨rfl, ?_, hlength, List.forall_mem_cons.mpr ⟨?_, hS⟩, huses, hinit, hout, hreports⟩
      · exact congrArg (· :: _) (Renaming.insert_bindings hρ.injective moved scope x.text ready)
      -- The scope still has no entry for the new name.
      · rw [Scope.contains_insert, hscope, Bool.or_false, beq_eq_false_iff_ne]
        exact hx

/-- A name is declared in both, or it is there already in both. -/
theorem declare (hx : x.text ≠ new) :
    Alongside ρ old new matters ⟨marks, S, within⟩ ⟨marks, Scope.enter x.text false S, within⟩
      (declare x) (declare (ρ.name (marks.headD false) x)) := by
  have hset : Alongside ρ old new matters ⟨marks, S, within⟩
      ⟨marks, Scope.enter x.text false S, within⟩ (Resolver.setInnermost x.text false)
      (Resolver.setInnermost (ρ.text (marks.headD false) x.text) false) :=
    setInnermost hρ hx false
  rintro ⟨scopes, i, us, rs⟩ ⟨scopes', i', us', rs'⟩ h
  have hscopes : scopes = S := h.scopes
  have hscopes' : scopes' = ρ.scopes marks S := h.scopes'
  have hlength : marks.length = S.length := h.length
  subst hscopes hscopes'
  cases scopes with
  | nil =>
    obtain rfl := List.eq_nil_of_length_eq_zero hlength
    exact hset _ _ h
  | cons scope S =>
    cases marks with
    | nil => cases hlength
    | cons moved marks =>
      -- The renamed one is reported for a name that is there already exactly if the other is.
      refine reportIf (fun _ hheld => ?_) _ _ _ hset _ _ h
      rw [← Renaming.contains_bindings hρ.injective moved scope x.text]
      exact hheld

/-- The name is ready in both. -/
theorem define (hx : x.text ≠ new) :
    Alongside ρ old new matters ⟨marks, Scope.enter x.text false S, within⟩
      ⟨marks, Scope.enter x.text true S, within⟩ (define x)
      (define (ρ.name (marks.headD false) x)) := by
  rw [← Scope.enter_enter x.text false true S]
  exact setInnermost hρ hx true

/-- A parameter or a function is declared in both. -/
theorem declareReady (hx : x.text ≠ new) :
    Alongside ρ old new matters ⟨marks, S, within⟩ ⟨marks, Scope.enter x.text true S, within⟩
      (declareReady x) (declareReady (ρ.name (marks.headD false) x)) :=
  (declare hρ hx).bind (define hρ hx)

/-- Functions and classes keep their names. -/
theorem declareTitle (hx : x.text ≠ new) (htitle : ρ.text (marks.headD false) x.text = x.text) :
    Alongside ρ old new matters ⟨marks, S, within⟩ ⟨marks, Scope.enter x.text true S, within⟩
      (Resolver.declareReady x) (Resolver.declareReady x) := by
  have hsame : ρ.name (marks.headD false) x = x := by
    unfold Renaming.name
    rw [htitle]
  have hboth : Alongside ρ old new matters ⟨marks, S, within⟩
      ⟨marks, Scope.enter x.text true S, within⟩ (Resolver.declareReady x)
      (Resolver.declareReady (ρ.name (marks.headD false) x)) := declareReady hρ hx
  rwa [hsame] at hboth

/-- Parameters are declared one after the other. -/
theorem params {params : List Name} {moved : Bool}
    (h : Throughout (Occurrence.Avoids new) (parameterOccurrences S params)) :
    Alongside ρ old new matters ⟨moved :: marks, S, within⟩
      ⟨moved :: marks, Scope.enterAll S params, within⟩
      (params.forM Resolver.declareReady)
      ((params.map (ρ.name moved)).forM Resolver.declareReady) := by
  induction params generalizing S with
  | nil => exact pure
  | cons x params ih =>
    have hx : Alongside ρ old new matters ⟨moved :: marks, S, within⟩
        ⟨moved :: marks, Scope.enter x.text true S, within⟩ (Resolver.declareReady x)
        (Resolver.declareReady (ρ.name moved x)) := declareReady hρ h.head
    exact hx.bind (ih h.tail)

end Declarations

/-!
### Uses

Both walks find a use at the same distance, and its name in the renamed tree is the name of the
declaration it leads to.
-/

section Uses

variable (hρ : ρ.Exchanges old new)
include hρ

/-- Both record the same distance for a use. -/
theorem resolveUse (kind : UseKind) {x : String} (hx : x ≠ new) (line : Nat) (id : UseId) :
    Alongside ρ old new matters ⟨marks, S, within⟩ ⟨marks, S, within⟩
      (resolveUse kind x line id)
      (resolveUse kind (ρ.text (Renaming.found marks S x) x) line id) := by
  intro s s' h
  refine .ok ?_
  -- Only the distance matters, and it is the same in both.
  have hdistance : Scope.distance? (ρ.scopes marks S) (ρ.text (Renaming.found marks S x) x) =
      Scope.distance? S x := hρ.distance?_scopes h.fresh hx
  unfold Scope.distance? at hdistance
  have hscopes := h.scopes
  have hscopes' := h.scopes'
  dsimp only at hdistance hscopes hscopes' ⊢
  rw [hscopes', hdistance, hscopes]
  cases S.findIdx? (·.contains x) with
  | none => exact h
  | some d =>
    exact ⟨rfl, rfl, h.length, h.fresh, congrArg (_ :: ·) h.uses, h.initializing, h.outside,
      h.reports⟩

/-- A use whose distance is known gets the name that it gets in the tree. -/
theorem resolveKnown {kind : UseKind} {x : Name} {id : UseId}
    (h : (Occurrence.use ⟨kind, x.text, x.line, id, S⟩).Clear ρ old new matters within) :
    Alongside ρ old new matters ⟨marks, S, within⟩ ⟨marks, S, within⟩
      (Resolver.resolveUse kind x.text x.line id)
      (Resolver.resolveUse kind (ρ.text (ρ.moves marks id) x.text) x.line id) := by
  rw [Renaming.moves_eq_found (h.known _ rfl)]
  exact resolveUse hρ kind h.avoids x.line id

/-- A use of a hidden name stays as it is. -/
theorem resolveHidden (kind : UseKind) {x : String} (hx : x ≠ new) (hhidden : ¬IsName x)
    (line : Nat) (id : UseId) :
    Alongside ρ old new matters ⟨marks, S, within⟩ ⟨marks, S, within⟩
      (Resolver.resolveUse kind x line id) (Resolver.resolveUse kind x line id) := by
  have hboth : Alongside ρ old new matters ⟨marks, S, within⟩ ⟨marks, S, within⟩
      (Resolver.resolveUse kind x line id)
      (Resolver.resolveUse kind (ρ.text (Renaming.found marks S x) x) line id) :=
    resolveUse hρ kind hx line id
  rwa [hρ.text_of_hidden hhidden] at hboth

/-- A variable that may be read may be read under its other name. -/
theorem readVariable {u : VariableUse}
    (h : (Occurrence.use ⟨.«variable», u.name.text, u.name.line, u.id, S⟩).Clear ρ old new matters
      within) :
    Alongside ρ old new matters ⟨marks, S, within⟩ ⟨marks, S, within⟩
      (Resolver.readVariable u) (Resolver.readVariable (ρ.use marks u)) := by
  have hx : u.name.text ≠ new := h.avoids
  have hresolve : Alongside ρ old new matters ⟨marks, S, within⟩ ⟨marks, S, within⟩
      (Resolver.resolveUse .«variable» u.name.text u.name.line u.id)
      (Resolver.resolveUse .«variable» (ρ.use marks u).name.text u.name.line u.id) :=
    resolveKnown hρ h
  have huse : (ρ.use marks u).name.text =
      ρ.text (Renaming.found marks S u.name.text) u.name.text :=
    congrArg (ρ.text · u.name.text) (Renaming.moves_eq_found (h.known _ rfl))
  rintro ⟨scopes, i, us, rs⟩ ⟨scopes', i', us', rs'⟩ hreached
  have hscopes : scopes = S := hreached.scopes
  have hscopes' : scopes' = ρ.scopes marks S := hreached.scopes'
  have hlength : marks.length = S.length := hreached.length
  have hfresh : ∀ scope ∈ S, scope.contains new = false := hreached.fresh
  subst hscopes hscopes'
  cases scopes with
  | nil =>
    obtain rfl := List.eq_nil_of_length_eq_zero hlength
    -- Global names keep their texts. The old one is read only where it is not being initialized.
    refine reportUnless (fun hmatters hready => ?_) _ _ _ hresolve _ _ hreached
    have htext : (ρ.use [] u).name.text = u.name.text := huse
    rw [htext]
    by_cases hold : u.name.text = old
    · cases within with
      | true => exact absurd ⟨rfl, rfl, hold⟩ (h.quiet hmatters rfl)
      | false =>
        rw [hold]
        simpa using (hreached.outside rfl).2
    · simpa [hreached.initializing _ hold hx] using hready
  | cons scope S =>
    cases marks with
    | nil => cases hlength
    | cons moved marks =>
      have hready : (ρ.bindings moved scope).get? (ρ.use (moved :: marks) u).name.text =
          scope.get? u.name.text := by
        rw [huse]
        exact hρ.get?_innermost (List.forall_mem_cons.mp hfresh).1 hx moved
      refine reportUnless (fun _ hr => ?_) _ _ _ hresolve _ _ hreached
      rw [hready]
      exact hr

end Uses

/-!
### Initializers

Only names of global variables are kept among those that must not be read, and global variables keep
their names. Taking out a renamed one takes out another name than before, which is where the two
walks may differ.
-/

/-- At the top level the name is added to those that must not be read. Only the old name matters. -/
theorem beginGlobal (x : String) :
    Alongside ρ old new matters ⟨[], [], false⟩ ⟨[], [], x == old⟩ (beginInitializer x)
      (beginInitializer x) := by
  intro s s' h
  refine .ok ?_
  have hscopes : s.scopes = [] := h.scopes
  have hscopes' : s'.scopes = [] := h.scopes'
  dsimp only
  rw [hscopes, hscopes']
  simp only [List.isEmpty_nil, if_true]
  -- The name is the same in both, so only the old one has to be looked at.
  refine ⟨rfl, rfl, rfl, h.fresh, h.uses, fun y hy hy' => ?_, fun hx => ?_, h.reports⟩
  · rw [List.mem_cons, List.mem_cons, h.initializing y hy hy']
  · obtain ⟨hout, hout'⟩ := h.outside rfl
    have hne : old ≠ x := (beq_eq_false_iff_ne.mp hx).symm
    exact ⟨List.not_mem_cons_of_ne_of_not_mem hne hout,
      List.not_mem_cons_of_ne_of_not_mem hne hout'⟩

/-- It is taken out again. -/
theorem endGlobal (x : String) :
    Alongside ρ old new matters ⟨[], [], x == old⟩ ⟨[], [], false⟩ (endInitializer x)
      (endInitializer x) := by
  intro s s' h
  refine .ok ⟨h.scopes, h.scopes', h.length, h.fresh, h.uses, fun y hy hy' => ?_, fun _ => ?_,
    h.reports⟩
  · simp only [List.mem_filter, h.initializing y hy hy']
  · by_cases hx : x = old
    · simp [hx]
    · obtain ⟨hout, hout'⟩ := h.outside (beq_eq_false_iff_ne.mpr hx)
      exact ⟨fun hmem => hout (List.mem_filter.mp hmem).1,
        fun hmem => hout' (List.mem_filter.mp hmem).1⟩

/-- In a scope there is nothing to add. -/
theorem beginLocal (hS : S ≠ []) (x x' : String) :
    Alongside ρ old new matters ⟨marks, S, within⟩ ⟨marks, S, within⟩ (beginInitializer x)
      (beginInitializer x') := by
  intro s s' h
  refine .ok ?_
  have hscopes : s.scopes.isEmpty = false := by
    rw [h.scopes]
    exact List.isEmpty_eq_false_iff.mpr hS
  have hscopes' : s'.scopes.isEmpty = false := by
    rw [h.scopes']
    have hlength := h.length
    dsimp only at hlength ⊢
    cases S <;> cases marks <;> first | exact absurd rfl hS | rfl
  dsimp only
  rw [hscopes, hscopes']
  exact h

/-- Taking out a name is not noticed if it is the old one or the new one. -/
theorem endLocal (hρ : ρ.Exchanges old new) {x : String} (hx : x ≠ new) (moved : Bool) :
    Alongside ρ old new matters ⟨marks, S, within⟩ ⟨marks, S, within⟩ (endInitializer x)
      (endInitializer (ρ.text moved x)) := by
  intro s s' h
  refine .ok ⟨h.scopes, h.scopes', h.length, h.fresh, h.uses, fun y hy hy' => ?_, fun hout => ?_,
    h.reports⟩
  -- The old name may be taken out on one side only, but of other names the same ones are left.
  · have hsame : y ≠ x ↔ y ≠ ρ.text moved x := by
      refine not_congr ⟨?_, fun heq => hρ.eq_of_text hy' hx (ρ.text_false y ▸ heq)⟩
      rintro rfl
      unfold Renaming.text
      rw [hρ.others y hy hx, ite_self]
    simp only [List.mem_filter, h.initializing y hy hy', decide_eq_true_eq, hsame]
  · obtain ⟨hnot, hnot'⟩ := h.outside hout
    exact ⟨fun hmem => hnot (List.mem_filter.mp hmem).1,
      fun hmem => hnot' (List.mem_filter.mp hmem).1⟩

end Alongside

end Steps

/-!
## Rules

If the walks one level further in go together on trees that are clear of what renaming must not
meet, then so do these.
-/

/-- Where there is a scope there still is one with a name entered. -/
theorem Scope.enter_ne_nil {S : List Scope} (x : String) (ready : Bool) (h : S ≠ []) :
    enter x ready S ≠ [] := by
  cases S with
  | nil => exact absurd rfl h
  | cons scope S => exact List.cons_ne_nil _ _

/-- And with several. -/
theorem Scope.enterAll_ne_nil {S : List Scope} (params : List Name) (h : S ≠ []) :
    enterAll S params ≠ [] := by
  induction params generalizing S with
  | nil => exact h
  | cons x params ih => exact ih (enter_ne_nil x.text true h)

/-- The walks one level further in go along with each other. -/
structure ScopeWalk.Together (ρ : Renaming) (old new : String) (matters : Prop)
    (inner : ScopeWalk) : Prop where
  expr : ∀ {context e marks S within c},
    Throughout (Occurrence.Clear ρ old new matters within) (e.occurrences S) →
    Alongside ρ old new matters ⟨marks, S, within⟩ ⟨marks, S, within⟩
      (inner.expr context e) (inner.expr context (e.rename ρ marks c))
  stmt : ∀ {context s marks S within c},
    Throughout (Occurrence.Clear ρ old new matters within) (s.occurrences S) →
    (S = [] → within = false) → s.Keeps ρ marks →
    Alongside ρ old new matters ⟨marks, S, within⟩ ⟨marks, s.scopesAfter S, within⟩
      (inner.stmt context s) (inner.stmt context (s.rename ρ marks c))

namespace ScopeWalk.Together

open Alongside

variable {ρ : Renaming} {old new : String} {matters : Prop} {inner : ScopeWalk}
  {context : ScopeContext} {marks : List Bool} {S : List Scope} {within : Bool} {c : Choice}

/-- Statements one after the other, each in the scopes that those before it leave behind. -/
theorem stmts (h : inner.Together ρ old new matters) {ss : List Stmt}
    (hclear : Throughout (Occurrence.Clear ρ old new matters within) (stmtsOccurrences S ss))
    (hwithin : S = [] → within = false) (hkeeps : ∀ s ∈ ss, s.Keeps ρ marks) :
    Alongside ρ old new matters ⟨marks, S, within⟩
      ⟨marks, ss.foldl (fun S s => s.scopesAfter S) S, within⟩
      (ss.forM (inner.stmt context)) ((stmtsRename ρ marks c ss).forM (inner.stmt context)) := by
  induction ss generalizing S c with
  | nil => exact pure
  | cons s ss ih =>
    rw [stmtsOccurrences] at hclear
    obtain ⟨hs, hss⟩ := List.forall_mem_cons.mp hkeeps
    -- A declaration opens no scope at the top level, so the top level stays what it is.
    have hwithin' : s.scopesAfter S = [] → within = false := by
      cases S with
      | nil => exact fun _ => hwithin rfl
      | cons scope S =>
        intro hnil
        cases s <;> cases hnil
    exact (h.stmt hclear.left hwithin hs).bind (ih hclear.right hwithin' hss)

/-- The statements of a scope, and the end of it. -/
theorem scopeOf (h : inner.Together ρ old new matters) {body : List Stmt} {T : List Scope}
    (hclear : Throughout (Occurrence.Clear ρ old new matters within) (stmtsOccurrences T body))
    (hT : T ≠ []) (hdrop : T.drop 1 = S) :
    Alongside ρ old new matters ⟨ρ.mark c body :: marks, T, within⟩ ⟨marks, S, within⟩
      (do
        body.forM (inner.stmt context)
        Resolver.closeScope)
      (do
        (stmtsRename ρ (ρ.mark c body :: marks) c body).forM (inner.stmt context)
        Resolver.closeScope) := by
  -- Whatever the statements entered, the scope that they entered it into is dropped.
  have hclose : Alongside ρ old new matters
      ⟨ρ.mark c body :: marks, body.foldl (fun S s => s.scopesAfter S) T, within⟩
      ⟨marks, (body.foldl (fun S s => s.scopesAfter S) T).drop 1, within⟩
      Resolver.closeScope Resolver.closeScope := closeScope
  rw [drop_foldl_scopesAfter, hdrop] at hclose
  exact (h.stmts hclear (fun hnil => absurd hnil hT) (Renaming.keeps_of_mark marks)).bind hclose

/-- The body of a function is walked in a scope with the parameters. -/
theorem function (h : inner.Together ρ old new matters) (hρ : ρ.Exchanges old new)
    {params : List Name} {body : List Stmt}
    (hclear : Throughout (Occurrence.Clear ρ old new matters within)
      (bodyOccurrences S params body)) :
    Alongside ρ old new matters ⟨marks, S, within⟩ ⟨marks, S, within⟩
      (inner.function context params body)
      (inner.function context (params.map (ρ.name (ρ.mark c body)))
        (stmtsRename ρ (ρ.mark c body :: marks) c body)) := by
  have hopen : Alongside ρ old new matters ⟨marks, S, within⟩
      ⟨ρ.mark c body :: marks, [] :: S, within⟩ (openScope []) (openScope []) := openScope rfl rfl
  -- Parameters and body share the scope, and so its mark.
  have hparams : Alongside ρ old new matters ⟨ρ.mark c body :: marks, [] :: S, within⟩
      ⟨ρ.mark c body :: marks, Scope.enterAll ([] :: S) params, within⟩
      (params.forM declareReady) ((params.map (ρ.name (ρ.mark c body))).forM declareReady) :=
    Alongside.params hρ fun o ho => (hclear.left o ho).avoids
  exact hopen.bind (hparams.bind (h.scopeOf hclear.right
    (Scope.enterAll_ne_nil params (List.cons_ne_nil [] S)) (Scope.drop_enterAll _ params)))

/-- Expressions one after the other. -/
theorem exprs (h : inner.Together ρ old new matters) {es : List Expr}
    (hclear : Throughout (Occurrence.Clear ρ old new matters within) (exprsOccurrences S es)) :
    Alongside ρ old new matters ⟨marks, S, within⟩ ⟨marks, S, within⟩
      (es.forM (inner.expr context)) ((exprsRename ρ marks c es).forM (inner.expr context)) := by
  induction es generalizing c with
  | nil => exact pure
  | cons e es ih =>
    rw [exprsOccurrences] at hclear
    exact (h.expr hclear.left).bind (ih hclear.right)

/-- `this` is no name, so it is not renamed. -/
theorem this (hρ : ρ.Exchanges old new) (context : ScopeContext) (id : UseId) (line : Nat) :
    Alongside ρ old new matters ⟨marks, S, within⟩ ⟨marks, S, within⟩
      (ScopeWalk.this context id line) (ScopeWalk.this context id line) := by
  unfold ScopeWalk.this
  cases context.inClass with
  | none | staticMethod => exact report _ _ _ _
  | «class» | subclass => exact resolveHidden hρ .this hρ.isName.1.symm (fun h => h.1 rfl) line id

/-- Neither is `super`. -/
theorem super (hρ : ρ.Exchanges old new) (context : ScopeContext) (id : UseId) (line : Nat) :
    Alongside ρ old new matters ⟨marks, S, within⟩ ⟨marks, S, within⟩
      (ScopeWalk.super context id line) (ScopeWalk.super context id line) := by
  unfold ScopeWalk.super
  cases context.inClass with
  | none | staticMethod | «class» => exact report _ _ _ _
  | subclass => exact resolveHidden hρ .super hρ.isName.2.symm (fun h => h.2 rfl) line id

/-- Whatever the expression is. -/
theorem exprRule (h : inner.Together ρ old new matters) (hρ : ρ.Exchanges old new) {e : Expr}
    (hclear : Throughout (Occurrence.Clear ρ old new matters within) (e.occurrences S)) :
    Alongside ρ old new matters ⟨marks, S, within⟩ ⟨marks, S, within⟩
      (inner.exprRule context e) (inner.exprRule context (e.rename ρ marks c)) := by
  cases e with
  | literal value => exact pure
  | grouping e | unary op line e | get e x =>
    rw [Expr.occurrences] at hclear
    rw [Expr.rename]
    exact h.expr hclear
  | binary op line left right | logical op line left right =>
    rw [Expr.occurrences] at hclear
    rw [Expr.rename]
    exact (h.expr hclear.left).bind (h.expr hclear.right)
  | «variable» u =>
    rw [Expr.occurrences] at hclear
    rw [Expr.rename]
    exact readVariable hρ hclear.head
  | assign id x e =>
    rw [Expr.occurrences] at hclear
    rw [Expr.rename]
    exact (h.expr hclear.left).bind (resolveKnown hρ hclear.right.head)
  | call callee line arguments =>
    rw [Expr.occurrences] at hclear
    rw [Expr.rename]
    exact (h.expr hclear.left).bind (h.exprs hclear.right)
  | set e x v =>
    rw [Expr.occurrences] at hclear
    rw [Expr.rename]
    exact (h.expr hclear.left).bind (h.expr hclear.right)
  | lambda line params body =>
    rw [Expr.occurrences] at hclear
    rw [Expr.rename]
    exact h.function hρ hclear
  -- `this` and `super` are never renamed.
  | this id line => exact this hρ context id line
  | super id line x => exact super hρ context id line

/-- Here the two differ: what the initializer must not read is told by names. -/
theorem varDeclaration (h : inner.Together ρ old new matters) (hρ : ρ.Exchanges old new) {x : Name}
    {initializer : Option Expr}
    (hclear : Throughout (Occurrence.Clear ρ old new matters within)
      ((Stmt.var x initializer).occurrences S))
    (hwithin : S = [] → within = false) :
    Alongside ρ old new matters ⟨marks, S, within⟩ ⟨marks, Scope.enter x.text true S, within⟩
      (inner.stmtRule context (.var x initializer))
      (inner.stmtRule context ((Stmt.var x initializer).rename ρ marks c)) := by
  cases initializer with
  | none =>
    rw [Stmt.occurrences] at hclear
    rw [Stmt.rename]
    exact declareReady hρ hclear.head.avoids
  | some e =>
    rw [Stmt.occurrences] at hclear
    rw [Stmt.rename]
    have hx : x.text ≠ new := hclear.head.avoids
    by_cases hS : S = []
    · subst hS
      obtain rfl := hwithin rfl
      intro s s' hreached
      obtain rfl : marks = [] := List.eq_nil_of_length_eq_zero hreached.length
      -- Within the initializer of a global variable of the old name, the old name is not read.
      have hinner : Throughout (Occurrence.Clear ρ old new matters (x.text == old))
          (e.occurrences []) := by
        intro o ho
        have hclear' := hclear.tail.tail o ho
        exact { hclear' with
          quiet := fun hmatters hold => hclear.tail.head.settled hmatters (eq_of_beq hold) o ho }
      have hdefine : Alongside ρ old new matters ⟨[], [], false⟩ ⟨[], [], false⟩
          (Resolver.define x) (Resolver.define x) :=
        @Alongside.define ρ old new matters [] [] false hρ x hx
      exact (declare hρ hx).bind ((beginGlobal x.text).bind ((h.expr hinner).bind
        ((endGlobal x.text).bind hdefine))) s s' hreached
    · have hne := Scope.enter_ne_nil x.text false hS
      exact (declare hρ hx).bind ((beginLocal hne _ _).bind ((h.expr hclear.tail.tail).bind
        ((endLocal hρ hx _).bind (define hρ hx))))

/-- A statement that a condition governs leaves the scopes as they are. -/
theorem governed (h : inner.Together ρ old new matters) {s : Stmt}
    (hclear : Throughout (Occurrence.Clear ρ old new matters within) (.body s :: s.occurrences S))
    (hwithin : S = [] → within = false) (hkeeps : s.Keeps ρ marks) :
    Alongside ρ old new matters ⟨marks, S, within⟩ ⟨marks, S, within⟩
      (inner.stmt context s) (inner.stmt context (s.rename ρ marks c)) := by
  have hstmt : Alongside ρ old new matters ⟨marks, S, within⟩ ⟨marks, s.scopesAfter S, within⟩
      (inner.stmt context s) (inner.stmt context (s.rename ρ marks c)) :=
    h.stmt hclear.tail hwithin hkeeps
  rwa [Stmt.scopesAfter_of_not_declares hclear.head.written] at hstmt

/-- The condition, and then both branches. -/
theorem ifThen (h : inner.Together ρ old new matters) {condition : Expr} {s : Stmt}
    {alternative : Option Stmt}
    (hclear : Throughout (Occurrence.Clear ρ old new matters within)
      ((Stmt.ifThen condition s alternative).occurrences S))
    (hwithin : S = [] → within = false)
    (hkeeps : (Stmt.ifThen condition s alternative).Keeps ρ marks) :
    Alongside ρ old new matters ⟨marks, S, within⟩ ⟨marks, S, within⟩
      (inner.stmtRule context (.ifThen condition s alternative))
      (inner.stmtRule context ((Stmt.ifThen condition s alternative).rename ρ marks c)) := by
  cases alternative with
  | none =>
    rw [Stmt.occurrences] at hclear
    rw [Stmt.rename]
    exact (h.expr hclear.left).bind ((h.governed hclear.right hwithin hkeeps).bind pure)
  | some t =>
    rw [Stmt.occurrences] at hclear
    rw [Stmt.rename]
    have hbranches : Throughout (Occurrence.Clear ρ old new matters within)
      ((.body s :: s.occurrences S) ++ .body t :: t.occurrences S) := hclear.right
    have hkeeps' : ∀ x ∈ s.titles ++ t.titles, ρ.text (marks.headD false) x = x := hkeeps
    obtain ⟨hs, ht⟩ := List.forall_mem_append.mp hkeeps'
    exact (h.expr hclear.left).bind ((h.governed hbranches.left hwithin hs).bind
      (h.governed hbranches.right hwithin ht))

/-- The value that is returned, if there is one. -/
theorem returnValue (h : inner.Together ρ old new matters) {line : Nat} {value : Option Expr}
    (hclear : Throughout (Occurrence.Clear ρ old new matters within)
      ((Stmt.returnValue line value).occurrences S)) :
    Alongside ρ old new matters ⟨marks, S, within⟩ ⟨marks, S, within⟩
      (inner.stmtRule context (.returnValue line value))
      (inner.stmtRule context ((Stmt.returnValue line value).rename ρ marks c)) := by
  cases value with
  | none => exact reportIf (fun _ => id) _ _ _ pure
  | some e =>
    rw [Stmt.occurrences] at hclear
    rw [Stmt.rename]
    exact reportIf (fun _ => id) _ _ _ (reportIf (fun _ => id) _ _ _ (h.expr hclear))

/-- A static method is walked like a function. -/
theorem staticMethod (h : inner.Together ρ old new matters) (hρ : ρ.Exchanges old new)
    {f : FunctionDecl}
    (hclear : Throughout (Occurrence.Clear ρ old new matters within) (f.occurrences S)) :
    Alongside ρ old new matters ⟨marks, S, within⟩ ⟨marks, S, within⟩
      (inner.staticMethod f) (inner.staticMethod (f.rename ρ marks c)) := by
  obtain ⟨x, params, body⟩ := f
  rw [FunctionDecl.occurrences] at hclear
  rw [FunctionDecl.rename]
  exact reportIf (fun _ => id) _ _ _ (h.function hρ hclear)

/-- A method is walked in the scope that holds `this`. -/
theorem instanceMethod (h : inner.Together ρ old new matters) (hρ : ρ.Exchanges old new)
    (inClass : ClassContext) {f : FunctionDecl}
    (hclear : Throughout (Occurrence.Clear ρ old new matters within) (f.occurrences S)) :
    Alongside ρ old new matters ⟨marks, S, within⟩ ⟨marks, S, within⟩
      (inner.instanceMethod inClass f) (inner.instanceMethod inClass (f.rename ρ marks c)) := by
  obtain ⟨x, params, body⟩ := f
  rw [FunctionDecl.occurrences] at hclear
  rw [FunctionDecl.rename]
  exact h.function hρ hclear

/-- Members one after the other. -/
theorem functions {p : FunctionDecl → Resolver Unit}
    (hp : ∀ {f c}, Throughout (Occurrence.Clear ρ old new matters within) (f.occurrences S) →
      Alongside ρ old new matters ⟨marks, S, within⟩ ⟨marks, S, within⟩ (p f)
        (p (f.rename ρ marks c)))
    {fs : List FunctionDecl}
    (hclear : Throughout (Occurrence.Clear ρ old new matters within) (functionsOccurrences S fs)) :
    Alongside ρ old new matters ⟨marks, S, within⟩ ⟨marks, S, within⟩
      (fs.forM p) ((functionsRename ρ marks c fs).forM p) := by
  induction fs generalizing c with
  | nil => exact pure
  | cons f fs ih =>
    rw [functionsOccurrences] at hclear
    exact (hp hclear.left).bind (ih hclear.right)

/-- The superclass is a use of a variable, and the class must have another name in both trees. -/
theorem superclass (hρ : ρ.Exchanges old new) {x : Name} {u : VariableUse} (hx : x.text ≠ new)
    (hclear : Throughout (Occurrence.Clear ρ old new matters within)
      (superclassOccurrences S x (some u))) :
    Alongside ρ old new matters ⟨marks, S, within⟩ ⟨marks, S, within⟩
      (ScopeWalk.superclass x u) (ScopeWalk.superclass x (ρ.use marks u)) := by
  have huse := hclear.tail.head
  refine reportIf (fun _ heq => ?_) _ _ _ (readVariable hρ huse)
  exact hρ.eq_of_text hx huse.avoids (ρ.text_false x.text ▸ heq)

/-- The methods, in the scopes for `super` and `this`. -/
theorem methods (h : inner.Together ρ old new matters) (hρ : ρ.Exchanges old new)
    (parent : Option VariableUse)
    {methods : List FunctionDecl}
    (hclear : Throughout (Occurrence.Clear ρ old new matters within)
      (functionsOccurrences (methodScopes S parent) methods)) :
    Alongside ρ old new matters ⟨marks, S, within⟩ ⟨marks, S, within⟩
      (do
        if parent.isSome then
          Resolver.openScope [("super", true)]
        Resolver.openScope [("this", true)]
        methods.forM (inner.instanceMethod (if parent.isSome then .subclass else .«class»))
        Resolver.closeScope
        if parent.isSome then
          Resolver.closeScope)
      (do
        if (parent.map (ρ.use marks)).isSome then
          Resolver.openScope [("super", true)]
        Resolver.openScope [("this", true)]
        (functionsRename ρ (methodMarks marks parent) c methods).forM
          (inner.instanceMethod
            (if (parent.map (ρ.use marks)).isSome then .subclass else .«class»))
        Resolver.closeScope
        if (parent.map (ρ.use marks)).isSome then
          Resolver.closeScope) := by
  -- The scopes of `this` and `super` hold no name of the program, so their mark is `false`.
  have hopen {S : List Scope} {marks : List Bool} {x : String} (hx : x ≠ new) :
      Alongside ρ old new matters ⟨marks, S, within⟩ ⟨false :: marks, [(x, true)] :: S, within⟩
        (Resolver.openScope [(x, true)]) (Resolver.openScope [(x, true)]) :=
    openScope (Renaming.bindings_false ρ _) (by simp [Bindings.contains, Bindings.get?, hx])
  have hthis : "this" ≠ new := hρ.isName.1.symm
  have hmethods (inClass : ClassContext) : Alongside ρ old new matters
      ⟨methodMarks marks parent, methodScopes S parent, within⟩
      ⟨methodMarks marks parent, methodScopes S parent, within⟩
      (methods.forM (inner.instanceMethod inClass))
      ((functionsRename ρ (methodMarks marks parent) c methods).forM
        (inner.instanceMethod inClass)) :=
    functions (fun hf => h.instanceMethod hρ inClass hf) hclear
  cases parent with
  | none => exact (hopen hthis).bind ((hmethods .«class»).bind (closeScope.bind pure))
  | some u =>
    have hsuper : "super" ≠ new := hρ.isName.2.symm
    exact (hopen hsuper).bind ((hopen hthis).bind
      ((hmethods .subclass).bind (closeScope.bind closeScope)))

/-- The superclass, then the static methods, and then the methods. -/
theorem classDeclaration (h : inner.Together ρ old new matters) (hρ : ρ.Exchanges old new)
    {x : Name} {parent : Option VariableUse} {methods statics : List FunctionDecl}
    (hclear : Throughout (Occurrence.Clear ρ old new matters within)
      ((Stmt.classDecl x parent methods statics).occurrences S))
    (hkeeps : (Stmt.classDecl x parent methods statics).Keeps ρ marks) :
    Alongside ρ old new matters ⟨marks, S, within⟩ ⟨marks, Scope.enter x.text true S, within⟩
      (inner.stmtRule context (.classDecl x parent methods statics))
      (inner.stmtRule context ((Stmt.classDecl x parent methods statics).rename ρ marks c)) := by
  rw [Stmt.occurrences] at hclear
  rw [Stmt.rename]
  have hx : x.text ≠ new := hclear.head.avoids
  -- The name of a class is kept, because it is printed with its instances.
  refine (declareTitle hρ hx (hkeeps x.text List.mem_cons_self)).bind ?_
  have hstatics := hclear.tail.right.left
  have hmethods := hclear.tail.right.right
  cases parent with
  | none =>
    exact (functions (fun hf => h.staticMethod hρ hf) hstatics).bind (h.methods hρ none hmethods)
  | some u =>
    exact (superclass hρ hx hclear.tail.left).bind
      ((functions (fun hf => h.staticMethod hρ hf) hstatics).bind
        (h.methods hρ (some u) hmethods))

/-- Whatever the statement is. -/
theorem stmtRule (h : inner.Together ρ old new matters) (hρ : ρ.Exchanges old new) {s : Stmt}
    (hclear : Throughout (Occurrence.Clear ρ old new matters within) (s.occurrences S))
    (hwithin : S = [] → within = false) (hkeeps : s.Keeps ρ marks) :
    Alongside ρ old new matters ⟨marks, S, within⟩ ⟨marks, s.scopesAfter S, within⟩
      (inner.stmtRule context s) (inner.stmtRule context (s.rename ρ marks c)) := by
  cases s with
  | expression e | print e =>
    rw [Stmt.occurrences] at hclear
    rw [Stmt.rename]
    exact h.expr hclear
  | var x initializer => exact h.varDeclaration hρ hclear hwithin
  | block body =>
    rw [Stmt.occurrences] at hclear
    rw [Stmt.rename]
    exact (openScope rfl rfl).bind (h.scopeOf hclear (List.cons_ne_nil [] S) rfl)
  | ifThen condition s alternative => exact h.ifThen hclear hwithin hkeeps
  | whileDo condition s =>
    rw [Stmt.occurrences] at hclear
    rw [Stmt.rename]
    exact (h.expr hclear.left).bind (h.governed hclear.right hwithin hkeeps)
  | function f =>
    obtain ⟨x, params, body⟩ := f
    rw [Stmt.occurrences, FunctionDecl.occurrences] at hclear
    rw [Stmt.rename, FunctionDecl.rename]
    exact (declareTitle hρ hclear.head.avoids (hkeeps x.text List.mem_cons_self)).bind
      (h.function hρ hclear.tail)
  | returnValue line value => exact h.returnValue hclear
  | classDecl x parent methods statics => exact h.classDeclaration hρ hclear hkeeps

end ScopeWalk.Together

/-!
## Programs

The two walks begin without scopes, so nothing is marked. Behind the programs they have recorded the
same distances.
-/

variable {ρ : Renaming} {old new : String} {matters : Prop}

/-- The walk over a renamed tree goes along with that over the tree. -/
theorem together_scopeWalk (hρ : ρ.Exchanges old new) (depth : Nat) :
    (scopeWalk depth).Together ρ old new matters := by
  induction depth with
  | zero => exact ⟨fun _ _ _ _ => .error _ _ _ _, fun _ _ _ _ _ _ => .error _ _ _ _⟩
  | succ depth ih => exact ⟨ih.exprRule hρ, ih.stmtRule hρ⟩

/-- **Renamed programs resolve alike.** If a program is accepted in which no variable has the new
name, then each use in the renamed program has the distance that it has in the program. The renamed
program is accepted too, unless a global variable of the old name is read in its own initializer. -/
theorem resolve_rename (hρ : ρ.Exchanges old new) {program : List Stmt}
    (hwritten : Throughout Occurrence.Written (stmtsOccurrences [] program))
    (havoids : Throughout (Occurrence.Avoids new) (stmtsOccurrences [] program))
    (hknown : ∀ v, .use v ∈ stmtsOccurrences [] program → ρ.distance? v.id = v.distance?)
    {depth endLine : Nat} (haccepted : (resolve depth endLine program).reports = []) (c : Choice) :
    (resolve depth endLine (stmtsRename ρ [] c program)).uses.map Resolved.entry =
        (resolve depth endLine program).uses.map Resolved.entry ∧
      (Settled old program →
        (resolve depth endLine (stmtsRename ρ [] c program)).reports = []) := by
  have hclear : Throughout (Occurrence.Clear ρ old new (Settled old program) false)
      (stmtsOccurrences [] program) := fun o ho => {
    written := hwritten o ho
    avoids := havoids o ho
    known := fun v hv => hknown v (hv ▸ ho)
    quiet := fun _ hwithin => absurd hwithin Bool.false_ne_true
    settled := fun hsettled => hsettled o ho }
  have hwalk : Alongside ρ old new (Settled old program) ⟨[], [], false⟩
      ⟨[], program.foldl (fun S s => s.scopesAfter S) [], false⟩
      (program.forM ((scopeWalk depth).stmt ⟨.none, .none⟩))
      ((stmtsRename ρ [] c program).forM ((scopeWalk depth).stmt ⟨.none, .none⟩)) :=
    (together_scopeWalk hρ depth).stmts hclear (fun _ => rfl) fun _ _ _ _ => rfl
  have hends := hwalk ⟨[], [], [], []⟩ ⟨[], [], [], []⟩ {
    scopes := rfl
    scopes' := rfl
    length := rfl
    fresh := fun _ hscope => absurd hscope List.not_mem_nil
    uses := rfl
    initializing := fun _ _ _ => Iff.rfl
    outside := fun _ => ⟨List.not_mem_nil, List.not_mem_nil⟩
    reports := fun _ _ => rfl }
  -- The first walk is not stopped, since then there would be a report; so neither is the second.
  unfold resolve at haccepted ⊢
  generalize (program.forM _ : Resolver Unit) _ = r at hends haccepted ⊢
  generalize ((stmtsRename ρ [] c program).forM _ : Resolver Unit) _ = r' at hends ⊢
  cases hends with
  | ok h =>
    dsimp only at haccepted ⊢
    rw [List.map_reverse, List.map_reverse, h.uses]
    exact ⟨rfl, fun hsettled => h.reports hsettled haccepted⟩
  | error e e' s s' => exact absurd haccepted (List.append_ne_nil_of_right_ne_nil _ (by simp))

end LoxLang
