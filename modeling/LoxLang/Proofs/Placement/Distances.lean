import Mathlib.Algebra.GroupWithZero.Nat
import LoxLang.Proofs.Placement.Walk
import LoxLang.Proofs.Scoping.Distances
import LoxLang.Proofs.Scoping.Recovery

/-!
# The table of distances

Which uses have a distance, and which one, is a matter of the layers around them (`Reaches`):
`distances_declarative` says so for every text that has a tree, with or without mistakes in it.
-/

namespace LoxLang

/-!
## What a use reaches

The layers around a use are passed from the inside until one decides what it means. Each layer that
is passed adds its scopes to the distance.
-/

/-- How many scopes some layers have. -/
def scopesIn (L : List Layer) : Nat := (L.map Layer.scopes).sum

/-- A use of a name stands at a distance `d` from what it means: a name means the innermost scope
around it that has it, and `this` and `super` mean scopes around the innermost member of a class, if
that is a method of instances. The body of the method is the scope that lies between it and the one
of `this`. -/
def Reaches (L : List Layer) (name : String) (d : Nat) : UseKind → Prop
  | .«variable» | .assignment => ∃ inner l outer, L = inner ++ l :: outer ∧
      (∀ k ∈ inner, name ∉ k.names) ∧ name ∈ l.names ∧ d = scopesIn inner
  | .this => ∃ inner l outer isInitializer subclass params, L = inner ++ l :: outer ∧
      (∀ k ∈ inner, k.isMember = false) ∧
        l.kind = .function (.method isInitializer subclass) params ∧ d = scopesIn inner + 1
  | .super => ∃ inner l outer isInitializer params, L = inner ++ l :: outer ∧
      (∀ k ∈ inner, k.isMember = false) ∧
        l.kind = .function (.method isInitializer true) params ∧ d = scopesIn inner + 2

/-- A distance leads past layers that do not decide about it to the innermost one that does. -/
theorem distanceTo?_eq_some {stop? : Layer → Option (Option Nat)} {L : List Layer} {d : Nat} :
    distanceTo? stop? L = some d ↔ ∃ inner l outer e, L = inner ++ l :: outer ∧
      (∀ k ∈ inner, stop? k = none) ∧ stop? l = some (some e) ∧ d = scopesIn inner + e := by
  -- By induction on the layers: the innermost decides, or the distance grows by its scopes.
  induction L generalizing d with
  | nil => simp [distanceTo?]
  | cons l L ih =>
    unfold distanceTo?
    constructor
    · intro h
      split at h
      · next d? hstop =>
        exact ⟨[], l, L, d, rfl, List.forall_mem_nil _, h ▸ hstop, (Nat.zero_add d).symm⟩
      · next hnone =>
        obtain ⟨d', hd', rfl⟩ := Option.map_eq_some_iff.mp h
        obtain ⟨inner, k, outer, e, rfl, hinner, hk, rfl⟩ := ih.mp hd'
        refine ⟨l :: inner, k, outer, e, rfl, List.forall_mem_cons.mpr ⟨hnone, hinner⟩, hk, ?_⟩
        simp only [scopesIn, List.map_cons, List.sum_cons]
        omega
    · rintro ⟨inner, k, outer, e, heq, hinner, hk, rfl⟩
      cases inner with
      | nil =>
        obtain ⟨rfl, rfl⟩ := List.cons.inj heq
        simp [hk, scopesIn]
      | cons k' inner =>
        obtain ⟨rfl, hL⟩ := List.cons.inj heq
        have hrest := ih.mpr ⟨inner, k, outer, e, hL,
          fun j hj => hinner j (List.mem_cons_of_mem _ hj), hk, rfl⟩
        rw [hinner l List.mem_cons_self, hrest]
        simp only [scopesIn, List.map_cons, List.sum_cons, Option.map_some]
        congr 1
        omega

theorem nameDistance?_eq_some {name : String} {L : List Layer} {d : Nat} :
    nameDistance? name L = some d ↔ ∃ inner l outer, L = inner ++ l :: outer ∧
      (∀ k ∈ inner, name ∉ k.names) ∧ name ∈ l.names ∧ d = scopesIn inner := by
  have hnone {l : Layer} : stopsAtName? name l = none ↔ name ∉ l.names := by simp [stopsAtName?]
  have hsome {l : Layer} {e : Nat} :
      stopsAtName? name l = some (some e) ↔ name ∈ l.names ∧ e = 0 := by
    simp [stopsAtName?, eq_comm]
  simp only [nameDistance?, distanceTo?_eq_some, hnone, hsome]
  constructor
  · rintro ⟨inner, l, outer, _, hL, hinner, ⟨hl, rfl⟩, hd⟩
    exact ⟨inner, l, outer, hL, hinner, hl, hd⟩
  · rintro ⟨inner, l, outer, hL, hinner, hl, hd⟩
    exact ⟨inner, l, outer, 0, hL, hinner, ⟨hl, rfl⟩, hd⟩

theorem thisDistance?_eq_some {L : List Layer} {d : Nat} :
    thisDistance? L = some d ↔ ∃ inner l outer isInitializer subclass params,
      L = inner ++ l :: outer ∧ (∀ k ∈ inner, k.isMember = false) ∧
        l.kind = .function (.method isInitializer subclass) params ∧ d = scopesIn inner + 1 := by
  have hnone {l : Layer} : stopsAtThis? l = none ↔ l.isMember = false := by
    unfold stopsAtThis? Layer.isMember
    split <;> simp_all
  have hsome {l : Layer} {e : Nat} : stopsAtThis? l = some (some e) ↔
      ∃ isInitializer subclass params,
        l.kind = .function (.method isInitializer subclass) params ∧ e = 1 := by
    unfold stopsAtThis?
    split
    · next hkind =>
      simp [hkind]
      omega
    · next hkind => simp [hkind]
    · next hkind => simp [hkind]
    · next hkind => simp [hkind]
    · next hkind => simp [hkind]
  -- With `hnone` and `hsome`, the walk outward is the general one of `distanceTo?_eq_some`.
  simp only [thisDistance?, distanceTo?_eq_some, hnone, hsome]
  constructor
  · rintro ⟨inner, l, outer, _, hL, hinner, ⟨isInitializer, subclass, params, hl, rfl⟩, hd⟩
    exact ⟨inner, l, outer, isInitializer, subclass, params, hL, hinner, hl, hd⟩
  · rintro ⟨inner, l, outer, isInitializer, subclass, params, hL, hinner, hl, hd⟩
    exact ⟨inner, l, outer, 1, hL, hinner, ⟨isInitializer, subclass, params, hl, rfl⟩, hd⟩

theorem superDistance?_eq_some {L : List Layer} {d : Nat} :
    superDistance? L = some d ↔ ∃ inner l outer isInitializer params,
      L = inner ++ l :: outer ∧ (∀ k ∈ inner, k.isMember = false) ∧
        l.kind = .function (.method isInitializer true) params ∧ d = scopesIn inner + 2 := by
  have hnone {l : Layer} : stopsAtSuper? l = none ↔ l.isMember = false := by
    unfold stopsAtSuper? Layer.isMember
    split <;> simp_all
  have hsome {l : Layer} {e : Nat} : stopsAtSuper? l = some (some e) ↔
      ∃ isInitializer params,
        l.kind = .function (.method isInitializer true) params ∧ e = 2 := by
    unfold stopsAtSuper?
    split
    -- A method of a class without superclass stops the walk as well, but finds nothing.
    · next isInitializer subclass _ hkind =>
      cases subclass <;> simp [hkind]
      omega
    · next hkind => simp [hkind]
    · next hkind => simp [hkind]
    · next hkind => simp [hkind]
    · next hkind => simp [hkind]
  simp only [superDistance?, distanceTo?_eq_some, hnone, hsome]
  constructor
  · rintro ⟨inner, l, outer, _, hL, hinner, ⟨isInitializer, params, hl, rfl⟩, hd⟩
    exact ⟨inner, l, outer, isInitializer, params, hL, hinner, hl, hd⟩
  · rintro ⟨inner, l, outer, isInitializer, params, hL, hinner, hl, hd⟩
    exact ⟨inner, l, outer, 2, hL, hinner, ⟨isInitializer, params, hl, rfl⟩, hd⟩

/-- The distance of a use, as a matter of what it reaches. -/
theorem distance?_eq_some {L : List Layer} {kind : UseKind} {name : String} {line : Nat}
    {id : UseId} {d : Nat} :
    (⟨L, .use kind name line id⟩ : Site).distance? = some d ↔ Reaches L name d kind := by
  cases kind with
  | «variable» => exact nameDistance?_eq_some
  | assignment => exact nameDistance?_eq_some
  | this => exact thisDistance?_eq_some
  | super => exact superDistance?_eq_some

/-!
## Numbers of uses

Sites and occurrences list the same uses in the same order, although they say different things of
their places. So what is known of the numbers of occurrences holds of those of sites.
-/

/-- The number of a use. -/
def Site.id? (p : Site) : Option UseId :=
  match p.item with
  | .use _ _ _ id => some id
  | _ => none

theorem ids_parameterSites (role : Role) (L : List Layer) (S : List Scope) (seen xs : List Name) :
    (parameterSites role L seen xs).filterMap Site.id? =
      (parameterOccurrences S xs).filterMap Occurrence.id? := by
  induction xs generalizing seen S with
  | nil => rfl
  | cons x xs ih => exact ih _ _

mutual

theorem Expr.ids_sites (L : List Layer) (S : List Scope) : ∀ e : Expr,
    (e.sites L).filterMap Site.id? = (e.occurrences S).filterMap Occurrence.id?
  | .literal _ => rfl
  | .grouping e => e.ids_sites L S
  | .unary _ _ e => e.ids_sites L S
  | .binary _ _ left right => by
    simp only [Expr.sites, Expr.occurrences, List.filterMap_append, left.ids_sites L S,
      right.ids_sites L S]
  | .logical _ _ left right => by
    simp only [Expr.sites, Expr.occurrences, List.filterMap_append, left.ids_sites L S,
      right.ids_sites L S]
  | .«variable» _ => rfl
  | .assign _ _ value => by
    simp only [Expr.sites, Expr.occurrences, List.filterMap_append, value.ids_sites L S]
    rfl
  | .call callee _ arguments => by
    simp only [Expr.sites, Expr.occurrences, List.filterMap_append, callee.ids_sites L S,
      ids_exprsSites L S arguments]
  | .get object _ => object.ids_sites L S
  | .set object _ value => by
    simp only [Expr.sites, Expr.occurrences, List.filterMap_append, value.ids_sites L S,
      object.ids_sites L S]
  -- The layers that a lambda opens do not matter here: both sides list the uses of its body in
  -- order.
  | .lambda _ params body => by
    simp only [Expr.sites, Expr.occurrences, List.filterMap_append,
      ids_parameterSites .function L ([] :: S) [] params,
      ids_stmtsSites _ (Scope.enterAll ([] :: S) params) body]
  | .this _ _ => rfl
  | .super _ _ _ => rfl

theorem Stmt.ids_sites (L : List Layer) (S : List Scope) : ∀ s : Stmt,
    (s.sites L).filterMap Site.id? = (s.occurrences S).filterMap Occurrence.id?
  | .expression e => e.ids_sites _ S
  | .print e => e.ids_sites _ S
  | .var _ none => rfl
  | .var name (some e) => by
    have h := e.ids_sites (layersWithin (.var name (some e)) L) (Scope.enter name.text false S)
    simp [Stmt.sites, Stmt.occurrences, List.filterMap_cons, h, Site.id?, Occurrence.id?]
  | .block body => ids_stmtsSites _ _ body
  | .ifThen condition s none => by
    have h := condition.ids_sites (layersWithin (.ifThen condition s none) L) S
    have h' := s.ids_sites (layersWithin (.ifThen condition s none) L) S
    simp [Stmt.sites, Stmt.occurrences, List.filterMap_cons, h, h', Occurrence.id?]
  | .ifThen condition s (some t) => by
    have h := condition.ids_sites (layersWithin (.ifThen condition s (some t)) L) S
    have h' := s.ids_sites (layersWithin (.ifThen condition s (some t)) L) S
    have h'' := t.ids_sites (layersWithin (.ifThen condition s (some t)) L) S
    simp [Stmt.sites, Stmt.occurrences, List.filterMap_cons, h, h', h'', Occurrence.id?]
  | .whileDo condition s => by
    have h := condition.ids_sites (layersWithin (.whileDo condition s) L) S
    have h' := s.ids_sites (layersWithin (.whileDo condition s) L) S
    simp [Stmt.sites, Stmt.occurrences, List.filterMap_cons, h, h', Occurrence.id?]
  | .function f => f.ids_sites _ _ _
  | .returnValue _ none => rfl
  | .returnValue _ (some e) => e.ids_sites _ S
  -- Both lists have the static methods before the others, and the superclass before both.
  | .classDecl name parent methods staticMethods => by
    have h := ids_membersSites (Role.ofMethod parent.isSome)
      (layersWithin (.classDecl name parent methods staticMethods) L)
      (methodScopes (Scope.enter name.text true S) parent) methods
    have h' := ids_membersSites (fun _ => .staticMethod)
      (layersWithin (.classDecl name parent methods staticMethods) L)
      (Scope.enter name.text true S) staticMethods
    cases parent <;>
      simp only [Stmt.sites, Stmt.occurrences, superclassSites, superclassOccurrences,
        List.filterMap_cons, List.filterMap_append, List.filterMap_nil, Site.id?, Occurrence.id?,
        h, h']

theorem FunctionDecl.ids_sites (role : Role) (L : List Layer) (S : List Scope) : ∀ f : FunctionDecl,
    (f.sites role L).filterMap Site.id? = (f.occurrences S).filterMap Occurrence.id?
  | ⟨_, params, body⟩ => by
    simp only [FunctionDecl.sites, FunctionDecl.occurrences, List.filterMap_append,
      ids_parameterSites role L ([] :: S) [] params,
      ids_stmtsSites _ (Scope.enterAll ([] :: S) params) body]

theorem ids_exprsSites (L : List Layer) (S : List Scope) : ∀ es : List Expr,
    (exprsSites L es).filterMap Site.id? = (exprsOccurrences S es).filterMap Occurrence.id?
  | [] => rfl
  | e :: es => by
    simp only [exprsSites, exprsOccurrences, List.filterMap_append, e.ids_sites L S,
      ids_exprsSites L S es]

theorem ids_stmtsSites (L : List Layer) (S : List Scope) : ∀ ss : List Stmt,
    (stmtsSites L ss).filterMap Site.id? = (stmtsOccurrences S ss).filterMap Occurrence.id?
  | [] => rfl
  | s :: ss => by
    simp only [stmtsSites, stmtsOccurrences, List.filterMap_append, s.ids_sites L S,
      ids_stmtsSites (layersBehind s L) (s.scopesAfter S) ss]

theorem ids_membersSites (role : String → Role) (L : List Layer) (S : List Scope) :
    ∀ fs : List FunctionDecl,
      (membersSites role L fs).filterMap Site.id? =
        (functionsOccurrences S fs).filterMap Occurrence.id?
  | [] => rfl
  | f :: fs => by
    have h := f.ids_sites (role f.name.text) L S
    have h' := ids_membersSites role L S fs
    simp [membersSites, functionsOccurrences, List.filterMap_cons, h, h', Site.id?]

end

/-!
## The table of a program

As no two uses have the same number, each finds its own entry in the table, and only uses have one.
-/

theorem Site.id?_of_resolved? (p : Site) (u : Resolved) (h : p.resolved? = some u) :
    p.id? = some u.id := by
  obtain ⟨L, item⟩ := p
  cases item with
  | use kind name line id =>
    obtain ⟨d, -, rfl⟩ := Option.map_eq_some_iff.mp h
    rfl
  | _ => cases h

/-- **The table of distances is the declarative one.** Whatever text a tree was read from, and
whether or not something is wrong with it: each use of a name in the tree has a number of its own,
and if the tree can be resolved, which it can with as many levels as its height, then the table
gives a distance for just those uses that reach what they mean, and gives the distance at which they
reach it. -/
theorem distances_declarative {depth firstUse : Nat} {source : String} {program : List Stmt}
    (hprogram : (parse depth firstUse (lex source)).statements = program) :
    ((programSites program).filterMap Site.id?).Nodup ∧
    (∀ levels endLine, stmtsHeight program ≤ levels →
      (resolve levels endLine program).Finished) ∧
    ∀ levels endLine, (resolve levels endLine program).Finished →
      let table := Distances.insertAll ∅ (resolve levels endLine program).uses
      (∀ L kind name line id, ⟨L, .use kind name line id⟩ ∈ programSites program →
        ∀ d, table[id]? = some d ↔ Reaches L name d kind) ∧
      ∀ id d, table[id]? = some d → ∃ L kind name line,
        ⟨L, .use kind name line id⟩ ∈ programSites program ∧ Reaches L name d kind := by
  have hstretch := stretch_statements depth firstUse source []
  rw [hprogram] at hstretch
  have hnodup : ((programSites program).filterMap Site.id?).Nodup := by
    rw [programSites, ids_stmtsSites [.atStart .program] [] program]
    exact hstretch.nodup
  refine ⟨hnodup, fun levels endLine h => resolve_finished hstretch.written endLine h, ?_⟩
  intro levels endLine hfinished table
  have huses : table = Distances.insertAll ∅ ((programSites program).filterMap Site.resolved?) := by
    show Distances.insertAll ∅ (resolve levels endLine program).uses = _
    rw [resolve_of_finished hstretch.written hfinished]
  -- The numbers of the program's uses are all different, so a use has at most one entry, its own.
  have hentry {L : List Layer} {kind : UseKind} {name : String} {line : Nat} {id : UseId}
      (hp : ⟨L, .use kind name line id⟩ ∈ programSites program) :
      table[id]? = (⟨L, .use kind name line id⟩ : Site).distance? := by
    rw [huses, Distances.getElem?_insertAll_filterMap Site.id?_of_resolved? hnodup
      Std.TreeMap.getElem?_emptyc hp rfl]
    simp [Site.resolved?, Option.map_map, Function.comp_def]
  -- First every use of the program, then every entry of the table.
  refine ⟨fun L kind name line id hp d => ?_, fun id d hd => ?_⟩
  · rw [hentry hp]
    exact distance?_eq_some
  · -- What is in the table was entered for a use.
    have hmem : ∃ u ∈ (programSites program).filterMap Site.resolved?, u.id = id := by
      refine Classical.byContradiction fun hnone => ?_
      have hempty : table[id]? = none := by
        rw [huses, Distances.getElem?_insertAll_of_ne fun u hu heq => hnone ⟨u, hu, heq⟩]
        exact Std.TreeMap.getElem?_emptyc
      exact absurd (hempty.symm.trans hd) (by simp)
    obtain ⟨u, hu, rfl⟩ := hmem
    obtain ⟨⟨L, item⟩, hp, hresolved⟩ := List.mem_filterMap.mp hu
    cases item with
    | use kind name line id =>
      obtain ⟨d', -, rfl⟩ := Option.map_eq_some_iff.mp hresolved
      exact ⟨L, kind, name, line, hp, distance?_eq_some.mp ((hentry hp).symm.trans hd)⟩
    | _ => cases hresolved

/-- In a method with a block in it, the parameter is one scope away and `this` two, and a global
variable has no entry. -/
theorem distances_declarative_method :
    let program :=
      (parse 20 0 (lex "class A \x7b m(x) \x7b \x7b print x; this.f(y); \x7d \x7d \x7d")).statements
    (resolve 20 1 program).Finished ∧
    (∃ L, ⟨L, .use .«variable» "x" 1 0⟩ ∈ programSites program ∧ Reaches L "x" 1 .«variable») ∧
    (∃ L, ⟨L, .use .this "this" 1 1⟩ ∈ programSites program ∧ Reaches L "this" 2 .this) ∧
    ∃ L, ⟨L, .use .«variable» "y" 1 2⟩ ∈ programSites program ∧
      ∀ d, ¬Reaches L "y" d .«variable» := by
  intro program
  have hfinished : (resolve 20 1 program).Finished := by
    have hclean : (resolve 20 1 program).reports = [] := by decide +kernel
    exact fun place => hclean ▸ List.not_mem_nil
  -- `x` is the parameter one scope out, `this` is two out, and `y` is a name of no scope.
  have hlaw := ((distances_declarative rfl).2.2 20 1 hfinished).1
  have hsite (item : Item) (hitem : ∃ p ∈ programSites program, p.item = item) :
      ∃ L, ⟨L, item⟩ ∈ programSites program := by
    obtain ⟨⟨L, _⟩, hp, rfl⟩ := hitem
    exact ⟨L, hp⟩
  obtain ⟨L, hx⟩ := hsite (.use .«variable» "x" 1 0) (by decide +kernel)
  obtain ⟨L', hthis⟩ := hsite (.use .this "this" 1 1) (by decide +kernel)
  obtain ⟨L'', hy⟩ := hsite (.use .«variable» "y" 1 2) (by decide +kernel)
  refine ⟨hfinished, ⟨L, hx, (hlaw _ _ _ _ _ hx 1).mp (by decide +kernel)⟩,
    ⟨L', hthis, (hlaw _ _ _ _ _ hthis 2).mp (by decide +kernel)⟩, L'', hy, fun d hd => ?_⟩
  have hnone : (Distances.insertAll ∅ (resolve 20 1 program).uses)[(2 : UseId)]? = none := by
    decide +kernel
  exact absurd (hnone.symm.trans ((hlaw _ _ _ _ _ hy d).mpr hd)) (by simp)

end LoxLang
