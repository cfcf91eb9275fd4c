import LoxLang.Proofs.Placement.Walk
import LoxLang.Proofs.Scoping.Recovery

/-!
# Variables in their own initializers

Which readings of a variable are reported because they stand in its own initializer. For local
variables all of them are, for global ones those that no other variable of the name was initialized
before: the end of an initializer ends those of global variables of the same name as well, also if
it is that of a local variable in a function (`Lifted`).

The sites of statements that stand at top level are `Balanced`: at each use among them, an
initializer is under way if and only if the use stands in it, and behind them none is.
-/

namespace LoxLang

/-!
## Beginnings and ends of initializers

Names whose initializers are under way are added at the beginning of an initializer at top level,
and taken out at the end of any initializer of a variable of that name. The second happens in
functions and blocks, too, which is what `Lifted` is about.
-/

namespace Site

/-- The initializer of a global variable begins at a site. -/
def Opens (p : Site) : Prop := atTopLevel p.layers = true ∧ ∃ x, p.item = .initializer x

/-- A name is used at a site. -/
def IsUse (p : Site) : Prop := ∃ kind name line id, p.item = .use kind name line id

/-- A variable is read at a site that stands in its own initializer, with no function in between. -/
def ReadsItself (p : Site) (x : String) : Prop :=
  (∃ line id, p.item = .use .«variable» x line id) ∧ ownVariable? p.layers = some x

end Site

/-- Since the initializer of a global variable was begun last, a variable of some name has been
initialized. -/
def Lifted (past : List Site) (x : String) : Prop :=
  ∃ before q between, past = before ++ q :: between ∧ q.item = .initialized x ∧
    ∀ r ∈ between, ¬r.Opens

/-- A site where no initializer begins takes a name out, if it does anything. -/
theorem mem_initializingBehind_site {p : Site} (h : ¬p.Opens) {initializing : List String}
    {x : String} : x ∈ p.initializingBehind initializing ↔
      x ∈ initializing ∧ p.item ≠ .initialized x := by
  obtain ⟨L, item⟩ := p
  cases item with
  | initializer y =>
    have htop : atTopLevel L ≠ true := fun htop => h ⟨htop, y, rfl⟩
    simp [Site.initializingBehind, htop]
  | initialized y =>
    have heq : y = x ↔ x = y := eq_comm
    simp [Site.initializingBehind, heq]
  | _ => simp [Site.initializingBehind]

/-- Where no initializer of a global variable begins, those that are under way end one by one. -/
theorem mem_initializingBehind {ps : List Site} (h : ∀ p ∈ ps, ¬p.Opens)
    {initializing : List String} {x : String} : x ∈ initializingBehind initializing ps ↔
      x ∈ initializing ∧ ∀ p ∈ ps, p.item ≠ .initialized x := by
  induction ps generalizing initializing with
  | nil => simp [initializingBehind]
  | cons p ps ih =>
    have hrest : x ∈ initializingBehind (p.initializingBehind initializing) ps ↔ _ :=
      ih fun q hq => h q (List.mem_cons_of_mem _ hq)
    rw [mem_initializingBehind_site (h p List.mem_cons_self), and_assoc] at hrest
    rw [List.forall_mem_cons]
    exact hrest

/-!
## Sites inside of functions and blocks

What is inside of a function or a block is not at top level. So the sites of an expression are those
of the place itself, or inside of a lambda.
-/

/-- None of some sites stands at top level. -/
def Inside (ps : List Site) : Prop := ∀ p ∈ ps, atTopLevel p.layers = false

/-- Of some sites, those at top level are uses in one place. -/
def UsesIn (L : List Layer) (ps : List Site) : Prop :=
  ∀ p ∈ ps, p.layers = L ∧ p.IsUse ∨ atTopLevel p.layers = false

section Inside

variable {L : List Layer} {ps qs : List Site}

theorem Inside.append (h : Inside ps) (h' : Inside qs) : Inside (ps ++ qs) := by
  intro p hp
  rcases List.mem_append.mp hp with hp | hp
  · exact h p hp
  · exact h' p hp

theorem Inside.cons {p : Site} (hp : atTopLevel p.layers = false) (h : Inside ps) :
    Inside (p :: ps) :=
  List.forall_mem_cons.mpr ⟨hp, h⟩

/-- What is inside need not be a use. -/
theorem Inside.usesIn (h : Inside ps) : UsesIn L ps := fun p hp => .inr (h p hp)

theorem UsesIn.append (h : UsesIn L ps) (h' : UsesIn L qs) : UsesIn L (ps ++ qs) := by
  intro p hp
  rcases List.mem_append.mp hp with hp | hp
  · exact h p hp
  · exact h' p hp

theorem UsesIn.use {kind : UseKind} {name : String} {line : Nat} {id : UseId} :
    UsesIn L [⟨L, .use kind name line id⟩] :=
  List.forall_mem_singleton.mpr (.inl ⟨rfl, kind, name, line, id, rfl⟩)

/-- Where the place is inside, so are all of its sites. -/
theorem UsesIn.inside (h : UsesIn L ps) (hL : atTopLevel L = false) : Inside ps := by
  intro p hp
  rcases h p hp with ⟨hlayers, -⟩ | hp
  · rw [hlayers]
    exact hL
  · exact hp

/-- What is known of the innermost layer may change, as long as its kind does not. -/
theorem atTopLevel_modifyHead (f : Layer → Layer) (hkind : ∀ l, (f l).kind = l.kind)
    (L : List Layer) : atTopLevel (L.modifyHead f) = atTopLevel L := by
  cases L with
  | nil => rfl
  | cons l L => simp [atTopLevel, hkind]

/-- A statement is at top level while it is walked if it is before. -/
theorem atTopLevel_layersWithin (s : Stmt) (L : List Layer) :
    atTopLevel (layersWithin s L) = atTopLevel L :=
  atTopLevel_modifyHead (Layer.within s) (fun _ => rfl) L

/-- And so is what stands behind it. -/
theorem atTopLevel_layersBehind (s : Stmt) (L : List Layer) :
    atTopLevel (layersBehind s L) = atTopLevel L :=
  atTopLevel_modifyHead (Layer.behind s) (fun _ => rfl) L

/-- Parameters are inside of their function. -/
theorem inside_parameterSites (role : Role) (L : List Layer) (seen xs : List Name) :
    Inside (parameterSites role L seen xs) := by
  induction xs generalizing seen with
  | nil => exact nofun
  | cons x xs ih => exact .cons rfl (ih _)

end Inside

mutual

/-- What stands in an expression stands in the place of the expression, or in a function. -/
theorem Expr.usesIn_sites (L : List Layer) : ∀ e : Expr, UsesIn L (e.sites L)
  | .literal _ => nofun
  | .grouping e => e.usesIn_sites L
  | .unary _ _ e => e.usesIn_sites L
  | .binary _ _ left right => (left.usesIn_sites L).append (right.usesIn_sites L)
  | .logical _ _ left right => (left.usesIn_sites L).append (right.usesIn_sites L)
  | .«variable» _ => .use
  | .assign _ _ value => (value.usesIn_sites L).append .use
  | .call callee _ arguments => (callee.usesIn_sites L).append (usesIn_exprsSites L arguments)
  | .get object _ => object.usesIn_sites L
  | .set object _ value => (value.usesIn_sites L).append (object.usesIn_sites L)
  | .lambda _ params body =>
    ((inside_parameterSites .function L [] params).append (inside_stmtsSites rfl body)).usesIn
  | .this _ _ => .use
  | .super _ _ _ => .use

/-- What stands in a statement in a function or block does not stand at top level. -/
theorem Stmt.inside {L : List Layer} (h : atTopLevel L = false) : ∀ s : Stmt, Inside (s.sites L)
  | .expression e => (e.usesIn_sites _).inside ((atTopLevel_layersWithin _ L).trans h)
  | .print e => (e.usesIn_sites _).inside ((atTopLevel_layersWithin _ L).trans h)
  | .var _ none => .cons h nofun
  | .var name (some e) =>
    have hwithin := (atTopLevel_layersWithin (.var name (some e)) L).trans h
    .cons h (.cons hwithin (((e.usesIn_sites _).inside hwithin).append (.cons hwithin nofun)))
  | .block body => inside_stmtsSites rfl body
  | .ifThen condition s none =>
    have hwithin := (atTopLevel_layersWithin (.ifThen condition s none) L).trans h
    ((condition.usesIn_sites _).inside hwithin).append (s.inside hwithin)
  | .ifThen condition s (some t) =>
    have hwithin := (atTopLevel_layersWithin (.ifThen condition s (some t)) L).trans h
    ((condition.usesIn_sites _).inside hwithin).append
      ((s.inside hwithin).append (t.inside hwithin))
  | .whileDo condition s =>
    have hwithin := (atTopLevel_layersWithin (.whileDo condition s) L).trans h
    ((condition.usesIn_sites _).inside hwithin).append (s.inside hwithin)
  | .function f => .cons h (f.inside .function _)
  | .returnValue line none =>
    .cons ((atTopLevel_layersWithin (.returnValue line none) L).trans h) nofun
  | .returnValue line (some e) =>
    have hwithin := (atTopLevel_layersWithin (.returnValue line (some e)) L).trans h
    .cons hwithin ((e.usesIn_sites _).inside hwithin)
  | .classDecl name parent methods staticMethods => by
    have hwithin :=
      (atTopLevel_layersWithin (.classDecl name parent methods staticMethods) L).trans h
    have hmembers := (inside_membersSites hwithin (fun _ => .staticMethod) staticMethods).append
      (inside_membersSites hwithin (Role.ofMethod parent.isSome) methods)
    cases parent with
    | none => exact .cons h hmembers
    | some use => exact .cons h (.cons hwithin (.cons hwithin hmembers))

/-- Functions have a layer of their own. -/
theorem FunctionDecl.inside (role : Role) (L : List Layer) : ∀ f : FunctionDecl,
    Inside (f.sites role L)
  | ⟨_, params, body⟩ =>
    (inside_parameterSites role L [] params).append (inside_stmtsSites rfl body)

theorem usesIn_exprsSites (L : List Layer) : ∀ es : List Expr, UsesIn L (exprsSites L es)
  | [] => nofun
  | e :: es => (e.usesIn_sites L).append (usesIn_exprsSites L es)

/-- What is inside of a block stays inside. -/
theorem inside_stmtsSites {L : List Layer} (h : atTopLevel L = false) : ∀ ss : List Stmt,
    Inside (stmtsSites L ss)
  | [] => nofun
  | s :: ss => (s.inside h).append (inside_stmtsSites ((atTopLevel_layersBehind s L).trans h) ss)

/-- The members of a class in a block. -/
theorem inside_membersSites {L : List Layer} (h : atTopLevel L = false) (role : String → Role) :
    ∀ fs : List FunctionDecl, Inside (membersSites role L fs)
  | [] => nofun
  | f :: fs => .cons h ((f.inside _ L).append (inside_membersSites h role fs))

end

/-!
## Sites at top level

At top level initializers begin and end. Sites are calm if they have none of their own; and where
initializers begin and end in pairs, there is none under way behind them.
-/

/-- Sites behind which no initializer is under way, and at whose uses one is if and only if they
stand in it and it has not been lifted. -/
structure Balanced (ps : List Site) : Prop where
  closed : initializingBehind [] ps = []
  under : ∀ past p rest, ps = past ++ p :: rest → atTopLevel p.layers = true → p.IsUse → ∀ x,
    x ∈ initializingBehind [] past ↔ ownVariable? p.layers = some x ∧ ¬Lifted past x
  /-- A use in an initializer has the beginning in front of it. -/
  opened : ∀ past p rest, ps = past ++ p :: rest → atTopLevel p.layers = true → p.IsUse → ∀ x,
    ownVariable? p.layers = some x → ∃ q ∈ past, q.Opens

/-- Sites none of which has to do with the initializer of a global variable. -/
def Calm (ps : List Site) : Prop :=
  ∀ p ∈ ps, ¬p.Opens ∧ (atTopLevel p.layers = true → ownVariable? p.layers = none)

section Balanced

variable {L : List Layer} {ps qs : List Site}

/-- At a use, no initializer begins. -/
theorem not_opens_of_isUse {p : Site} (h : p.IsUse) : ¬p.Opens := by
  rintro ⟨-, x, hx⟩
  obtain ⟨kind, name, line, id, huse⟩ := h
  cases huse.symm.trans hx

/-- Inside of functions and blocks no initializer of a global variable begins, and none is the own
one. -/
theorem Inside.calm (h : Inside ps) : Calm ps := fun p hp =>
  ⟨fun hopens => absurd ((h p hp).symm.trans hopens.1) (by simp),
    fun htop => absurd ((h p hp).symm.trans htop) (by simp)⟩

/-- Neither in an expression that is no initializer. -/
theorem UsesIn.calm (h : UsesIn L ps) (hL : ownVariable? L = none) : Calm ps := by
  intro p hp
  rcases h p hp with ⟨rfl, huse⟩ | hp
  · exact ⟨not_opens_of_isUse huse, fun _ => hL⟩
  · exact Inside.calm (List.forall_mem_singleton.mpr hp) p List.mem_cons_self

theorem Calm.nil : Calm [] := nofun

/-- Calm sites, one after the other. -/
theorem Calm.append (h : Calm ps) (h' : Calm qs) : Calm (ps ++ qs) := by
  intro p hp
  rcases List.mem_append.mp hp with hp | hp
  · exact h p hp
  · exact h' p hp

/-- A calm site before others. -/
theorem Calm.cons {p : Site} (hitem : ∀ x, p.item ≠ .initializer x)
    (hown : ownVariable? p.layers = none) (h : Calm ps) : Calm (p :: ps) :=
  List.forall_mem_cons.mpr ⟨⟨fun ⟨_, x, hx⟩ => hitem x hx, fun _ => hown⟩, h⟩

/-- Where none begins, none is under way. -/
theorem initializingBehind_eq_nil (h : ∀ p ∈ ps, ¬p.Opens) : initializingBehind [] ps = [] :=
  List.eq_nil_iff_forall_not_mem.mpr fun _ hx =>
    absurd ((mem_initializingBehind h).mp hx).1 List.not_mem_nil

/-- In calm sites there is nothing to balance. -/
theorem Calm.balanced (h : Calm ps) : Balanced ps := by
  have hown {past rest : List Site} {p : Site} (heq : ps = past ++ p :: rest)
      (htop : atTopLevel p.layers = true) : ownVariable? p.layers = none :=
    (h p (heq ▸ List.mem_append_right past List.mem_cons_self)).2 htop
  refine ⟨initializingBehind_eq_nil fun p hp => (h p hp).1, ?_, ?_⟩
  · intro past p rest heq htop _ x
    have hpast : initializingBehind [] past = [] :=
      initializingBehind_eq_nil fun q hq => (h q (heq ▸ List.mem_append_left _ hq)).1
    simp [hpast, hown heq htop]
  · intro past p rest heq htop _ x hx
    exact absurd ((hown heq htop).symm.trans hx) (by simp)

/-- A site of two lists is one of the first or one of the second. -/
theorem split_append {past rest : List Site} {p : Site} (h : ps ++ qs = past ++ p :: rest) :
    (∃ rest', ps = past ++ p :: rest' ∧ rest = rest' ++ qs) ∨
      ∃ past', past = ps ++ past' ∧ qs = past' ++ p :: rest := by
  rcases List.append_eq_append_iff.mp h with ⟨past', hpast, hqs⟩ | ⟨rest', hps, hrest⟩
  · exact .inr ⟨past', hpast, hqs⟩
  · cases rest' with
    | nil => exact .inr ⟨[], by simpa using hps.symm, hrest.symm⟩
    | cons p' rest' =>
      obtain ⟨rfl, rfl⟩ := List.cons.inj hrest
      exact .inl ⟨rest', hps, rfl⟩

/-- If an initializer begins in the second list, nothing in the first one counts any more. -/
theorem lifted_append {x : String} (h : ∃ q ∈ qs, q.Opens) :
    Lifted (ps ++ qs) x ↔ Lifted qs x := by
  constructor
  · rintro ⟨before, q, between, heq, hq, hbetween⟩
    rcases split_append heq with ⟨rest, -, rfl⟩ | ⟨past, -, hqs⟩
    · obtain ⟨r, hr, hopens⟩ := h
      exact absurd hopens (hbetween r (List.mem_append_right _ hr))
    · exact ⟨past, q, between, hqs, hq, hbetween⟩
  · rintro ⟨before, q, between, rfl, hq, hbetween⟩
    exact ⟨ps ++ before, q, between, (List.append_assoc _ _ _).symm, hq, hbetween⟩

/-- Behind the first sites no initializer is under way, so the others are as if they came first. -/
theorem Balanced.append (h : Balanced ps) (h' : Balanced qs) : Balanced (ps ++ qs) := by
  have hbehind (past : List Site) :
      initializingBehind [] (ps ++ past) = initializingBehind [] past := by
    rw [initializingBehind_append, h.closed]
  refine ⟨(hbehind qs).trans h'.closed, ?_, ?_⟩
  · intro past p rest heq htop huse x
    rcases split_append heq with ⟨rest', hps, -⟩ | ⟨past', rfl, hqs⟩
    · exact h.under past p rest' hps htop huse x
    · rw [hbehind, h'.under past' p rest hqs htop huse x]
      refine and_congr_right fun hown => not_congr ?_
      exact (lifted_append (h'.opened past' p rest hqs htop huse x hown)).symm
  · intro past p rest heq htop huse x hown
    rcases split_append heq with ⟨rest', hps, -⟩ | ⟨past', rfl, hqs⟩
    · exact h.opened past p rest' hps htop huse x hown
    · obtain ⟨q, hq, hopens⟩ := h'.opened past' p rest hqs htop huse x hown
      exact ⟨q, List.mem_append_right _ hq, hopens⟩

/-- What is lifted was lifted at the first site, or behind it. -/
theorem lifted_cons {p : Site} {x : String} :
    Lifted (p :: ps) x ↔ (p.item = .initialized x ∧ ∀ r ∈ ps, ¬r.Opens) ∨ Lifted ps x := by
  constructor
  · rintro ⟨before, q, between, heq, hq, hbetween⟩
    cases before with
    | nil =>
      obtain ⟨rfl, rfl⟩ := List.cons.inj heq
      exact .inl ⟨hq, hbetween⟩
    | cons p' before =>
      obtain ⟨rfl, rfl⟩ := List.cons.inj heq
      exact .inr ⟨before, q, between, rfl, hq, hbetween⟩
  · rintro (⟨hp, hps⟩ | ⟨before, q, between, rfl, hq, hbetween⟩)
    · exact ⟨[], p, ps, rfl, hp, hps⟩
    · exact ⟨p :: before, q, between, rfl, hq, hbetween⟩

/-- What has been lifted where no initializer begins. -/
theorem lifted_iff {x : String} (h : ∀ p ∈ ps, ¬p.Opens) :
    Lifted ps x ↔ ∃ p ∈ ps, p.item = .initialized x := by
  constructor
  · rintro ⟨before, q, between, rfl, hq, -⟩
    exact ⟨q, List.mem_append_right _ List.mem_cons_self, hq⟩
  · rintro ⟨q, hmem, hq⟩
    obtain ⟨before, between, rfl⟩ := List.append_of_mem hmem
    exact ⟨before, q, between, rfl, hq, fun r hr =>
      h r (List.mem_append_right _ (List.mem_cons_of_mem _ hr))⟩

/-- Initializers are those of declarations, and expressions have none at top level. -/
theorem Expr.not_opens (e : Expr) (L : List Layer) : ∀ p ∈ e.sites L, ¬p.Opens := by
  intro p hp
  rcases e.usesIn_sites L p hp with ⟨-, huse⟩ | hinside
  · exact not_opens_of_isUse huse
  · exact fun h => absurd (hinside.symm.trans h.1) (by simp)

section Declaration

variable {L' : List Layer} {name : Name} {ms : List Site} {x : String}

/-- The initializer of a global variable is under way until one of the name has been initialized. -/
theorem mem_initializingBehind_declaration (htop : atTopLevel L' = true)
    (hms : ∀ m ∈ ms, ¬m.Opens) :
    x ∈ initializingBehind [] (⟨L, .declaration name⟩ :: ⟨L', .initializer name.text⟩ :: ms) ↔
      x = name.text ∧ ∀ m ∈ ms, m.item ≠ .initialized x := by
  have hstart : initializingBehind [] (⟨L, .declaration name⟩ ::
      ⟨L', .initializer name.text⟩ :: ms) = initializingBehind [name.text] ms := by
    simp [initializingBehind, Site.initializingBehind, htop]
  rw [hstart, mem_initializingBehind hms, List.mem_singleton]

/-- In the initializer of a global variable, only what stands before in it counts. -/
theorem lifted_declaration (hms : ∀ m ∈ ms, ¬m.Opens) :
    Lifted (⟨L, .declaration name⟩ :: ⟨L', .initializer name.text⟩ :: ms) x ↔
      ∃ m ∈ ms, m.item = .initialized x := by
  rw [← lifted_iff hms, lifted_cons, lifted_cons]
  simp

/-- The uses at top level in the declaration of a global variable are those of its initializer. -/
theorem use_in_declaration {e : Expr} {past rest : List Site} {p : Site}
    (heq : ⟨L, .declaration name⟩ :: ⟨L', .initializer name.text⟩ ::
      (e.sites L' ++ [⟨L', .initialized name.text⟩]) = past ++ p :: rest)
    (hp : atTopLevel p.layers = true) (huse : p.IsUse) :
    ∃ ms rest', past = ⟨L, .declaration name⟩ :: ⟨L', .initializer name.text⟩ :: ms ∧
      e.sites L' = ms ++ p :: rest' ∧ p.layers = L' := by
  obtain ⟨kind, x, line, id, hitem⟩ := huse
  -- The first two sites are no uses, and neither is the last.
  cases past with
  | nil =>
    obtain ⟨rfl, -⟩ := List.cons.inj heq
    cases hitem
  | cons q past =>
    obtain ⟨rfl, htail⟩ := List.cons.inj heq
    cases past with
    | nil =>
      obtain ⟨rfl, -⟩ := List.cons.inj htail
      cases hitem
    | cons r ms =>
      obtain ⟨rfl, hsites⟩ := List.cons.inj htail
      rcases split_append hsites with ⟨rest', hsites, -⟩ | ⟨ms', -, hend⟩
      · have hmem : p ∈ e.sites L' := hsites ▸ List.mem_append_right _ List.mem_cons_self
        refine ⟨ms, rest', rfl, hsites, ?_⟩
        rcases e.usesIn_sites L' p hmem with ⟨hlayers, -⟩ | hinside
        · exact hlayers
        · exact absurd (hinside.symm.trans hp) (by simp)
      · have hmem : p ∈ [(⟨L', .initialized name.text⟩ : Site)] :=
          hend ▸ List.mem_append_right _ List.mem_cons_self
        rw [List.mem_singleton.mp hmem] at hitem
        cases hitem

end Declaration

/-- The declaration of a global variable. While its initializer is looked at, it is under way until
a variable of the name has been initialized in a function. -/
theorem balanced_var {name : Name} {e : Expr} (htop : atTopLevel L = true) :
    Balanced ((Stmt.var name (some e)).sites L) := by
  -- Only that `L'` is at top level and has this variable is used of it below.
  obtain ⟨L', hL'⟩ : ∃ L', layersWithin (.var name (some e)) L = L' := ⟨_, rfl⟩
  have htop' : atTopLevel L' = true := by rw [← hL', atTopLevel_layersWithin, htop]
  have hown : ownVariable? L' = some name.text := by
    cases L with
    | nil => cases htop
    | cons l L => exact hL' ▸ rfl
  rw [Stmt.sites, hL']
  refine ⟨?_, ?_, ?_⟩
  · -- At the end of the initializer, its variable is initialized.
    refine List.eq_nil_iff_forall_not_mem.mpr fun x hx => ?_
    have hend : ∀ p ∈ [(⟨L', .initialized name.text⟩ : Site)], ¬p.Opens := by simp [Site.Opens]
    have hnone := List.forall_mem_append.mpr ⟨e.not_opens L', hend⟩
    obtain ⟨rfl, hnever⟩ := (mem_initializingBehind_declaration htop' hnone).mp hx
    exact hnever _ (List.mem_append_right _ List.mem_cons_self) rfl
  -- A use in the initializer comes behind its opening and before its end, so the variable is still
  -- being initialized.
  · intro past p rest heq hp huse x
    obtain ⟨ms, rest', rfl, hsites, hlayers⟩ := use_in_declaration heq hp huse
    have hms : ∀ m ∈ ms, ¬m.Opens := fun m hm =>
      e.not_opens L' m (hsites ▸ List.mem_append_left _ hm)
    rw [mem_initializingBehind_declaration htop' hms, lifted_declaration hms, hlayers, hown]
    simp [eq_comm]
  · intro past p rest heq hp huse x _
    obtain ⟨ms, rest', rfl, -, -⟩ := use_in_declaration heq hp huse
    exact ⟨_, List.mem_cons_of_mem _ List.mem_cons_self, htop', name.text, rfl⟩

end Balanced

/-- A statement that initializes no variable stands in no initializer. -/
theorem ownVariable?_layersWithin {s : Stmt} (h : s.initializes? = none) (L : List Layer) :
    ownVariable? (layersWithin s L) = none := by
  cases L with
  | nil => rfl
  | cons l L => exact h

/-- Behind a statement, its initializer has ended. -/
theorem ownVariable?_layersBehind (s : Stmt) (L : List Layer) :
    ownVariable? (layersBehind s L) = none := by
  cases L <;> rfl

/-- The members of a class are functions. -/
theorem calm_membersSites {L : List Layer} (hL : ownVariable? L = none) (role : String → Role)
    (fs : List FunctionDecl) : Calm (membersSites role L fs) := by
  induction fs with
  | nil => exact .nil
  | cons f fs ih => exact Calm.cons (by simp) hL ((f.inside _ L).calm.append ih)

/-- A statement at top level. -/
theorem Stmt.balanced {L : List Layer} (htop : atTopLevel L = true) (hL : ownVariable? L = none) :
    ∀ s : Stmt, Balanced (s.sites L)
  | .expression e => ((e.usesIn_sites _).calm (ownVariable?_layersWithin rfl L)).balanced
  | .print e => ((e.usesIn_sites _).calm (ownVariable?_layersWithin rfl L)).balanced
  | .var _ none => (Calm.cons (by simp) hL .nil).balanced
  | .var _ (some _) => balanced_var htop
  | .block body => (inside_stmtsSites rfl body).calm.balanced
  | .ifThen condition s none =>
    have htop' := (atTopLevel_layersWithin (.ifThen condition s none) L).trans htop
    have hL' := ownVariable?_layersWithin (s := .ifThen condition s none) rfl L
    ((condition.usesIn_sites _).calm hL').balanced.append (s.balanced htop' hL')
  | .ifThen condition s (some t) =>
    have htop' := (atTopLevel_layersWithin (.ifThen condition s (some t)) L).trans htop
    have hL' := ownVariable?_layersWithin (s := .ifThen condition s (some t)) rfl L
    ((condition.usesIn_sites _).calm hL').balanced.append
      ((s.balanced htop' hL').append (t.balanced htop' hL'))
  | .whileDo condition s =>
    have htop' := (atTopLevel_layersWithin (.whileDo condition s) L).trans htop
    have hL' := ownVariable?_layersWithin (s := .whileDo condition s) rfl L
    ((condition.usesIn_sites _).calm hL').balanced.append (s.balanced htop' hL')
  | .function f => (Calm.cons (by simp) hL (f.inside .function _).calm).balanced
  | .returnValue line none =>
    have hL' := ownVariable?_layersWithin (s := .returnValue line none) rfl L
    (Calm.cons (by simp) hL' .nil).balanced
  | .returnValue line (some e) =>
    have hL' := ownVariable?_layersWithin (s := .returnValue line (some e)) rfl L
    (Calm.cons (by simp) hL' ((e.usesIn_sites _).calm hL')).balanced
  | .classDecl name parent methods staticMethods => by
    have hL' := ownVariable?_layersWithin (s := .classDecl name parent methods staticMethods) rfl L
    have hmembers := (calm_membersSites hL' (fun _ => .staticMethod) staticMethods).append
      (calm_membersSites hL' (Role.ofMethod parent.isSome) methods)
    cases parent with
    | none => exact (Calm.cons (by simp) hL hmembers).balanced
    | some use =>
      refine (Calm.cons (by simp) hL ?_).balanced
      exact .cons (by simp) hL' (.cons (by simp) hL' hmembers)

/-- Statements at top level, one after the other. -/
theorem balanced_stmtsSites {L : List Layer} (htop : atTopLevel L = true)
    (hL : ownVariable? L = none) (ss : List Stmt) : Balanced (stmtsSites L ss) := by
  induction ss generalizing L with
  | nil => exact Calm.nil.balanced
  | cons s ss ih =>
    exact (s.balanced htop hL).append
      (ih ((atTopLevel_layersBehind s L).trans htop) (ownVariable?_layersBehind s L))

/-!
## Programs

The sites of a program are balanced, so at each of them the initializers that are under way are
known from the sites before it.
-/

/-- A reading is reported if its variable is not ready there. -/
theorem mem_reports_ownInitializer {p : Site} {initializing : List String} :
    .located p.location (.scope .ownInitializer) ∈ p.reports initializing ↔
      ∃ x, (∃ line id, p.item = .use .«variable» x line id) ∧
        Site.isEarly initializing p.layers x = true := by
  obtain ⟨L, item⟩ := p
  have hmem : Report.located (⟨L, item⟩ : Site).location (.scope .ownInitializer) ∈
      (⟨L, item⟩ : Site).reports initializing ↔
        .ownInitializer ∈ (⟨L, item⟩ : Site).errors initializing := by
    simp [Site.reports]
  rw [hmem]
  -- Only the read of a variable can have this error.
  cases item with
  | use kind x line id =>
    cases kind with
    | «variable» => simp [Site.errors]
    | assignment => simp [Site.errors]
    | this =>
      simp only [Site.errors]
      cases classContext L <;> simp
    | super =>
      simp only [Site.errors]
      cases classContext L <;> simp
  | declaration name => simp [Site.errors]
  | returnValue line hasValue =>
    simp only [Site.errors]
    split
    · simp
    · split <;> simp
  | superclass name parent => simp [Site.errors]
  | member role name => simp [Site.errors]
  | initializer x => simp [Site.errors]
  | initialized x => simp [Site.errors]

/-- **Variables that are read in their own initializers.** Whatever text a tree was read from: if
the tree can be resolved, then the reports are those about its sites, one after the other. A reading
of a variable is reported as one in its own initializer if and only if it is one, with no function
in between, unless it is at top level and, since the initializer was begun, another variable of the
name has been initialized. Only functions in the initializer can have such variables. -/
theorem own_initializer_reported {depth firstUse : Nat} {source : String} {program : List Stmt}
    (hprogram : (parse depth firstUse (lex source)).statements = program) {levels endLine : Nat}
    (hfinished : (resolve levels endLine program).Finished) :
    (resolve levels endLine program).reports = reportsAt [] (programSites program) ∧
    ∀ past p rest, programSites program = past ++ p :: rest →
      (.located p.location (.scope .ownInitializer) ∈ p.reports (initializingBehind [] past) ↔
        ∃ x, p.ReadsItself x ∧ ¬(atTopLevel p.layers = true ∧ Lifted past x)) := by
  have hstretch := stretch_statements depth firstUse source []
  rw [hprogram] at hstretch
  refine ⟨by rw [resolve_of_finished hstretch.written hfinished], fun past p rest heq => ?_⟩
  have hbalanced : Balanced (programSites program) := balanced_stmtsSites rfl rfl program
  rw [mem_reports_ownInitializer]
  refine exists_congr fun x => ?_
  unfold Site.ReadsItself
  rw [and_assoc]
  refine and_congr_right fun ⟨line, id, hitem⟩ => ?_
  unfold Site.isEarly
  -- At top level the list of globals decides, and `hbalanced` says what it holds. Elsewhere the
  -- scope does.
  cases htop : atTopLevel p.layers with
  | true =>
    have hunder := hbalanced.under past p rest heq htop ⟨_, _, _, _, hitem⟩ x
    simpa using hunder
  | false => simp

/-- A local variable in a function in the initializer of a global one. -/
theorem own_initializer_reported_local :
    let program := (parse 20 0 (lex "var a = fun () \x7b var b = b; \x7d;")).statements
    (resolve 20 1 program).Finished ∧ ∃ past p rest, programSites program = past ++ p :: rest ∧
      p.ReadsItself "b" ∧
        .located p.location (.scope .ownInitializer) ∈ p.reports (initializingBehind [] past) := by
  intro program
  have hclean : ∀ r ∈ (resolve 20 1 program).reports,
      r = .located (.token ⟨.identifier "b", 1⟩) (.scope .ownInitializer) := by decide +kernel
  have hfinished : (resolve 20 1 program).Finished := fun place hmem => by
    cases hclean _ hmem
  have hsite : ∃ p ∈ programSites program, p.item = .use .«variable» "b" 1 0 ∧
      ownVariable? p.layers = some "b" ∧ atTopLevel p.layers = false := by decide +kernel
  obtain ⟨p, hp, hitem, hown, hlocal⟩ := hsite
  obtain ⟨past, rest, heq⟩ := List.append_of_mem hp
  have hreads : p.ReadsItself "b" := ⟨⟨1, 0, hitem⟩, hown⟩
  have hlaw := (own_initializer_reported rfl hfinished).2 past p rest heq
  refine ⟨hfinished, past, p, rest, heq, hreads, hlaw.mpr ⟨"b", hreads, fun h => ?_⟩⟩
  exact absurd (hlocal.symm.trans h.1) (by simp)

/-- A global variable that is read in its own initializer, and nothing is reported: a local variable
of the same name has been initialized before. -/
theorem own_initializer_unreported :
    let source := "var a = fun () \x7b var a = 1; return a; \x7d() + a;"
    let program := (parse 20 0 (lex source)).statements
    (parse 20 0 (lex source)).reports = [] ∧
      (∃ p ∈ programSites program, p.item = .use .«variable» "a" 1 1 ∧
        ownVariable? p.layers = some "a" ∧ atTopLevel p.layers = true) ∧
      (resolve 20 1 program).reports = [] := by
  decide +kernel

end LoxLang
