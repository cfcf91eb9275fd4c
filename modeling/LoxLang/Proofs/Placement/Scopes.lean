import LoxLang.Proofs.Placement
import LoxLang.Proofs.Scoping.Walk

/-!
# Layers and open scopes

The scopes that are open at a site are those of the layers around it (`Fits`). What the resolver
reads off the open scopes is then what the layers say: the distance of a name, those of `this` and
`super` in a method, and whether a variable is ready for use.
-/

namespace LoxLang

/-!
## Single layers

A layer says which names its scope holds: those that were declared before the site, and that of the
statement in which the site stands.
-/

/-- What declares nothing initializes nothing. -/
theorem Stmt.initializes?_eq_none {s : Stmt} (h : s.declaredName? = none) :
    s.initializes? = none := by
  cases s <;> first | rfl | simp [declaredName?] at h

/-- A variable that is initialized is declared. -/
theorem Stmt.declaredName?_of_initializes? {s : Stmt} {x : String} (h : s.initializes? = some x) :
    s.declaredName? = some x := by
  cases s with
  | var name initializer => cases initializer <;> simp_all [initializes?, declaredName?]
  | _ => simp [initializes?] at h

namespace Layer

/-- Whether a name is ready for use, if it is in the scope of a layer. -/
def ready? (l : Layer) (x : String) : Option Bool :=
  if x ∈ l.names then some (l.ownVariable? ≠ some x) else none

/-- A scope that is as a layer says. -/
structure Holds (l : Layer) (scope : Scope) : Prop where
  get? : ∀ x, scope.get? x = l.ready? x
  isName : ∀ x ∈ l.names, IsName x

/-- A site stands in front of the next statement, or in one that declares nothing. -/
def Rests (l : Layer) : Prop := ∀ s ∈ l.here?, s.declaredName? = none

variable {l l' : Layer} {scope : Scope} {s : Stmt} {x : String}

/-- The scope holds the names of the layer. -/
theorem Holds.contains (h : l.Holds scope) (x : String) :
    scope.contains x = decide (x ∈ l.names) := by
  unfold Bindings.contains
  rw [h.get?, ready?]
  by_cases hx : x ∈ l.names <;> simp [hx]

/-- All of these are names, and no keywords. -/
theorem Holds.not_contains (h : l.Holds scope) (hx : ¬IsName x) : scope.contains x = false := by
  rw [h.contains, decide_eq_false_iff_not]
  exact fun hmem => hx (h.isName x hmem)

/-- In front of a statement, the site is in no initializer. -/
theorem Rests.ownVariable? (h : l.Rests) : l.ownVariable? = none := by
  unfold Layer.ownVariable?
  cases hhere : l.here? with
  | none => rfl
  | some s => exact Stmt.initializes?_eq_none (h s hhere)

/-- What was declared was declared before. -/
theorem Rests.declaredNames (h : l.Rests) :
    l.declaredNames = l.before.filterMap Stmt.declaredName? := by
  unfold Layer.declaredNames
  cases hhere : l.here? with
  | none => simp
  | some s => simp [h s hhere]

/-- A name of a layer is a variable whose initializer a site stands in only if the layer has a
scope. -/
theorem ownVariable?_mem_names (hkind : l.kind ≠ .program) (h : l.ownVariable? = some x) :
    x ∈ l.names := by
  obtain ⟨kind, before, here?⟩ := l
  obtain ⟨s, hhere, hs⟩ := Option.bind_eq_some_iff.mp h
  have hmem : x ∈ (⟨kind, before, here?⟩ : Layer).declaredNames :=
    List.mem_filterMap.mpr ⟨s, by simp_all, Stmt.declaredName?_of_initializes? hs⟩
  cases kind with
  | program => exact absurd rfl hkind
  | block => exact hmem
  | function role params => exact List.mem_append_right _ hmem

/-- A layer whose declarations are those of another one and some more. -/
theorem names_eq_append (hkind : l.kind ≠ .program) (hsame : l'.kind = l.kind) {xs : List String}
    (h : l'.declaredNames = l.declaredNames ++ xs) : l'.names = l.names ++ xs := by
  unfold names
  rw [hsame, h]
  cases hl : l.kind with
  | program => exact absurd hl hkind
  | block => rfl
  | function role params => exact (List.append_assoc _ _ _).symm

/-- In a statement, the name that it declares is there already. -/
theorem names_within (hkind : l.kind ≠ .program) (h : l.Rests) (s : Stmt) :
    (l.within s).names = l.names ++ s.declaredName?.toList := by
  refine names_eq_append hkind (rfl : (l.within s).kind = l.kind) ?_
  rw [h.declaredNames]
  cases hs : s.declaredName? <;> simp [Layer.declaredNames, within, hs]

/-- And behind it. -/
theorem names_behind (hkind : l.kind ≠ .program) (h : l.Rests) (s : Stmt) :
    (l.behind s).names = l.names ++ s.declaredName?.toList := by
  refine names_eq_append hkind (rfl : (l.behind s).kind = l.kind) ?_
  rw [h.declaredNames]
  cases hs : s.declaredName? <;> simp [Layer.declaredNames, behind, hs]

/-- What is not ready is the variable whose initializer the site stands in. -/
theorem Holds.get?_eq_false (h : l.Holds scope) (hkind : l.kind ≠ .program) (x : String) :
    scope.get? x = some false ↔ l.ownVariable? = some x := by
  rw [h.get?, ready?]
  constructor
  · intro hready
    split at hready
    · simpa using hready
    · cases hready
  · intro hown
    simp [ownVariable?_mem_names hkind hown, hown]

/-- A declaration that enters a name into the scope of a layer. -/
theorem Holds.insert (h : l.Holds scope) (hrests : l.Rests) (hx : IsName x) (ready : Bool)
    (hnames : l'.names = l.names ++ [x]) (hown : l'.ownVariable? = if ready then none else some x) :
    l'.Holds (Bindings.insert scope x ready) := by
  refine ⟨fun y => ?_, fun y hy => ?_⟩
  · rw [Bindings.get?_insert, h.get?]
    unfold ready?
    rw [hnames, hown, hrests.ownVariable?]
    -- The name itself is ready or not as it is entered; others stay as they were.
    by_cases hxy : x = y
    · subst hxy
      cases ready <;> simp
    · cases ready <;> simp [hxy, Ne.symm hxy]
  · rw [hnames] at hy
    rcases List.mem_append.mp hy with hy | hy
    · exact h.isName y hy
    · rw [List.mem_singleton.mp hy]
      exact hx

/-- What declares nothing leaves the scope of a layer as it is. -/
theorem Holds.keep (h : l.Holds scope) (hrests : l.Rests) (hnames : l'.names = l.names)
    (hown : l'.ownVariable? = none) : l'.Holds scope := by
  refine ⟨fun y => ?_, fun y hy => ?_⟩
  · rw [h.get?]
    unfold ready?
    rw [hnames, hown, hrests.ownVariable?]
  · rw [hnames] at hy
    exact h.isName y hy

end Layer

/-!
## Scopes in and behind a statement

A statement enters its name when it is come to, and makes it ready when it is left.
-/

/-- The scopes that are open in a statement: a variable is not ready in its own initializer. -/
def Stmt.scopesWithin (scopes : List Scope) : Stmt → List Scope
  | .var name (some _) => Scope.enter name.text false scopes
  | s => s.scopesAfter scopes

namespace Layer.Holds

variable {l : Layer} {scope : Scope} {s : Stmt}

/-- The scope in a statement is that of the layer there. -/
theorem within (h : l.Holds scope) (hkind : l.kind ≠ .program) (hrests : l.Rests)
    (hname : ∀ x ∈ s.declaredName?, IsName x) (S : List Scope) :
    ∃ scope', s.scopesWithin (scope :: S) = scope' :: S ∧ (l.within s).Holds scope' := by
  have hnames := names_within hkind hrests s
  cases s with
  | var name initializer =>
    cases initializer with
    | none => exact ⟨_, rfl, h.insert hrests (hname _ rfl) true hnames rfl⟩
    | some e => exact ⟨_, rfl, h.insert hrests (hname _ rfl) false hnames rfl⟩
  | function f => exact ⟨_, rfl, h.insert hrests (hname _ rfl) true hnames rfl⟩
  | classDecl name parent methods statics =>
    exact ⟨_, rfl, h.insert hrests (hname _ rfl) true hnames rfl⟩
  | _ => exact ⟨_, rfl, h.keep hrests (hnames.trans (List.append_nil _)) rfl⟩

/-- And so is the scope behind it. -/
theorem behind (h : l.Holds scope) (hkind : l.kind ≠ .program) (hrests : l.Rests)
    (hname : ∀ x ∈ s.declaredName?, IsName x) (S : List Scope) :
    ∃ scope', s.scopesAfter (scope :: S) = scope' :: S ∧ (l.behind s).Holds scope' := by
  have hnames := names_behind hkind hrests s
  cases s with
  | var name initializer => exact ⟨_, rfl, h.insert hrests (hname _ rfl) true hnames rfl⟩
  | function f => exact ⟨_, rfl, h.insert hrests (hname _ rfl) true hnames rfl⟩
  | classDecl name parent methods statics =>
    exact ⟨_, rfl, h.insert hrests (hname _ rfl) true hnames rfl⟩
  | _ => exact ⟨_, rfl, h.keep hrests (hnames.trans (List.append_nil _)) rfl⟩

end Layer.Holds

/-!
## All layers

Only the innermost layer is changed by a statement. Blocks, functions and classes put new ones
around their parts.
-/

/-- The scopes of all layers are as the layers say. -/
inductive Fits : List Layer → List Scope → Prop
  | program {l : Layer} (hkind : l.kind = .program) : Fits [l] []
  | block {l : Layer} {L : List Layer} {scope : Scope} {S : List Scope} (hkind : l.kind = .block)
      (hscope : l.Holds scope) (hrest : Fits L S) : Fits (l :: L) (scope :: S)
  | function {l : Layer} {L : List Layer} {scope : Scope} {S : List Scope} {role : Role}
      {params : List Name} (hkind : l.kind = .function role params) (hscope : l.Holds scope)
      (hrest : Fits L S) : Fits (l :: L) (scope :: (role.scopes ++ S))

/-- Something stands in front of a statement, or in one that declares nothing. -/
def Rests (L : List Layer) : Prop := ∀ l ∈ L.head?, l.Rests

/-- Behind a statement comes the next one. -/
theorem rests_behind (s : Stmt) (L : List Layer) : Rests (layersBehind s L) := by
  cases L with
  | nil => exact nofun
  | cons l L => simp [Rests, Layer.Rests, layersBehind, Layer.behind]

/-- A statement that declares nothing may be in front of anything. -/
theorem rests_within {s : Stmt} (h : s.declaredName? = none) (L : List Layer) :
    Rests (layersWithin s L) := by
  cases L with
  | nil => exact nofun
  | cons l L => simpa [Rests, Layer.Rests, layersWithin, Layer.within] using h

namespace Fits

variable {L : List Layer} {S : List Scope} {s : Stmt}

/-- The innermost layer changes together with its scope. -/
theorem modifyHead (h : Fits L S) (f : Layer → Layer) (g : List Scope → List Scope)
    (hkind : ∀ l, (f l).kind = l.kind) (hnil : g [] = [])
    (hhead : ∀ l ∈ L.head?, ∀ scope S', l.Holds scope → l.kind ≠ .program →
      ∃ scope', g (scope :: S') = scope' :: S' ∧ (f l).Holds scope') :
    Fits (L.modifyHead f) (g S) := by
  cases h with
  -- At the top level there is no scope that could change.
  | @program l hprogram =>
    rw [hnil]
    exact .program ((hkind l).trans hprogram)
  | @block l _ scope S hblock hscope hrest =>
    obtain ⟨scope', heq, hscope'⟩ := hhead l rfl scope S hscope (by simp [hblock])
    rw [heq]
    exact .block ((hkind l).trans hblock) hscope' hrest
  | @function l _ scope S role params hfunction hscope hrest =>
    obtain ⟨scope', heq, hscope'⟩ :=
      hhead l rfl scope (role.scopes ++ S) hscope (by simp [hfunction])
    rw [heq]
    exact .function ((hkind l).trans hfunction) hscope' hrest

/-- Scopes and layers in a statement. -/
theorem within (h : Fits L S) (hrests : Rests L) (hname : ∀ x ∈ s.declaredName?, IsName x) :
    Fits (layersWithin s L) (s.scopesWithin S) := by
  have hnil : s.scopesWithin [] = [] := by
    cases s with
    | var name initializer => cases initializer <;> rfl
    | _ => rfl
  exact h.modifyHead (Layer.within s) s.scopesWithin (fun _ => rfl) hnil
    fun l hl scope S' hscope hkind => hscope.within hkind (hrests l hl) hname S'

/-- And behind it. -/
theorem behind (h : Fits L S) (hrests : Rests L) (hname : ∀ x ∈ s.declaredName?, IsName x) :
    Fits (layersBehind s L) (s.scopesAfter S) := by
  have hnil : s.scopesAfter [] = [] := by cases s <;> rfl
  exact h.modifyHead (Layer.behind s) s.scopesAfter (fun _ => rfl) hnil
    fun l hl scope S' hscope hkind => hscope.behind hkind (hrests l hl) hname S'

/-- Inside a block. -/
theorem inBlock (h : Fits L S) : Fits (.atStart .block :: L) ([] :: S) :=
  .block rfl ⟨fun _ => rfl, nofun⟩ h

/-- Inside a function, behind some parameters. -/
theorem inFunction (h : Fits L S) (role : Role) : Fits (.atStart (.function role []) :: L)
    ([] :: (role.scopes ++ S)) :=
  .function rfl ⟨fun _ => rfl, nofun⟩ h

/-- No scope is open at the top level, and nowhere else. -/
theorem isEmpty_eq_atTopLevel (h : Fits L S) : S.isEmpty = atTopLevel L := by
  cases h with
  | program hkind => simp [atTopLevel, hkind]
  | block hkind => simp [atTopLevel, hkind]
  | function hkind => simp [atTopLevel, hkind]

/-- A name is in the innermost open scope if the innermost layer has it. -/
theorem head_contains (h : Fits L S) (x : String) :
    S.head?.any (·.contains x) = L.head?.any (x ∈ ·.names) := by
  cases h with
  | program hkind => simp [Layer.names, hkind]
  | block _ hscope => simp [hscope.contains]
  | function _ hscope => simp [hscope.contains]

/-- A name of the innermost open scope is not ready if something stands in its initializer. -/
theorem get?_eq_false {scope : Scope} (h : Fits L (scope :: S)) (x : String) :
    scope.get? x = some false ↔ ownVariable? L = some x := by
  generalize hscopes : scope :: S = scopes at h
  cases h with
  | program => cases hscopes
  | block hkind hscope =>
    cases hscopes
    exact hscope.get?_eq_false (by simp [hkind]) x
  | function hkind hscope =>
    cases hscopes
    exact hscope.get?_eq_false (by simp [hkind]) x

/-!
### Distances

Layers without a scope are those of the program, so counting open scopes is counting layers.
-/

theorem contains_singleton (key x : String) (ready : Bool) :
    Bindings.contains [(key, ready)] x = decide (key = x) := by
  by_cases h : key = x <;> simp [Bindings.contains, Bindings.get?, h]

/-- A scope that does not hold the name is one step. -/
theorem distance?_cons_of_not_contains {scope : Scope} {x : String} (h : scope.contains x = false)
    (S : List Scope) : Scope.distance? (scope :: S) x = (Scope.distance? S x).map (1 + ·) := by
  simp [Scope.distance?_cons, h, Nat.add_comm]

/-- The scopes for `this` and `super` hold no names of variables. -/
theorem distance?_role_scopes {x : String} (hx : IsName x) (role : Role) (S : List Scope) :
    Scope.distance? (role.scopes ++ S) x = (Scope.distance? S x).map (role.scopes.length + ·) := by
  have hthis : Bindings.contains [("this", true)] x = false := by
    simp [contains_singleton, Ne.symm hx.1]
  have hsuper : Bindings.contains [("super", true)] x = false := by
    simp [contains_singleton, Ne.symm hx.2]
  have hnone (d : Option Nat) : d = d.map (0 + ·) := by cases d <;> simp
  cases role with
  | function => exact hnone _
  | staticMethod => exact hnone _
  | method isInitializer subclass =>
    cases subclass with
    | false => exact distance?_cons_of_not_contains hthis S
    -- A method of a subclass has the scope of `this` inside that of `super`.
    | true =>
      show Scope.distance? ([("this", true)] :: [("super", true)] :: S) x = _
      rw [distance?_cons_of_not_contains hthis, distance?_cons_of_not_contains hsuper,
        Option.map_map]
      congr 1
      funext d
      show 1 + (1 + d) = 2 + d
      omega

/-- The distance of a name that a program can have. -/
theorem distance?_eq (h : Fits L S) {x : String} (hx : IsName x) :
    Scope.distance? S x = nameDistance? x L := by
  induction h with
  | program hkind =>
    simp [nameDistance?, distanceTo?, stopsAtName?, Layer.names, hkind, Scope.distance?]
  | block hkind hscope _ ih =>
    rw [Scope.distance?_cons, hscope.contains, ih, nameDistance?, distanceTo?, stopsAtName?]
    split <;> simp_all [Layer.scopes, Nat.add_comm]
  | function hkind hscope _ ih =>
    rw [Scope.distance?_cons, hscope.contains, distance?_role_scopes hx, ih, nameDistance?,
      distanceTo?, stopsAtName?]
    split <;> simp_all [Layer.scopes, Function.comp_def, Nat.add_right_comm]

/-- In a method of instances, the distance of `this`. -/
theorem distance?_this (h : Fits L S)
    (hclass : classContext L = .«class» ∨ classContext L = .subclass) :
    Scope.distance? S "this" = thisDistance? L := by
  induction h with
  | program hkind => simp [classContext, hkind] at hclass
  -- Names of the program's text are never `this`, so the scope of a block is passed over.
  | @block l L scope S hkind hscope _ ih =>
    simp only [classContext, hkind] at hclass
    rw [distance?_cons_of_not_contains (hscope.not_contains not_isName_this), ih hclass]
    simp [thisDistance?, distanceTo?, stopsAtThis?, Layer.scopes, hkind]
  | @function l L scope S role params hkind hscope _ ih =>
    rw [distance?_cons_of_not_contains (hscope.not_contains not_isName_this)]
    cases role with
    | function =>
      simp only [classContext, hkind] at hclass
      simp [thisDistance?, distanceTo?, stopsAtThis?, Layer.scopes, Role.scopes, hkind, ih hclass]
    | staticMethod => simp [classContext, hkind] at hclass
    | method isInitializer subclass =>
      cases subclass <;>
        simp [Scope.distance?_cons, thisDistance?, distanceTo?, stopsAtThis?, Role.scopes, hkind,
          contains_singleton]

/-- In a method of instances of a class with a superclass, the distance of `super`. -/
theorem distance?_super (h : Fits L S) (hclass : classContext L = .subclass) :
    Scope.distance? S "super" = superDistance? L := by
  induction h with
  | program hkind => simp [classContext, hkind] at hclass
  | @block l L scope S hkind hscope _ ih =>
    simp only [classContext, hkind] at hclass
    rw [distance?_cons_of_not_contains (hscope.not_contains not_isName_super), ih hclass]
    simp [superDistance?, distanceTo?, stopsAtSuper?, Layer.scopes, hkind]
  | @function l L scope S role params hkind hscope _ ih =>
    rw [distance?_cons_of_not_contains (hscope.not_contains not_isName_super)]
    cases role with
    | function =>
      simp only [classContext, hkind] at hclass
      simp [superDistance?, distanceTo?, stopsAtSuper?, Layer.scopes, Role.scopes, hkind, ih hclass]
    | staticMethod => simp [classContext, hkind] at hclass
    | method isInitializer subclass =>
      cases subclass with
      -- A method of a class without superclass is excluded by the context.
      | false => simp [classContext, hkind] at hclass
      | true =>
        simp [Scope.distance?_cons, superDistance?, distanceTo?, stopsAtSuper?, Role.scopes, hkind,
          contains_singleton]

end Fits

/-! ### No distances -/

/-- Outside of methods of instances, `this` is at no distance. -/
theorem thisDistance?_eq_none {L : List Layer}
    (hclass : classContext L = .none ∨ classContext L = .staticMethod) :
    thisDistance? L = none := by
  induction L with
  | nil => rfl
  | cons l L ih =>
    unfold classContext at hclass
    unfold thisDistance? distanceTo? stopsAtThis?
    split at hclass
    · split at hclass <;> simp at hclass
    · rfl
    · exact congrArg (Option.map (l.scopes + ·)) (ih hclass)
    · exact congrArg (Option.map (l.scopes + ·)) (ih hclass)
    · exact congrArg (Option.map (l.scopes + ·)) (ih hclass)

/-- Outside of methods of instances of a class with a superclass, `super` is at no distance. -/
theorem superDistance?_eq_none {L : List Layer} (hclass : classContext L ≠ .subclass) :
    superDistance? L = none := by
  induction L with
  | nil => rfl
  | cons l L ih =>
    unfold classContext at hclass
    unfold superDistance? distanceTo? stopsAtSuper?
    split at hclass
    · next isInitializer subclass _ hkind => cases subclass <;> simp_all
    · rfl
    · exact congrArg (Option.map (l.scopes + ·)) (ih hclass)
    · exact congrArg (Option.map (l.scopes + ·)) (ih hclass)
    · exact congrArg (Option.map (l.scopes + ·)) (ih hclass)

end LoxLang
