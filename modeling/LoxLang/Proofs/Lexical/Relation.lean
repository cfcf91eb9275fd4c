import LoxLang.Proofs.Frames
import LoxLang.Proofs.Lexical
import LoxLang.Proofs.Scoping.Distances
import LoxLang.Proofs.Scoping.Initializers
import LoxLang.Proofs.Stores

/-!
# Frames and cells

How a state with frames and a state with cells belong together. `Links` says which cell stands for a
name of a frame. A linked name has in its frame the value that its cell has, or neither has one yet
(`Linked`), and all else that the two states hold is the same (`Related`).

A place of a program is described three times, by the scopes that the text opens there, by a chain
of frames, and by an environment, and `Chain` says that the three fit. What keeps them together is
that frames and links only grow (`Grows`), and that while a part of a program runs, only its own
declarations link names of the frame that it runs in.
-/

namespace LoxLang

/-!
## Uses and their scopes

The frames of a place have names as the scopes of the resolver had when it came by. The distance
that was counted in scopes may be walked in frames.
-/

namespace Scope

/-- Two lists of scopes say the same of a name. -/
def AgreeOn (name : String) (S S' : List Scope) : Prop :=
  S.map (·.get? name) = S'.map (·.get? name)

variable {name other : String} {S S' : List Scope}

theorem AgreeOn.length_eq (h : AgreeOn name S S') : S.length = S'.length := by
  have hlength := congrArg List.length h
  simpa using hlength

theorem AgreeOn.getElem? (h : AgreeOn name S S') (i : Nat) :
    S[i]?.map (·.get? name) = S'[i]?.map (·.get? name) := by
  have hi : (S.map (·.get? name))[i]? = (S'.map (·.get? name))[i]? := by rw [h]
  simpa using hi

theorem AgreeOn.distance?_eq (h : AgreeOn name S S') : distance? S name = distance? S' name := by
  have key : ∀ S : List Scope, distance? S name =
      (S.map (·.get? name)).findIdx? Option.isSome := by
    intro S
    rw [List.findIdx?_map]
    rfl
  rw [key, key, h]

theorem agreeOn_enter (h : other ≠ name) (ready : Bool) (S : List Scope) :
    AgreeOn name (enter other ready S) S := by
  cases S with
  | nil => rfl
  | cons scope S => simp [AgreeOn, enter, Bindings.get?_insert, h]

end Scope

/-- A use may come too early: the variable is that of a scope further out, and its initializer is
not yet behind the place of the use. -/
def Visit.Pending (v : Visit) : Prop :=
  ∃ d scope, v.distance? = some (d + 1) ∧ v.scopes[d + 1]? = some scope ∧
    scope.get? v.name = some false

/-- An occurrence is as in a program that was accepted: the table of distances knows a use by its
number, and the use is among those that are known to be visited. -/
structure Occurrence.Fine (T : Distances) (P : Visit → Prop) (o : Occurrence) : Prop where
  written : o.Written
  placed : o.Placed
  settled : ∀ v, o = .use v → T[v.id]? = v.distance? ∧ P v

namespace Lexical

/-!
## Places

An environment and a chain of frames are places of the same declarations if each name of a frame is
linked to the cell that the environment has for it.
-/

/-- The cell that stands for a name of a frame. -/
abbrev Links := FrameId → String → Option CellId

/-- Links one more name. -/
def Links.link (β : Links) (f : FrameId) (x : String) (c : CellId) : Links := fun g y =>
  if g = f ∧ y = x then some c else β g y

/-- The innermost scope, the frame for it and the innermost part of an environment have the same
names. What the scope says is behind its initializer has a value, and so have `this` and `super`. -/
def Owned (β : Links) (fs : Frames Value) (f : FrameId) (scope : Scope) (own : Environment) :
    Prop :=
  ∀ x, match scope.get? x with
    | none => own.get? x = none
    | some ready => ∃ c, own.get? x = some c ∧ β f x = some c ∧
        (ready = true ∨ ¬IsName x → (fs.local? f x).isSome)

/-- The frames from one on outwards are one for each scope and then that of the globals, and the
environment has the cells of their names. -/
inductive Chain (β : Links) (fs : Frames Value) : FrameId → List Scope → Environment → Prop where
  | globals : Chain β fs Machine.globalFrame [] []
  | frame {f g : FrameId} {scope : Scope} {S : List Scope} {own ρ : Environment}
      (hlink : fs.enclosing? f = some g) (hlocal : f ≠ Machine.globalFrame)
      (hown : Owned β fs f scope own) (hrest : Chain β fs g S ρ) :
      Chain β fs f (scope :: S) (own ++ ρ)

/-- A place at which declarations are executed. Inside a function or block, the frame has no links
but those of its scope. -/
inductive Position (β : Links) (fs : Frames Value) : FrameId → List Scope → Place → Prop where
  | topLevel : Position β fs Machine.globalFrame [] .topLevel
  | inside {f : FrameId} {scope : Scope} {S : List Scope} {ρ : Environment}
      (hchain : Chain β fs f (scope :: S) ρ)
      (hexact : ∀ x c, β f x = some c → scope.contains x = true) :
      Position β fs f (scope :: S) (.inside ρ)

theorem Position.chain {β : Links} {fs : Frames Value} {f : FrameId} {S : List Scope}
    {place : Place} (h : Position β fs f S place) : Chain β fs f S place.environment := by
  cases h with
  | topLevel => exact .globals
  | inside hchain _ => exact hchain

theorem Position.eq_topLevel {β : Links} {fs : Frames Value} {f : FrameId} {place : Place}
    (h : Position β fs f [] place) : f = Machine.globalFrame ∧ place = .topLevel := by
  cases h
  exact ⟨rfl, rfl⟩

theorem Position.exists_inside {β : Links} {fs : Frames Value} {f : FrameId} {scope : Scope}
    {S : List Scope} {place : Place} (h : Position β fs f (scope :: S) place) :
    ∃ ρ, place = .inside ρ := by
  cases h
  exact ⟨_, rfl⟩

/-!
## States

Linked names and cells have the same values, and globals are the same. Functions correspond if their
environments correspond to their frames.
-/

/-- The names of local frames are linked, each to a cell of its own that has the same content. The
global frame has no links and holds the globals. -/
structure Linked (β : Links) (fs : Frames Value) (cells : Array (Option Value))
    (globals : Bindings Value) : Prop where
  globals : fs.frame? Machine.globalFrame = some ⟨globals, none⟩
  unlinked : ∀ x, β Machine.globalFrame x = none
  cell : ∀ f x c, β f x = some c → cells[c]? = some (fs.local? f x)
  injective : ∀ f x g y c, β f x = some c → β g y = some c → f = g ∧ x = y
  linked : ∀ f x, f ≠ Machine.globalFrame → β f x = none → fs.local? f x = none
  made : ∀ f x c, β f x = some c → f < fs.size
  /-- What is called `super` is a class. -/
  supers : ∀ f v, fs.local? f "super" = some v → ∃ c, v = .«class» c

/-- The scopes that binding a method makes. -/
abbrev thisScope : List Scope := [[("this", true)]]

section States

variable (T : Distances) (P : Visit → Prop) (β : Links)

/-- Two functions are the same, made at places that fit. The body stands in some hidden scopes more,
which are made before the function is called. What initializes an instance is bound to it. -/
structure ClosureRelated (fs : Frames Value) (hidden : List Scope) (c : LoxLang.Closure)
    (c' : Closure) : Prop where
  name : c.name? = c'.name?
  params : c.params = c'.params
  body : c.body = c'.body
  isInitializer : c.isInitializer = c'.isInitializer
  scopes : ∃ S, Chain β fs c.frame S c'.environment ∧
    (∀ o ∈ bodyOccurrences (hidden ++ S) c.params c.body, o.Fine T P) ∧
      (hidden = [] → c.isInitializer = true → ∃ S', S = [("this", true)] :: S')

/-- Two classes are the same. -/
structure ClassRelated (fs : Frames Value) (info : LoxLang.ClassInfo) (info' : ClassInfo) :
    Prop where
  name : info.name = info'.name
  superclass : info.superclass = info'.superclass
  staticMethods : info.staticMethods = info'.staticMethods
  methods : ∀ x, Found (ClosureRelated T P β fs thisScope) (info.methods.get? x)
    (info'.methods.get? x)

/-- The state with frames and the state with cells agree. -/
structure Related (m : Machine) (w : Store) : Prop where
  frames : Linked β m.frames w.cells w.globals
  functions : Alike (ClosureRelated T P β m.frames []) m.functions w.functions
  classes : Alike (ClassRelated T P β m.frames) m.classes w.classes
  instances : m.instances = w.instances
  output : m.output = w.output
  clockReadings : m.clockReadings = w.clockReadings
  distances : m.distances = T

end States

/-!
## Growth

Links are never taken back, so what corresponds goes on to correspond. Only names of the present
frame can be linked while a statement is executed.
-/

/-- Frames and links stay, and more of them may come. The links of a frame that was there before
change only if that frame is free to change. -/
structure Grows (free : Option FrameId) (β : Links) (fs : Frames Value) (β' : Links)
    (fs' : Frames Value) : Prop where
  size : fs.size ≤ fs'.size
  links : ∀ f x c, β f x = some c → β' f x = some c
  frozen : ∀ f x, f < fs.size → free ≠ some f → β' f x = β f x
  enclosing : ∀ f g, fs.enclosing? f = some g → fs'.enclosing? f = some g
  kept : ∀ f x, (fs.local? f x).isSome → (fs'.local? f x).isSome

namespace Grows

variable {free : Option FrameId} {β β' β'' : Links} {fs fs' fs'' : Frames Value}

theorem refl (free : Option FrameId) (β : Links) (fs : Frames Value) : Grows free β fs β fs :=
  ⟨Nat.le_refl _, fun _ _ _ h => h, fun _ _ _ _ => rfl, fun _ _ h => h, fun _ _ h => h⟩

/-- A frame that is made on the way is free to change further. -/
theorem trans_made {g : FrameId} (h : Grows free β fs β' fs') (h' : Grows (some g) β' fs' β'' fs'')
    (hg : fs.size ≤ g) : Grows free β fs β'' fs'' := by
  refine ⟨Nat.le_trans h.size h'.size, fun f x c hc => h'.links f x c (h.links f x c hc),
    fun f x hf hfree => ?_, fun f g hg => h'.enclosing f g (h.enclosing f g hg),
    fun f x hx => h'.kept f x (h.kept f x hx)⟩
  have hne : some g ≠ some f := fun heq => by
    obtain rfl := Option.some.inj heq
    exact Nat.not_lt.mpr hg hf
  rw [h'.frozen f x (Nat.lt_of_lt_of_le hf h.size) hne, h.frozen f x hf hfree]

theorem trans (h : Grows free β fs β' fs') (h' : Grows free β' fs' β'' fs'') :
    Grows free β fs β'' fs'' := by
  refine ⟨Nat.le_trans h.size h'.size, fun f x c hc => h'.links f x c (h.links f x c hc),
    fun f x hf hfree => ?_, fun f g hg => h'.enclosing f g (h.enclosing f g hg),
    fun f x hx => h'.kept f x (h.kept f x hx)⟩
  rw [h'.frozen f x (Nat.lt_of_lt_of_le hf h.size) hfree, h.frozen f x hf hfree]

theorem weaken (h : Grows none β fs β' fs') (free : Option FrameId) : Grows free β fs β' fs' :=
  ⟨h.size, h.links, fun f x hf _ => h.frozen f x hf (by nofun), h.enclosing, h.kept⟩

variable {f : FrameId} {S : List Scope}

theorem owned {scope : Scope} {own : Environment} (h : Grows free β fs β' fs')
    (hown : Owned β fs f scope own) : Owned β' fs' f scope own := by
  intro x
  have hx := hown x
  split at hx
  · exact hx
  · obtain ⟨c, hget, hlink, hready⟩ := hx
    exact ⟨c, hget, h.links f x c hlink, fun hr => h.kept f x (hready hr)⟩

theorem chain {ρ : Environment} (h : Grows free β fs β' fs') (hchain : Chain β fs f S ρ) :
    Chain β' fs' f S ρ := by
  induction hchain with
  | globals => exact .globals
  | frame hlink hlocal hown _ ih => exact .frame (h.enclosing _ _ hlink) hlocal (h.owned hown) ih

/-- A place stays what it is if its frame is not free to change. -/
theorem position {place : Place} (h : Grows none β fs β' fs') (hpos : Position β fs f S place) :
    Position β' fs' f S place := by
  cases hpos with
  | topLevel => exact .topLevel
  | inside hchain hexact =>
    refine .inside (h.chain hchain) fun x c hc => hexact x c ?_
    have hf : f < fs.size := by
      cases hchain with
      | frame hlink _ _ _ => exact fs.lt_size_of_enclosing? hlink
    rwa [h.frozen f x hf (by nofun)] at hc

variable {T : Distances} {P : Visit → Prop}

theorem closure {hidden : List Scope} {c : LoxLang.Closure} {c' : Closure}
    (h : Grows free β fs β' fs') (hc : ClosureRelated T P β fs hidden c c') :
    ClosureRelated T P β' fs' hidden c c' := by
  obtain ⟨S, hchain, hrest⟩ := hc.scopes
  exact ⟨hc.name, hc.params, hc.body, hc.isInitializer, S, h.chain hchain, hrest⟩

theorem «class» {info : LoxLang.ClassInfo} {info' : ClassInfo} (h : Grows free β fs β' fs')
    (hc : ClassRelated T P β fs info info') : ClassRelated T P β' fs' info info' := by
  refine ⟨hc.name, hc.superclass, hc.staticMethods, fun x => ?_⟩
  have hx := hc.methods x
  unfold Found at hx ⊢
  split at hx
  · trivial
  · exact h.closure hx
  · exact hx

end Grows

/-- Growing frames and links leave the rest of related states related. -/
theorem Related.grow {T : Distances} {P : Visit → Prop} {β β' : Links} {m : Machine} {w : Store}
    {free : Option FrameId} {fs' : Frames Value} {cells' : Array (Option Value)}
    {globals' : Bindings Value} (h : Related T P β m w) (hgrow : Grows free β m.frames β' fs')
    (hlinked : Linked β' fs' cells' globals') :
    Related T P β' { m with frames := fs' } { w with cells := cells', globals := globals' } :=
  ⟨hlinked, h.functions.mono fun _ _ => hgrow.closure, h.classes.mono fun _ _ => hgrow.«class»,
    h.instances, h.output, h.clockReadings, h.distances⟩

end Lexical

end LoxLang
