import LoxLang.Proofs.Evolution
import LoxLang.Proofs.Homes
import LoxLang.Proofs.Lexical.Calls
import LoxLang.Proofs.Mirroring

/-!
# Homes and frames

Where the frames of a method hold its home. Of the scopes that are open at a place, only those that
are made for methods have `this` and `super` (`layers`), and the chain of frames from the place
outwards holds there what the home of the place says (`Place`). No program can write to these two
names, and links do not change, so this stays (`Extends`).

The distance of a use of `super` leads past frames with other names only, to the two innermost
frames of this kind. These are the ones that hold the home (`Place.home_found`).
-/

namespace LoxLang

namespace Homed

open Lexical (Fine)

variable {T : Distances} {P : Visit → Prop} {S : List Scope} {x : String}

/-!
## Layers

Names of variables are no keywords. So declarations change nothing about which scopes have `this`
and `super`.
-/

/-- Which of the two hidden names a scope has. -/
structure Layer where
  this : Bool
  super : Bool

/-- The hidden names of scopes. -/
def layers (S : List Scope) : List Layer :=
  S.map fun scope => ⟨scope.contains "this", scope.contains "super"⟩

/-- A name that is entered is neither of the two. -/
theorem layers_enter (hx : IsName x) (ready : Bool) (S : List Scope) :
    layers (Scope.enter x ready S) = layers S := by
  cases S with
  | nil => rfl
  | cons scope S =>
    simp [layers, Scope.enter, Bindings.contains, Bindings.get?_insert, hx.1, hx.2]

/-- Neither are parameters. -/
theorem layers_enterAll {params : List Name} (h : Fine T P (parameterOccurrences S params)) :
    layers (Scope.enterAll S params) = layers S := by
  induction params generalizing S with
  | nil => rfl
  | cons x params ih => exact (ih h.tail).trans (layers_enter h.head.written true S)

/-- Neither is what a statement declares. -/
theorem layers_scopesAfter {s : Stmt} (h : Fine T P (s.occurrences S)) :
    layers (s.scopesAfter S) = layers S := by
  cases s with
  | var name initializer =>
    have hname : (Occurrence.declaration name.text S).Fine T P := by
      cases initializer <;> (rw [Stmt.occurrences] at h; exact h.head)
    exact layers_enter hname.written true S
  | function f =>
    rw [Stmt.occurrences] at h
    exact layers_enter h.head.written true S
  | classDecl name parent methods statics =>
    rw [Stmt.occurrences] at h
    exact layers_enter h.head.written true S
  | _ => rfl

/-- The distance of `this` can be told from the layers alone. -/
theorem distance?_this (S : List Scope) :
    Scope.distance? S "this" = (layers S).findIdx? (·.this) := by
  unfold Scope.distance? layers
  rw [List.findIdx?_map]
  rfl

/-- And so can that of `super`. -/
theorem distance?_super (S : List Scope) :
    Scope.distance? S "super" = (layers S).findIdx? (·.super) := by
  unfold Scope.distance? layers
  rw [List.findIdx?_map]
  rfl

/-!
## Frames

In later frames the old ones are linked in the same way, and hold the same as `this` and `super`.
-/

/-- Links stay, and so do the values of the hidden names. -/
structure Extends (fs fs' : Frames Value) : Prop where
  enclosing : ∀ {f g}, fs.enclosing? f = some g → fs'.enclosing? f = some g
  hidden : ∀ {f x v}, ¬IsName x → fs.local? f x = some v → fs'.local? f x = some v

namespace Extends

variable {fs fs' fs'' : Frames Value}

theorem refl (fs : Frames Value) : Extends fs fs := ⟨id, fun _ h => h⟩

theorem trans (h : Extends fs fs') (h' : Extends fs' fs'') : Extends fs fs'' :=
  ⟨fun hg => h'.enclosing (h.enclosing hg), fun hx hv => h'.hidden hx (h.hidden hx hv)⟩

/-- A frame that is made leaves the old ones as they are. -/
theorem push (fs : Frames Value) (frame : Frame Value) : Extends fs (fs.push frame) := by
  refine ⟨fun {f g} hg => ?_, fun {f x v} _ hv => ?_⟩
  · rw [Frames.enclosing?_push, if_neg (Nat.ne_of_lt (fs.lt_size_of_enclosing? hg))]
    exact hg
  · rw [Frames.local?_push, if_neg (Nat.ne_of_lt (fs.lt_size_of_local? x hv))]
    exact hv

/-- A name that a program binds. -/
theorem define (fs : Frames Value) (f : FrameId) (hx : IsName x) (v : Value) :
    Extends fs (fs.define f x v) := by
  refine ⟨fun {g g'} hg => by rwa [Frames.enclosing?_define], fun {g y u} hy hu => ?_⟩
  have hne : x ≠ y := fun h => hy (h ▸ hx)
  obtain ⟨frame, hframe, hu⟩ := Option.bind_eq_some_iff.mp hu
  unfold Frames.local?
  rw [Frames.frame?_define, hframe]
  split
  · rw [Option.map_some, Option.bind_some, Bindings.get?_insert, if_neg hne]
    exact hu
  · exact hu

end Extends

/-!
## Places

The frames around a place, seen as layers, with the home that they hold. By induction on them, the
distances of `this` and `super` lead to the frames that hold the home.
-/

/-- The frames from one on outwards fit the layers of the scopes, and hold a home where there is
one. -/
inductive Place (fs : Frames Value) : FrameId → List Layer → Option Home → Prop
  | globals : Place fs Machine.globalFrame [] none
  /-- A block or a function, with names of its own. -/
  | inside {f g : FrameId} {L : List Layer} {home : Option Home}
      (hlink : fs.enclosing? f = some g) (hrest : Place fs g L home) :
      Place fs f (⟨false, false⟩ :: L) home
  /-- A method of a class without a superclass. -/
  | method {f g : FrameId} {L : List Layer} {home : Option Home} {i : InstanceId}
      (hlink : fs.enclosing? f = some g) (hthis : fs.local? f "this" = some (.object i))
      (hrest : Place fs g L home) : Place fs f (⟨true, false⟩ :: L) (some ⟨none, i⟩)
  /-- A method of a class with a superclass. -/
  | submethod {f g g' : FrameId} {L : List Layer} {home : Option Home} {c : ClassId}
      {i : InstanceId} (hlink : fs.enclosing? f = some g)
      (hthis : fs.local? f "this" = some (.object i)) (hlink' : fs.enclosing? g = some g')
      (hsuper : fs.local? g "super" = some (.«class» c)) (hrest : Place fs g' L home) :
      Place fs f (⟨true, false⟩ :: ⟨false, true⟩ :: L) (some ⟨some c, i⟩)

/-- The frame in which the methods of a class are made, given the superclass. -/
inductive MethodPlace (fs : Frames Value) : Option ClassId → FrameId → List Layer → Prop
  | alone {f : FrameId} {L : List Layer} {home : Option Home} (h : Place fs f L home) :
      MethodPlace fs none f L
  | below {f g : FrameId} {L : List Layer} {home : Option Home} {c : ClassId}
      (hlink : fs.enclosing? f = some g) (hsuper : fs.local? f "super" = some (.«class» c))
      (hrest : Place fs g L home) : MethodPlace fs (some c) f (⟨false, true⟩ :: L)

section Places

variable {fs fs' : Frames Value} {f g : FrameId} {L : List Layer} {home : Option Home}
  {c? : Option ClassId}

/-- A place stays what it is. -/
theorem Extends.place (h : Extends fs fs') (hplace : Place fs f L home) : Place fs' f L home := by
  induction hplace with
  | globals => exact .globals
  | inside hlink _ ih => exact .inside (h.enclosing hlink) ih
  | method hlink hthis _ ih =>
    exact .method (h.enclosing hlink) (h.hidden not_isName_this hthis) ih
  | submethod hlink hthis hlink' hsuper _ ih =>
    exact .submethod (h.enclosing hlink) (h.hidden not_isName_this hthis) (h.enclosing hlink')
      (h.hidden not_isName_super hsuper) ih

/-- So does one in which methods are made. -/
theorem Extends.methodPlace (h : Extends fs fs') (hplace : MethodPlace fs c? f L) :
    MethodPlace fs' c? f L := by
  cases hplace with
  | alone hplace => exact .alone (h.place hplace)
  | below hlink hsuper hrest =>
    exact .below (h.enclosing hlink) (h.hidden not_isName_super hsuper) (h.place hrest)

/-- The frame that binding a method makes gives the method its home. -/
theorem MethodPlace.bind {i : InstanceId} (h : MethodPlace fs c? g L)
    (hlink : fs.enclosing? f = some g) (hthis : fs.local? f "this" = some (.object i)) :
    Place fs f (⟨true, false⟩ :: L) (some ⟨c?, i⟩) := by
  cases h with
  | alone hplace => exact .method hlink hthis hplace
  | below hlink' hsuper hrest => exact .submethod hlink hthis hlink' hsuper hrest

/-- Nothing is executed in the frame that holds `super` itself. -/
theorem Place.findIdx?_super_ne_zero (h : Place fs f L home) :
    L.findIdx? (·.super) ≠ some 0 := by
  cases h <;> simp [List.findIdx?_cons]

/-- One step outwards is one of the distance. -/
theorem getAt_succ (hlink : fs.enclosing? f = some g) (d : Nat) (x : String) :
    fs.getAt (d + 1) f x = fs.getAt d g x := by
  have hstep : fs.ancestor? (d + 1) f = fs.ancestor? d g := by
    rw [Frames.ancestor?, hlink]
    rfl
  unfold Frames.getAt
  rw [hstep]

/-- At distance zero is the frame itself. -/
theorem getAt_zero {v : Value} (hlocal : fs.local? f x = some v) : fs.getAt 0 f x = .ok v := by
  unfold Frames.getAt Frames.ancestor?
  dsimp only
  rw [hlocal]

/-- Where the nearest scope with `this` lies just inside the nearest one with `super`, the frames
for the two hold the home. -/
theorem Place.home_found {k : Nat} (h : Place fs f L home)
    (hsuper : L.findIdx? (·.super) = some (k + 1)) (hthis : L.findIdx? (·.this) = some k) :
    ∃ c i, home = some ⟨some c, i⟩ ∧ fs.getAt (k + 1) f "super" = .ok (.«class» c) ∧
      fs.getAt k f "this" = .ok (.object i) := by
  induction h generalizing k with
  | globals => cases hthis
  | inside hlink _ ih =>
    -- Both scopes lie further out, so there is one frame less to count.
    simp only [List.findIdx?_cons, Bool.false_eq_true, if_false, Option.map_eq_some_iff]
      at hsuper hthis
    obtain ⟨d, hsuper, hd⟩ := hsuper
    obtain ⟨j, hthis, rfl⟩ := hthis
    obtain rfl : d = j + 1 := Nat.succ.inj hd
    rw [getAt_succ hlink, getAt_succ hlink]
    exact ih hsuper hthis
  | method hlink _ hrest ih =>
    obtain rfl : 0 = k := by simpa [List.findIdx?_cons] using hthis
    -- The scope of `super` would come next, but no place begins with it.
    rw [List.findIdx?_cons] at hsuper
    simp only [Bool.false_eq_true, if_false, Option.map_eq_some_iff] at hsuper
    obtain ⟨d, hsuper, hd⟩ := hsuper
    obtain rfl : d = 0 := Nat.succ.inj hd
    exact absurd hsuper hrest.findIdx?_super_ne_zero
  | @submethod f g g' L home c i hlink hvalue hlink' hclass hrest ih =>
    obtain rfl : 0 = k := by simpa [List.findIdx?_cons] using hthis
    refine ⟨c, i, rfl, ?_, getAt_zero hvalue⟩
    rw [getAt_succ hlink]
    exact getAt_zero hclass

/-- The nearest scope with `this` leads to the frame that holds the instance of the home. -/
theorem Place.receiver_found {k : Nat} (h : Place fs f L home)
    (hthis : L.findIdx? (·.this) = some k) :
    ∃ c? i, home = some ⟨c?, i⟩ ∧ fs.getAt k f "this" = .ok (.object i) := by
  induction h generalizing k with
  | globals => cases hthis
  | inside hlink _ ih =>
    simp only [List.findIdx?_cons, Bool.false_eq_true, if_false, Option.map_eq_some_iff] at hthis
    obtain ⟨j, hthis, rfl⟩ := hthis
    rw [getAt_succ hlink]
    exact ih hthis
  | method _ hvalue _ _ =>
    obtain rfl : 0 = k := by simpa [List.findIdx?_cons] using hthis
    exact ⟨_, _, rfl, getAt_zero hvalue⟩
  | submethod _ hvalue _ _ _ _ =>
    obtain rfl : 0 = k := by simpa [List.findIdx?_cons] using hthis
    exact ⟨_, _, rfl, getAt_zero hvalue⟩

end Places

/-!
## States

In all states of a run, functions have been made at places with their homes, and methods where
methods are made.
-/

section States

variable (T : Distances) (P : Visit → Prop) (fs : Frames Value)

/-- A function was made at a place with its home, and its body is that of an accepted program. -/
def ClosureAt (c : Closure) (home : Option Home) : Prop :=
  ∃ S, Place fs c.frame (layers S) home ∧ Fine T P (bodyOccurrences S c.params c.body)

/-- A method was made where those of a class with that superclass are made. -/
def MethodAt (c? : Option ClassId) (c : Closure) : Prop :=
  ∃ S, MethodPlace fs c? c.frame (layers S) ∧
    Fine T P (bodyOccurrences ([("this", true)] :: S) c.params c.body)

/-- All functions and methods of a state were made at such places. -/
structure Settled (s : State) : Prop where
  functions : Alike (ClosureAt T P s.machine.frames) s.machine.functions s.homes
  methods : ∀ (c : ClassId) info x closure, s.machine.classes[c]? = some info →
    info.methods.get? x = some closure → MethodAt T P s.machine.frames info.superclass closure
  distances : s.machine.distances = T

/-- A state with homes is the plain state with them, is settled, and has come into a frame after the
frames were those. -/
structure At (f : FrameId) (s : State) (m : Machine) : Prop where
  machine : s.machine = m
  settled : Settled T P s
  current : m.current = f
  grown : Extends fs m.frames

end States

variable {fs fs' : Frames Value} {f : FrameId} {c : Closure} {s : State} {m : Machine}

/-- Functions stay where they were made. -/
theorem Extends.closureAt {home : Option Home} (h : Extends fs fs') (hc : ClosureAt T P fs c home) :
    ClosureAt T P fs' c home := by
  obtain ⟨S, hplace, hfine⟩ := hc
  exact ⟨S, h.place hplace, hfine⟩

/-- And so do methods. -/
theorem Extends.methodAt {c? : Option ClassId} (h : Extends fs fs') (hc : MethodAt T P fs c? c) :
    MethodAt T P fs' c? c := by
  obtain ⟨S, hplace, hfine⟩ := hc
  exact ⟨S, h.methodPlace hplace, hfine⟩

/-- What is there does not depend on the present frame. -/
theorem Settled.moved (h : Settled T P s) (f : FrameId) :
    Settled T P { s with machine := { s.machine with current := f } } :=
  ⟨h.functions, h.methods, h.distances⟩

namespace At

/-- A state may be taken as the one to begin with. -/
theorem anew (h : At T P fs f s m) : At T P m.frames f s m :=
  ⟨h.machine, h.settled, h.current, .refl _⟩

/-- What has come into a frame after one time has done so after an earlier one. -/
theorem since (h : At T P fs' f s m) (hext : Extends fs fs') : At T P fs f s m :=
  ⟨h.machine, h.settled, h.current, hext.trans h.grown⟩

end At

/-!
## Steps that make no functions and no classes

These keep a state settled, since they change nothing that it says anything of.
-/

/-- Functions, classes and distances are the same again, and so is the present frame. -/
structure Still (m m' : Machine) : Prop where
  functions : m'.functions = m.functions
  classes : m'.classes = m.classes
  distances : m'.distances = m.distances
  current : m'.current = m.current
  grown : Extends m.frames m'.frames

namespace Still

variable {α β : Type}

theorem refl (m : Machine) : Still m m := ⟨rfl, rfl, rfl, rfl, .refl _⟩

theorem trans {m m' m'' : Machine} (h : Still m m') (h' : Still m' m'') : Still m m'' :=
  ⟨h'.functions.trans h.functions, h'.classes.trans h.classes, h'.distances.trans h.distances,
    h'.current.trans h.current, h.grown.trans h'.grown⟩

/-- Only the frames have changed. -/
theorem of_frames {fs : Frames Value} (h : Extends m.frames fs) : Still m { m with frames := fs } :=
  ⟨rfl, rfl, rfl, rfl, h⟩

/-- Functions and classes are the same, and so is what is known of their frames. -/
theorem settled (h : Still m m') (hs : Settled T P s) (hm : s.machine = m) :
    Settled T P { s with machine := m' } := by
  subst hm
  refine ⟨?_, fun c info x closure hinfo hx => ?_, h.distances.trans hs.distances⟩
  · show Alike _ m'.functions s.homes
    rw [h.functions]
    exact hs.functions.mono fun _ _ => h.grown.closureAt
  · have hinfo' : m'.classes[c]? = some info := hinfo
    rw [h.classes] at hinfo'
    exact h.grown.methodAt (hs.methods c info x closure hinfo' hx)

/-- The place is the same, and so is its home. -/
theorem at_step (h : Still m m') (hs : At T P fs f s m) : At T P fs f { s with machine := m' } m' :=
  ⟨rfl, h.settled hs.settled hs.machine, h.current.trans hs.current, hs.grown.trans h.grown⟩

theorem bind {p : LoxLang.Run α} {q : α → LoxLang.Run β} (hp : Evolves Still p)
    (hq : ∀ a, Evolves Still (q a)) : Evolves Still (p >>= q) :=
  hp.bind (fun h h' => h.trans h') hq

/-- Looking changes nothing at all. -/
theorem look {p : LoxLang.Run α} (hp : OnlyLooks p) : Evolves Still p := hp.evolves refl

theorem define (hx : IsName x) (v : Value) : Evolves Still (LoxLang.Run.define x v) :=
  fun m => of_frames (.define m.frames m.current hx v)

/-- A variable that is written by its name. -/
theorem writeFrom (f : FrameId) {name : Name} (hname : IsName name.text) (v : Value) :
    Evolves Still (LoxLang.Run.writeFrom f name v) := by
  intro m
  unfold LoxLang.Run.writeFrom
  cases m.frames.holder? f name.text with
  | none => exact refl m
  | some g => exact of_frames (.define m.frames g hname v)

/-- A variable that is written at a distance. -/
theorem writeAt (d : Nat) (hx : IsName x) (v : Value) :
    Evolves Still (LoxLang.Run.writeAt d x v) := by
  intro m
  unfold LoxLang.Run.writeAt
  cases m.frames.ancestor? d m.current with
  | none => exact refl m
  | some f => exact of_frames (.define m.frames f hx v)

/-- A variable that is written, in either way. -/
theorem writeVariable (id : UseId) {name : Name} (hname : IsName name.text) (v : Value) :
    Evolves Still (LoxLang.Run.writeVariable id name v) := by
  refine bind (look (.distance id)) fun d? => ?_
  cases d? with
  | none => exact writeFrom _ hname v
  | some d => exact writeAt d hname v

/-- Instances have no frames. -/
theorem newInstance (c : ClassId) : Evolves Still (LoxLang.Run.newInstance c) :=
  fun _ => ⟨rfl, rfl, rfl, rfl, .refl _⟩

theorem setField (i : InstanceId) (x : String) (v : Value) :
    Evolves Still (LoxLang.Run.setField i x v) := fun _ => ⟨rfl, rfl, rfl, rfl, .refl _⟩

theorem print (v : Value) : Evolves Still (LoxLang.Run.print v) :=
  fun _ => ⟨rfl, rfl, rfl, rfl, .refl _⟩

theorem callNative (host : Host) (n : Native) :
    Evolves Still (LoxLang.Evaluator.callNative host n) := by
  cases n with
  | clock =>
    have hcount : Evolves Still LoxLang.Run.countReading := fun _ => ⟨rfl, rfl, rfl, rfl, .refl _⟩
    exact bind hcount fun _ => look (.pure _)

end Still

end Homed

end LoxLang
