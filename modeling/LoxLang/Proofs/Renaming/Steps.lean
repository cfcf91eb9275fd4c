import Mathlib.Logic.Function.Basic
import LoxLang.Proofs.ClassDeclarations
import LoxLang.Proofs.Likeness
import LoxLang.Proofs.Mirroring
import LoxLang.Proofs.Renaming.Trees

/-!
# Steps under other names

A renamed program makes the same frames, functions, classes and instances as the program itself, in
the same order. Only the names that some frames hold are other ones, and the trees of some functions
(`Machine.Renamed`). Which frames these are is told by marks, as for scopes, and the marks of the
frames around a place are those of the scopes around it (`World.Marked`). So a use finds, at the
distance that it has in both programs, the same variable under its other name.

Frames keep their links and marks, so that what holds of the frames at one time can be used at any
later time (`World.Grows`).
-/

namespace LoxLang

/-!
## Frames

Frames with other names have the same links, and the same values under the other names.
-/

/-- Frames are the same if each of them is. -/
theorem Frames.ext_frame? {α : Type} {fs fs' : Frames α} (h : ∀ f, fs.frame? f = fs'.frame? f) :
    fs = fs' :=
  congrArg Frames.mk (Array.ext_getElem? h)

namespace Renaming

/-- Frames with other names in those that are marked. -/
def frames (ρ : Renaming) (moved : FrameId → Bool) (fs : Frames Value) : Frames Value :=
  ⟨fs.toArray.mapIdx fun f frame => { frame with values := ρ.bindings (moved f) frame.values }⟩

variable {ρ : Renaming} {moved : FrameId → Bool} {fs : Frames Value}

theorem frame?_frames (f : FrameId) : (ρ.frames moved fs).frame? f =
    (fs.frame? f).map fun frame => { frame with values := ρ.bindings (moved f) frame.values } :=
  Array.getElem?_mapIdx

@[simp]
theorem size_frames : (ρ.frames moved fs).size = fs.size := Array.size_mapIdx

@[simp]
theorem enclosing?_frames (f : FrameId) : (ρ.frames moved fs).enclosing? f = fs.enclosing? f := by
  unfold Frames.enclosing?
  rw [frame?_frames]
  cases fs.frame? f <;> rfl

@[simp]
theorem ancestor?_frames (d : Nat) (f : FrameId) :
    (ρ.frames moved fs).ancestor? d f = fs.ancestor? d f := by
  induction d generalizing f with
  | zero => rfl
  | succ d ih =>
    show ((ρ.frames moved fs).enclosing? f).bind ((ρ.frames moved fs).ancestor? d) = _
    rw [enclosing?_frames, funext ih]
    rfl

/-- Without marks nothing changes. -/
theorem frames_unmoved : ρ.frames (fun _ => false) fs = fs :=
  Frames.ext_frame? fun f => by
    rw [frame?_frames]
    simp only [bindings_false]
    exact Option.map_id'

/-- Making a frame, of which it is said whether it is marked. -/
theorem frames_push (values : Bindings Value) (enclosing : Option FrameId) (b : Bool) :
    ρ.frames (Function.update moved fs.size b) (fs.push ⟨values, enclosing⟩) =
      (ρ.frames moved fs).push ⟨ρ.bindings b values, enclosing⟩ := by
  refine Frames.ext_frame? fun f => ?_
  rw [frame?_frames, Frames.frame?_push, Frames.frame?_push, size_frames, frame?_frames]
  by_cases hf : f = fs.size
  · subst hf
    simp
  · simp [hf]

section Injective

variable (h : Function.Injective ρ.names)
include h

/-- A frame holds under the other name what it held under the old one. -/
theorem local?_frames (f : FrameId) (x : String) :
    (ρ.frames moved fs).local? f (ρ.text (moved f) x) = fs.local? f x := by
  unfold Frames.local?
  rw [frame?_frames]
  cases fs.frame? f with
  | none => rfl
  | some frame => exact get?_bindings h (moved f) frame.values x

/-- To bind a name and to change names may be done in either order. -/
theorem frames_define (f : FrameId) (x : String) (v : Value) :
    ρ.frames moved (fs.define f x v) =
      (ρ.frames moved fs).define f (ρ.text (moved f) x) v := by
  refine Frames.ext_frame? fun g => ?_
  rw [frame?_frames, Frames.frame?_define, Frames.frame?_define, frame?_frames]
  by_cases hfg : f = g
  · subst hfg
    rw [if_pos rfl, if_pos rfl]
    cases fs.frame? f with
    | none => rfl
    | some frame => simp only [Option.map_some, insert_bindings h]
  · rw [if_neg hfg, if_neg hfg]

end Injective

end Renaming

/-!
## Worlds

What is used of frames while a program goes on: their links, and which of them are marked. Both
stay, so what is known of the frames around a place is known for ever.
-/

/-- The frames of a state, and which of them are marked. -/
structure World where
  frames : Frames Value
  moved : FrameId → Bool

namespace World

/-- The marks of the frames from one on outwards. That of the globals has none. -/
inductive Marked (w : World) : FrameId → List Bool → Prop
  | globals : Marked w Machine.globalFrame []
  | inside {f g : FrameId} {marks : List Bool} (hlink : w.frames.enclosing? f = some g)
      (h : Marked w g marks) : Marked w f (w.moved f :: marks)

/-- There is a frame of the globals, which is linked to no other and not marked. -/
structure Rooted (w : World) : Prop where
  made : 0 < w.frames.size
  outermost : w.frames.enclosing? Machine.globalFrame = none
  unmoved : w.moved Machine.globalFrame = false

/-- Links and marks stay. -/
def Grows (w w' : World) : Prop :=
  ∀ f g, w.frames.enclosing? f = some g → w'.frames.enclosing? f = some g ∧ w'.moved f = w.moved f

variable {w w' w'' : World} {f g : FrameId} {marks : List Bool}

theorem Grows.refl (w : World) : w.Grows w := fun _ _ h => ⟨h, rfl⟩

/-- From one time to a later one, and on. -/
theorem Grows.trans (h : w.Grows w') (h' : w'.Grows w'') : w.Grows w'' := fun f g hlink =>
  have hstep := h f g hlink
  have hstep' := h' f g hstep.1
  ⟨hstep'.1, hstep'.2.trans hstep.2⟩

/-- The marks around a place stay. -/
theorem Marked.grow (h : w.Marked f marks) (hgrow : w.Grows w') : w'.Marked f marks := by
  induction h with
  | globals => exact .globals
  | @inside f g marks hlink _ ih =>
    obtain ⟨hlink', hmoved⟩ := hgrow f g hlink
    rw [← hmoved]
    exact .inside hlink' ih

/-- A frame inside a frame. -/
theorem Marked.within (h : w.Marked g marks) (hlink : w.frames.enclosing? f = some g) {b : Bool}
    (hb : w.moved f = b) : w.Marked f (b :: marks) :=
  hb ▸ .inside hlink h

/-- Only frames that are there have marks around them. -/
theorem Marked.lt_size (h : w.Marked f marks) (hrooted : w.Rooted) : f < w.frames.size := by
  cases h with
  | globals => exact hrooted.made
  | inside hlink _ => exact w.frames.lt_size_of_enclosing? hlink

/-- Counting along the frames leads to the mark that counting along the marks leads to. -/
theorem Marked.moved_ancestor (h : w.Marked f marks) (hrooted : w.Rooted) {d : Nat}
    (hg : w.frames.ancestor? d f = some g) : w.moved g = marks[d]?.getD false := by
  induction d generalizing f marks with
  | zero =>
    obtain rfl : f = g := Option.some.inj hg
    cases h with
    | globals => exact hrooted.unmoved
    | inside hlink _ => rfl
  | succ d ih =>
    have hbind : (w.frames.enclosing? f).bind (w.frames.ancestor? d) = some g := hg
    cases h with
    | globals =>
      rw [hrooted.outermost] at hbind
      cases hbind
    | inside hlink h =>
      rw [hlink] at hbind
      exact ih h hbind

/-- The innermost mark is that of the frame itself. -/
theorem Marked.moved_self (h : w.Marked f marks) (hrooted : w.Rooted) :
    w.moved f = marks.headD false := by
  rw [h.moved_ancestor hrooted (d := 0) rfl]
  cases marks <;> rfl

/-- Binding a name. -/
theorem grows_define (fs : Frames Value) (moved : FrameId → Bool) (f : FrameId) (x : String)
    (v : Value) : Grows ⟨fs, moved⟩ ⟨fs.define f x v, moved⟩ := fun g g' h => by
  refine ⟨?_, rfl⟩
  dsimp only
  rw [Frames.enclosing?_define]
  exact h

/-- Making a frame. -/
theorem grows_push (fs : Frames Value) (moved : FrameId → Bool) (frame : Frame Value) (b : Bool) :
    Grows ⟨fs, moved⟩ ⟨fs.push frame, Function.update moved fs.size b⟩ := fun f g h => by
  have hne : f ≠ fs.size := Nat.ne_of_lt (fs.lt_size_of_enclosing? h)
  refine ⟨?_, Function.update_of_ne hne _ _⟩
  dsimp only
  rw [Frames.enclosing?_push, if_neg hne]
  exact h

/-- Binding a name changes no link. -/
theorem Rooted.define {fs : Frames Value} {moved : FrameId → Bool} (h : Rooted ⟨fs, moved⟩)
    (f : FrameId) (x : String) (v : Value) : Rooted ⟨fs.define f x v, moved⟩ where
  made := by
    dsimp only
    rw [Frames.size_define]
    exact h.made
  outermost := by
    dsimp only
    rw [Frames.enclosing?_define]
    exact h.outermost
  unmoved := h.unmoved

/-- A frame that is made leaves the old ones as they are. -/
theorem Rooted.push {fs : Frames Value} {moved : FrameId → Bool} (h : Rooted ⟨fs, moved⟩)
    (frame : Frame Value) (b : Bool) :
    Rooted ⟨fs.push frame, Function.update moved fs.size b⟩ := by
  have hne : Machine.globalFrame ≠ fs.size := Nat.ne_of_lt h.made
  refine ⟨?_, ?_, (Function.update_of_ne hne _ _).trans h.unmoved⟩
  · dsimp only
    rw [Frames.size_push]
    exact Nat.succ_pos _
  · dsimp only
    rw [Frames.enclosing?_push, if_neg hne]
    exact h.outermost

/-- The globals keep their names. -/
theorem Rooted.local?_global (h : w.Rooted) {ρ : Renaming} (hρ : Function.Injective ρ.names)
    (x : String) : (ρ.frames w.moved w.frames).local? Machine.globalFrame x =
      w.frames.local? Machine.globalFrame x := by
  have hlocal : (ρ.frames w.moved w.frames).local? Machine.globalFrame
      (ρ.text (w.moved Machine.globalFrame) x) = w.frames.local? Machine.globalFrame x :=
    Renaming.local?_frames hρ Machine.globalFrame x
  rwa [h.unmoved] at hlocal

end World

/-!
## States

Two states are alike but for names: in marked frames, and in the trees of functions, whose bodies
stand in frames with the same marks as their scopes.
-/

/-- The same function under other names, made in the same frame. Its body stands in some hidden
scopes more, which are made before it is called. -/
structure Closure.Renamed (ρ : Renaming) (w : World) (hidden : List Bool) (c c' : Closure) :
    Prop where
  name : c.name? = c'.name?
  frame : c.frame = c'.frame
  isInitializer : c.isInitializer = c'.isInitializer
  tree : ∃ marks choice, w.Marked c.frame marks ∧
    c'.params = c.params.map (ρ.name (ρ.mark choice c.body)) ∧
    c'.body = stmtsRename ρ (ρ.mark choice c.body :: (hidden ++ marks)) choice c.body

namespace Closure.Renamed

variable {ρ : Renaming} {w w' : World} {hidden : List Bool} {c c' : Closure}

/-- A function stays where it was made. -/
theorem grow (h : c.Renamed ρ w hidden c') (hgrow : w.Grows w') : c.Renamed ρ w' hidden c' := by
  obtain ⟨marks, choice, hmarked, hparams, hbody⟩ := h.tree
  exact ⟨h.name, h.frame, h.isInitializer, marks, choice, hmarked.grow hgrow, hparams, hbody⟩

/-- Parameters change their names, and not their number. -/
theorem length_params (h : c.Renamed ρ w hidden c') : c.params.length = c'.params.length := by
  obtain ⟨marks, choice, -, hparams, -⟩ := h.tree
  rw [hparams, List.length_map]

end Closure.Renamed

/-- States of a program and of the program with other names, after the same steps. Around a method
stands a frame that holds `this`, which is made when the method is bound. -/
structure Machine.Renamed (ρ : Renaming) (moved : FrameId → Bool) (m m' : Machine) : Prop where
  rooted : World.Rooted ⟨m.frames, moved⟩
  frames : m'.frames = ρ.frames moved m.frames
  functions : Alike (Closure.Renamed ρ ⟨m.frames, moved⟩ []) m.functions m'.functions
  classes : Alike (ClassInfo.Alike (Closure.Renamed ρ ⟨m.frames, moved⟩ [false])) m.classes
    m'.classes
  instances : m.instances = m'.instances
  current : m'.current = m.current
  distances : m'.distances = m.distances
  known : ∀ id : UseId, m.distances[id]? = ρ.distance? id
  output : m'.output = m.output
  clockReadings : m'.clockReadings = m.clockReadings

/-- All but frames is related as in any two states of this kind. -/
theorem Machine.Renamed.akin {ρ : Renaming} {moved : FrameId → Bool} {m m' : Machine}
    (h : m.Renamed ρ moved m') : m.Akin (Closure.Renamed ρ ⟨m.frames, moved⟩ [])
      (Closure.Renamed ρ ⟨m.frames, moved⟩ [false]) m' :=
  ⟨h.functions, h.classes, h.instances⟩

/-- Frames may change in both states if links and marks stay. -/
theorem Machine.Renamed.grow {ρ : Renaming} {moved moved' : FrameId → Bool} {m m' : Machine}
    {fs fs' : Frames Value} (h : m.Renamed ρ moved m')
    (hgrow : World.Grows ⟨m.frames, moved⟩ ⟨fs, moved'⟩) (hrooted : World.Rooted ⟨fs, moved'⟩)
    (hfs : fs' = ρ.frames moved' fs) :
    Machine.Renamed ρ moved' { m with frames := fs } { m' with frames := fs' } where
  rooted := hrooted
  frames := hfs
  functions := h.functions.mono fun _ _ hc => hc.grow hgrow
  classes := h.classes.mono fun _ _ hc => hc.mono fun _ _ hc => hc.grow hgrow
  instances := h.instances
  current := h.current
  distances := h.distances
  known := h.known
  output := h.output
  clockReadings := h.clockReadings

/-- Runs that end early for the same reason and on the same line. What a frame does not hold may
have another name. -/
inductive Abort.Renamed (ρ : Renaming) : Abort → Abort → Prop
  | failure {p p' : Location} (h : p.line = p'.line) (e : RuntimeError) :
      Renamed ρ (.failure ⟨p, e⟩) (.failure ⟨p', e⟩)
  | missing (b : Bool) (x : String) :
      Renamed ρ (.frame (.missing x)) (.frame (.missing (ρ.text b x)))
  | pastOutermost : Renamed ρ (.frame .pastOutermost) (.frame .pastOutermost)
  | tooDeep : Renamed ρ .tooDeep .tooDeep
  | endless : Renamed ρ .endless .endless

namespace Renaming

/-!
## Steps

Two steps mirror each other if they lead from states that are alike to such states, and end in the
same way.
-/

/-- States that come into a frame after the world was as given. -/
def At (ρ : Renaming) (w : World) (f : FrameId) (m m' : Machine) : Prop :=
  ∃ moved, w.Grows ⟨m.frames, moved⟩ ∧ m.Renamed ρ moved m' ∧ m.current = f

variable {ρ : Renaming} {w : World} {f g : FrameId} {marks : List Bool} {α : Type}
  {Q : α → α → Prop}

/-- From states that come into a frame after the world was as given, two steps do the same. -/
abbrev Mirror (ρ : Renaming) (w : World) (f : FrameId) (Q : α → α → Prop) (p p' : Run α) : Prop :=
  Mirrors (ρ.At w f) (Abort.Renamed ρ) Q p p'

namespace Mirror

/-- Both fail with the same error, on the same line. -/
theorem fail {place place' : Location} (h : place.line = place'.line) (e : RuntimeError) :
    ρ.Mirror w f Q (Run.fail place e) (Run.fail place' e) := Mirrors.throw (.failure h e)

/-- Both fail, or neither does. -/
theorem orFail (place : Location) (r : Except RuntimeError α) :
    ρ.Mirror w f Eq (Run.orFail place r) (Run.orFail place r) := by
  cases r with
  | ok a => exact Mirrors.pure rfl
  | error e => exact fail rfl e

/-- What is done with a later world may be done with an earlier one. -/
theorem since {w' : World} {p p' : Run α} {m m' : Machine} (hgrow : w.Grows w')
    (h : EndsAlike (ρ.At w' f) (Abort.Renamed ρ) Q (p m) (p' m')) :
    EndsAlike (ρ.At w f) (Abort.Renamed ρ) Q (p m) (p' m') :=
  h.imp fun _ _ ⟨moved, hgrow', hrenamed, hcurrent⟩ =>
    ⟨moved, hgrow.trans hgrow', hrenamed, hcurrent⟩

/-- What goes on after a look at the state. -/
theorem get {k k' : Machine → Run α}
    (h : ∀ m m' moved, m.Renamed ρ moved m' → ρ.Mirror ⟨m.frames, moved⟩ f Q (k m) (k' m')) :
    ρ.Mirror w f Q (MonadState.get >>= k) (MonadState.get >>= k') := by
  rintro m m' ⟨moved, hgrow, hrenamed, hcurrent⟩
  exact since hgrow (h m m' moved hrenamed m m' ⟨moved, .refl _, hrenamed, hcurrent⟩)

/-- Both are in the same frame. -/
theorem currentFrame {k k' : FrameId → Run α} (h : ρ.Mirror w f Q (k f) (k' f)) :
    ρ.Mirror w f Q (Run.currentFrame >>= k) (Run.currentFrame >>= k') := by
  rintro m m' ⟨moved, hgrow, hrenamed, rfl⟩
  show EndsAlike _ _ _ (k m.current m) (k' m'.current m')
  rw [hrenamed.current]
  exact h m m' ⟨moved, hgrow, hrenamed, rfl⟩

/-- What goes on once it is known how far away a variable is. -/
theorem distance (id : UseId) {k k' : Option Nat → Run α}
    (h : ρ.Mirror w f Q (k (ρ.distance? id)) (k' (ρ.distance? id))) :
    ρ.Mirror w f Q (Run.distance? id >>= k) (Run.distance? id >>= k') := by
  rintro m m' ⟨moved, hgrow, hrenamed, hcurrent⟩
  show EndsAlike _ _ _ (k m.distances[id]? m) (k' m'.distances[id]? m')
  rw [hrenamed.distances, hrenamed.known]
  exact h m m' ⟨moved, hgrow, hrenamed, hcurrent⟩

/-- What goes on in a frame that is made. -/
theorem newFrame {values : Bindings Value} {b : Bool} {k k' : FrameId → Run α}
    (hg : w.Marked g marks)
    (h : ∀ w' f', w.Grows w' → w'.Marked f' (b :: marks) → ρ.Mirror w' f Q (k f') (k' f')) :
    ρ.Mirror w f Q (Run.newFrame g values >>= k)
      (Run.newFrame g (ρ.bindings b values) >>= k') := by
  rintro m m' ⟨moved, hgrow, hrenamed, rfl⟩
  have hgrow' := World.grows_push m.frames moved ⟨values, some g⟩ b
  have hmarked : World.Marked
      ⟨m.frames.push ⟨values, some g⟩, Function.update moved m.frames.size b⟩ m.frames.size
      (b :: marks) := by
    have hlink : (m.frames.push ⟨values, some g⟩).enclosing? m.frames.size = some g := by
      rw [Frames.enclosing?_push, if_pos rfl]
    exact (hg.grow (hgrow.trans hgrow')).within hlink (Function.update_self ..)
  have hrenamed' := hrenamed.grow hgrow' (hrenamed.rooted.push _ b)
    (Renaming.frames_push values (some g) b).symm
  -- As many frames have been made in both states, so the new ones have the same number.
  show EndsAlike _ _ _ (k m.frames.size { m with frames := m.frames.push ⟨values, some g⟩ })
    (k' m'.frames.size { m' with frames := m'.frames.push ⟨ρ.bindings b values, some g⟩ })
  rw [hrenamed.frames, Renaming.size_frames]
  exact since (hgrow.trans hgrow')
    (h _ _ (hgrow.trans hgrow') hmarked _ _ ⟨_, .refl _, hrenamed', rfl⟩)

/-- Both do something in another frame. -/
theorem inFrame {p p' : Run α} (h : ρ.Mirror w g Q p p') :
    ρ.Mirror w f Q (Run.inFrame g p) (Run.inFrame g p') := by
  rintro m m' ⟨moved, hgrow, hrenamed, rfl⟩
  have hends := h { m with current := g } { m' with current := g }
    ⟨moved, hgrow, { hrenamed with current := rfl }, rfl⟩
  unfold Run.inFrame
  dsimp only
  generalize p _ = r at hends
  generalize p' _ = r' at hends
  cases hends with
  | ok ha hat =>
    obtain ⟨moved', hgrow', hrenamed', -⟩ := hat
    exact .ok ha ⟨moved', hgrow', { hrenamed' with current := hrenamed.current }, rfl⟩
  | error he hat =>
    obtain ⟨moved', hgrow', hrenamed', -⟩ := hat
    exact .error he ⟨moved', hgrow', { hrenamed' with current := hrenamed.current }, rfl⟩

/-!
## Variables

A name is found at the same distance in both programs, under the name that it has there. What is
global keeps its name.
-/

section Variables

variable (hρ : Function.Injective ρ.names)
include hρ

/-- A name is bound in the present frame. -/
theorem define (hf : w.Marked f marks) (x : String) (v : Value) :
    ρ.Mirror w f Eq (Run.define x v) (Run.define (ρ.text (marks.headD false) x) v) := by
  rintro m m' ⟨moved, hgrow, hrenamed, rfl⟩
  have hgrow' := World.grows_define m.frames moved m.current x v
  have hframes : m'.frames.define m'.current (ρ.text (marks.headD false) x) v =
      ρ.frames moved (m.frames.define m.current x v) := by
    rw [frames_define hρ, hrenamed.frames, hrenamed.current,
      ← (hf.grow hgrow).moved_self hrenamed.rooted]
  exact .ok rfl ⟨moved, hgrow.trans hgrow',
    hrenamed.grow hgrow' (hrenamed.rooted.define _ x v) hframes, rfl⟩

/-- Reading at a distance from a frame. -/
theorem readAt (hg : w.Marked g marks) (d : Nat) (x : String) :
    ρ.Mirror w f Eq (Run.readAt d g x) (Run.readAt d g (ρ.text (marks[d]?.getD false) x)) := by
  rintro m m' ⟨moved, hgrow, hrenamed, hcurrent⟩
  have hat : ρ.At w f m m' := ⟨moved, hgrow, hrenamed, hcurrent⟩
  unfold Run.readAt Frames.getAt
  rw [hrenamed.frames, ancestor?_frames]
  cases hancestor : m.frames.ancestor? d g with
  | none => exact .error .pastOutermost hat
  | some g' =>
    rw [← (hg.grow hgrow).moved_ancestor hrenamed.rooted hancestor]
    dsimp only
    rw [local?_frames hρ]
    cases m.frames.local? g' x with
    | none => exact .error (.missing _ x) hat
    | some v => exact .ok rfl hat

/-- A variable is written at a distance. -/
theorem writeAt (hf : w.Marked f marks) (d : Nat) (x : String) (v : Value) :
    ρ.Mirror w f Eq (Run.writeAt d x v) (Run.writeAt d (ρ.text (marks[d]?.getD false) x) v) := by
  rintro m m' ⟨moved, hgrow, hrenamed, rfl⟩
  have hsame : m'.frames.ancestor? d m'.current = m.frames.ancestor? d m.current := by
    rw [hrenamed.current, hrenamed.frames, ancestor?_frames]
  unfold Run.writeAt
  rw [hsame]
  cases hancestor : m.frames.ancestor? d m.current with
  | none => exact .error .pastOutermost ⟨moved, hgrow, hrenamed, rfl⟩
  | some g =>
    have hgrow' := World.grows_define m.frames moved g x v
    have hframes : m'.frames.define g (ρ.text (marks[d]?.getD false) x) v =
        ρ.frames moved (m.frames.define g x v) := by
      rw [frames_define hρ, hrenamed.frames,
        ← (hf.grow hgrow).moved_ancestor hrenamed.rooted hancestor]
    exact .ok rfl ⟨moved, hgrow.trans hgrow',
      hrenamed.grow hgrow' (hrenamed.rooted.define g x v) hframes, rfl⟩

/-- The globals keep their names. -/
theorem readGlobal (x : Name) :
    ρ.Mirror w f Eq (Run.readFrom Machine.globalFrame x) (Run.readFrom Machine.globalFrame x) := by
  rintro m m' ⟨moved, hgrow, hrenamed, hcurrent⟩
  have hat : ρ.At w f m m' := ⟨moved, hgrow, hrenamed, hcurrent⟩
  have hlocal := hrenamed.rooted.local?_global hρ x.text
  have houtermost := hrenamed.rooted.outermost
  unfold Run.readFrom
  rw [Frames.get?_of_outermost _ _ houtermost, hrenamed.frames,
    Frames.get?_of_outermost _ _ ((enclosing?_frames _).trans houtermost), hlocal]
  cases m.frames.local? Machine.globalFrame x.text with
  | none => exact .error (.failure rfl _) hat
  | some v => exact .ok rfl hat

/-- A global variable is written under the same name. -/
theorem writeGlobal (x : Name) (v : Value) :
    ρ.Mirror w f Eq (Run.writeFrom Machine.globalFrame x v)
      (Run.writeFrom Machine.globalFrame x v) := by
  rintro m m' ⟨moved, hgrow, hrenamed, rfl⟩
  have hlocal := hrenamed.rooted.local?_global hρ x.text
  have houtermost := hrenamed.rooted.outermost
  -- Only the frame of the globals is looked at, which holds the same names in both states.
  have hholder : m'.frames.holder? Machine.globalFrame x.text =
      m.frames.holder? Machine.globalFrame x.text := by
    rw [Frames.holder?_of_outermost _ _ houtermost, hrenamed.frames,
      Frames.holder?_of_outermost _ _ ((enclosing?_frames _).trans houtermost), hlocal]
  unfold Run.writeFrom
  rw [hholder, Frames.holder?_of_outermost _ _ houtermost]
  split
  · next g hg =>
    split at hg
    · obtain rfl := Option.some.inj hg
      have hgrow' := World.grows_define m.frames moved Machine.globalFrame x.text v
      have hframes : m'.frames.define Machine.globalFrame x.text v =
          ρ.frames moved (m.frames.define Machine.globalFrame x.text v) := by
        have hunmoved : moved Machine.globalFrame = false := hrenamed.rooted.unmoved
        rw [frames_define hρ, hrenamed.frames, hunmoved]
        rfl
      exact .ok rfl ⟨moved, hgrow.trans hgrow',
        hrenamed.grow hgrow' (hrenamed.rooted.define _ x.text v) hframes, rfl⟩
    · cases hg
  · exact .error (.failure rfl _) ⟨moved, hgrow, hrenamed, rfl⟩

/-- A variable is read under the name that it has. -/
theorem readVariable (hf : w.Marked f marks) (id : UseId) (x : Name) :
    ρ.Mirror w f Eq (Run.readVariable id x)
      (Run.readVariable id (ρ.name (ρ.moves marks id) x)) := by
  refine distance id ?_
  unfold moves
  cases ρ.distance? id with
  | none => exact readGlobal hρ x
  | some d => exact currentFrame (readAt hρ hf d x.text)

/-- A variable is written under the name that it has. -/
theorem writeVariable (hf : w.Marked f marks) (id : UseId) (x : Name) (v : Value) :
    ρ.Mirror w f Eq (Run.writeVariable id x v)
      (Run.writeVariable id (ρ.name (ρ.moves marks id) x) v) := by
  refine distance id ?_
  unfold moves
  cases ρ.distance? id with
  | none => exact writeGlobal hρ x v
  | some d => exact writeAt hρ hf d x.text v

end Variables

/-- `this` and `super` are no names that change. -/
theorem readHidden (hρ : ρ.Faithful) (hg : w.Marked g marks) (d : Nat) {x : String}
    (hx : ¬IsName x) : ρ.Mirror w f Eq (Run.readAt d g x) (Run.readAt d g x) := by
  have hread : ρ.Mirror w f Eq (Run.readAt d g x)
      (Run.readAt d g (ρ.text (marks[d]?.getD false) x)) := readAt hρ.injective hg d x
  rwa [hρ.text_of_hidden hx] at hread

/-!
## Functions, classes and instances

They get the same numbers, and their fields and methods the same names.
-/

/-- The functions that are made differ in names only. -/
theorem newFunction {c c' : Closure} (hc : c.Renamed ρ w [] c') :
    ρ.Mirror w f Eq (Run.newFunction c) (Run.newFunction c') := by
  rintro m m' ⟨moved, hgrow, hrenamed, hcurrent⟩
  exact .ok hrenamed.functions.size
    ⟨moved, hgrow, { hrenamed with functions := hrenamed.functions.push (hc.grow hgrow) }, hcurrent⟩

/-- And so do the classes. -/
theorem newClass {info info' : ClassInfo} (hinfo : info.Alike (Closure.Renamed ρ w [false]) info') :
    ρ.Mirror w f Eq (Run.newClass info) (Run.newClass info') := by
  rintro m m' ⟨moved, hgrow, hrenamed, hcurrent⟩
  have hinfo' := hinfo.mono fun _ _ hc => hc.grow hgrow
  exact .ok hrenamed.classes.size
    ⟨moved, hgrow, { hrenamed with classes := hrenamed.classes.push hinfo' }, hcurrent⟩

/-- Instances do not differ. -/
theorem newInstance (c : ClassId) :
    ρ.Mirror w f Eq (Run.newInstance c) (Run.newInstance c) := by
  rintro m m' ⟨moved, hgrow, hrenamed, hcurrent⟩
  have hinstances := hrenamed.instances
  exact .ok (congrArg Array.size hinstances)
    ⟨moved, hgrow, { hrenamed with instances := congrArg (Array.push · _) hinstances }, hcurrent⟩

/-- What goes on once a method is bound. -/
theorem bindMethod {c c' : Closure} (hc : c.Renamed ρ w [false] c') (this : Value)
    {k k' : Closure → Run α}
    (h : ∀ w' c₁ c₁', w.Grows w' → c₁.Renamed ρ w' [] c₁' → ρ.Mirror w' f Q (k c₁) (k' c₁')) :
    ρ.Mirror w f Q (Run.bind c this >>= k) (Run.bind c' this >>= k') := by
  obtain ⟨hname, hframe, hinit, marks, choice, hmarked, hparams, hbody⟩ := hc
  -- The frame for `this` is not marked. It is the hidden scope in which the body stands.
  have hmade : ρ.Mirror w f Q
      (Run.newFrame c.frame [("this", this)] >>= fun g => k { c with frame := g })
      (Run.newFrame c.frame (ρ.bindings false [("this", this)]) >>= fun g =>
        k' { c' with frame := g }) :=
    newFrame hmarked fun w' g hgrow hg => h w' _ _ hgrow
      ⟨hname, rfl, hinit, false :: marks, choice, hg, hparams, hbody⟩
  unfold Run.bind
  rw [← hframe]
  exact hmade

/-- A method is bound to an instance and becomes a function. -/
theorem boundMethod {c c' : Closure} (hc : c.Renamed ρ w [false] c') (this : Value) :
    ρ.Mirror w f Eq (do return Value.function (← Run.newFunction (← Run.bind c this)))
      (do return Value.function (← Run.newFunction (← Run.bind c' this))) :=
  bindMethod hc this fun _ _ _ _ hbound =>
    (newFunction hbound).bind_same fun _ => Mirrors.pure rfl

/-- A field is the same value, and a method is bound in both. -/
theorem property (i : InstanceId) (x : Name) :
    ρ.Mirror w f Eq (Run.property i x) (Run.property i x) := by
  refine get fun m m' moved h => ?_
  rw [h.instances]
  cases m'.instances[i]? with
  | none => exact fail rfl _
  | some object =>
    simp only [Option.bind_eq_bind, Option.bind_some]
    cases object.fields.get? x.text with
    | some v => exact Mirrors.pure rfl
    | none =>
      obtain ⟨hnone, hnone'⟩ | ⟨c, c', hc, hc', hcc⟩ := (h.akin.method? object.classId x.text).cases
      · rw [hnone, hnone']
        exact fail rfl _
      · rw [hc, hc']
        exact boundMethod hcc _

/-- The same function is found. -/
theorem staticProperty (c : ClassId) (x : Name) :
    ρ.Mirror w f Eq (Run.staticProperty c x) (Run.staticProperty c x) := by
  rintro m m' ⟨moved, hgrow, hrenamed, hcurrent⟩
  unfold Run.staticProperty
  rw [hrenamed.akin.staticMethod?]
  cases m'.staticMethod? c x.text with
  | none => exact .error (.failure rfl _) ⟨moved, hgrow, hrenamed, hcurrent⟩
  | some i => exact .ok rfl ⟨moved, hgrow, hrenamed, hcurrent⟩

/-- Fields keep their names. -/
theorem setField (i : InstanceId) (x : String) (v : Value) :
    ρ.Mirror w f Eq (Run.setField i x v) (Run.setField i x v) := by
  rintro m m' ⟨moved, hgrow, hrenamed, hcurrent⟩
  have hinstances := congrArg (fun instances : Array Instance => instances.modify i fun object =>
    { object with fields := object.fields.insert x v }) hrenamed.instances
  exact .ok rfl ⟨moved, hgrow, { hrenamed with instances := hinstances }, hcurrent⟩

/-!
## The world outside

Names are nothing that a program shows, unless they are those of functions and classes, which do not
change.
-/

/-- Both print the same. -/
theorem print (v : Value) : ρ.Mirror w f Eq (Run.print v) (Run.print v) := by
  rintro m m' ⟨moved, hgrow, hrenamed, hcurrent⟩
  have houtput : m'.output ++ (m'.text v ++ "\n") = m.output ++ (m.text v ++ "\n") := by
    rw [hrenamed.output, hrenamed.akin.text fun _ _ hc => hc.name]
  exact .ok rfl ⟨moved, hgrow, { hrenamed with output := houtput }, hcurrent⟩

/-- Both read the clock as often. -/
theorem countReading : ρ.Mirror w f Eq Run.countReading Run.countReading := by
  rintro m m' ⟨moved, hgrow, hrenamed, hcurrent⟩
  have hreadings := congrArg (· + 1) hrenamed.clockReadings
  exact .ok hrenamed.clockReadings.symm
    ⟨moved, hgrow, { hrenamed with clockReadings := hreadings }, hcurrent⟩

end Mirror

end Renaming

end LoxLang
