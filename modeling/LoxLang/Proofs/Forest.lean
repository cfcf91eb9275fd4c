import LoxLang.Proofs.Frames

/-!
# Writes in a forest of frames

Many chains run through one frame, so a write through one chain is read through others. Where it is
read is said here for every forest that making frames, binding names and the two ways of writing can
build: a write changes one entry, and the frames that see it are those whose nearest holder of the
name is the frame written to.

Everything rests on one invariant. A frame is linked when it is made, to a frame that is there
already, and no operation changes a link; so links lead to older frames, and the walk to the nearest
holder, which follows no others, covers the whole chain.
-/

namespace LoxLang

namespace Frames

variable {α : Type}

/-!
## The forests that can be built

Of the four operations only one makes a link, from the frame that it makes to one that was there
before. So links go down in the numbering of frames, and every walk outwards ends.
-/

/-- What can be done to a forest through the handles of its frames. -/
inductive Operation (α : Type) where
  | new (enclosing : Option FrameId)
  | define (f : FrameId) (name : String) (a : α)
  | assign (f : FrameId) (name : String) (a : α)
  | assignAt (distance : Nat) (f : FrameId) (name : String) (a : α)

/-- The forest that an operation makes, if it succeeds. A handle is that of a frame made before. -/
def Operation.run? (fs : Frames α) : Operation α → Option (Frames α)
  | new none => some (fs.push ⟨[], none⟩)
  | new (some g) => if g < fs.size then some (fs.push ⟨[], some g⟩) else none
  | define f name a => if f < fs.size then some (fs.define f name a) else none
  | assign f name a => fs.assign? f name a
  | assignAt distance f name a => (fs.assignAt distance f name a).toOption

/-- The forest after operations, of which those that fail leave it as it is. -/
def after (fs : Frames α) (operations : List (Operation α)) : Frames α :=
  operations.foldl (fun fs operation => (operation.run? fs).getD fs) fs

@[simp]
theorem after_nil (fs : Frames α) : fs.after [] = fs := rfl

@[simp]
theorem after_cons (fs : Frames α) (operation : Operation α) (rest : List (Operation α)) :
    fs.after (operation :: rest) = ((operation.run? fs).getD fs).after rest := rfl

/-- A forest that operations build from nothing. -/
def Reachable (fs : Frames α) : Prop := ∃ operations, empty.after operations = fs

/-- Links lead to older frames. -/
def Linked (fs : Frames α) : Prop := ∀ f g, fs.enclosing? f = some g → g < f

theorem Linked.define {fs : Frames α} (h : fs.Linked) (f : FrameId) (name : String) (a : α) :
    (fs.define f name a).Linked := fun f' g hg => h f' g (by rwa [enclosing?_define] at hg)

theorem Linked.push {fs : Frames α} (h : fs.Linked) {frame : Frame α}
    (hframe : ∀ g, frame.enclosing = some g → g < fs.size) : (fs.push frame).Linked := by
  intro f g hg
  rw [enclosing?_push] at hg
  split at hg
  case isTrue hf =>
    rw [hf]
    exact hframe g hg
  case isFalse => exact h f g hg

theorem Linked.assign? {fs fs' : Frames α} (h : fs.Linked) {f : FrameId} {name : String} {a : α}
    (hassign : fs.assign? f name a = some fs') : fs'.Linked := by
  obtain ⟨g, -, rfl⟩ := Option.map_eq_some_iff.mp hassign
  exact h.define g name a

theorem Linked.assignAt {fs fs' : Frames α} (h : fs.Linked) {distance : Nat} {f : FrameId}
    {name : String} {a : α} (hassign : fs.assignAt distance f name a = .ok fs') : fs'.Linked := by
  unfold Frames.assignAt at hassign
  split at hassign
  · cases hassign
  · cases hassign
    exact h.define _ name a

/-- No operation makes a link to a younger frame. -/
theorem Linked.run? {fs fs' : Frames α} (h : fs.Linked) {operation : Operation α}
    (hrun : operation.run? fs = some fs') : fs'.Linked := by
  -- Only a new frame adds a link, and it goes to a frame that is there.
  cases operation with
  | new enclosing =>
    cases enclosing with
    | none =>
      obtain rfl := Option.some.inj hrun
      exact h.push nofun
    | some g =>
      simp only [Operation.run?, Option.ite_none_right_eq_some, Option.some.injEq] at hrun
      obtain ⟨hg, rfl⟩ := hrun
      exact h.push fun g' hg' => Option.some.inj hg' ▸ hg
  | define f name a =>
    simp only [Operation.run?, Option.ite_none_right_eq_some, Option.some.injEq] at hrun
    obtain ⟨-, rfl⟩ := hrun
    exact h.define f name a
  | assign f name a => exact h.assign? hrun
  | assignAt distance f name a =>
    simp only [Operation.run?] at hrun
    cases hassign : fs.assignAt distance f name a with
    | error e =>
      rw [hassign] at hrun
      cases hrun
    | ok fs'' =>
      rw [hassign] at hrun
      obtain rfl := Option.some.inj hrun
      exact h.assignAt hassign

/-- The invariant of a sequence of operations. -/
theorem Linked.after {fs : Frames α} (h : fs.Linked) (operations : List (Operation α)) :
    (fs.after operations).Linked := by
  induction operations generalizing fs with
  | nil => exact h
  | cons operation rest ih =>
    rw [after_cons]
    apply ih
    cases hrun : operation.run? fs with
    | none => exact h
    | some fs' => exact h.run? hrun

theorem linked_empty : (empty : Frames α).Linked := by
  intro f g hg
  exact absurd (lt_size_of_enclosing? empty hg) (Nat.not_lt_zero f)

theorem Reachable.linked {fs : Frames α} (h : fs.Reachable) : fs.Linked := by
  obtain ⟨operations, rfl⟩ := h
  exact linked_empty.after operations

/-!
## The nearest holder of a name

The search for a name goes outwards and stops at the first frame that holds it. It says how many
links away that is, and this number fixes the frame.
-/

/-- The frame `h`, at distance `k` along the chain of `f`, holds the name, and no frame nearer on
the chain does. -/
structure NearestAt (fs : Frames α) (f : FrameId) (name : String) (k : Nat) (h : FrameId) :
    Prop where
  reached : fs.ancestor? k f = some h
  holds : (fs.local? h name).isSome
  nearer : ∀ j < k, ∀ g, fs.ancestor? j f = some g → fs.local? g name = none

/-- The nearest frame on the chain of `f` that holds the name is `h`. -/
def Finds (fs : Frames α) (f : FrameId) (name : String) (h : FrameId) : Prop :=
  ∃ k, fs.NearestAt f name k h

variable {fs fs' : Frames α} {f g h : FrameId} {name other : String} {a : α} {k : Nat}

theorem nearestAt_zero : fs.NearestAt f name 0 h ↔ h = f ∧ (fs.local? f name).isSome := by
  constructor
  · rintro ⟨hreached, hholds, -⟩
    obtain rfl := Option.some.inj hreached
    exact ⟨rfl, hholds⟩
  · rintro ⟨rfl, hholds⟩
    exact ⟨rfl, hholds, nofun⟩

/-- One link further along the chain. -/
theorem nearestAt_succ :
    fs.NearestAt f name (k + 1) h ↔
      fs.local? f name = none ∧ ∃ g, fs.enclosing? f = some g ∧ fs.NearestAt g name k h := by
  constructor
  · rintro ⟨hreached, hholds, hnearer⟩
    obtain ⟨g, hg, hreached⟩ := Option.bind_eq_some_iff.mp hreached
    refine ⟨hnearer 0 k.succ_pos f rfl, g, hg, hreached, hholds, fun j hj g' hg' => ?_⟩
    exact hnearer (j + 1) (Nat.succ_lt_succ hj) g' (by simpa [ancestor?, hg] using hg')
  · rintro ⟨hlocal, g, hg, hreached, hholds, hnearer⟩
    refine ⟨by simpa [ancestor?, hg] using hreached, hholds, fun j hj g' hg' => ?_⟩
    cases j with
    | zero => exact Option.some.inj hg' ▸ hlocal
    | succ j => exact hnearer j (Nat.lt_of_succ_lt_succ hj) g' (by simpa [ancestor?, hg] using hg')

/-- Where links lead to older frames, the walk is not cut short. -/
theorem Linked.holder?_eq (hfs : fs.Linked) (f : FrameId) (name : String) :
    fs.holder? f name =
      if (fs.local? f name).isSome then some f
      else (fs.enclosing? f).bind (fs.holder? · name) := by
  rw [holder?]
  split
  · rfl
  · cases hg : fs.enclosing? f with
    | none => rfl
    | some g => exact if_pos (hfs f g hg)

/-- The walk finds the nearest holder. -/
theorem Linked.holder?_eq_some_iff (hfs : fs.Linked) :
    fs.holder? f name = some h ↔ fs.Finds f name h := by
  -- The chain is walked link by link; each link leads to an older frame.
  induction f using Nat.strongRecOn with
  | ind f ih =>
  rw [hfs.holder?_eq]
  constructor
  · intro hholder
    split at hholder
    case isTrue hlocal => exact ⟨0, nearestAt_zero.mpr ⟨(Option.some.inj hholder).symm, hlocal⟩⟩
    case isFalse hlocal =>
      obtain ⟨g, hg, hholder⟩ := Option.bind_eq_some_iff.mp hholder
      obtain ⟨k, hk⟩ := (ih g (hfs f g hg)).mp hholder
      exact ⟨k + 1, nearestAt_succ.mpr ⟨by simpa using hlocal, g, hg, hk⟩⟩
  · rintro ⟨k, hk⟩
    cases k with
    | zero =>
      obtain ⟨rfl, hlocal⟩ := nearestAt_zero.mp hk
      rw [if_pos hlocal]
    | succ k =>
      obtain ⟨hlocal, g, hg, hk⟩ := nearestAt_succ.mp hk
      rw [if_neg (by simp [hlocal]), hg]
      exact (ih g (hfs f g hg)).mpr ⟨k, hk⟩

/-- The walk finds nothing exactly where no frame of the chain holds the name. -/
theorem Linked.holder?_eq_none_iff (hfs : fs.Linked) :
    fs.holder? f name = none ↔ ∀ k g, fs.ancestor? k f = some g → fs.local? g name = none := by
  constructor
  · intro hnone k
    -- A frame that holds the name, and all nearer ones not, would be found.
    induction k using Nat.strongRecOn with
    | ind k ih =>
    intro g hg
    refine Option.eq_none_iff_forall_ne_some.mpr fun a ha => ?_
    have hnearest : fs.NearestAt f name k g := ⟨hg, by rw [ha]; rfl, ih⟩
    rw [hfs.holder?_eq_some_iff.mpr ⟨k, hnearest⟩] at hnone
    cases hnone
  · intro hchain
    refine Option.eq_none_iff_forall_ne_some.mpr fun g hg => ?_
    obtain ⟨k, hk⟩ := hfs.holder?_eq_some_iff.mp hg
    have hholds := hk.holds
    rw [hchain k g hk.reached] at hholds
    cases hholds

/-!
## What a write changes

A write sets one entry of one frame. Lookups that do not stop at this entry find what they found
before.
-/

/-- The forest `fs'` differs from `fs` in what the frame `h` binds to the name, which is now `a`,
and in nothing else. -/
structure Writes (fs fs' : Frames α) (h : FrameId) (name : String) (a : α) : Prop where
  size_eq : fs'.size = fs.size
  enclosing?_eq : ∀ g, fs'.enclosing? g = fs.enclosing? g
  local?_eq : fs'.local? h name = some a
  others : ∀ g other, ¬(g = h ∧ other = name) → fs'.local? g other = fs.local? g other

theorem writes_define (hf : f < fs.size) (name : String) (a : α) :
    fs.Writes (fs.define f name a) f name a where
  size_eq := size_define fs f name a
  enclosing?_eq g := enclosing?_define fs f g name a
  local?_eq := by rw [local?_define fs f f name name a hf, if_pos ⟨rfl, rfl⟩]
  others g other hne := by
    rw [local?_define fs f g name other a hf, if_neg fun h => hne ⟨h.1.symm, h.2.symm⟩]

namespace Writes

/-- The walk ends in the same frame in two forests with the same links and the same holders. -/
theorem holder?_congr (hw : fs.Writes fs' h name a)
    (hholds : ∀ g, (fs'.local? g other).isSome = (fs.local? g other).isSome) (f : FrameId) :
    fs'.holder? f other = fs.holder? f other := by
  fun_induction fs.holder? f other with
  | case1 f hlocal => rw [holder?, if_pos (by rwa [hholds])]
  | case2 f hlocal hlink => rw [holder?, if_neg (by rwa [hholds]), hw.enclosing?_eq, hlink]
  | case3 f hlocal g hlink hg ih =>
    rw [holder?, if_neg (by rwa [hholds]), hw.enclosing?_eq, hlink]
    simp only [hg, if_true, ih]
  | case4 f hlocal g hlink hg =>
    rw [holder?, if_neg (by rwa [hholds]), hw.enclosing?_eq, hlink]
    simp only [hg, if_false]

/-- What a name is found to be, where the name is another one. -/
theorem get?_of_ne (hw : fs.Writes fs' h name a) (hne : other ≠ name) (f : FrameId) :
    fs'.get? f other = fs.get? f other := by
  have hlocal : ∀ g, fs'.local? g other = fs.local? g other :=
    fun g => hw.others g other fun hg => hne hg.2
  unfold get?
  rw [hw.holder?_congr (fun g => by rw [hlocal]) f]
  exact Option.bind_congr fun g _ => hlocal g

/-- Writing where the name is held already leaves every nearest holder where it was. -/
theorem holder?_of_held (hw : fs.Writes fs' h name a) (hheld : (fs.local? h name).isSome)
    (f : FrameId) : fs'.holder? f name = fs.holder? f name := by
  refine hw.holder?_congr (fun g => ?_) f
  by_cases hg : g = h
  · rw [hg, hw.local?_eq, hheld]
    rfl
  · rw [hw.others g name fun h => hg h.1]

/-- A walk that does not end in the frame written to does not pass it either: that frame holds the
name now. So it ends where it ended before. -/
theorem holder?_of_not_seen (hw : fs.Writes fs' h name a) (f : FrameId)
    (hf : fs'.holder? f name ≠ some h) : fs'.holder? f name = fs.holder? f name := by
  -- The search did not end at the frame written to, so each frame that it passed is as before.
  have hlocal : ∀ f, fs'.holder? f name ≠ some h → fs'.local? f name = fs.local? f name := by
    intro f hf
    refine hw.others f name fun hfh => hf ?_
    rw [holder?, hfh.1, hw.local?_eq]
    rfl
  fun_induction fs.holder? f name with
  | case1 f hholds => rw [holder?, hlocal f hf, if_pos hholds]
  | case2 f hholds hlink => rw [holder?, hlocal f hf, if_neg hholds, hw.enclosing?_eq, hlink]
  | case3 f hholds g hlink hg ih =>
    have hstep : fs'.holder? f name = fs'.holder? g name := by
      rw [holder?, hlocal f hf, if_neg hholds, hw.enclosing?_eq, hlink]
      simp only [hg, if_true]
    rw [hstep] at hf ⊢
    exact ih hf
  | case4 f hholds g hlink hg =>
    rw [holder?, hlocal f hf, if_neg hholds, hw.enclosing?_eq, hlink]
    simp only [hg, if_false]

theorem get?_of_seen (hw : fs.Writes fs' h name a) (hf : fs'.holder? f name = some h) :
    fs'.get? f name = some a := by
  unfold get?
  rw [hf]
  exact hw.local?_eq

theorem get?_of_not_seen (hw : fs.Writes fs' h name a) (hf : fs'.holder? f name ≠ some h) :
    fs'.get? f name = fs.get? f name := by
  unfold get?
  rw [← hw.holder?_of_not_seen f hf]
  refine Option.bind_congr fun g hg => hw.others g name fun hgh => hf ?_
  rw [hg, hgh.1]

end Writes

/-!
## Where a write is seen

A frame sees the write if and only if its own search for the name ends at the frame that was
written.
-/

/-- A write is read through the chains that find the frame written to, as they are after it, and
through no others. -/
theorem Writes.seen (hw : fs.Writes fs' h name a) (hfs' : fs'.Linked) :
    (∀ g, fs'.Finds g name h → fs'.get? g name = some a) ∧
      ∀ g other, ¬(other = name ∧ fs'.Finds g name h) → fs'.get? g other = fs.get? g other := by
  constructor
  · intro g hg
    exact hw.get?_of_seen (hfs'.holder?_eq_some_iff.mpr hg)
  · intro g other hother
    by_cases hname : other = name
    · subst hname
      exact hw.get?_of_not_seen fun hholder =>
        hother ⟨rfl, hfs'.holder?_eq_some_iff.mp hholder⟩
    · exact hw.get?_of_ne hname g

/-- Walking to the nearest holder and counting the links to it come to the same frame. -/
theorem NearestAt.counted (hfs : fs.Linked) (hk : fs.NearestAt f name k h) (a : α) :
    (∃ v, fs.getAt k f name = .ok v ∧ fs.get? f name = some v) ∧
      ∃ fs', fs.assignAt k f name a = .ok fs' ∧ fs.assign? f name a = some fs' := by
  have hholder : fs.holder? f name = some h := hfs.holder?_eq_some_iff.mpr ⟨k, hk⟩
  obtain ⟨v, hv⟩ := Option.isSome_iff_exists.mp hk.holds
  constructor
  · refine ⟨v, ?_, ?_⟩
    · simp only [getAt, hk.reached, hv]
    · simp only [get?, hholder, Option.bind_some, hv]
  · refine ⟨fs.define h name a, ?_, ?_⟩
    · simp only [assignAt, hk.reached]
    · simp only [assign?, hholder, Option.map_some]

/-- **Writes through one handle are seen exactly where scoping says.** In every forest that
operations can build, for every frame `f` of it:

* `assign` fails if and only if no frame on the chain of `f` holds the name, and then it leaves the
  forest as it is;
* otherwise it changes one entry, that of the nearest holder. Afterwards the chains whose nearest
  holder that is read the new value, and every other chain, and every other name, is read as before;
* `define` changes the entry of `f`, and what is read changes only for that name and for the chains
  whose nearest holder is now `f`;
* counting the least distance at which the chain holds the name reads and writes as walking does. -/
theorem writes_seen_by_scoping (hfs : fs.Reachable) (hf : f < fs.size) (name : String) (a : α) :
    ((fs.assign? f name a = none ↔
        ∀ k g, fs.ancestor? k f = some g → fs.local? g name = none) ∧
      (fs.assign? f name a = none → fs.after [.assign f name a] = fs)) ∧
    (∀ fs', fs.assign? f name a = some fs' → ∃ h, fs.Finds f name h ∧ fs.Writes fs' h name a ∧
      (∀ g, fs.Finds g name h → fs'.get? g name = some a) ∧
      ∀ g other, ¬(other = name ∧ fs.Finds g name h) → fs'.get? g other = fs.get? g other) ∧
    (fs.Writes (fs.define f name a) f name a ∧
      (∀ g, (fs.define f name a).Finds g name f → (fs.define f name a).get? g name = some a) ∧
      ∀ g other, ¬(other = name ∧ (fs.define f name a).Finds g name f) →
        (fs.define f name a).get? g other = fs.get? g other) ∧
    ∀ k h, fs.NearestAt f name k h →
      (∃ v, fs.getAt k f name = .ok v ∧ fs.get? f name = some v) ∧
      ∃ fs', fs.assignAt k f name a = .ok fs' ∧ fs.assign? f name a = some fs' := by
  have hlinked := hfs.linked
  refine ⟨⟨?fails, ?unchanged⟩, ?assigns, ?defines, fun k h hk => hk.counted hlinked a⟩
  case fails => exact Option.map_eq_none_iff.trans hlinked.holder?_eq_none_iff
  case unchanged =>
    intro hnone
    simp only [after_cons, after_nil, Operation.run?, hnone, Option.getD_none]
  case assigns =>
    intro fs' hassign
    obtain ⟨h, hholder, rfl⟩ := Option.map_eq_some_iff.mp hassign
    obtain ⟨k, hk⟩ := hlinked.holder?_eq_some_iff.mp hholder
    obtain ⟨v, hv⟩ := Option.isSome_iff_exists.mp hk.holds
    have hw := writes_define (fs.lt_size_of_local? name hv) name a
    have hlinked' := hlinked.define h name a
    -- The frame held the name before, so the chains that find it are the same before and after.
    have hfinds : ∀ g, fs.Finds g name h ↔ (fs.define h name a).Finds g name h := by
      intro g
      rw [← hlinked.holder?_eq_some_iff, ← hlinked'.holder?_eq_some_iff,
        hw.holder?_of_held hk.holds]
    refine ⟨h, ⟨k, hk⟩, hw, ?_⟩
    simp only [hfinds]
    exact hw.seen hlinked'
  case defines =>
    have hw := writes_define hf name a
    exact ⟨hw, hw.seen (hlinked.define f name a)⟩

/-- Two functions of one script, of which the first has a variable `a` of its own: a write from a
block inside it is not seen from the second, which finds the global `a`. -/
theorem writes_seen_by_scoping_shadowed :
    ∃ fs fs' : Frames Nat,
      fs = empty.after [.new none, .define 0 "a" 1, .new (some 0), .define 1 "a" 2, .new (some 0),
        .new (some 1)] ∧
      3 < fs.size ∧ fs.assign? 3 "a" 7 = some fs' ∧
      fs'.get? 3 "a" = some 7 ∧ fs'.get? 1 "a" = some 7 ∧ fs'.get? 2 "a" = some 1 := by
  obtain ⟨fs, hfs⟩ : ∃ fs : Frames Nat, fs = empty.after [.new none, .define 0 "a" 1, .new (some 0),
    .define 1 "a" 2, .new (some 0), .new (some 1)] := ⟨_, rfl⟩
  have hsize : 3 < fs.size := by subst hfs; decide +kernel
  have hlinked : fs.Linked := Reachable.linked ⟨_, hfs.symm⟩
  obtain ⟨⟨hfails, -⟩, hassigns, -⟩ := writes_seen_by_scoping ⟨_, hfs.symm⟩ hsize "a" 7
  obtain ⟨fs', hassign⟩ : ∃ fs', fs.assign? 3 "a" 7 = some fs' := by
    refine Option.ne_none_iff_exists'.mp fun hnone => ?_
    have hempty := hfails.mp hnone 1 1
    subst hfs
    exact absurd (hempty (by decide +kernel)) (by decide +kernel)
  obtain ⟨h, hh, -, hseen, hother⟩ := hassigns fs' hassign
  -- Frame 3 is inside of 1, which holds the name itself. Frame 2 sees the outermost one.
  have hholders : fs.holder? 3 "a" = some 1 ∧ fs.holder? 1 "a" = some 1 ∧
      fs.holder? 2 "a" = some 0 ∧ fs.get? 2 "a" = some 1 := by subst hfs; decide +kernel
  obtain rfl : h = 1 := Option.some.inj
    ((hlinked.holder?_eq_some_iff.mpr hh).symm.trans hholders.1)
  refine ⟨fs, fs', hfs, hsize, hassign, hseen 3 hh,
    hseen 1 (hlinked.holder?_eq_some_iff.mp hholders.2.1), ?_⟩
  rw [hother 2 "a" fun hfinds => ?_, hholders.2.2.2]
  have hfound := hlinked.holder?_eq_some_iff.mpr hfinds.2
  rw [hholders.2.2.1] at hfound
  cases hfound

end Frames

end LoxLang
