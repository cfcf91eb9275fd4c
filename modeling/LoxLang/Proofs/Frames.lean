import LoxLang.Frames

/-!
# Laws of frames

What making a frame and binding a name do to every frame: to its own bindings, to its link, and to
the chain that starts at it.
-/

namespace LoxLang

namespace Bindings

variable {α : Type}

theorem get?_append (bs bs' : Bindings α) (name : String) :
    Bindings.get? (bs ++ bs') name = (bs.get? name).or (bs'.get? name) := by
  induction bs with
  | nil => rfl
  | cons b rest ih =>
    obtain ⟨key, a⟩ := b
    by_cases h : key = name
    · simp [get?, h]
    · simpa [get?, h] using ih

end Bindings

namespace Frames

variable {α : Type} (fs : Frames α) (f g : FrameId) (name other : String) (a : α) (frame : Frame α)

/-! ## Making a frame -/

@[simp]
theorem size_push : (fs.push frame).size = fs.size + 1 := Array.size_push _

theorem frame?_push :
    (fs.push frame).frame? f = if f = fs.size then some frame else fs.frame? f := by
  exact Array.getElem?_push

theorem frame?_eq_none_iff : fs.frame? f = none ↔ fs.size ≤ f := Array.getElem?_eq_none_iff

theorem local?_push :
    (fs.push frame).local? f name =
      if f = fs.size then frame.values.get? name else fs.local? f name := by
  unfold local?
  rw [frame?_push]
  split <;> rfl

theorem enclosing?_push :
    (fs.push frame).enclosing? f = if f = fs.size then frame.enclosing else fs.enclosing? f := by
  unfold enclosing?
  rw [frame?_push]
  split <;> rfl

theorem local?_of_size_le {f : FrameId} (h : fs.size ≤ f) : fs.local? f name = none := by
  unfold local?
  rw [(fs.frame?_eq_none_iff f).mpr h]
  rfl

theorem lt_size_of_local? {f : FrameId} {a : α} (h : fs.local? f name = some a) : f < fs.size := by
  refine Nat.lt_of_not_le fun hle => ?_
  rw [fs.local?_of_size_le name hle] at h
  cases h

theorem lt_size_of_enclosing? {f g : FrameId} (h : fs.enclosing? f = some g) : f < fs.size := by
  refine Nat.lt_of_not_le fun hle => ?_
  unfold enclosing? at h
  rw [(fs.frame?_eq_none_iff f).mpr hle] at h
  cases h

/-! ## Binding a name -/

@[simp]
theorem size_define : (fs.define f name a).size = fs.size := Array.size_modify

theorem frame?_define :
    (fs.define f name a).frame? g =
      if f = g then (fs.frame? g).map fun frame =>
        { frame with values := frame.values.insert name a }
      else fs.frame? g := by
  unfold define frame?
  rw [Array.getElem?_modify]

theorem local?_define (h : f < fs.size) :
    (fs.define f name a).local? g other =
      if f = g ∧ name = other then some a else fs.local? g other := by
  unfold local?
  rw [frame?_define]
  by_cases hfg : f = g
  · subst hfg
    obtain ⟨frame, hframe⟩ : ∃ frame, fs.frame? f = some frame :=
      Option.ne_none_iff_exists'.mp fun hnone =>
        Nat.not_lt.mpr ((fs.frame?_eq_none_iff f).mp hnone) h
    by_cases hname : name = other <;> simp [hframe, Bindings.get?_insert, hname]
  · simp [hfg]

@[simp]
theorem enclosing?_define : (fs.define f name a).enclosing? g = fs.enclosing? g := by
  unfold enclosing?
  rw [frame?_define]
  split
  · cases fs.frame? g <;> rfl
  · rfl

/-! ## The outermost frame -/

variable {fs}

/-- From a frame without a link, the walk finds what the frame itself holds. -/
theorem holder?_of_outermost (h : fs.enclosing? f = none) :
    fs.holder? f name = if (fs.local? f name).isSome then some f else none := by
  unfold holder?
  rw [h]

theorem get?_of_outermost (h : fs.enclosing? f = none) : fs.get? f name = fs.local? f name := by
  unfold get?
  rw [holder?_of_outermost f name h]
  cases hlocal : fs.local? f name <;> simp [hlocal]

end Frames

end LoxLang
