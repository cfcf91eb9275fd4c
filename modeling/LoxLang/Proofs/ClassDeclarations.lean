import LoxLang.Evaluation
import LoxLang.Proofs.Frames

/-!
# Class declarations without a detour

The methods of a class with a superclass are made in a frame of their own, into which the
declaration goes and out of which it comes by the frame's link. Nothing in between ends a run early,
so the same is done from the present frame, without going anywhere (`declareClass_eq`).
-/

namespace LoxLang

/-- A sequence whose first step ends normally goes on from there. -/
theorem Run.bind_of_ok {α β : Type} {p : Run α} {q : α → Run β} {a : α} {m m' : Machine}
    (h : p m = .ok a m') : (p >>= q) m = q a m' := by
  show EStateM.bind p q m = q a m'
  unfold EStateM.bind
  rw [h]

/-- A name that was defined is bound in the present frame. -/
theorem local?_define_current {m : Machine} (hcurrent : m.current < m.frames.size)
    (x : String) (v : Value) : (m.frames.define m.current x v).local? m.current x = some v := by
  rw [Frames.local?_define _ _ _ _ _ _ hcurrent]
  exact if_pos ⟨rfl, rfl⟩

/-- Writing a name that the present frame holds is defining it again. -/
theorem Run.writeFrom_current {name : Name} {m : Machine}
    (h : (m.frames.local? m.current name.text).isSome) (v : Value) :
    writeFrom m.current name v m = define name.text v m := by
  unfold writeFrom Frames.holder?
  rw [if_pos h]
  rfl

namespace Evaluator

/-- The frame in which the methods of a class are made. -/
def methodFrame (frame : FrameId) : Option ClassId → Run FrameId
  | none => return frame
  | some c => Run.newFrame frame [("super", .«class» c)]

/-- What a class declaration does once the superclass is known, without going into the frame in
which the methods are made. -/
def classBody (name : Name) (parent : Option ClassId)
    (instanceMethods classMethods : List FunctionDecl) : Run Unit := do
  Run.define name.text .nil
  let frame ← Run.currentFrame
  let statics ← staticMethods frame classMethods
  let inner ← methodFrame frame parent
  let id ← Run.newClass
    ⟨name.text, parent, methods inner instanceMethods, Bindings.insertMany [] statics⟩
  Run.writeFrom frame name (.«class» id)

variable (name : Name) (parent : Option ClassId) (m : Machine)

/-- Going into the frame of the methods and out of it again leads back to the present frame. -/
theorem aroundMethods_makeClass (instanceMethods : List FunctionDecl)
    (statics : Bindings FunctionId) :
    aroundMethods parent (makeClass name parent instanceMethods statics) m = (do
      let inner ← methodFrame m.current parent
      Run.newClass ⟨name.text, parent, methods inner instanceMethods, statics⟩) m := by
  cases parent with
  | none => rfl
  | some c =>
    have hback : (m.frames.push ⟨[("super", .«class» c)], some m.current⟩).enclosing?
        m.frames.size = some m.current := by
      rw [Frames.enclosing?_push, if_pos rfl]
    show EStateM.bind Run.leave _ _ = _
    unfold EStateM.bind Run.leave
    dsimp only
    rw [hback]
    rfl

theorem staticMethods_apply (frame : FrameId) (fs : List FunctionDecl) :
    ∃ ids functions, staticMethods frame fs m = .ok ids { m with functions } := by
  induction fs generalizing m with
  | nil => exact ⟨[], m.functions, rfl⟩
  | cons f fs ih =>
    obtain ⟨ids, functions, hrest⟩ :=
      ih { m with functions := m.functions.push (closureOf f frame false) }
    refine ⟨(f.name.text, m.functions.size) :: ids, functions, ?_⟩
    exact Run.bind_of_ok hrest

theorem declareClass_eq (instanceMethods classMethods : List FunctionDecl) :
    declareClass name parent instanceMethods classMethods =
      classBody name parent instanceMethods classMethods := by
  funext m
  obtain ⟨ids, functions, hstatics⟩ := staticMethods_apply
    { m with frames := m.frames.define m.current name.text .nil } m.current classMethods
  refine (Run.bind_of_ok hstatics).trans (Eq.trans ?_ (Run.bind_of_ok hstatics).symm)
  show EStateM.bind (aroundMethods parent _) _ _ = _
  unfold EStateM.bind
  rw [aroundMethods_makeClass]
  cases parent <;> rfl

/-- The class is bound to a name that the present frame holds by then. -/
theorem declareClass_eq_define (instanceMethods classMethods : List FunctionDecl)
    (h : m.current < m.frames.size) :
    declareClass name parent instanceMethods classMethods m = (do
      Run.define name.text .nil
      let frame ← Run.currentFrame
      let statics ← staticMethods frame classMethods
      let inner ← methodFrame frame parent
      let id ← Run.newClass
        ⟨name.text, parent, methods inner instanceMethods, Bindings.insertMany [] statics⟩
      Run.define name.text (.«class» id)) m := by
  -- The name has been bound in the present frame, so the nearest frame that holds it is this one.
  have hheld := Option.isSome_of_eq_some (local?_define_current h name.text .nil)
  rw [declareClass_eq]
  obtain ⟨ids, functions, hstatics⟩ := staticMethods_apply
    { m with frames := m.frames.define m.current name.text .nil } m.current classMethods
  refine (Run.bind_of_ok hstatics).trans (Eq.trans ?_ (Run.bind_of_ok hstatics).symm)
  -- The frame for `super` has been left again. It binds no other name.
  cases parent with
  | none => exact Run.writeFrom_current (m := ⟨_, _, _, _, m.current, _, _, _⟩) hheld _
  | some c =>
    refine Run.writeFrom_current (m := ⟨_, _, _, _, m.current, _, _, _⟩) ?_ _
    rw [Frames.local?_push, Frames.size_define, if_neg (Nat.ne_of_lt h)]
    exact hheld

end Evaluator

end LoxLang
