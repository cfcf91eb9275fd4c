import LoxLang.Proofs.ClassDeclarations
import LoxLang.Proofs.Watching

/-!
# How runs end

A run ends normally or early, and leaves a state behind in both cases. `Evolves R p` says that the
states before and behind a run of `p` are related, whichever way it ends; `Run.stateAfter` is the
state behind it.

Many steps only look at the state (`OnlyLooks`). They are dealt with here, once for all relations
and for all invariants.
-/

namespace LoxLang

/-- However a run ends, the states before and behind it are in a relation. -/
def Evolves {α : Type} (R : Machine → Machine → Prop) (p : Run α) : Prop :=
  ∀ m, match p m with
    | .ok _ m' => R m m'
    | .error _ m' => R m m'

/-- Two steps in sequence keep a transitive relation if each does. -/
theorem Evolves.bind {R : Machine → Machine → Prop} {α β : Type} {p : Run α} {q : α → Run β}
    (hp : Evolves R p) (htrans : ∀ {m m' m''}, R m m' → R m' m'' → R m m'')
    (hq : ∀ a, Evolves R (q a)) : Evolves R (p >>= q) := by
  intro m
  have hpm := hp m
  show match EStateM.bind p q m with
    | .ok _ m' => R m m'
    | .error _ m' => R m m'
  unfold EStateM.bind
  cases hresult : p m with
  | error e m' =>
    rw [hresult] at hpm
    -- A failing first step is the end of both.
    exact hpm
  | ok a m' =>
    rw [hresult] at hpm
    have hqm := hq a m'
    dsimp only
    cases hresult' : q a m' with
    | ok b m'' =>
      rw [hresult'] at hqm
      exact htrans hpm hqm
    | error e m'' =>
      rw [hresult'] at hqm
      exact htrans hpm hqm

/-!
## Steps that only look

Many steps read the state and leave it as it is. Whatever a relation asks of changes, such steps
keep it, so that they are dealt with once for all relations.
-/

/-- However a step ends, the state is what it was. -/
abbrev OnlyLooks {α : Type} (p : Run α) : Prop := Evolves Eq p

namespace OnlyLooks

variable {α β : Type}

/-- A step that only looks keeps every relation that each state has to itself. -/
theorem evolves {R : Machine → Machine → Prop} {p : Run α} (h : OnlyLooks p) (hR : ∀ m, R m m) :
    Evolves R p := by
  intro m
  have hpm := h m
  cases hresult : p m with
  | ok a m' =>
    rw [hresult] at hpm
    exact hpm ▸ hR m
  | error e m' =>
    rw [hresult] at hpm
    exact hpm ▸ hR m

theorem pure (a : α) : OnlyLooks (Pure.pure a) := fun _ => rfl

theorem throw (e : Abort) : OnlyLooks (throw e : Run α) := fun _ => rfl

/-- Looking, and then looking again. -/
theorem bind {p : Run α} {q : α → Run β} (hp : OnlyLooks p) (hq : ∀ a, OnlyLooks (q a)) :
    OnlyLooks (p >>= q) :=
  Evolves.bind hp Eq.trans hq

theorem fail (place : Location) (e : RuntimeError) : OnlyLooks (Run.fail place e : Run α) :=
  throw _

/-- A result that was computed without the state leaves the state alone, and so does the failure. -/
theorem orFail (place : Location) (r : Except RuntimeError α) : OnlyLooks (Run.orFail place r) := by
  cases r with
  | ok a => exact pure a
  | error e => exact fail place e

theorem currentFrame : OnlyLooks Run.currentFrame := fun _ => rfl

theorem distance (id : UseId) : OnlyLooks (Run.distance? id) := fun _ => rfl

/-- Reading by distance finds a value or fails. -/
theorem readAt (d : Nat) (f : FrameId) (x : String) : OnlyLooks (Run.readAt d f x) := by
  intro m
  unfold Run.readAt
  cases m.frames.getAt d f x <;> rfl

/-- Reading by name from a frame outwards finds a value or fails. -/
theorem readFrom (f : FrameId) (name : Name) : OnlyLooks (Run.readFrom f name) := by
  intro m
  unfold Run.readFrom
  cases m.frames.get? f name.text <;> rfl

/-- Whether the table has a distance for a use or not, reading only looks. -/
theorem readVariable (id : UseId) (name : Name) : OnlyLooks (Run.readVariable id name) := by
  refine bind (distance id) fun d? => ?_
  cases d? with
  | none => exact readFrom _ name
  | some d => exact bind currentFrame fun f => readAt d f name.text

/-- A static method is a function that is there already, so looking it up makes none. -/
theorem staticProperty (c : ClassId) (name : Name) : OnlyLooks (Run.staticProperty c name) := by
  intro m
  unfold Run.staticProperty
  cases m.staticMethod? c name.text <;> rfl

/-- The superclass is the value of a variable. -/
theorem superclass (use : VariableUse) : OnlyLooks (Evaluator.superclass use) := by
  refine bind (readVariable use.id use.name) fun v => ?_
  split
  · exact pure _
  · exact fail _ _

/-- What a call gives is known when its body has ended, or is looked up. -/
theorem callResult (c : Closure) (completion : Completion) :
    OnlyLooks (Evaluator.callResult c completion) := by
  unfold Evaluator.callResult
  split
  · exact readAt 0 c.frame "this"
  · cases completion with
    | normal => exact pure _
    | returned v => exact pure v

end OnlyLooks

/-!
## The state behind a run

Whether a run succeeds or fails, there is a state behind it, and what has been shown of all ends
holds there.
-/

/-- The state that a run leaves behind, however it ends. -/
def Run.stateAfter {α : Type} (p : Run α) (m : Machine) : Machine :=
  match p m with
  | .ok _ m' => m'
  | .error _ m' => m'

/-- A relation that is kept relates a state to the one behind a run. -/
theorem Evolves.stateAfter {R : Machine → Machine → Prop} {α : Type} {p : Run α}
    (h : Evolves R p) (m : Machine) : R m (p.stateAfter m) := by
  have hm := h m
  unfold Run.stateAfter
  cases hresult : p m with
  | ok a m' =>
    rw [hresult] at hm
    exact hm
  | error e m' =>
    rw [hresult] at hm
    exact hm

/-- The same of a run that is known to succeed. -/
theorem Evolves.of_eq_ok {R : Machine → Machine → Prop} {α : Type} {p : Run α} {a : α}
    {m m' : Machine} (h : Evolves R p) (hp : p m = .ok a m') : R m m' := by
  have hm := h m
  rw [hp] at hm
  exact hm

/-- What a sequence of two steps that ended normally went through. -/
theorem Run.bind_eq_ok {α β : Type} {p : Run α} {q : α → Run β} {m m' : Machine} {b : β}
    (h : (p >>= q) m = .ok b m') : ∃ a m₁, p m = .ok a m₁ ∧ q a m₁ = .ok b m' := by
  change EStateM.bind p q m = .ok b m' at h
  unfold EStateM.bind at h
  cases hresult : p m with
  | error e m₁ =>
    rw [hresult] at h
    cases h
  | ok a m₁ =>
    rw [hresult] at h
    exact ⟨a, m₁, rfl, h⟩

end LoxLang
