/-!
# Steps that may run out of depth

A small logic for steps whose innermost part can be filled in different ways, one of which is to do
nothing there because the levels have run out. Such a step is limited if it tells when its levels
run out: either it does the same whatever its innermost part is, or it gives up for a reason that
says so. And then it gives up at once: where the innermost part gives up for any other reason, so
does the step, in the same state. The rules follow the way steps are put together.
-/

namespace LoxLang

variable {B ε σ α β : Type}

/-- How the innermost part of steps can be filled. -/
structure Limit (B ε : Type) where
  /-- Nothing is done there: the levels have run out. -/
  nothing : B
  /-- The reasons to give up that say so. -/
  RanOut : ε → Prop
  /-- Nothing is done there but giving up for a reason, which no step takes for another one. -/
  Quits : B → ε → Prop

/-- How a step ends, whatever its innermost part is. -/
inductive Limit.Ends (limit : Limit B ε) (r : B → EStateM.Result ε σ α) : Prop
  | within (hsame : ∀ b, r b = r limit.nothing)
  | ranOut {e : ε} {s : σ} (hreason : limit.RanOut e) (hnothing : r limit.nothing = .error e s)
      (hquits : ∀ b x, limit.Quits b x → r b = .error x s)

/-- A step that tells when its levels run out. -/
def Limited (limit : Limit B ε) (p : B → EStateM ε σ α) : Prop :=
  ∀ s, limit.Ends fun b => p b s

namespace Limited

variable {limit : Limit B ε}

/-- A step without an innermost part. -/
theorem const (p : EStateM ε σ α) : Limited limit fun _ => p := fun _ => .within fun _ => rfl

/-- The innermost part itself. -/
theorem ranOut {p : B → EStateM ε σ α} {e : ε} (hreason : limit.RanOut e)
    (hnothing : p limit.nothing = throw e) (hquits : ∀ b x, limit.Quits b x → p b = throw x) :
    Limited limit p :=
  fun s => .ranOut hreason (congrFun hnothing s) fun b x hx => congrFun (hquits b x hx) s

theorem bind {p : B → EStateM ε σ α} {f : B → α → EStateM ε σ β} (hp : Limited limit p)
    (hf : ∀ a, Limited limit fun b => f b a) : Limited limit fun b => p b >>= f b := by
  intro s
  have hok : ∀ b a s₁, p b s = .ok a s₁ → (p b >>= f b) s = f b a s₁ := fun b a s₁ h => by
    show EStateM.bind (p b) (f b) s = _
    unfold EStateM.bind
    rw [h]
  have herror : ∀ b e s₁, p b s = .error e s₁ → (p b >>= f b) s = .error e s₁ := fun b e s₁ h => by
    show EStateM.bind (p b) (f b) s = _
    unfold EStateM.bind
    rw [h]
  -- Only if the first part is the same for all is there one second part to speak of.
  cases hp s with
  | within hsame =>
    cases hresult : p limit.nothing s with
    | ok a s₁ =>
      have hrest : ∀ b, (p b >>= f b) s = f b a s₁ :=
        fun b => hok b a s₁ ((hsame b).trans hresult)
      simp only [hrest]
      exact hf a s₁
    | error e s₁ =>
      refine .within fun b => ?_
      have hb : p b s = .error e s₁ := (hsame b).trans hresult
      exact (herror b e s₁ hb).trans (herror _ e s₁ hresult).symm
  | ranOut hreason hnothing hquits =>
    exact .ranOut hreason (herror _ _ _ hnothing) fun b x hx => herror b x _ (hquits b x hx)

/-- A step whose first part has no innermost part. -/
theorem andThen {p : EStateM ε σ α} {f : B → α → EStateM ε σ β}
    (hf : ∀ a, Limited limit fun b => f b a) : Limited limit fun b => p >>= f b :=
  (const p).bind hf

theorem map {p : B → EStateM ε σ α} (hp : Limited limit p) (f : α → β) :
    Limited limit fun b => f <$> p b :=
  hp.bind fun a => const (Pure.pure (f a))

theorem ite {c : Prop} [Decidable c] {p q : B → EStateM ε σ α} (hp : Limited limit p)
    (hq : Limited limit q) : Limited limit fun b => if c then p b else q b := by
  by_cases h : c
  · simp only [if_pos h]
    exact hp
  · simp only [if_neg h]
    exact hq

/-- One step for each item of a list. -/
theorem forM {f : B → β → EStateM ε σ Unit} (hf : ∀ x, Limited limit fun b => f b x)
    (xs : List β) : Limited limit fun b => xs.forM (f b) := by
  induction xs with
  | nil => exact const _
  | cons x xs ih => exact (hf x).bind fun _ => ih

end Limited

end LoxLang
