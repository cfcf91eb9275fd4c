import LoxLang.Report

/-!
# Steps that report nothing

A small program logic for the stages before a program runs. They work on a state that holds the
reports made so far, and go on after most mistakes, so that a result by itself says little. What is
said here, `Unreported`, is what holds behind a step that has added no report. The rules follow the
way steps are put together.
-/

namespace LoxLang

variable {ε σ α β : Type} {reports : σ → List Report} {stops : ε → Prop}

/-- No report that was made gets lost. If none is added, then a step that ends with a result
satisfies a postcondition, and a step that gives up does not do so for any of some reasons. -/
def Unreported (reports : σ → List Report) (stops : ε → Prop) (p : EStateM ε σ α)
    (Q : σ → α → σ → Prop) : Prop :=
  ∀ s, match p s with
    | .ok a s' => reports s <+: reports s' ∧ (reports s' = reports s → Q s a s')
    | .error e s' => reports s <+: reports s' ∧ (stops e → reports s' ≠ reports s)

namespace Unreported

/-- If a chain of reports ends where it began, nothing was reported on the way. -/
theorem eq_of_grows {s s' s'' : σ} (h : reports s <+: reports s') (h' : reports s' <+: reports s'')
    (heq : reports s'' = reports s) : reports s' = reports s ∧ reports s'' = reports s' := by
  have hle := h.length_le
  have hle' := h'.length_le
  have hlen : (reports s'').length = (reports s).length := by rw [heq]
  exact ⟨(h.eq_of_length (by omega)).symm, (h'.eq_of_length (by omega)).symm⟩

theorem mono {p : EStateM ε σ α} {Q R : σ → α → σ → Prop} (h : Unreported reports stops p Q)
    (himp : ∀ s a s', Q s a s' → R s a s') : Unreported reports stops p R := by
  intro s
  specialize h s
  split at h
  · exact ⟨h.1, fun hr => himp _ _ _ (h.2 hr)⟩
  · exact h

theorem pure (a : α) :
    Unreported reports stops (pure a : EStateM ε σ α) fun s b s' => b = a ∧ s' = s :=
  fun _ => ⟨List.prefix_refl _, fun _ => ⟨rfl, rfl⟩⟩

/-- Nothing holds behind a step that gives up for a reason that is not reported. -/
theorem throw {e : ε} {Q : σ → α → σ → Prop} (h : ¬stops e) :
    Unreported reports stops (throw e : EStateM ε σ α) Q :=
  fun _ => ⟨List.prefix_refl _, fun hstop => absurd hstop h⟩

theorem bind {p : EStateM ε σ α} {f : α → EStateM ε σ β} {Q : σ → α → σ → Prop}
    {R : α → σ → β → σ → Prop} (hp : Unreported reports stops p Q)
    (hf : ∀ a, Unreported reports stops (f a) (R a)) :
    Unreported reports stops (p >>= f) fun s b s'' => ∃ a s', Q s a s' ∧ R a s' b s'' := by
  intro s
  specialize hp s
  show match EStateM.bind p f s with
    | .ok a s' => _
    | .error e s' => _
  unfold EStateM.bind
  split at hp
  · next a s' hrun =>
    rw [hrun]
    specialize hf a s'
    dsimp only
    split at hf
    · next b s'' _ =>
      refine ⟨hp.1.trans hf.1, fun heq => ?_⟩
      -- If the whole has reported nothing, then neither step has.
      obtain ⟨h, h'⟩ := eq_of_grows hp.1 hf.1 heq
      exact ⟨a, s', hp.2 h, hf.2 h'⟩
    · next e s'' _ =>
      refine ⟨hp.1.trans hf.1, fun he heq => ?_⟩
      exact hf.2 he (eq_of_grows hp.1 hf.1 heq).2
  · next e s' hrun =>
    rw [hrun]
    exact hp

theorem map {p : EStateM ε σ α} {Q : σ → α → σ → Prop} (f : α → β)
    (hp : Unreported reports stops p Q) :
    Unreported reports stops (f <$> p) fun s b s' => ∃ a, Q s a s' ∧ b = f a := by
  refine (hp.bind fun a => Unreported.pure (f a)).mono ?_
  rintro s b s'' ⟨a, s', h, rfl, rfl⟩
  exact ⟨a, h, rfl⟩

theorem ite {c : Prop} [Decidable c] {p q : EStateM ε σ α} {Q R : σ → α → σ → Prop}
    (hp : c → Unreported reports stops p Q) (hq : ¬c → Unreported reports stops q R) :
    Unreported reports stops (if c then p else q) fun s a s' => c ∧ Q s a s' ∨ ¬c ∧ R s a s' := by
  split
  · next h => exact (hp h).mono fun _ _ _ h' => .inl ⟨h, h'⟩
  · next h => exact (hq h).mono fun _ _ _ h' => .inr ⟨h, h'⟩

end Unreported

end LoxLang
