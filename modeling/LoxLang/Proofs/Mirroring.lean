import Mathlib.Data.List.Forall2

/-!
# Steps that mirror each other

A small relational logic for steps on a state that end with a result or give up. Two steps mirror
each other if from states that go together both end in the same way, with states and results that go
together again. The rules follow the way steps are put together, so that two programs of the same
shape are compared part by part.
-/

namespace LoxLang

variable {ε ε' σ σ' α α' β β' : Type}

/-- Two ends of the same kind: results that go together, or reasons to give up that do. -/
inductive EndsAlike (S : σ → σ' → Prop) (E : ε → ε' → Prop) (Q : α → α' → Prop) :
    EStateM.Result ε σ α → EStateM.Result ε' σ' α' → Prop
  | ok {a : α} {a' : α'} {s : σ} {s' : σ'} (ha : Q a a') (hs : S s s') :
      EndsAlike S E Q (.ok a s) (.ok a' s')
  | error {e : ε} {e' : ε'} {s : σ} {s' : σ'} (he : E e e') (hs : S s s') :
      EndsAlike S E Q (.error e s) (.error e' s')

theorem EndsAlike.imp {S S' : σ → σ' → Prop} {E : ε → ε' → Prop} {Q : α → α' → Prop}
    {r : EStateM.Result ε σ α} {r' : EStateM.Result ε' σ' α'} (h : EndsAlike S E Q r r')
    (himp : ∀ s s', S s s' → S' s s') : EndsAlike S' E Q r r' := by
  cases h with
  | ok ha hs => exact .ok ha (himp _ _ hs)
  | error he hs => exact .error he (himp _ _ hs)

/-- From states that go together, two steps end alike. -/
def Mirrors (S : σ → σ' → Prop) (E : ε → ε' → Prop) (Q : α → α' → Prop) (p : EStateM ε σ α)
    (p' : EStateM ε' σ' α') : Prop :=
  ∀ s s', S s s' → EndsAlike S E Q (p s) (p' s')

namespace Mirrors

variable {S : σ → σ' → Prop} {E : ε → ε' → Prop} {Q : α → α' → Prop} {R : β → β' → Prop}

theorem pure {a : α} {a' : α'} (h : Q a a') : Mirrors S E Q (pure a) (pure a') :=
  fun _ _ hs => .ok h hs

theorem throw {e : ε} {e' : ε'} (h : E e e') :
    Mirrors S E Q (throw e : EStateM ε σ α) (throw e' : EStateM ε' σ' α') :=
  fun _ _ hs => .error h hs

theorem get : Mirrors S E S (get : EStateM ε σ σ) (get : EStateM ε' σ' σ') :=
  fun _ _ hs => .ok hs hs

theorem bind {p : EStateM ε σ α} {p' : EStateM ε' σ' α'} {f : α → EStateM ε σ β}
    {f' : α' → EStateM ε' σ' β'} (hp : Mirrors S E Q p p')
    (hf : ∀ a a', Q a a' → Mirrors S E R (f a) (f' a')) : Mirrors S E R (p >>= f) (p' >>= f') := by
  intro s s' hs
  have hends := hp s s' hs
  show EndsAlike S E R (EStateM.bind p f s) (EStateM.bind p' f' s')
  unfold EStateM.bind
  generalize p s = r at hends
  generalize p' s' = r' at hends
  cases hends with
  | ok ha hs => exact hf _ _ ha _ _ hs
  | error he hs => exact .error he hs

/-- Steps that mirror each other with equal results hand on one and the same result. -/
theorem bind_same {p : EStateM ε σ α} {p' : EStateM ε' σ' α} {f : α → EStateM ε σ β}
    {f' : α → EStateM ε' σ' β'} (hp : Mirrors S E Eq p p')
    (hf : ∀ a, Mirrors S E R (f a) (f' a)) : Mirrors S E R (p >>= f) (p' >>= f') :=
  hp.bind fun a _ h => h ▸ hf a

theorem map {p : EStateM ε σ α} {p' : EStateM ε' σ' α'} {f : α → β} {f' : α' → β'}
    (hp : Mirrors S E Q p p') (hf : ∀ a a', Q a a' → R (f a) (f' a')) :
    Mirrors S E R (f <$> p) (f' <$> p') :=
  hp.bind fun a a' h => pure (hf a a' h)

theorem ite {c c' : Prop} [Decidable c] [Decidable c'] {p q : EStateM ε σ α}
    {p' q' : EStateM ε' σ' α'} (hc : c ↔ c') (hp : Mirrors S E Q p p')
    (hq : Mirrors S E Q q q') : Mirrors S E Q (if c then p else q) (if c' then p' else q') := by
  by_cases h : c
  · rw [if_pos h, if_pos (hc.mp h)]
    exact hp
  · rw [if_neg h, if_neg (mt hc.mpr h)]
    exact hq

/-- Steps for the items of lists that go together. -/
theorem forM {T : β → β' → Prop} {f : β → EStateM ε σ Unit} {f' : β' → EStateM ε' σ' Unit}
    {xs : List β} {xs' : List β'} (hxs : List.Forall₂ T xs xs')
    (hf : ∀ x x', T x x' → Mirrors S E Eq (f x) (f' x')) :
    Mirrors S E Eq (xs.forM f) (xs'.forM f') := by
  induction hxs with
  | nil => exact pure rfl
  | cons h _ ih => exact (hf _ _ h).bind_same fun _ => ih

end Mirrors

end LoxLang
