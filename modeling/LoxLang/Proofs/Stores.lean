import LoxLang.Machine

/-!
# Stores that are alike

Two lookups that find related things or both find nothing (`Found`), and two stores of the same size
that hold related things (`Alike`). Where classes are alike, what is looked up among their
superclasses is alike, too (`Alike.inLineage?`).
-/

namespace LoxLang

variable {α α' : Type} {R R' : α → α' → Prop}

/-! ## Lookups -/

/-- What two lookups find is related. -/
def Found (R : α → α' → Prop) : Option α → Option α' → Prop
  | none, none => True
  | some a, some a' => R a a'
  | _, _ => False

namespace Found

variable {a? : Option α} {a'? : Option α'}

theorem imp (h : Found R a? a'?) (himp : ∀ a a', R a a' → R' a a') : Found R' a? a'? := by
  unfold Found at h ⊢
  split at h
  · trivial
  · exact himp _ _ h
  · exact h

theorem cases (h : Found R a? a'?) :
    a? = none ∧ a'? = none ∨ ∃ a a', a? = some a ∧ a'? = some a' ∧ R a a' := by
  unfold Found at h
  split at h
  · exact .inl ⟨rfl, rfl⟩
  · next a a' => exact .inr ⟨a, a', rfl, rfl, h⟩
  · exact h.elim

end Found

/-!
## Stores

Two stores that grow in step: what is made in one is made in the other, under the same number. What
is related of their parts is a parameter, so the same lemmas serve for functions, classes and
instances.
-/

/-- Two stores of the same size hold related things. -/
structure Alike (R : α → α' → Prop) (as : Array α) (as' : Array α') : Prop where
  size : as.size = as'.size
  related : ∀ (i : Nat) a a', as[i]? = some a → as'[i]? = some a' → R a a'

namespace Alike

variable {as : Array α} {as' : Array α'}

theorem mono (h : Alike R as as') (himp : ∀ a a', R a a' → R' a a') : Alike R' as as' :=
  ⟨h.size, fun i a a' ha ha' => himp a a' (h.related i a a' ha ha')⟩

theorem of_self {R : α → α → Prop} (h : ∀ (i : Nat) a, as[i]? = some a → R a a) : Alike R as as :=
  ⟨rfl, fun i a a' ha ha' => by
    obtain rfl := Option.some.inj (ha.symm.trans ha')
    exact h i a ha⟩

theorem push {a : α} {a' : α'} (h : Alike R as as') (ha : R a a') :
    Alike R (as.push a) (as'.push a') := by
  refine ⟨by simp [h.size], fun i b b' hb hb' => ?_⟩
  rw [Array.getElem?_push] at hb hb'
  rw [← h.size] at hb'
  split at hb
  · next hi =>
    rw [if_pos hi] at hb'
    obtain rfl := Option.some.inj hb
    obtain rfl := Option.some.inj hb'
    exact ha
  · next hi =>
    rw [if_neg hi] at hb'
    exact h.related i b b' hb hb'

/-- What two such stores hold at a position. -/
theorem found (h : Alike R as as') (i : Nat) : Found R as[i]? as'[i]? := by
  have hsize := h.size
  unfold Found
  split
  · trivial
  · next a a' ha ha' => exact h.related i a a' ha ha'
  · next hnone hsome =>
    -- One of the two has something at the position and the other has not.
    rcases Nat.lt_or_ge i as.size with hi | hi
    · exact hsome _ _ (Array.getElem?_eq_getElem hi) (Array.getElem?_eq_getElem (hsize ▸ hi))
    · exact hnone (Array.getElem?_eq_none hi) (Array.getElem?_eq_none (hsize ▸ hi))

theorem eq {as' : Array α} (h : Alike Eq as as') : as = as' := by
  refine Array.ext_getElem? fun i => ?_
  rcases (h.found i).cases with ⟨hnone, hnone'⟩ | ⟨a, a', ha, ha', rfl⟩
  · rw [hnone, hnone']
  · rw [ha, ha']

/-- What is looked up among a class and its superclasses is related if it is in each class. -/
theorem inLineage? {β β' : Type} {Q : β → β' → Prop} {superclass : α → Option ClassId}
    {superclass' : α' → Option ClassId} {own? : α → Option β} {own'? : α' → Option β'}
    (h : Alike R as as') (hsuper : ∀ a a', R a a' → superclass a = superclass' a')
    (hown : ∀ a a', R a a' → Found Q (own? a) (own'? a')) (c : ClassId) :
    Found Q (LoxLang.inLineage? superclass own? as c)
      (LoxLang.inLineage? superclass' own'? as' c) := by
  induction c using Nat.strongRecOn with
  | ind c ih =>
    unfold LoxLang.inLineage?
    obtain ⟨hnone, hnone'⟩ | ⟨a, a', ha, ha', hrelated⟩ := (h.found c).cases
    · rw [hnone, hnone']
      trivial
    · rw [ha, ha']
      dsimp only
      rw [hsuper a a' hrelated]
      obtain ⟨hnone, hnone'⟩ | ⟨b, b', hb, hb', hQ⟩ := (hown a a' hrelated).cases
      · -- The class itself has nothing, so the lookup goes on in an older class.
        rw [hnone, hnone']
        dsimp only
        cases superclass' a' with
        | none => trivial
        | some d =>
          dsimp only
          split
          · next hlt => exact ih d hlt
          · trivial
      · rw [hb, hb']
        exact hQ

end Alike

end LoxLang
