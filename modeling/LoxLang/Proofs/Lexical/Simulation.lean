import LoxLang.Proofs.Lexical.Binding

/-!
# Simulation

A step with frames and a step with cells do the same (`Simulates`): from related states both end
with results that fit, or both end early for the same reason, and the states behind are related
again. The only way to end early for want of a variable is a use that may come too early (`Blamed`).

The module has the rules by which steps are put together, and the steps on variables.
-/

namespace LoxLang.Lexical

/-- If a run ends early because a name is missing, then a variable is to blame that was read where
its initializer was perhaps not over. -/
def Blamed (P : Visit → Prop) (e : Abort) : Prop :=
  ∀ e', e = .frame e' → ∃ v, P v ∧ v.kind = .«variable» ∧ v.Pending ∧ e' = .missing v.name

section Logic

variable (T : Distances) (P : Visit → Prop)

/-- The states behind a step, related through links that have grown. -/
structure Later (free : Option FrameId) (β : Links) (m : Machine) (β' : Links) (m' : Machine)
    (w' : Store) : Prop where
  current : m'.current = m.current
  grows : Grows free β m.frames β' m'.frames
  related : Related T P β' m' w'

/-- Two steps do the same from two states, and their results fit. -/
def Simulates {α α' : Type} (free : Option FrameId) (p : LoxLang.Run α) (q : Run α') (β : Links)
    (m : Machine) (w : Store) (Q : α → α' → Links → Frames Value → Prop) : Prop :=
  match p m, q w with
  | .ok a m', .ok a' w' => ∃ β', Later T P free β m β' m' w' ∧ Q a a' β' m'.frames
  | .error e m', .error e' w' => e = e' ∧ Blamed P e ∧ ∃ β', Later T P free β m β' m' w'
  | _, _ => False

/-- The results are the same. -/
def Same {α : Type} : α → α → Links → Frames Value → Prop := fun a a' _ _ => a = a'

end Logic

variable {T : Distances} {P : Visit → Prop} {α α' γ γ' : Type} {free : Option FrameId}
  {p : LoxLang.Run α} {q : Run α'} {f : α → LoxLang.Run γ} {g : α' → Run γ'} {β β' : Links}
  {m m' : Machine} {w w' : Store} {Q Q' : α → α' → Links → Frames Value → Prop}
  {R : γ → γ' → Links → Frames Value → Prop}

/-!
## Rules

Sequences of steps, and steps that change less than is allowed for.
-/

theorem Related.later (h : Related T P β m w) (free : Option FrameId) :
    Later T P free β m β m w := ⟨rfl, .refl free β m.frames, h⟩

namespace Simulates

theorem of_ok (a : α) (a' : α') (hp : p m = .ok a m') (hq : q w = .ok a' w')
    (hlater : Later T P free β m β' m' w') (hQ : Q a a' β' m'.frames) :
    Simulates T P free p q β m w Q := by
  unfold Simulates
  rw [hp, hq]
  exact ⟨β', hlater, hQ⟩

theorem of_error {e : Abort} (hp : p m = .error e m') (hq : q w = .error e w')
    (he : Blamed P e) (hlater : Later T P free β m β' m' w') :
    Simulates T P free p q β m w Q := by
  unfold Simulates
  rw [hp, hq]
  exact ⟨rfl, he, β', hlater⟩

theorem pure (a : α) (a' : α') (h : Related T P β m w) (hQ : Q a a' β m.frames) :
    Simulates T P free (pure a) (pure a') β m w Q :=
  of_ok a a' rfl rfl (h.later free) hQ

/-- Both end early. -/
theorem throw {e : Abort} (h : Related T P β m w) (he : ∀ e', e ≠ .frame e') :
    Simulates T P free (throw e) (throw e) β m w Q :=
  of_error rfl rfl (fun e' heq => absurd heq (he e')) (h.later free)

theorem fail (h : Related T P β m w) (place : Location) (e : RuntimeError) :
    Simulates T P free (LoxLang.Run.fail place e) (Run.fail place e) β m w Q :=
  throw h nofun

theorem mono (h : Simulates T P free p q β m w Q)
    (himp : ∀ a a' β' fs', Q a a' β' fs' → Q' a a' β' fs') : Simulates T P free p q β m w Q' := by
  unfold Simulates at h ⊢
  split at h
  · obtain ⟨β', hlater, hQ⟩ := h
    exact ⟨β', hlater, himp _ _ _ _ hQ⟩
  · exact h
  · exact h

theorem weaken (h : Simulates T P none p q β m w Q) (free : Option FrameId) :
    Simulates T P free p q β m w Q := by
  unfold Simulates at h ⊢
  split at h
  · obtain ⟨β', hlater, hQ⟩ := h
    exact ⟨β', ⟨hlater.current, hlater.grows.weaken free, hlater.related⟩, hQ⟩
  · obtain ⟨heq, he, β', hlater⟩ := h
    exact ⟨heq, he, β', hlater.current, hlater.grows.weaken free, hlater.related⟩
  · exact h

/-- The rule for one step after the other. What may change in either of them may change in the
whole. -/
theorem bind_of {free₀ : Option FrameId} (h : Simulates T P free₀ p q β m w Q)
    (hfree : ∀ β' fs', Grows free₀ β m.frames β' fs' → Grows free β m.frames β' fs')
    (hfg : ∀ a a' β' m' w', Later T P free₀ β m β' m' w' → Q a a' β' m'.frames →
      ∃ free', Simulates T P free' (f a) (g a') β' m' w' R ∧
        ∀ β'' fs'', Grows free' β' m'.frames β'' fs'' → Grows free β m.frames β'' fs'') :
    Simulates T P free (p >>= f) (q >>= g) β m w R := by
  unfold Simulates at h
  show match EStateM.bind p f m, EStateM.bind q g w with
    | .ok a m', .ok a' w' => _
    | .error e m', .error e' w' => _
    | _, _ => _
  unfold EStateM.bind
  split at h
  · next a m' a' w' hp hq =>
    rw [hp, hq]
    obtain ⟨β', hlater, hQ⟩ := h
    -- The second steps may have other links free to change than the whole has.
    obtain ⟨free', hnext, hgrow⟩ := hfg a a' β' m' w' hlater hQ
    unfold Simulates at hnext
    dsimp only
    split at hnext
    · obtain ⟨β'', hlater', hR⟩ := hnext
      exact ⟨β'', ⟨hlater'.current.trans hlater.current, hgrow _ _ hlater'.grows,
        hlater'.related⟩, hR⟩
    · obtain ⟨heq, he, β'', hlater'⟩ := hnext
      exact ⟨heq, he, β'', hlater'.current.trans hlater.current, hgrow _ _ hlater'.grows,
        hlater'.related⟩
    · exact hnext.elim
  · next e m' e' w' hp hq =>
    rw [hp, hq]
    obtain ⟨heq, he, β', hlater⟩ := h
    exact ⟨heq, he, β', hlater.current, hfree _ _ hlater.grows, hlater.related⟩
  · exact h.elim

theorem bind (h : Simulates T P free p q β m w Q)
    (hfg : ∀ a a' β' m' w', Later T P free β m β' m' w' → Q a a' β' m'.frames →
      Simulates T P free (f a) (g a') β' m' w' R) :
    Simulates T P free (p >>= f) (q >>= g) β m w R :=
  h.bind_of (fun _ _ hgrow => hgrow) fun a a' β' m' w' hlater hQ =>
    ⟨free, hfg a a' β' m' w' hlater hQ, fun _ _ hgrow => hlater.grows.trans hgrow⟩

/-- A step that leaves the frames of old places alone, and a step that need not do so. -/
theorem bind_none (h : Simulates T P none p q β m w Q)
    (hfg : ∀ a a' β' m' w', Later T P none β m β' m' w' → Q a a' β' m'.frames →
      Simulates T P free (f a) (g a') β' m' w' R) :
    Simulates T P free (p >>= f) (q >>= g) β m w R :=
  h.bind_of (fun _ _ hgrow => hgrow.weaken free) fun a a' β' m' w' hlater hQ =>
    ⟨free, hfg a a' β' m' w' hlater hQ, fun _ _ hgrow => (hlater.grows.weaken free).trans hgrow⟩

/-- A step that makes a frame, and a step that may change this frame. -/
theorem bind_made (h : Simulates T P free p q β m w Q)
    (hfg : ∀ a a' β' m' w', Later T P free β m β' m' w' → Q a a' β' m'.frames →
      ∃ made, m.frames.size ≤ made ∧ Simulates T P (some made) (f a) (g a') β' m' w' R) :
    Simulates T P free (p >>= f) (q >>= g) β m w R := by
  refine h.bind_of (fun _ _ hgrow => hgrow) fun a a' β' m' w' hlater hQ => ?_
  obtain ⟨made, hmade, hnext⟩ := hfg a a' β' m' w' hlater hQ
  exact ⟨some made, hnext, fun _ _ hgrow => hlater.grows.trans_made hgrow hmade⟩

theorem map {u : α → γ} {u' : α' → γ'} (h : Simulates T P free p q β m w Q)
    (hR : ∀ a a' β' fs', Q a a' β' fs' → R (u a) (u' a') β' fs') :
    Simulates T P free (u <$> p) (u' <$> q) β m w R := by
  have hmap := h.bind (f := fun a => Pure.pure (u a)) (g := fun a' => Pure.pure (u' a')) (R := R)
    fun a a' β' m' w' hlater hQ =>
      pure _ _ hlater.related (hR a a' β' m'.frames hQ)
  exact hmap

/-- Steps that look at the state first. -/
theorem get {f : Machine → LoxLang.Run γ} {g : Store → Run γ'}
    (h : Simulates T P free (f m) (g w) β m w R) :
    Simulates T P free (get >>= f) (get >>= g) β m w R := h

/-- Where a step is executed does not matter for what holds behind it. -/
theorem inFrame {frame : FrameId} (h : Simulates T P free p q β { m with current := frame } w Q) :
    Simulates T P free (LoxLang.Run.inFrame frame p) q β m w Q := by
  unfold Simulates at h ⊢
  unfold LoxLang.Run.inFrame
  -- The relation does not ask which frame is the present one.
  have hcome : ∀ {β' m' w'}, Later T P free β { m with current := frame } β' m' w' →
      Later T P free β m β' { m' with current := m.current } w' := fun hlater =>
    ⟨rfl, hlater.grows, hlater.related.frames, hlater.related.functions, hlater.related.classes,
      hlater.related.instances, hlater.related.output, hlater.related.clockReadings,
      hlater.related.distances⟩
  split at h
  · next a m' a' w' hp hq =>
    rw [hq]
    simp only [hp]
    obtain ⟨β', hlater, hQ⟩ := h
    exact ⟨β', hcome hlater, hQ⟩
  · next e m' e' w' hp hq =>
    rw [hq]
    simp only [hp]
    obtain ⟨heq, he, β', hlater⟩ := h
    exact ⟨heq, he, β', hcome hlater⟩
  · exact h.elim

end Simulates

end LoxLang.Lexical
