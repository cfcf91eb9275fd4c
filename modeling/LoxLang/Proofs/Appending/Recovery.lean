import LoxLang.Proofs.Appending.Rules

/-!
# Recovery on texts that go on

After a mistake, tokens are skipped up to the start of a statement. On a text that goes on the same
tokens are skipped, unless there is no such start before the end (`skipMistake_append`); and the
token at which the mistake was noticed is skipped in any case. So all rules of the grammar track
themselves (`tracking_grammar`).
-/

namespace LoxLang

open LoxLang.Parser Nested

variable {c : Surroundings} {n n' : Nat} {s s' : ParserState}

/-! ## Skipped tokens -/

theorem resume_suffix (previous : Token) (ts : List Token) : resume previous ts <:+ ts := by
  induction ts generalizing previous with
  | nil => exact List.suffix_refl _
  | cons t ts ih =>
    unfold resume
    split
    · exact List.suffix_refl _
    · exact (ih t).trans (List.suffix_cons t ts)

theorem skipMistake_suffix (ts : List Token) : skipMistake ts <:+ ts := by
  cases ts with
  | nil => exact List.suffix_refl _
  | cons t ts => exact (resume_suffix t ts).trans (List.suffix_cons t ts)

/-- The token at which a mistake was noticed is skipped in any case. -/
theorem length_skipMistake_lt {ts : List Token} (h : ts ≠ []) :
    (skipMistake ts).length < ts.length := by
  cases ts with
  | nil => exact absurd rfl h
  | cons t ts => exact Nat.lt_succ_of_le (resume_suffix t ts).length_le

theorem resume_append (previous : Token) (ts us : List Token) :
    resume previous (ts ++ us) = resume previous ts ++ us ∨ resume previous ts = [] := by
  -- By induction on the first tokens, in which a start is found or not.
  induction ts generalizing previous with
  | nil => exact .inr rfl
  | cons t ts ih =>
    rw [List.cons_append]
    unfold resume
    split
    · exact .inl rfl
    · exact ih t

theorem skipMistake_append (ts us : List Token) :
    skipMistake (ts ++ us) = skipMistake ts ++ us ∨ skipMistake ts = [] := by
  cases ts with
  | nil => exact .inr rfl
  | cons t ts => exact resume_append t ts us

/-!
## Declarations with mistakes

Recovery looks at tokens only. It does the same in both runs, unless the first one meets the end of
its tokens and the second goes on.
-/

/-- A state in which parsing has been taken up again after a mistake. -/
def ParserState.recovered (s : ParserState) : ParserState := { s with rest := skipMistake s.rest }

theorem advance_recovered (s : ParserState) : Advance False s s.recovered :=
  .quiet (skipMistake_suffix s.rest) rfl rfl rfl

theorem ParserState.Extends.recovered (hs : s.Extends c s') :
    s.recovered.Extends c s'.recovered ∨ (c.behind ≠ [] ∧ s.recovered.rest = []) := by
  have hbound := Nat.lt_of_le_of_lt (skipMistake_suffix s.rest).length_le hs.bound
  have hbound' := Nat.lt_of_le_of_lt (skipMistake_suffix s'.rest).length_le hs.bound'
  have hextends (hrest : skipMistake s'.rest = skipMistake s.rest ++ c.behind) :
      s.recovered.Extends c s'.recovered :=
    { hs with rest := hrest, bound := hbound, bound' := hbound' }
  rcases skipMistake_append s.rest c.behind with heq | hnil
  · left
    apply hextends
    rw [hs.rest, heq]
  · by_cases hbehind : c.behind = []
    · left
      apply hextends
      rw [hs.rest, hbehind, List.append_nil, List.append_nil]
    · exact .inr ⟨hbehind, hnil⟩

/-- What becomes of a declaration. One with a mistake is left out. -/
def takeUp : EStateM.Result ParserStop ParserState Stmt →
    EStateM.Result ParserStop ParserState (Option Stmt)
  | .ok d s => .ok (some d) s
  | .error .mistake s => .ok none s.recovered
  | .error .tooDeep s => .error .tooDeep s

theorem recovering_eq (inner : Nested) (s : ParserState) :
    inner.recovering s = takeUp (inner.declarationRule s) := by
  unfold recovering takeUp
  cases inner.declarationRule s with
  | ok d s₁ => rfl
  | error e s₁ => cases e <;> rfl

/-- What a declaration has reported need not be calm after recovery from a mistake. -/
theorem Ends.takeUp {calm : Prop} {r : EStateM.Result ParserStop ParserState Stmt}
    (h : Ends calm s r) : Ends False s (takeUp r) := by
  have hadvance := h.advance
  cases h with
  | ok _ => exact .ok hadvance
  | tooDeep _ => exact .tooDeep hadvance
  | mistake _ _ => exact .ok (hadvance.trans (advance_recovered _))

theorem RunsAlike.takeUp {settled : Prop} {r r' : EStateM.Result ParserStop ParserState Stmt}
    (h : RunsAlike c settled r r') : RunsAlike c False (takeUp r) (takeUp r') := by
  rcases h with hends | ⟨hbehind, hrest, -⟩
  -- Both have ended alike. Then both skip alike, unless only the first comes to its end.
  · cases hends with
    | ok hd hs => exact .inl (.ok (congrArg some hd) hs)
    | @error e e' s₁ s₁' he hs =>
      obtain rfl := he
      cases e with
      | tooDeep => exact .inl (.error rfl hs)
      | mistake =>
        rcases hs.recovered with hs | ⟨hbehind, hnil⟩
        · exact .inl (.ok rfl hs)
        · exact .inr ⟨hbehind, hnil, False.elim⟩
  -- The first has run out already, and skipping finds nothing.
  · refine .inr ⟨hbehind, ?_, False.elim⟩
    cases r with
    | ok d s₁ => exact hrest
    | error e s₁ =>
      cases e with
      | tooDeep => exact hrest
      | mistake =>
        have hs₁ : s₁.rest = [] := hrest
        show skipMistake s₁.rest = []
        rw [hs₁]
        rfl

section Recovering

variable {inner : Nested} (h : inner.Tracking c)
include h

theorem tracks_recovering (n n' : Nat) :
    Tracks c False False n n' inner.recovering inner.recovering := by
  have hrule := tracks_declarationRule h n n'
  constructor
  · intro s
    rw [recovering_eq]
    exact (hrule.advances s).takeUp
  · intro s s' hs hn hn'
    rw [recovering_eq, recovering_eq]
    exact (hrule.alike s s' hs hn hn').takeUp

theorem takes_recovering (s : ParserState) (d : Option Stmt) (s' : ParserState)
    (hrun : inner.recovering s = .ok d s') (hs : s.rest ≠ []) :
    s'.rest.length < s.rest.length := by
  have hends := (tracks_declarationRule h 0 0).advances s
  rw [recovering_eq] at hrun
  -- Either a declaration has been taken, or skipping takes the token with the mistake.
  cases hrule : inner.declarationRule s with
  | ok d₁ s₁ =>
    rw [hrule] at hrun
    cases hrun
    exact (closes_declarationRule h).length_lt hrule
  | error e s₁ =>
    rw [hrule] at hrun hends
    cases e with
    | tooDeep => cases hrun
    | mistake =>
      cases hrun
      show (skipMistake s₁.rest).length < s.rest.length
      by_cases hs₁ : s₁.rest = []
      · -- The mistake was noticed at the end, so what was there has been taken.
        rw [hs₁]
        exact List.length_pos_iff.mpr hs
      · exact Nat.lt_of_lt_of_le (length_skipMistake_lt hs₁) hends.advance.length_le

end Recovering

/-! ## Tying the knot -/

theorem tracking_grammar (c : Surroundings) (depth : Nat) : (grammar depth).Tracking c := by
  induction depth with
  | zero =>
    refine ⟨fun _ _ => .tooDeep, fun s d s' hrun => ?_, fun _ _ => .tooDeep, fun s d s' hrun => ?_,
      fun _ _ => .tooDeep, fun _ _ => .tooDeep⟩
    · cases hrun
    · cases hrun
  | succ depth ih =>
    exact ⟨tracks_recovering ih, takes_recovering ih, tracks_statementRule ih,
      closes_statementRule ih, tracks_assignment ih, tracks_unaryExpr ih⟩

/-- A declaration gives no mistake up: parsing has been taken up again behind it. -/
theorem declaration_cases (depth : Nat) (s : ParserState) :
    (∃ found s', (grammar depth).declaration s = .ok found s') ∨
      ∃ s', (grammar depth).declaration s = .error .tooDeep s' := by
  cases depth with
  | zero => exact .inr ⟨s, rfl⟩
  | succ depth =>
    show (∃ found s', (grammar depth).recovering s = .ok found s') ∨
      ∃ s', (grammar depth).recovering s = .error .tooDeep s'
    rw [recovering_eq]
    cases (grammar depth).declarationRule s with
    | ok d s₁ => exact .inl ⟨some d, s₁, rfl⟩
    | error e s₁ =>
      cases e with
      | mistake => exact .inl ⟨none, s₁.recovered, rfl⟩
      | tooDeep => exact .inr ⟨s₁, rfl⟩

end LoxLang
