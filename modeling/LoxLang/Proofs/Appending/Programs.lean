import LoxLang.Proofs.Appending.Recovery

/-!
# Programs, declaration by declaration

What a run of `program` does with the next declaration (`program_of_nil`, `program_succ`), that it
gives a result (`program_total`), and that this depends neither on how often loops may be entered
nor on the reports from before, but only on the tokens ahead (`program_same`).
-/

namespace LoxLang

open LoxLang.Parser Nested

variable {c : Surroundings} {s s' : ParserState}

/-- Statements in front of those that a parser gives. -/
def prepend (ss : List Stmt) : EStateM.Result ParserStop ParserState (List Stmt) →
    EStateM.Result ParserStop ParserState (List Stmt)
  | .ok others s => .ok (ss ++ others) s
  | .error e s => .error e s

theorem prepend_nil (r : EStateM.Result ParserStop ParserState (List Stmt)) :
    prepend [] r = r := by
  cases r <;> rfl

theorem prepend_prepend (ss ss' : List Stmt)
    (r : EStateM.Result ParserStop ParserState (List Stmt)) :
    prepend ss (prepend ss' r) = prepend (ss ++ ss') r := by
  cases r with
  | ok others s => exact congrArg (EStateM.Result.ok · s) (List.append_assoc ss ss' others).symm
  | error e s => rfl

/-! ## Steps of a program -/

section Steps

variable {rules : Nested} {n : Nat}

theorem program_of_nil (h : s.rest = []) : program rules n s = .ok [] s := by
  cases n with
  | zero => rfl
  | succ n =>
    unfold program
    rw [h]
    rfl

/-- What follows a declaration. One that is nested too deeply is reported, and the program ends. -/
def goOn (next : ParserState → EStateM.Result ParserStop ParserState (List Stmt)) :
    EStateM.Result ParserStop ParserState (Option Stmt) →
      EStateM.Result ParserStop ParserState (List Stmt)
  | .ok first s => prepend first.toList (next s)
  | .error _ s => .ok [] (s.reporting s.location .nesting)

theorem program_succ (hs : s.rest ≠ []) :
    program rules (n + 1) s = goOn (program rules n) (rules.declaration s) := by
  have hne : s.rest.isEmpty = false := by simpa using hs
  conv_lhs => unfold program
  simp only [hne, Bool.false_eq_true, if_false]
  cases rules.declaration s with
  | ok first s₁ =>
    show _ = prepend first.toList (program rules n s₁)
    dsimp only
    cases program rules n s₁ <;> rfl
  | error e s₁ => exact bind_of_ok (here_eq s₁)

end Steps

/-!
## Whole programs

The loop over declarations ends when no token is left, or at the report that the nesting is too
deep. Whichever it is, any fuel that is large enough gives the same.
-/

/-- How a program ends: with no token left, or with the report that something is nested too deeply
as the last one. -/
def ParserState.Exhausted (s : ParserState) : Prop :=
  s.rest = [] ∨ ∃ s' : ParserState, s = s'.reporting s'.location .nesting

theorem advance_program (depth n : Nat) (s : ParserState) :
    Advance False s (stateOf (program (grammar depth) n s)) := by
  induction n generalizing s with
  | zero => exact .refl s
  | succ n ih =>
    by_cases hs : s.rest = []
    · rw [program_of_nil hs]
      exact .refl s
    -- A declaration and the program behind it only go forward, and so does a report.
    have hadvance := (((tracking_grammar ⟨[], []⟩ depth).declaration 0 0).advances s).advance
    rw [program_succ hs]
    cases hrun : (grammar depth).declaration s with
    | error e s₁ =>
      rw [hrun] at hadvance
      exact hadvance.trans (.reporting s₁ _ False.elim)
    | ok first s₁ =>
      rw [hrun] at hadvance
      have hrest := ih s₁
      show Advance False s (stateOf (prepend first.toList (program (grammar depth) n s₁)))
      cases hrun' : program (grammar depth) n s₁ <;> rw [hrun'] at hrest <;>
        exact hadvance.trans hrest

/-- **A program has a result.** Parsing goes on until no token is left or something is nested too
deeply. -/
theorem program_total (depth : Nat) {n : Nat} (hn : s.rest.length < n) :
    ∃ ss s', program (grammar depth) n s = .ok ss s' ∧ s'.Exhausted := by
  -- By induction on how often a declaration can be begun: each one takes a token.
  induction n generalizing s with
  | zero => exact absurd hn (Nat.not_lt_zero _)
  | succ n ih =>
    by_cases hs : s.rest = []
    · exact ⟨[], s, program_of_nil hs, .inl hs⟩
    rw [program_succ hs]
    cases hrun : (grammar depth).declaration s with
    | error e s₁ => exact ⟨[], _, rfl, .inr ⟨s₁, rfl⟩⟩
    | ok first s₁ =>
      have htakes := (tracking_grammar ⟨[], []⟩ depth).takes s first s₁ hrun hs
      obtain ⟨ss, s₂, hrest, hend⟩ := ih (s := s₁) (by omega)
      refine ⟨first.toList ++ ss, s₂, ?_, hend⟩
      show prepend first.toList (program (grammar depth) n s₁) = _
      rw [hrest]
      rfl

theorem EndsAlike.prepend {r r' : EStateM.Result ParserStop ParserState (List Stmt)}
    (h : EndsAlike (ParserState.Extends c) Eq Eq r r') (ss : List Stmt) :
    EndsAlike (ParserState.Extends c) Eq Eq (prepend ss r) (prepend ss r') := by
  cases h with
  | ok hss hs => exact .ok (congrArg (ss ++ ·) hss) hs
  | error he hs => exact .error he hs

/-- Two runs on the same tokens, each with enough rounds, end alike. -/
theorem program_same (depth : Nat) {n n' : Nat} (hbehind : c.behind = []) (hs : s.Extends c s')
    (hn : s.rest.length < n) (hn' : s'.rest.length < n') :
    EndsAlike (ParserState.Extends c) Eq Eq (program (grammar depth) n s)
      (program (grammar depth) n' s') := by
  -- By induction on the rounds of the first run. The second may have more of them to spare.
  induction n generalizing n' s s' with
  | zero => exact absurd hn (Nat.not_lt_zero _)
  | succ n ih =>
    have hrest : s'.rest = s.rest := by rw [hs.rest, hbehind, List.append_nil]
    by_cases hempty : s.rest = []
    · rw [program_of_nil hempty, program_of_nil (hrest.trans hempty)]
      exact .ok rfl hs
    have hempty' : s'.rest ≠ [] := fun h => hempty (hrest.symm.trans h)
    cases n' with
    | zero => exact absurd hn' (Nat.not_lt_zero _)
    | succ n' =>
      have htracks := tracking_grammar c depth
      have halike := (htracks.declaration _ _).alike s s' hs hn hn'
      rw [program_succ hempty, program_succ hempty']
      generalize hrun : (grammar depth).declaration s = r at halike
      generalize hrun' : (grammar depth).declaration s' = r' at halike
      rcases halike with hends | hout
      · cases hends with
        | @ok first first' s₁ s₁' hfirst hs₁ =>
          obtain rfl := hfirst
          have htakes := htracks.takes s first s₁ hrun hempty
          have htakes' := htracks.takes s' first s₁' hrun' hempty'
          exact (ih hs₁ (by omega) (by omega)).prepend _
        | @error e e' s₁ s₁' _ hs₁ =>
          rcases hs₁.location_eq with heq | hout
          · refine .ok rfl { hs₁ with reports := ?_ }
            show s₁'.reports ++ _ = c.before ++ (s₁.reports ++ _)
            rw [heq, hs₁.reports, List.append_assoc]
          · exact absurd hbehind hout.1
      · exact absurd hbehind hout.1

end LoxLang
