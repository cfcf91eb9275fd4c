import LoxLang.Session

/-!
# Sources that are accepted

A session executes a source text if nothing is wrong with it and no error is left from before
(`Session.Accepts`). Else the text is refused, and nothing but its errors is remembered.
-/

namespace LoxLang.Session

/-- No static error was reported since the last reset, and none is found in a source text. -/
structure Accepts (depth : Nat) (s : Session) (source : String) : Prop where
  clear : s.hadError = false
  lexed : (lex source).reports = []
  parsed : (parse depth s.nextUse (lex source)).reports = []
  resolved : (resolve depth (lex source).endLine
    (parse depth s.nextUse (lex source)).statements).reports = []

variable {depth : Nat} {s : Session} {source : String}

/-- What an accepted source text does to the session. -/
theorem run_of_accepts (host : Host) (h : s.Accepts depth source) :
    s.run host depth source =
      let parsed := parse depth s.nextUse (lex source)
      let ending := executeProgram host depth (lex source).endLine parsed.statements
        (resolve depth (lex source).endLine parsed.statements).uses s.machine
      (⟨ending.2.output, [], ending.1⟩,
        { s with
          machine := ending.2
          nextUse := parsed.nextUse
          hadRuntimeError := s.hadRuntimeError || ending.1.isFailure }) := by
  unfold run
  simp only [h.lexed, h.parsed, h.resolved, h.clear, List.append_nil, List.isEmpty_nil,
    Bool.not_true, Bool.or_self, Bool.false_eq_true, if_false]

/-- What a refused source text does to the session: its uses keep their numbers, and there was an
error. -/
theorem run_of_not_accepts (host : Host) (h : ¬s.Accepts depth source) :
    ∃ reports, s.run host depth source =
        (⟨"", reports, .refused⟩,
          { s with nextUse := (parse depth s.nextUse (lex source)).nextUse, hadError := true }) ∧
      (s.hadError = false → reports ≠ []) := by
  unfold run
  dsimp only
  split
  · next herror =>
    rw [herror]
    -- Without an earlier error, it is the scanner or the parser that reports.
    refine ⟨_, rfl, fun hclear hnone => ?_⟩
    rw [hclear, hnone] at herror
    cases herror
  · next hread =>
    obtain ⟨hclear, hlexed, hparsed⟩ : s.hadError = false ∧ (lex source).reports = [] ∧
        (parse depth s.nextUse (lex source)).reports = [] := by
      simpa using hread
    split
    · next hresolved => exact ⟨_, rfl, fun _ => by simpa using hresolved⟩
    · next hresolved => exact absurd ⟨hclear, hlexed, hparsed, by simpa using hresolved⟩ h

/-- A run shows a report only of a source text that it refuses. -/
theorem not_accepts_of_reports_ne_nil {host : Host}
    (h : (s.run host depth source).1.reports ≠ []) : ¬s.Accepts depth source := fun ha => by
  rw [run_of_accepts host ha] at h
  exact h rfl

end LoxLang.Session
