import LoxLang.Proofs.Depth.Evaluation
import LoxLang.Proofs.Depth.Resolving
import LoxLang.Proofs.Sessions

/-!
# Runs within a depth

A run has three stages, each with its own rules and the same number of levels of them. Beyond these
levels there may be more levels, or any other rules, or nothing. If a run does not tell that its
levels have run out, it is the same whatever lies beyond them (`run_ends`), and so is a whole
session (`deeper_levels_same`).
-/

namespace LoxLang

/-- The rules of the three stages of a run. -/
structure Stages where
  parsing : Nested
  resolving : ScopeWalk
  evaluation : Evaluator

namespace Stages

/-- Nothing can be nested any further. -/
def nothing : Stages := ⟨.innermost, .innermost, .innermost⟩

/-- Nothing can be nested any further, and evaluation gives up there for a reason. -/
def quitting (reason : Abort) : Stages := ⟨.innermost, .innermost, .quitting reason⟩

/-- The rules around rules one level further in. -/
def around (host : Host) (inner : Stages) : Stages :=
  ⟨inner.parsing.around, inner.resolving.around, inner.evaluation.around host⟩

/-- Levels of rules around rules beyond them. -/
def levels (host : Host) (beyond : Stages) : Nat → Stages
  | 0 => beyond
  | depth + 1 => (levels host beyond depth).around host

variable {host : Host}

theorem levels_nothing (depth : Nat) :
    nothing.levels host depth = ⟨grammar depth, scopeWalk depth, LoxLang.evaluator host depth⟩ := by
  induction depth with
  | zero => rfl
  | succ depth ih =>
    unfold levels
    rw [ih]
    rfl

/-- Levels around levels are levels. -/
theorem levels_levels (beyond : Stages) (more depth : Nat) :
    (beyond.levels host more).levels host depth = beyond.levels host (more + depth) := by
  induction depth with
  | zero => rfl
  | succ depth ih =>
    show ((beyond.levels host more).levels host depth).around host = _
    rw [ih]
    rfl

/-! ## Levels of rules tell when they run out -/

theorem limitedGrammar_levels (host : Host) (depth : Nat) :
    LimitedGrammar nothing fun b => (b.levels host depth).parsing := by
  induction depth with
  | zero => exact .atLimit rfl
  | succ depth ih => exact ih.around

theorem limitedWalk_levels (host : Host) (depth : Nat) :
    LimitedWalk nothing fun b => (b.levels host depth).resolving := by
  induction depth with
  | zero => exact .atLimit rfl
  | succ depth ih => exact ih.around

theorem limitedEvaluator_levels (host : Host) (depth : Nat) :
    LimitedEvaluator nothing (·.evaluation) fun b => (b.levels host depth).evaluation := by
  induction depth with
  | zero => exact .atLimit rfl
  | succ depth ih => exact ih.around host

end Stages

/-!
## Runs by rules

A run is that of its three stages. If any of them gives up for want of levels, the run says so;
otherwise more levels have nothing to change.
-/

namespace Session

/-- Executes the statements of a program by some rules. -/
def executeProgramBy (rules : Evaluator) (endLine : Nat) (program : List Stmt)
    (uses : List Resolved) (m : Machine) : Ending × Machine :=
  let m := { m with output := "", distances := m.distances.insertAll uses }
  match executeBy rules program m with
  | .ok _ m => (.finished, m)
  | .error abort m => (.ofAbort endLine abort, m)

/-- Runs a source text by the rules of each stage. -/
def runBy (stages : Stages) (s : Session) (source : String) : Transcript × Session :=
  let lexed := lex source
  let parsed := parseBy stages.parsing s.nextUse lexed
  let reports := lexed.reports ++ parsed.reports
  let s := { s with nextUse := parsed.nextUse, hadError := s.hadError || !reports.isEmpty }
  if s.hadError then (⟨"", reports, .refused⟩, s)
  else
    let resolution := resolveBy stages.resolving lexed.endLine parsed.statements
    if !resolution.reports.isEmpty then
      (⟨"", resolution.reports, .refused⟩, { s with hadError := true })
    else
      let (ending, machine) := executeProgramBy stages.evaluation lexed.endLine
        parsed.statements resolution.uses s.machine
      (⟨machine.output, [], ending⟩,
        { s with machine, hadRuntimeError := s.hadRuntimeError || ending.isFailure })

theorem run_eq_runBy (host : Host) (depth : Nat) (s : Session) (source : String) :
    s.run host depth source = s.runBy (Stages.nothing.levels host depth) source := by
  rw [Stages.levels_nothing]
  rfl

/-- How a run tells that its levels have run out. Either this is reported and nothing is executed,
or execution ends with a stack overflow, and at once: in the state in which it would also end if
what lies beyond the levels gave up for any other reason. -/
inductive TellsTooDeep (host : Host) (depth : Nat) (s : Session) (source : String) : Prop
  | refused (reports : List Report) (hreports : TooNested reports)
      (hrun : s.run host depth source = (⟨"", reports, .refused⟩,
        { s with nextUse := (parse depth s.nextUse (lex source)).nextUse, hadError := true }))
  | aborted (place : Location) (m : Machine)
      (hrun : s.run host depth source = (⟨m.output, [], .failed ⟨place, .stackOverflow⟩⟩,
        { s with
          machine := m
          nextUse := (parse depth s.nextUse (lex source)).nextUse
          hadRuntimeError := true }))
      (hquits : ∀ reason, reason ≠ .tooDeep →
        let ending := Ending.ofAbort (lex source).endLine reason
        s.runBy ((Stages.quitting reason).levels host depth) source = (⟨m.output, [], ending⟩,
          { s with
            machine := m
            nextUse := (parse depth s.nextUse (lex source)).nextUse
            hadRuntimeError := s.hadRuntimeError || ending.isFailure }))

section Cases

variable {stages : Stages} {s : Session} {source : String} {parsed : Parsed}
  (hparsed : parseBy stages.parsing s.nextUse (lex source) = parsed)
include hparsed

/-- What is wrong with a source text before it is resolved keeps it from being executed. -/
theorem runBy_of_misread
    (h : (s.hadError || !((lex source).reports ++ parsed.reports).isEmpty) = true) :
    s.runBy stages source = (⟨"", (lex source).reports ++ parsed.reports, .refused⟩,
      { s with nextUse := parsed.nextUse, hadError := true }) := by
  unfold runBy
  simp only [hparsed, h, if_true]

variable (h : (s.hadError || !((lex source).reports ++ parsed.reports).isEmpty) = false)
  {resolution : Resolution}
  (hresolved : resolveBy stages.resolving (lex source).endLine parsed.statements = resolution)
include h hresolved

theorem runBy_of_unresolved (hreports : resolution.reports ≠ []) :
    s.runBy stages source = (⟨"", resolution.reports, .refused⟩,
      { s with nextUse := parsed.nextUse, hadError := true }) := by
  have hsome : resolution.reports.isEmpty = false := by simpa using hreports
  unfold runBy
  simp only [hparsed, h, hresolved, hsome, Bool.false_eq_true, Bool.not_false, if_true, if_false]

theorem runBy_of_resolved (hreports : resolution.reports = []) :
    s.runBy stages source =
      let executed := executeProgramBy stages.evaluation (lex source).endLine parsed.statements
        resolution.uses s.machine
      (⟨executed.2.output, [], executed.1⟩,
        { s with
          machine := executed.2
          nextUse := parsed.nextUse
          hadRuntimeError := s.hadRuntimeError || executed.1.isFailure }) := by
  have hclear : s.hadError = false := (Bool.or_eq_false_iff.mp h).1
  unfold runBy
  simp only [hparsed, h, hresolved, hreports, List.isEmpty_nil, Bool.not_true, Bool.false_eq_true,
    if_false]
  rw [hclear]

end Cases

/-- What a program does by rules that tell when their levels run out. -/
theorem executeProgramBy_ends {B : Type} {nothing : B} {beyond inner : B → Evaluator}
    (h : LimitedEvaluator nothing beyond inner) (endLine : Nat) (program : List Stmt)
    (uses : List Resolved) (m : Machine) :
    (∀ b, executeProgramBy (inner b) endLine program uses m =
      executeProgramBy (inner nothing) endLine program uses m) ∨
    ∃ place m', executeProgramBy (inner nothing) endLine program uses m =
        (.failed ⟨place, .stackOverflow⟩, m') ∧
      ∀ b reason, reason ≠ .tooDeep → beyond b = .quitting reason →
        executeProgramBy (inner b) endLine program uses m = (.ofAbort endLine reason, m') := by
  unfold executeProgramBy
  dsimp only
  cases h.executeBy program { m with output := "", distances := m.distances.insertAll uses } with
  -- Within the levels nothing depends on what lies beyond them.
  | within hsame =>
    dsimp only at hsame
    exact .inl fun b => by rw [hsame b]; rfl
  | @ranOut e m' hreason hnothing hquits =>
    dsimp only at hnothing hquits
    obtain ⟨place, hplace⟩ := hreason.ending endLine
    -- Beyond them the run quits in one state, whatever the reason for which it is told to.
    refine .inr ⟨place, m', ?_, fun b reason hne hb => ?_⟩
    · have hrun : executeBy (inner nothing) program
          { m with output := "", distances := m.distances.insertAll uses } = .error e m' := hnothing
      rw [hrun, ← hplace]
    · rw [hquits b reason ⟨hne, hb⟩]

theorem parseBy_nothing (host : Host) (depth : Nat) (firstUse : UseId) (lexed : Lexed) :
    parseBy (Stages.nothing.levels host depth).parsing firstUse lexed =
      parse depth firstUse lexed := by
  rw [Stages.levels_nothing]
  rfl

theorem resolveBy_nothing (host : Host) (depth endLine : Nat) (statements : List Stmt) :
    resolveBy (Stages.nothing.levels host depth).resolving endLine statements =
      resolve depth endLine statements := by
  rw [Stages.levels_nothing]
  rfl

/-- Tokens are parsed the same whatever lies beyond the levels; or else it is reported that these
have run out. -/
theorem parse_ends (host : Host) (depth : Nat) (firstUse : UseId) (lexed : Lexed) :
    (∀ beyond : Stages, parseBy (beyond.levels host depth).parsing firstUse lexed =
      parse depth firstUse lexed) ∨ TooNested (parse depth firstUse lexed).reports := by
  rw [← parseBy_nothing host]
  by_cases hnested : TooNested
      (parseBy (Stages.nothing.levels host depth).parsing firstUse lexed).reports
  · exact .inr hnested
  · exact .inl ((Stages.limitedGrammar_levels host depth).parseBy_eq hnested)

/-- A tree is resolved the same whatever lies beyond the levels; or else it is reported that these
have run out. -/
theorem resolve_ends (host : Host) (depth endLine : Nat) (statements : List Stmt) :
    (∀ beyond : Stages, resolveBy (beyond.levels host depth).resolving endLine statements =
      resolve depth endLine statements) ∨ TooNested (resolve depth endLine statements).reports := by
  rw [← resolveBy_nothing host]
  by_cases hnested : TooNested
      (resolveBy (Stages.nothing.levels host depth).resolving endLine statements).reports
  · exact .inr hnested
  · exact .inl ((Stages.limitedWalk_levels host depth).resolveBy_eq hnested)

/-- Whatever lies beyond the levels of a run, it is the same run; or else it tells that its levels
have run out. -/
theorem run_ends (host : Host) (depth : Nat) (s : Session) (source : String) :
    (∀ beyond : Stages, s.runBy (beyond.levels host depth) source = s.run host depth source) ∨
      s.TellsTooDeep host depth source := by
  rcases parse_ends host depth s.nextUse (lex source) with hparse | ⟨place, hplace⟩
  case inr =>
    -- The report about the levels is one about the source text.
    have hmem := List.mem_append_right (lex source).reports hplace
    refine .inr (.refused _ ⟨place, hmem⟩ ?_)
    rw [run_eq_runBy]
    exact runBy_of_misread (parseBy_nothing _ _ _ _) (by simp [List.ne_nil_of_mem hplace])
  cases hread : s.hadError ||
      !((lex source).reports ++ (parse depth s.nextUse (lex source)).reports).isEmpty with
  | true =>
    refine .inl fun beyond => ?_
    rw [run_eq_runBy, runBy_of_misread (hparse _) hread, runBy_of_misread (hparse _) hread]
  | false =>
    rcases resolve_ends host depth (lex source).endLine
      (parse depth s.nextUse (lex source)).statements with hresolve | hnested
    case inr =>
      obtain ⟨place, hplace⟩ := hnested
      refine .inr (.refused _ ⟨place, hplace⟩ ?_)
      rw [run_eq_runBy]
      exact runBy_of_unresolved (parseBy_nothing _ _ _ _) hread (resolveBy_nothing _ _ _ _)
        (List.ne_nil_of_mem hplace)
    by_cases hreports : (resolve depth (lex source).endLine
        (parse depth s.nextUse (lex source)).statements).reports = []
    case neg =>
      refine .inl fun beyond => ?_
      rw [run_eq_runBy, runBy_of_unresolved (hparse _) hread (hresolve _) hreports,
        runBy_of_unresolved (hparse _) hread (hresolve _) hreports]
    have hrun (beyond : Stages) :=
      runBy_of_resolved (hparse beyond) hread (hresolve beyond) hreports
    rcases executeProgramBy_ends (Stages.limitedEvaluator_levels host depth) (lex source).endLine
      (parse depth s.nextUse (lex source)).statements (resolve depth (lex source).endLine
        (parse depth s.nextUse (lex source)).statements).uses s.machine with
      hexecute | ⟨place, m, hexecute, hquits⟩
    · refine .inl fun beyond => ?_
      rw [run_eq_runBy, hrun, hrun, hexecute]
    · -- Parsing and resolving have levels enough, so only evaluation reaches what lies beyond.
      refine .inr (.aborted place m ?_ fun reason hreason => ?_)
      · rw [run_eq_runBy, hrun, hexecute]
        simp [Ending.isFailure]
      · dsimp only
        rw [hrun, hquits (Stages.quitting reason) reason hreason rfl]

end Session

/-!
## More levels

The levels beyond a bound are one way to fill in what lies beyond it. A run that does not tell that
it ran out of levels is therefore the same with more of them.
-/

/-- A run that its transcript tells to have run out of levels. -/
def Transcript.IsTooDeep (t : Transcript) : Prop :=
  TooNested t.reports ∨ ∃ place, t.ending = .failed ⟨place, .stackOverflow⟩

theorem Session.TellsTooDeep.transcript {host : Host} {depth : Nat} {s : Session} {source : String}
    (h : s.TellsTooDeep host depth source) : (s.run host depth source).1.IsTooDeep := by
  cases h with
  | refused reports hreports hrun =>
    rw [hrun]
    exact .inl hreports
  | aborted place m hrun =>
    rw [hrun]
    exact .inr ⟨place, rfl⟩

/-- Levels around further levels are all the levels there are. -/
theorem Stages.levels_of_le {depth deeper : Nat} (hle : depth ≤ deeper) (host : Host) :
    (nothing.levels host (deeper - depth)).levels host depth = nothing.levels host deeper := by
  rw [levels_levels, Nat.sub_add_cancel hle]

theorem levelsOfRecursionLimit_mono {limit larger : Nat} (hle : limit ≤ larger) :
    levelsOfRecursionLimit limit ≤ levelsOfRecursionLimit larger := by
  unfold levelsOfRecursionLimit
  omega

section Deeper

variable {depth deeper : Nat} (hle : depth ≤ deeper)
include hle

theorem parse_deeper {firstUse : UseId} {lexed : Lexed}
    (h : ¬TooNested (parse depth firstUse lexed).reports) :
    parse deeper firstUse lexed = parse depth firstUse lexed := by
  -- The grammar is the same under any host.
  have host : Host := ⟨fun _ => 0, 0⟩
  rcases Session.parse_ends host depth firstUse lexed with hsame | hnested
  · rw [← Session.parseBy_nothing host, ← Stages.levels_of_le hle]
    exact hsame _
  · exact absurd hnested h

theorem resolve_deeper {endLine : Nat} {statements : List Stmt}
    (h : ¬TooNested (resolve depth endLine statements).reports) :
    resolve deeper endLine statements = resolve depth endLine statements := by
  have host : Host := ⟨fun _ => 0, 0⟩
  rcases Session.resolve_ends host depth endLine statements with hsame | hnested
  · rw [← Session.resolveBy_nothing host, ← Stages.levels_of_le hle]
    exact hsame _
  · exact absurd hnested h

theorem Session.run_deeper {host : Host} {s : Session} {source : String}
    (h : ¬(s.run host depth source).1.IsTooDeep) :
    s.run host deeper source = s.run host depth source := by
  rcases run_ends host depth s source with hsame | htells
  · rw [run_eq_runBy host deeper, ← Stages.levels_of_le hle]
    exact hsame _
  · exact absurd htells.transcript h

theorem Session.play_deeper {host : Host} {s : Session} {steps : List SessionStep}
    (h : ∀ t ∈ (s.play host depth steps).1, ¬t.IsTooDeep) :
    s.play host deeper steps = s.play host depth steps := by
  unfold play at h ⊢
  induction steps generalizing s with
  | nil => rfl
  | cons step steps ih =>
    cases step with
    | reset => exact ih h
    | run source =>
      have hrun := run_deeper hle (h _ List.mem_cons_self)
      have hrest := ih (s := (s.run host depth source).2) fun t ht =>
        h t (List.mem_cons_of_mem _ ht)
      simp only [playSteps, hrun, hrest]

end Deeper

/-- **More levels change no run that does not run out of them.** A larger recursion limit allows for
as many levels at least. With more levels, what is parsed or resolved without a report of nesting
that is too deep is the same, and so is a whole session, with all that it shows and leaves behind,
if no run in it tells that its levels have run out. And every run that runs out of levels does tell
so. That it runs out of them means that it matters what lies beyond: more levels, or any other
rules, such as ones that leave a mark. Then either this is reported and nothing is executed, or the
evaluation ends at once with a stack overflow. -/
theorem deeper_levels_same (host : Host) (depth : Nat) :
    (∀ limit larger, limit ≤ larger →
      levelsOfRecursionLimit limit ≤ levelsOfRecursionLimit larger) ∧
    (∀ deeper, depth ≤ deeper →
      (∀ firstUse lexed, ¬TooNested (parse depth firstUse lexed).reports →
        parse deeper firstUse lexed = parse depth firstUse lexed) ∧
      (∀ endLine program, ¬TooNested (resolve depth endLine program).reports →
        resolve deeper endLine program = resolve depth endLine program) ∧
      ∀ (s : Session) (steps : List SessionStep),
        (∀ t ∈ (s.play host depth steps).1, ¬t.IsTooDeep) →
        s.play host deeper steps = s.play host depth steps) ∧
    ∀ (s : Session) (source : String) (beyond : Stages),
      s.runBy (beyond.levels host depth) source ≠ s.run host depth source →
      s.TellsTooDeep host depth source := by
  refine ⟨fun _ _ => levelsOfRecursionLimit_mono, fun deeper hle => ⟨fun _ _ => parse_deeper hle,
    fun _ _ => resolve_deeper hle, fun _ _ => Session.play_deeper hle⟩,
    fun s source beyond hdiffers => ?_⟩
  rcases Session.run_ends host depth s source with hsame | htells
  · exact absurd (hsame beyond) hdiffers
  · exact htells

/-- A session with levels enough, and a function that calls itself without end. -/
theorem deeper_levels_same_recursion :
    let host : Host := ⟨fun _ => 0, 9⟩
    let steps : List SessionStep := [.run "var a = 1; print a;"]
    let lexed := lex "var a = 1; print a;"
    let source := "fun f() \x7b f(); \x7d f();"
    levelsOfRecursionLimit 60 ≤ levelsOfRecursionLimit 120 ∧
      parse 40 0 lexed = parse 20 0 lexed ∧
      resolve 40 1 (parse 20 0 lexed).statements = resolve 20 1 (parse 20 0 lexed).statements ∧
      Session.initial.play host 40 steps = Session.initial.play host 20 steps ∧
      Session.initial.TellsTooDeep host 20 source := by
  intro host steps lexed source
  obtain ⟨hlimits, hsame, hreported⟩ := deeper_levels_same host 20
  obtain ⟨hparse, hresolve, hplay⟩ := hsame 40 (by decide)
  have hparsed : (parse 20 0 lexed).reports = [] := by decide +kernel
  have hresolved : (resolve 20 1 (parse 20 0 lexed).statements).reports = [] := by decide +kernel
  have hshown : (Session.initial.play host 20 steps).1 = [⟨"1\n", [], .finished⟩] := by
    decide +kernel
  -- Giving up for another reason shows, so the levels have run out.
  have hdiffers :
      (Session.initial.runBy ((Stages.quitting .endless).levels host 20) source).1.ending ≠
        (Session.initial.run host 20 source).1.ending := by decide +kernel
  refine ⟨hlimits 60 120 (by decide), hparse 0 lexed ?_, hresolve 1 _ ?_, hplay .initial steps ?_,
    hreported .initial source (.quitting .endless) fun h => hdiffers (by rw [h])⟩
  · rw [hparsed]
    exact fun ⟨_, h⟩ => by cases h
  · rw [hresolved]
    exact fun ⟨_, h⟩ => by cases h
  · rw [hshown]
    simp [Transcript.IsTooDeep, TooNested]

end LoxLang
