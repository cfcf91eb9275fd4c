import LoxLang.Proofs.Watching

/-!
# Sessions, plain and under watch

A session is led through steps, each a source text to run or a reset. Under watch, the session also
remembers where names were used in the programs that it has executed, and what is done before an
expression may depend on that.
-/

namespace LoxLang

/-- A step of a session. -/
inductive SessionStep where
  | run (source : String)
  | reset

section Steps

variable {σ : Type} (run : σ → String → Transcript × σ) (reset : σ → σ)

/-- Takes steps one after the other, and gives what the runs among them showed. -/
def playSteps : σ → List SessionStep → List Transcript × σ
  | s, [] => ([], s)
  | s, .reset :: steps => playSteps (reset s) steps
  | s, .run source :: steps =>
    let (t, s) := run s source
    let (ts, s) := playSteps s steps
    (t :: ts, s)

variable {run reset}

/-- What every run and every reset keeps, a session keeps. -/
theorem playSteps_keeps {Φ : σ → Prop} (hreset : ∀ s, Φ s → Φ (reset s))
    (hrun : ∀ s source, Φ s → Φ (run s source).2) {s : σ} (h : Φ s) (steps : List SessionStep) :
    Φ (playSteps run reset s steps).2 := by
  induction steps generalizing s with
  | nil => exact h
  | cons step steps ih =>
    cases step with
    | reset => exact ih (hreset s h)
    | run source => exact ih (hrun s source h)

/-- Sessions of which each run shows the same show the same, and stay related. -/
theorem playSteps_agree {σ' : Type} {run' : σ' → String → Transcript × σ'} {reset' : σ' → σ'}
    {Φ : σ → σ' → Prop} (hreset : ∀ s s', Φ s s' → Φ (reset s) (reset' s'))
    (hrun : ∀ s s' source, Φ s s' →
      (run s source).1 = (run' s' source).1 ∧ Φ (run s source).2 (run' s' source).2)
    {s : σ} {s' : σ'} (h : Φ s s') (steps : List SessionStep) :
    (playSteps run reset s steps).1 = (playSteps run' reset' s' steps).1 ∧
      Φ (playSteps run reset s steps).2 (playSteps run' reset' s' steps).2 := by
  induction steps generalizing s s' with
  | nil => exact ⟨rfl, h⟩
  | cons step steps ih =>
    cases step with
    | reset => exact ih (hreset s s' h)
    | run source =>
      obtain ⟨hshown, hrelated⟩ := hrun s s' source h
      obtain ⟨hrest, hend⟩ := ih hrelated
      exact ⟨(congrArg (· :: _) hshown).trans (congrArg (_ :: ·) hrest), hend⟩

/-- Steps one behind the other are taken in turn. -/
theorem playSteps_append (s : σ) (before after : List SessionStep) :
    (playSteps run reset s (before ++ after)).2 =
      (playSteps run reset (playSteps run reset s before).2 after).2 := by
  induction before generalizing s with
  | nil => rfl
  | cons step before ih =>
    cases step with
    | reset => exact ih (reset s)
    | run source => exact ih (run s source).2

end Steps

/-- Leads a session through steps. -/
def Session.play (host : Host) (depth : Nat) :
    Session → List SessionStep → List Transcript × Session :=
  playSteps (Session.run host depth) Session.reset

/-!
## Under watch

The watch is asked before each expression and may end the run there. So a statement about what is
left behind by all runs under all watches is one about every moment at which an expression is about
to be evaluated.
-/

/-- Executes the statements of a program under watch. -/
def Session.watchedExecuteProgram (host : Host) (watch : Expr → Run Unit) (depth endLine : Nat)
    (program : List Stmt) (uses : List Resolved) (m : Machine) : Ending × Machine :=
  let m := { m with output := "", distances := m.distances.insertAll uses }
  match watchedExecute host watch depth program m with
  | .ok _ m => (.finished, m)
  | .error abort m => (.ofAbort endLine abort, m)

/-- Runs a source text under watch. -/
def Session.watchedRun (host : Host) (watch : Expr → Run Unit) (depth : Nat) (s : Session)
    (source : String) : Transcript × Session :=
  let lexed := lex source
  let parsed := parse depth s.nextUse lexed
  let reports := lexed.reports ++ parsed.reports
  let s := { s with nextUse := parsed.nextUse, hadError := s.hadError || !reports.isEmpty }
  if s.hadError then (⟨"", reports, .refused⟩, s)
  else
    let resolution := resolve depth lexed.endLine parsed.statements
    if !resolution.reports.isEmpty then
      (⟨"", resolution.reports, .refused⟩, { s with hadError := true })
    else
      let (ending, machine) := watchedExecuteProgram host watch depth lexed.endLine
        parsed.statements resolution.uses s.machine
      (⟨machine.output, [], ending⟩,
        { s with machine, hadRuntimeError := s.hadRuntimeError || ending.isFailure })

/-- A program that is executed is not refused. -/
theorem Session.watchedExecuteProgram_ne_refused (host : Host) (watch : Expr → Run Unit)
    (depth endLine : Nat) (program : List Stmt) (uses : List Resolved) (m : Machine) :
    (watchedExecuteProgram host watch depth endLine program uses m).1 ≠ .refused := by
  unfold watchedExecuteProgram
  dsimp only
  split
  · nofun
  · next e _ _ => cases e <;> nofun

theorem Session.watchedExecuteProgram_pure (host : Host) (depth : Nat) :
    watchedExecuteProgram host (fun _ => pure ()) depth = executeProgram host depth := by
  funext endLine program uses m
  have hexecute := watchedExecute_pure host depth program
  unfold watchedExecuteProgram executeProgram
  generalize watchedExecute host (fun _ => pure ()) depth program = p at hexecute ⊢
  subst hexecute
  rfl

theorem Session.watchedRun_pure (host : Host) (depth : Nat) (s : Session) (source : String) :
    s.watchedRun host (fun _ => pure ()) depth source = s.run host depth source := by
  have hprogram := watchedExecuteProgram_pure host depth
  unfold watchedRun run
  generalize watchedExecuteProgram host (fun _ => pure ()) depth = p at hprogram ⊢
  subst hprogram
  rfl

/-- The uses of names in a program. -/
def usesIn (program : List Stmt) : List Visit :=
  (stmtsOccurrences [] program).filterMap fun o =>
    match o with
    | .use v => some v
    | _ => none

theorem mem_usesIn {program : List Stmt} {v : Visit} :
    v ∈ usesIn program ↔ .use v ∈ stmtsOccurrences [] program := by
  unfold usesIn
  rw [List.mem_filterMap]
  constructor
  · rintro ⟨o, ho, hv⟩
    cases o with
    | use u =>
      obtain rfl := Option.some.inj hv
      exact ho
    | _ => cases hv
  · exact fun h => ⟨.use v, h, rfl⟩

theorem usesIn_append (programs : List (List Stmt)) (program : List Stmt) :
    (programs ++ [program]).flatMap usesIn = programs.flatMap usesIn ++ usesIn program := by
  simp

/-- A session under watch. -/
structure WatchedSession where
  session : Session
  /-- The programs that were executed. -/
  programs : List (List Stmt)

namespace WatchedSession

/-- A session in which nothing has run. -/
def initial : WatchedSession := ⟨.initial, []⟩

/-- The uses of names in the programs that were executed. -/
def uses (s : WatchedSession) : List Visit := s.programs.flatMap usesIn

/-- Forgets that there were errors. -/
def reset (s : WatchedSession) : WatchedSession := { s with session := s.session.reset }

/-- Runs a source text under a watch that knows all programs up to this one. -/
def run (host : Host) (watch : List (List Stmt) → Expr → Run Unit) (depth : Nat)
    (s : WatchedSession) (source : String) : Transcript × WatchedSession :=
  let programs := s.programs ++ [(parse depth s.session.nextUse (lex source)).statements]
  let (t, session) := s.session.watchedRun host (watch programs) depth source
  (t, ⟨session, if t.ending = .refused then s.programs else programs⟩)

/-- Leads a session through steps under watch. -/
def play (host : Host) (watch : List (List Stmt) → Expr → Run Unit) (depth : Nat) :
    WatchedSession → List SessionStep → List Transcript × WatchedSession :=
  playSteps (run host watch depth) reset

/-- Without a watch, only the programs are remembered besides. -/
theorem play_pure (host : Host) (depth : Nat) (steps : List SessionStep) (s : WatchedSession) :
    (play host (fun _ _ => pure ()) depth s steps).1 = (s.session.play host depth steps).1 ∧
      (play host (fun _ _ => pure ()) depth s steps).2.session =
        (s.session.play host depth steps).2 := by
  refine playSteps_agree (Φ := fun (s : WatchedSession) s' => s.session = s') (fun s s' h => ?_)
    (fun s s' source h => ?_) rfl steps
  · exact congrArg Session.reset h
  · obtain rfl := h
    simp only [run, Session.watchedRun_pure, and_self]

/-- Running a source text leaves the state and the programs as they are, or it executes a program
that was read without reports, and that is remembered. -/
theorem run_cases (host : Host) (watch : List (List Stmt) → Expr → Run Unit) (depth : Nat)
    (s : WatchedSession) (source : String) :
    let program := (parse depth s.session.nextUse (lex source)).statements
    let behind := (s.run host watch depth source).2
    behind.session.machine = s.session.machine ∧ behind.programs = s.programs ∨
      (parse depth s.session.nextUse (lex source)).reports = [] ∧
        behind.session.machine = (Session.watchedExecuteProgram host
          (watch (s.programs ++ [program])) depth (lex source).endLine program
          (resolve depth (lex source).endLine program).uses s.session.machine).2 ∧
        behind.programs = s.programs ++ [program] := by
  intro program behind
  simp only [behind, program]
  unfold run Session.watchedRun
  dsimp only
  split
  · exact .inl ⟨rfl, rfl⟩
  · split
    · exact .inl ⟨rfl, rfl⟩
    · next hread _ =>
      obtain ⟨-, -, hreports⟩ : s.session.hadError = false ∧ (lex source).reports = [] ∧
          (parse depth s.session.nextUse (lex source)).reports = [] := by
        simpa using hread
      -- A program that was executed is not refused, so it is added to the programs.
      have hran := Session.watchedExecuteProgram_ne_refused host
        (watch (s.programs ++ [(parse depth s.session.nextUse (lex source)).statements])) depth
        (lex source).endLine (parse depth s.session.nextUse (lex source)).statements
        (resolve depth (lex source).endLine
          (parse depth s.session.nextUse (lex source)).statements).uses s.session.machine
      exact .inr ⟨hreports, rfl, if_neg hran⟩

end WatchedSession

end LoxLang
