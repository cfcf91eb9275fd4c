import LoxLang.Proofs.Acceptance
import LoxLang.Proofs.Lexical.Sessions
import LoxLang.Proofs.Renaming.Resolving
import LoxLang.Proofs.Renaming.Rules

/-!
# Renaming a local variable

The renamed program is resolved and run in the state in which the program itself is. Functions that
were made in earlier runs stay as they are (`Lexical.Related.renamed`), and so does all that a
program shows: what it prints, how it ends, and the globals that it leaves
(`rename_changes_nothing`).
-/

namespace LoxLang

/-!
## Running trees

A renamed program has no source text of its own here. It is run as a session runs a program that has
been read.
-/

/-- Runs a program as a session does when it has read its source text without an error. -/
def Session.runTree (host : Host) (depth endLine : Nat) (s : Session) (program : List Stmt) :
    Transcript × Session :=
  let resolution := resolve depth endLine program
  if !resolution.reports.isEmpty then
    (⟨"", resolution.reports, .refused⟩, { s with hadError := true })
  else
    let (ending, machine) :=
      executeProgram host depth endLine program resolution.uses s.machine
    (⟨machine.output, [], ending⟩,
      { s with machine, hadRuntimeError := s.hadRuntimeError || ending.isFailure })

theorem Session.runTree_of_resolved {depth endLine : Nat} {program : List Stmt} (host : Host)
    (h : (resolve depth endLine program).reports = []) (s : Session) :
    s.runTree host depth endLine program =
      let ending := executeProgram host depth endLine program
        (resolve depth endLine program).uses s.machine
      (⟨ending.2.output, [], ending.1⟩,
        { s with
          machine := ending.2
          hadRuntimeError := s.hadRuntimeError || ending.1.isFailure }) := by
  unfold runTree
  simp only [h, List.isEmpty_nil, Bool.not_true, Bool.false_eq_true, if_false]

theorem Session.run_eq_runTree {depth : Nat} {s : Session} {source : String} (host : Host)
    (h : s.Accepts depth source) :
    let parsed := parse depth s.nextUse (lex source)
    s.run host depth source =
      { s with nextUse := parsed.nextUse }.runTree host depth (lex source).endLine
        parsed.statements := by
  intro parsed
  rw [run_of_accepts host h, runTree_of_resolved host h.resolved]

/-- Of resolved uses, numbers and distances matter only. -/
theorem Session.executeProgram_congr (host : Host) (depth endLine : Nat) (program : List Stmt)
    {uses uses' : List Resolved} (h : uses'.map Resolved.entry = uses.map Resolved.entry)
    (m : Machine) :
    executeProgram host depth endLine program uses' m =
      executeProgram host depth endLine program uses m := by
  have hfold (us : List Resolved) : m.distances.insertAll us = (us.map Resolved.entry).foldl
      (fun table u => table.insert u.2.2.2 u.2.2.1) m.distances := by
    rw [List.foldl_map]
    rfl
  unfold executeProgram
  rw [hfold uses', hfold uses, h]

/-!
## Functions of earlier runs

All frames that were made before the run are unmarked. So a state between two runs is related to
itself, with the functions it holds, and the renamed program starts from there.
-/

namespace Lexical

variable {T : Distances} {P : Visit → Prop} {β : Links} {m : Machine} {w : Store}
  {fs : Frames Value} {f : FrameId} {S : List Scope} {E : Environment} (ρ : Renaming)

/-- A chain of frames none of which is marked. -/
theorem Chain.marked (h : Chain β fs f S E) :
    ∃ marks, World.Marked ⟨fs, fun _ => false⟩ f marks ∧ Unmarked marks := by
  induction h with
  | globals => exact ⟨[], .globals, List.forall_mem_nil _⟩
  | frame hlink _ _ _ ih =>
    obtain ⟨marks, hmarked, hunmarked⟩ := ih
    exact ⟨false :: marks, .inside hlink hmarked, hunmarked.cons⟩

/-- What was made before keeps its names. -/
theorem ClosureRelated.renamed {scopes : List Scope} {c : LoxLang.Closure} {c' : Closure}
    (h : ClosureRelated T P β fs scopes c c') {hidden : List Bool} (hhidden : Unmarked hidden) :
    c.Renamed ρ ⟨fs, fun _ => false⟩ hidden c := by
  obtain ⟨S, hchain, -⟩ := h.scopes
  obtain ⟨marks, hmarked, hunmarked⟩ := hchain.marked
  refine ⟨rfl, rfl, rfl, marks, .none, hmarked, (Renaming.params_false c.params).symm, ?_⟩
  have hall : Unmarked (hidden ++ marks) := List.forall_mem_append.mpr ⟨hhidden, hunmarked⟩
  exact (stmtsRename_none hall.cons).symm

/-- A state between two runs is that of a renamed program as well. -/
theorem Related.renamed (h : Related T P β m w) {table : Distances}
    (htable : ∀ id : UseId, table[id]? = ρ.distance? id) :
    Machine.Renamed ρ (fun _ => false) { m with output := "", distances := table }
      { m with output := "", distances := table } where
  rooted := {
    made := Nat.lt_of_not_le fun hle => by
      have hnone := (m.frames.frame?_eq_none_iff Machine.globalFrame).mpr hle
      rw [h.frames.globals] at hnone
      cases hnone
    outermost := by
      unfold Frames.enclosing?
      rw [h.frames.globals]
      rfl
    unmoved := rfl }
  frames := Renaming.frames_unmoved.symm
  -- A closure of an earlier run hangs on a chain of frames that `hcc` gives, and no mark is set
  -- along it.
  functions := .of_self fun i c hc => by
    obtain ⟨hnone, -⟩ | ⟨c₁, c', hc₁, -, hcc⟩ := (h.functions.found i).cases
    · rw [hc] at hnone
      cases hnone
    · obtain rfl := Option.some.inj (hc.symm.trans hc₁)
      exact hcc.renamed ρ (List.forall_mem_nil _)
  classes := .of_self fun i info hinfo => by
    obtain ⟨hnone, -⟩ | ⟨info₁, info', hinfo₁, -, hii⟩ := (h.classes.found i).cases
    · rw [hinfo] at hnone
      cases hnone
    · obtain rfl := Option.some.inj (hinfo.symm.trans hinfo₁)
      refine ⟨rfl, rfl, fun x => ?_, rfl⟩
      obtain ⟨hnone, -⟩ | ⟨c, c', hc, -, hcc⟩ := (hii.methods x).cases
      · rw [hnone]
        trivial
      · rw [hc]
        exact hcc.renamed ρ (List.forall_mem_singleton.mpr rfl)
  instances := rfl
  current := rfl
  distances := rfl
  known := htable
  output := rfl
  clockReadings := rfl

/-- Between two runs, a session with frames goes with one with cells. -/
theorem exists_related (host : Host) (depth : Nat) (steps : List SessionStep)
    {s : LoxLang.Session} (hs : (LoxLang.Session.initial.play host depth steps).2 = s) :
    ∃ uses β w, Related s.machine.distances (· ∈ uses) β s.machine w ∧
      s.machine.current = Machine.globalFrame ∧ Tabled s.nextUse s.machine.distances uses := by
  obtain ⟨-, ⟨β, hfollows⟩, -, -⟩ := follows_initial.play host depth steps unobtrusive_pure
  obtain ⟨-, hplain⟩ := WatchedSession.play_pure host depth steps .initial
  have hsession := hplain.trans hs
  have hrelated := hfollows.related
  have hcurrent := hfollows.current
  have htabled := hfollows.tabled
  rw [hsession] at hrelated hcurrent htabled
  exact ⟨_, β, _, hrelated, hcurrent, htabled⟩

end Lexical

/-!
## Programs

Errors name properties, which keep their names, or a variable that is missing. Only the latter can
be one that was renamed.
-/

/-- Two runs end alike: with the same error on the same line, if with one. Where a local name is
missing, it may be the old one in one of the two and the new one in the other. -/
inductive Ending.Renamed (old new : String) : Ending → Ending → Prop
  | finished : Renamed old new .finished .finished
  | failed {p p' : Location} (h : p.line = p'.line) (e : RuntimeError) :
      Renamed old new (.failed ⟨p, e⟩) (.failed ⟨p', e⟩)
  | missing {x x' : String} (h : x' = x ∨ x = old ∧ x' = new ∨ x = new ∧ x' = old) :
      Renamed old new (.lost (.missing x)) (.lost (.missing x'))
  | pastOutermost : Renamed old new (.lost .pastOutermost) (.lost .pastOutermost)
  | endless : Renamed old new .endless .endless

variable {ρ : Renaming} {old new : String} {moved : FrameId → Bool} {m m' : Machine}

theorem Ending.Renamed.isFailure {e e' : Ending} (h : e.Renamed old new e') :
    e'.isFailure = e.isFailure := by
  cases h <;> rfl

theorem Ending.Renamed.diagnostics {e e' : Ending} (h : e.Renamed old new e')
    (output output' : String) :
    Transcript.diagnostics ⟨output', [], e'⟩ = Transcript.diagnostics ⟨output, [], e⟩ := by
  cases h with
  | failed h e =>
    unfold Transcript.diagnostics Failure.text
    dsimp only
    rw [h]
  | finished | missing | pastOutermost | endless => rfl

/-- A name changes into the new one or back, if at all. -/
theorem Renaming.Exchanges.text_or (h : ρ.Exchanges old new) (b : Bool) (x : String) :
    ρ.text b x = x ∨ x = old ∧ ρ.text b x = new ∨ x = new ∧ ρ.text b x = old := by
  cases b with
  | false => exact .inl rfl
  | true =>
    by_cases hnew : x = new
    · subst hnew
      by_cases hold : ρ.names x = old
      · exact .inr (.inr ⟨rfl, hold⟩)
      · by_cases hsame : ρ.names x = x
        · exact .inl hsame
        · exact .inl (h.injective (h.others _ hold hsame))
    · by_cases hold : x = old
      · subst hold
        exact h.target.imp id fun hnew => .inl ⟨rfl, hnew⟩
      · exact .inl (h.others x hold hnew)

theorem Abort.Renamed.ending {a a' : Abort} (h : a.Renamed ρ a') (hρ : ρ.Exchanges old new)
    (endLine : Nat) :
    (Ending.ofAbort endLine a).Renamed old new (Ending.ofAbort endLine a') := by
  cases h with
  | failure h e => exact .failed h e
  | missing b x => exact .missing (hρ.text_or b x)
  | pastOutermost => exact .pastOutermost
  | tooDeep => exact .failed rfl _
  | endless => exact .endless

theorem Machine.Renamed.globals (h : m.Renamed ρ moved m') : m'.globals = m.globals := by
  have hunmoved : moved globalFrame = false := h.rooted.unmoved
  unfold Machine.globals
  rw [h.frames, Renaming.frame?_frames, hunmoved]
  cases m.frames.frame? globalFrame with
  | none => rfl
  | some frame =>
    dsimp only [Option.map_some]
    rw [Renaming.bindings_false]

theorem Machine.Renamed.globals_texts (h : m.Renamed ρ moved m') :
    (m'.globals.map fun (x, v) => (x, m'.text v)) = m.globals.map fun (x, v) => (x, m.text v) := by
  rw [h.globals]
  refine List.map_congr_left fun ⟨x, v⟩ _ => ?_
  dsimp only
  rw [h.akin.text fun _ _ hc => hc.name]

/-- A program and the renamed program are executed alike. -/
theorem executeProgram_rename (hρ : ρ.Exchanges old new) (host : Host) (depth endLine : Nat)
    (program : List Stmt) (c : Choice) {uses : List Resolved}
    (hcurrent : m.current = Machine.globalFrame)
    (hself : Machine.Renamed ρ (fun _ => false)
      { m with output := "", distances := m.distances.insertAll uses }
      { m with output := "", distances := m.distances.insertAll uses }) :
    let plain := Session.executeProgram host depth endLine program uses m
    let other := Session.executeProgram host depth endLine (stmtsRename ρ [] c program) uses m
    plain.1.Renamed old new other.1 ∧ ∃ moved, plain.2.Renamed ρ moved other.2 := by
  have hmirror : ρ.Mirror ⟨m.frames, fun _ => false⟩ Machine.globalFrame Eq
      (execute host depth program) (execute host depth (stmtsRename ρ [] c program)) :=
    .execute hρ.toFaithful host depth .globals fun _ _ _ _ => rfl
  let start : Machine := { m with output := "", distances := m.distances.insertAll uses }
  -- Both programs start in one machine, with nothing renamed in it.
  have hends := hmirror start start ⟨fun _ => false, .refl _, hself, hcurrent⟩
  unfold Session.executeProgram
  dsimp only
  generalize execute host depth program _ = r at hends
  generalize execute host depth (stmtsRename ρ [] c program) _ = r' at hends
  cases hends with
  | ok _ hat =>
    obtain ⟨moved, -, hrenamed, -⟩ := hat
    exact ⟨.finished, moved, hrenamed⟩
  | error he hat =>
    obtain ⟨moved, -, hrenamed, -⟩ := hat
    exact ⟨he.ending hρ endLine, moved, hrenamed⟩

/-!
## Sessions

Replacing a name where the new one does not occur is exchanging the two. The exchange is a
bijection, which is why the proofs speak of it.
-/

/-- Where the new name does not occur, the old one is replaced by it or exchanged with it. -/
theorem Renaming.agreeOn_replacing {os : List Occurrence} {table : Distances}
    (hnames : ∀ y, IsName y → y ≠ new → ρ.names y = if y = old then new else y)
    (hfine : ∀ o ∈ os, o.Written ∧ ∀ v, o = .use v → table[v.id]? = ρ.distance? v.id)
    (havoids : ∀ o ∈ os, o.Avoids new) : (replacing old new table).AgreeOn ρ os := by
  intro o ho
  obtain ⟨hwritten, hdistance⟩ := hfine o ho
  have hnot := havoids o ho
  cases o with
  | use v => exact ⟨hdistance v rfl, fun hkind => (hnames v.name (hwritten hkind) hnot).symm⟩
  | declaration x S => exact (hnames x hwritten hnot).symm
  | body | subclass | initializer => trivial

/-- **Renaming a local variable changes nothing.** Take a program that a session accepts, and a new
name that no variable in it has. Give this name to the local variables of an old name in scopes of
one's choice, and to exactly the uses that lead to them. Then each use has the distance that it had,
and if the renamed program is accepted, a run of it prints the same, ends in the same way with the
same diagnostics, and leaves the same globals and flags. Only a local name that is missing may be
another one.

The renamed program is accepted unless a global variable of the old name is read in its own
initializer. This is let pass where a local variable of that name is declared on the way. -/
theorem rename_changes_nothing (host : Host) (depth : Nat) (steps : List SessionStep) {s : Session}
    (hs : (Session.initial.play host depth steps).2 = s) {source : String}
    (haccepts : s.Accepts depth source) {program : List Stmt}
    (hprogram : (parse depth s.nextUse (lex source)).statements = program) {old new : String}
    (hnew : IsName new) (havoids : ∀ o ∈ stmtsOccurrences [] program, o.Avoids new)
    (chosen : Choice) :
    let endLine := (lex source).endLine
    let resolution := resolve depth endLine program
    let table : Distances := (∅ : Distances).insertAll resolution.uses
    let renamed := stmtsRename (.replacing old new table) [] chosen program
    let resolution' := resolve depth endLine renamed
    let plain := s.run host depth source
    let other := s.runTree host depth endLine renamed
    resolution'.uses.map Resolved.entry = resolution.uses.map Resolved.entry ∧
      (Settled old program → resolution'.reports = []) ∧
      (resolution'.reports = [] →
        other.1.output = plain.1.output ∧
        plain.1.ending.Renamed old new other.1.ending ∧
        other.1.diagnostics = plain.1.diagnostics ∧
        other.2.globals = plain.2.globals ∧
        other.2.hadError = plain.2.hadError ∧
        other.2.hadRuntimeError = plain.2.hadRuntimeError) := by
  intro endLine resolution table renamed resolution' plain other
  obtain ⟨uses, β, w, hrelated, hcurrent, htabled⟩ := Lexical.exists_related host depth steps hs
  have hresolved : (resolve depth endLine program).reports = [] := hprogram ▸ haccepts.resolved
  have hplain : plain = Session.runTree host depth endLine
      { s with nextUse := (parse depth s.nextUse (lex source)).nextUse } program :=
    hprogram ▸ Session.run_eq_runTree host haccepts
  -- Each use of the program has its distance in the table, with earlier programs and without.
  have hP : ∀ v ∈ usesIn (parse depth s.nextUse (lex source)).statements, True := fun _ _ => trivial
  have hempty : ∀ i : Nat, s.nextUse ≤ i → (∅ : Distances)[i]? = none :=
    fun _ _ => Std.TreeMap.getElem?_emptyc
  have hfine := fine_of_accepted haccepts.parsed haccepts.resolved htabled.fresh hP
  have halone := fine_of_accepted haccepts.parsed haccepts.resolved hempty hP
  rw [hprogram] at hfine halone
  obtain ⟨ρ, hρ, hdistance, hnames⟩ := Renaming.exists_exchanges hnew old
    fun id => (s.machine.distances.insertAll resolution.uses)[id]?
  have hknown : ∀ v, .use v ∈ stmtsOccurrences [] program → ρ.distance? v.id = v.distance? := by
    intro v hv
    rw [hdistance]
    exact ((hfine _ hv).settled v rfl).1
  have hrenamed : renamed = stmtsRename ρ [] chosen program := by
    refine stmtsRename_congr (Renaming.agreeOn_replacing hnames (fun o ho => ?_) havoids)
    refine ⟨(hfine o ho).written, fun v hv => ?_⟩
    rw [hknown v (hv ▸ ho)]
    exact ((halone o ho).settled v hv).1
  obtain ⟨huses, hsettled⟩ := resolve_rename hρ (fun o ho => (hfine o ho).written) havoids hknown
    hresolved chosen
  rw [← hrenamed] at huses hsettled
  refine ⟨huses, hsettled, fun hreports => ?_⟩
  -- The two are executed with the same distances, from a state that goes with itself.
  have hself := hrelated.renamed ρ fun id => congrFun hdistance.symm id
  obtain ⟨hending, moved, hstate⟩ := executeProgram_rename hρ host depth endLine program chosen
    hcurrent hself
  rw [← hrenamed, ← Session.executeProgram_congr host depth endLine renamed huses] at hending hstate
  rw [Session.runTree_of_resolved host hresolved] at hplain
  have hother : other = _ := Session.runTree_of_resolved host hreports s
  rw [hother, hplain]
  refine ⟨hstate.output, hending, hending.diagnostics _ _, hstate.globals_texts, rfl, ?_⟩
  exact congrArg (s.hadRuntimeError || ·) hending.isFailure

/-- A parameter that a lambda reads after the function has ended, beside a variable of the same name
in a block. Only the parameter and its uses get the new name. -/
theorem rename_changes_nothing_parameter :
    let host : Host := ⟨fun _ => 0, 9⟩
    let source := "fun f(a) \x7b var b = a; \x7b var a = 2; b = b + a; \x7d a = a + 1; " ++
      "return fun () \x7b return a + b; \x7d; \x7d print f(1)();"
    let program := (parse 40 0 (lex source)).statements
    let resolution := resolve 40 (lex source).endLine program
    let table : Distances := (∅ : Distances).insertAll resolution.uses
    let renamed := stmtsRename (.replacing "a" "x" table) [] (.only [0]) program
    let other := Session.initial.runTree host 40 (lex source).endLine renamed
    (Session.initial.Accepts 40 source ∧ IsName "x" ∧
        ∀ o ∈ stmtsOccurrences [] program, o.Avoids "x") ∧
      resolution.uses.map (·.name) = ["a", "b", "a", "b", "a", "a", "a", "b"] ∧
      (resolve 40 (lex source).endLine renamed).uses.map (·.name) =
        ["x", "b", "a", "b", "x", "x", "x", "b"] ∧
      (resolve 40 (lex source).endLine renamed).reports = [] ∧
      other.1.output = (Session.initial.run host 40 source).1.output ∧ other.1.output = "5\n" := by
  intro host source program resolution table renamed other
  have haccepts : Session.initial.Accepts 40 source :=
    ⟨rfl, by decide +kernel, by decide +kernel, by decide +kernel⟩
  -- The parameter is renamed, and the variable of the same name in the block inside is not.
  have hnew : IsName "x" := ⟨by decide, by decide⟩
  have havoids : ∀ o ∈ stmtsOccurrences [] program, o.Avoids "x" := by decide +kernel
  have hsettled : Settled "a" program := by decide +kernel
  obtain ⟨-, hreports, hrun⟩ :=
    rename_changes_nothing host 40 [] rfl haccepts rfl hnew havoids (.only [0])
  have haccepted := hreports hsettled
  exact ⟨⟨haccepts, hnew, havoids⟩, by decide +kernel, by decide +kernel, haccepted,
    (hrun haccepted).1, by decide +kernel⟩

/-- A local variable of the name of the global one in whose initializer it is declared. Its own
declaration lifts the ban on reading the global variable there, and that of a variable of another
name does not. So a program is accepted that is refused once the local variable is renamed. -/
theorem rename_refused :
    let source := "var a = 2;\nvar a = fun () \x7b var a = 1; return a; \x7d() + a;\nprint a;"
    let program := (parse 40 0 (lex source)).statements
    let resolution := resolve 40 (lex source).endLine program
    let table : Distances := (∅ : Distances).insertAll resolution.uses
    let renamed := stmtsRename (.replacing "a" "b" table) [] (.only [1, 0, 0, 0]) program
    (Session.initial.Accepts 40 source ∧ IsName "b" ∧
        ∀ o ∈ stmtsOccurrences [] program, o.Avoids "b") ∧
      resolution.uses.map (·.name) = ["a"] ∧
      (resolve 40 (lex source).endLine renamed).uses.map (·.name) = ["b"] ∧
      Report.texts (resolve 40 (lex source).endLine renamed).reports =
        "[line 2] Error at 'a': Can't read a variable in its own initializer.\n" := by
  intro source program resolution table renamed
  exact ⟨⟨⟨rfl, by decide +kernel, by decide +kernel, by decide +kernel⟩, ⟨by decide, by decide⟩,
    by decide +kernel⟩, by decide +kernel, by decide +kernel, by decide +kernel⟩

end LoxLang
