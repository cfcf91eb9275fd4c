import LoxLang.Proofs.ForLoops.Execution
import LoxLang.Proofs.ForLoops.Resolving
import LoxLang.Proofs.ForLoops.Spelling

/-!
# Sessions with `for` loops

Programs are parsed with `for` loops rewritten, resolved, and executed with frames. The same comes
of them when their loops are taken as they stand (`for_loops_direct`): cells do what frames do, and
with cells the tree of a loop does what the loop does.
-/

namespace LoxLang

theorem Stmt.declares_of_isClosed {s : Stmt} (h : s.isClosed = true) : s.declares = false := by
  cases s with
  | var | function | classDecl => cases h
  | expression | print | block | ifThen | whileDo | returnValue => rfl

namespace Lexical

variable (host : Host) (reading : Reading) (depth : Nat)

namespace Direct

/-! ## Loops with frames -/

/-- Where a loop ends without failure, it is back at its place. -/
theorem forLoop_place {rules : Nat → Evaluator} {place : Place} {l : ForLoop}
    {r : Completion × Place} {w w' : Store} (h : forLoop host rules place l w = .ok r w') :
    r.2 = place := by
  obtain ⟨p, hmap⟩ := forLoop_eq_map host rules place l
  rw [hmap] at h
  change EStateM.map _ p w = _ at h
  unfold EStateM.map at h
  cases hp : p w with
  | ok c w₁ =>
    rw [hp] at h
    cases h
    rfl
  | error e w₁ =>
    rw [hp] at h
    cases h

/-- With frames, the tree of a loop does what the loop does. -/
theorem simulates_forLoop {T : Distances} {P : Visit → Prop} {β : Links} {m : Machine} {w : Store}
    {S : List Scope} {place : Place} (l : ForLoop) (hrel : Related T P β m w)
    (hpos : Position β m.frames m.current S place) (hfine : Fine T P (l.tree.occurrences S)) :
    Simulates T P none ((LoxLang.evaluator host (depth + 1)).exec l.tree)
      (forLoop host (levels host reading depth) place l) β m w fun c r _ _ =>
        c = r.1 ∧ r.2 = place := by
  have hexec := (agrees_evaluator quiet_pure host (depth + 1)).exec hrel hpos hfine
  rw [watchedEvaluator_pure, Stmt.declares_of_isClosed l.isClosed_tree] at hexec
  -- The two ways to evaluate are equal, so what holds of the tree holds of the loop.
  have hlevels : levels host reading depth = fun k => evaluator host (depth - k) :=
    funext (levels_eq host reading depth)
  have htree : (evaluator host (depth + 1)).exec place l.tree =
      forLoop host (levels host reading depth) place l := by
    rw [hlevels]
    exact stmtRule_tree host depth place l
  rw [htree] at hexec
  unfold Simulates at hexec ⊢
  split at hexec
  · next c m' r w' hp hq =>
    obtain ⟨β', hlater, hsame, -⟩ := hexec
    exact ⟨β', hlater, hsame, forLoop_place host hq⟩
  · exact hexec
  · exact hexec.elim

/-!
## Sessions

Both sessions start alike. A source is reported on in the same way by both, and executed in the same
way if it is accepted.
-/

theorem execute_eq (program : List Stmt) :
    execute host reading depth program = Lexical.execute host depth program := by
  unfold execute Lexical.execute
  rw [levels_eq]
  rfl

theorem executeProgram_eq :
    executeProgram host reading depth = Session.executeProgram host depth := by
  funext endLine program w
  have hexecute := execute_eq host reading depth program
  unfold executeProgram
  rw [hexecute]
  rfl

/-- A source text is run in the same way whatever is read as a loop. -/
theorem run_eq : run host reading depth = Session.run host depth := by
  have hreports : reports reading depth =
      fun endLine program => (resolve depth endLine program).reports := by
    funext endLine program
    exact reports_eq reading depth endLine program
  funext s source
  unfold run Session.run
  rw [hreports, executeProgram_eq]

/-- With frames, a session does what it does with loops as they stand. -/
theorem play_agrees (steps : List SessionStep) :
    let plain := LoxLang.Session.initial.play host depth steps
    let direct := play host reading depth .initial steps
    plain.1 = direct.1 ∧ plain.2.hadError = direct.2.hadError ∧
      plain.2.hadRuntimeError = direct.2.hadRuntimeError ∧
      ∃ T P β, Related T P β plain.2.machine direct.2.store := by
  have hplay : play host reading depth = Session.play host depth := by
    unfold play Session.play
    rw [run_eq]
  obtain ⟨htranscripts, ⟨β, hfollows⟩, -, -⟩ :=
    follows_initial.play host depth steps unobtrusive_pure
  -- Without a watch, the session under watch is the plain one.
  obtain ⟨hplain, hplain'⟩ := WatchedSession.play_pure host depth steps .initial
  rw [hplain] at htranscripts
  obtain ⟨-, herror, hfailure, -, hrelated, -⟩ := hfollows
  rw [hplain'] at herror hfailure hrelated
  rw [hplay]
  exact ⟨htranscripts, herror, hfailure, _, _, β, hrelated⟩

end Direct

/-- **`for` loops mean what they say**, whatever is read as a loop. What is parsed behind the
keyword `for` is the tree of a loop with the clauses that are written there. From states that are
related, the tree is executed with frames as the loop is with cells: with the same signal, output
and failures, and back to its place. And whatever is run in a session, taking the loops as they
stand shows the same, refuses the same with the same reports, and leaves the same globals. Among the
ways to read there is one that takes the tree of every loop for a loop. -/
theorem for_loops_direct :
    (∀ {d line : Nat} {s s' : ParserState} {x : Stmt} {rest : List Token},
      s.rest = Keyword.«for».token line :: rest → (grammar d).statementRule s = .ok x s' →
        s'.reports = s.reports →
          ∃ l : ForLoop, l.tree = x ∧ ∃ o ts, rest = ts ++ s'.rest ∧
            l.Spelled d o s.nextUse ts s'.nextUse) ∧
    (∀ (l : ForLoop) {T : Distances} {P : Visit → Prop} {β : Links} {m : Machine} {w : Store}
        {S : List Scope} {place : Place},
      Related T P β m w → Position β m.frames m.current S place → Fine T P (l.tree.occurrences S) →
        Simulates T P none ((LoxLang.evaluator host (depth + 1)).exec l.tree)
          (Direct.forLoop host (Direct.levels host reading depth) place l) β m w fun c r _ _ =>
            c = r.1 ∧ r.2 = place) ∧
    (∀ l : ForLoop, (Reading.all.loop? l.tree).isSome) ∧
    ∀ steps : List SessionStep,
      let plain := LoxLang.Session.initial.play host depth steps
      let direct := Direct.play host reading depth .initial steps
      plain.1 = direct.1 ∧ plain.2.globals = direct.2.globals ∧
        plain.2.machine.globals = direct.2.store.globals.sorted ∧
        plain.2.hadError = direct.2.hadError ∧
        plain.2.hadRuntimeError = direct.2.hadRuntimeError := by
  refine ⟨forLoop_of_statementRule, fun l _ _ _ _ _ _ _ hrel hpos hfine =>
    Direct.simulates_forLoop host reading depth l hrel hpos hfine, Reading.isSome_all,
    fun steps => ?_⟩
  obtain ⟨htranscripts, herror, hfailure, T, P, β, hrelated⟩ :=
    Direct.play_agrees host reading depth steps
  -- Related states have the same globals, and their values the same texts.
  have hglobals : (LoxLang.Session.initial.play host depth steps).2.machine.globals =
      (Direct.play host reading depth .initial steps).2.store.globals.sorted := by
    unfold Machine.globals
    rw [hrelated.frames.globals]
  refine ⟨htranscripts, ?_, hglobals, herror, hfailure⟩
  unfold LoxLang.Session.globals Session.globals
  rw [hglobals]
  exact List.map_congr_left fun ⟨x, v⟩ _ => congrArg (x, ·) (hrelated.text v)

/-- A function made in a loop keeps the variable of the loop, a `return` in the body leaves the loop
at once, and behind the loop its variable is gone. The tokens are those of `for (;;) {}`, and
the loop that is executed by itself is `for (; false;) {}`. -/
theorem for_loops_direct_shared :
    let host : Host := ⟨fun _ => 0, 9⟩
    let steps : List SessionStep :=
      [.run ("var f; for (var x = true; x; x = false) \x7b f = fun () \x7b return x; \x7d; \x7d " ++
        "print f(); fun g() \x7b for (var s = \"a\";; s = s + \"b\") " ++
        "\x7b if (s == \"abb\") return s; \x7d \x7d print g();"),
        .run "print x;"]
    let direct := Direct.play host .all 40 .initial steps
    let tokens := [Mark.leftParen.token 1, Mark.semicolon.token 1, Mark.semicolon.token 1,
      Mark.rightParen.token 1, Mark.leftBrace.token 1, Mark.rightBrace.token 1]
    let l : ForLoop := ⟨none, some (.literal (.bool false)), none, .block [], rfl⟩
    (∃ l : ForLoop, l.tree = .whileDo (.literal (.bool true)) (.block []) ∧
      ∃ o ts, tokens = ts ++ [] ∧ l.Spelled 1 o 0 ts 0) ∧
    Simulates Machine.initial.distances (· ∈ []) none ((LoxLang.evaluator host 41).exec l.tree)
      (Direct.forLoop host (Direct.levels host .all 40) .topLevel l) (fun _ _ => none)
      Machine.initial Store.initial (fun c r _ _ => c = r.1 ∧ r.2 = .topLevel) ∧
    (LoxLang.Session.initial.play host 40 steps).1 = direct.1 ∧
      direct.1.map (·.output) = ["false\nabb\n", ""] ∧ direct.2.hadRuntimeError = true := by
  intro host steps direct tokens l
  obtain ⟨hread, hexec, -, hplay⟩ := for_loops_direct host .all 40
  have hrun : (grammar 1).statementRule ⟨Keyword.«for».token 1 :: tokens, 1, [], 0, 9⟩ =
      .ok (.whileDo (.literal (.bool true)) (.block [])) ⟨[], 1, [], 0, 9⟩ := rfl
  -- The only occurrence of the loop is its body, an empty block.
  have hfine : Fine Machine.initial.distances (· ∈ []) (l.tree.occurrences []) := by
    intro o ho
    obtain rfl := List.mem_singleton.mp ho
    exact ⟨rfl, trivial, nofun⟩
  exact ⟨hread rfl hrun rfl, hexec l follows_initial.related .topLevel hfine, (hplay steps).1,
    by decide +kernel, by decide +kernel⟩

end Lexical

end LoxLang
