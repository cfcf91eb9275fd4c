import LoxLang.CommandLine
import LoxLang.Proofs.Acceptance
import LoxLang.Proofs.Sessions
import Mathlib.Logic.ExistsUnique

/-!
# Exit codes, streams and flags

A run tells of errors in at most one way: by static errors, and then it prints nothing, or by one
failure at its end (`Session.Tells`). The flags of a session say which of the two there was since
the last reset, and the exit code of a script says the same (`exit_codes_agree`).
-/

namespace LoxLang

variable {host : Host} {depth : Nat}

/-!
## What diagnostics say

The texts are spelled out here once more, without the functions that write them, so that what is
said of streams below is said of their characters. A static report begins with a bracket and a
runtime report with a letter: no text is both, and the empty text is neither.
-/

/-- A text is one static report. Below the level of tokens a report has only its line; others tell
the token, or the end of the source. -/
inductive IsStaticReport : String → Prop
  | lexical (line : Nat) (e : LexicalError) :
    IsStaticReport s!"[line {line}] Error: {e.message}\n"
  | atEnd (line : Nat) (e : StaticError) :
    IsStaticReport s!"[line {line}] Error at end: {e.message}\n"
  | atToken (line : Nat) (lexeme : String) (e : StaticError) :
    IsStaticReport s!"[line {line}] Error at '{lexeme}': {e.message}\n"

/-- A text is one or more static reports, one behind the other, and nothing else. -/
def AreStaticReports (text : String) : Prop :=
  ∃ reports : List String, reports ≠ [] ∧ (∀ r ∈ reports, IsStaticReport r) ∧
    text = String.join reports

/-- A text is one runtime report: the wording of the error, and a line of its own that tells the
line of the source. -/
def IsRuntimeReport (text : String) : Prop :=
  ∃ (e : RuntimeError) (line : Nat), text = s!"{e.message}\n[line {line}]\n"

theorem IsStaticReport.head? {text : String} (h : IsStaticReport text) :
    text.toList.head? = some '[' := by
  cases h <;> simp only [String.toList_append, List.append_assoc] <;> rfl

/-- What a report writes is in one of the three forms. -/
theorem Report.isStaticReport_text (r : Report) : IsStaticReport r.text := by
  have heq {a b : String} (hb : IsStaticReport b) (h : a.toList = b.toList) :
      IsStaticReport a := String.toList_injective h ▸ hb
  cases r with
  | lexical line e =>
    refine heq (.lexical line e) ?_
    simp [text, whereText, Report.line, message, toString]
  | located place e =>
    cases place with
    | endOfSource line =>
      refine heq (.atEnd line e) ?_
      simp [text, whereText, Report.line, message, toString, Location.line]
    | token t =>
      refine heq (.atToken t.line t.kind.lexeme e) ?_
      simp [text, whereText, Report.line, message, toString, Location.line]

theorem AreStaticReports.head? {text : String} (h : AreStaticReports text) :
    text.toList.head? = some '[' := by
  obtain ⟨reports, hreports, hstatic, rfl⟩ := h
  cases reports with
  | nil => exact absurd rfl hreports
  | cons r rest =>
    have hfirst := (hstatic r List.mem_cons_self).head?
    simp [String.toList_join, hfirst]

/-- What is written of one or more reports is one or more static reports. -/
theorem areStaticReports_texts {reports : List Report} (h : reports ≠ []) :
    AreStaticReports (Report.texts reports) := by
  refine ⟨reports.map Report.text, by simpa using h, fun r hr => ?_, rfl⟩
  obtain ⟨report, -, rfl⟩ := List.mem_map.mp hr
  exact report.isStaticReport_text

/-- The wording of an error begins with a letter. -/
theorem RuntimeError.head?_message (e : RuntimeError) :
    ∃ c, e.message.toList.head? = some c ∧ c ≠ '[' := by
  -- What is filled in stands behind the first words.
  have hbehind {a : String} (b : String) (h : ∃ c, a.toList.head? = some c ∧ c ≠ '[') :
      ∃ c, (a ++ b).toList.head? = some c ∧ c ≠ '[' := by
    obtain ⟨c, hhead, hc⟩ := h
    exact ⟨c, by rw [String.toList_append, List.head?_append, hhead]; rfl, hc⟩
  unfold message
  cases e with
  | undefinedVariable name | undefinedProperty name | undefinedStaticMethod name =>
    exact hbehind _ (hbehind _ ⟨'U', by decide, by decide⟩)
  | argumentCount expected got =>
    exact hbehind _ (hbehind _ (hbehind _ (hbehind _ ⟨'E', by decide, by decide⟩)))
  | notCallable => exact ⟨'C', by decide, by decide⟩
  | superclassNotClass | stackOverflow => exact ⟨'S', by decide, by decide⟩
  | _ => exact ⟨'O', by decide, by decide⟩

theorem IsRuntimeReport.head? {text : String} (h : IsRuntimeReport text) :
    ∃ c, text.toList.head? = some c ∧ c ≠ '[' := by
  obtain ⟨e, line, rfl⟩ := h
  obtain ⟨c, hhead, hc⟩ := e.head?_message
  refine ⟨c, ?_, hc⟩
  simp only [String.toList_append, List.append_assoc, List.head?_append, toString, hhead]
  rfl

theorem not_areStaticReports_empty : ¬AreStaticReports "" := fun h => by
  simpa using h.head?

theorem not_isRuntimeReport_empty : ¬IsRuntimeReport "" := fun h => by
  obtain ⟨c, hhead, -⟩ := h.head?
  simp at hhead

theorem AreStaticReports.not_isRuntimeReport {text : String} (h : AreStaticReports text) :
    ¬IsRuntimeReport text := fun h' => by
  obtain ⟨c, hhead, hc⟩ := h'.head?
  rw [h.head?] at hhead
  exact hc (Option.some.inj hhead).symm

/-!
## What a run tells

A transcript keeps causes, not texts. What is written of them is empty, one or more static reports,
or one runtime report, and the flags behind the run go with it.
-/

namespace Transcript

/-- Without a failure, the diagnostics are those of the static errors. -/
theorem diagnostics_of_not_failed (t : Transcript) (h : ∀ f, t.ending ≠ .failed f) :
    t.diagnostics = Report.texts t.reports := by
  unfold diagnostics
  cases hending : t.ending with
  | failed f => exact absurd hending (h f)
  | _ => exact String.append_empty

/-- Without static errors, the diagnostics of a failure are all there is. -/
theorem diagnostics_of_failed {t : Transcript} {f : Failure} (hreports : t.reports = [])
    (hending : t.ending = .failed f) : t.diagnostics = f.text := by
  unfold diagnostics
  rw [hreports, hending]
  exact String.empty_append

end Transcript

theorem Failure.isRuntimeReport_text (f : Failure) : IsRuntimeReport f.text :=
  ⟨f.error, f.place.line, rfl⟩

namespace Session

/-- How a run that led from one session to another tells of errors, with the flags behind it. -/
inductive Tells (s s' : Session) (t : Transcript) : Prop
  | nothing (hreports : t.reports = []) (hending : ∀ f, t.ending ≠ .failed f)
      (herror : s'.hadError = s.hadError) (hfailure : s'.hadRuntimeError = s.hadRuntimeError)
  /-- Static errors keep everything from being executed. -/
  | errors (hreports : t.reports ≠ []) (houtput : t.output = "") (hending : t.ending = .refused)
      (herror : s'.hadError = true) (hfailure : s'.hadRuntimeError = s.hadRuntimeError)
  | failure (f : Failure) (hreports : t.reports = []) (hending : t.ending = .failed f)
      (herror : s'.hadError = s.hadError) (hfailure : s'.hadRuntimeError = true)

/-- Each run tells of errors in one of the three ways. -/
theorem tells_run (host : Host) (depth : Nat) (s : Session) (source : String) :
    s.Tells (s.run host depth source).2 (s.run host depth source).1 := by
  -- What is accepted is executed, and all else is reported, unless an earlier error refuses it.
  by_cases haccepts : s.Accepts depth source
  · rw [run_of_accepts host haccepts]
    dsimp only
    cases hending : (executeProgram host depth (lex source).endLine
        (parse depth s.nextUse (lex source)).statements
        (resolve depth (lex source).endLine
          (parse depth s.nextUse (lex source)).statements).uses s.machine).1 with
    | failed f => exact .failure f rfl rfl rfl (by simp [Ending.isFailure])
    | _ => exact .nothing rfl nofun rfl (by simp [Ending.isFailure])
  · obtain ⟨reports, hrun, hreported⟩ := run_of_not_accepts host haccepts
    rw [hrun]
    by_cases hreports : reports = []
    · -- Nothing is wrong with this source, so the error is one from before.
      have hbefore : s.hadError = true := by
        cases herror : s.hadError with
        | true => rfl
        | false => exact absurd hreports (hreported herror)
      exact .nothing hreports nofun hbefore.symm rfl
    · exact .errors hreports rfl rfl rfl rfl

namespace Tells

variable {s s' : Session} {t : Transcript}

/-- A run that tells of nothing writes nothing. -/
theorem diagnostics_of_nothing (hreports : t.reports = []) (hending : ∀ f, t.ending ≠ .failed f) :
    t.diagnostics = "" := by
  rw [t.diagnostics_of_not_failed hending, hreports]
  rfl

/-- A run sets a flag if and only if a report of its kind is written, and leaves it as it was
otherwise. -/
theorem flags (h : Tells s s' t) :
    (s'.hadError = true ↔ s.hadError = true ∨ AreStaticReports t.diagnostics) ∧
    (s'.hadRuntimeError = true ↔ s.hadRuntimeError = true ∨ IsRuntimeReport t.diagnostics) := by
  -- What is printed in one of the three cases is printed in none of the others.
  cases h with
  | nothing hreports hending herror hfailure =>
    rw [diagnostics_of_nothing hreports hending, herror, hfailure]
    simp [not_areStaticReports_empty, not_isRuntimeReport_empty]
  | errors hreports _ hending herror hfailure =>
    have hstatic : AreStaticReports t.diagnostics := by
      rw [t.diagnostics_of_not_failed (by simp [hending])]
      exact areStaticReports_texts hreports
    simp [hstatic, hstatic.not_isRuntimeReport, herror, hfailure]
  | failure f hreports hending herror hfailure =>
    have hruntime : IsRuntimeReport t.diagnostics := by
      rw [Transcript.diagnostics_of_failed hreports hending]
      exact f.isRuntimeReport_text
    have hstatic : ¬AreStaticReports t.diagnostics := fun h => h.not_isRuntimeReport hruntime
    simp [hruntime, hstatic, herror, hfailure]

end Tells

/-!
## What the flags of a session tell

A flag is never taken back but by a reset, so what holds of one run holds of all runs since the last
reset.
-/

/-- Without a reset on the way, a flag is set if it was set before, or if a report of its kind was
written. -/
theorem flags_play (host : Host) (depth : Nat) {steps : List SessionStep}
    (hsteps : .reset ∉ steps) (s : Session) :
    ((s.play host depth steps).2.hadError = true ↔
      s.hadError = true ∨
        ∃ t ∈ (s.play host depth steps).1, AreStaticReports t.diagnostics) ∧
    ((s.play host depth steps).2.hadRuntimeError = true ↔
      s.hadRuntimeError = true ∨
        ∃ t ∈ (s.play host depth steps).1, IsRuntimeReport t.diagnostics) := by
  unfold play
  -- Between resets the flags only rise, and each run tells which of them it has raised.
  induction steps generalizing s with
  | nil => simp [playSteps]
  | cons step steps ih =>
    cases step with
    | reset => exact absurd List.mem_cons_self hsteps
    | run source =>
      have hrest := ih (fun h => hsteps (List.mem_cons_of_mem _ h)) (s.run host depth source).2
      have hfirst := (tells_run host depth s source).flags
      simp only [playSteps, List.mem_cons, exists_eq_or_imp]
      rw [hrest.1, hrest.2, hfirst.1, hfirst.2]
      exact ⟨or_assoc, or_assoc⟩

theorem play_append (s : Session) (before after : List SessionStep) :
    (s.play host depth (before ++ after)).2 =
      ((s.play host depth before).2.play host depth after).2 :=
  playSteps_append s before after

/-- At its beginning and behind a reset, no flag of a session is set. -/
theorem flags_clear (host : Host) (depth : Nat) {before : List SessionStep}
    (h : before = [] ∨ ∃ earlier, before = earlier ++ [.reset]) :
    (initial.play host depth before).2.hadError = false ∧
      (initial.play host depth before).2.hadRuntimeError = false := by
  rcases h with rfl | ⟨earlier, rfl⟩
  · exact ⟨rfl, rfl⟩
  · rw [play_append]
    exact ⟨rfl, rfl⟩

end Session

/-!
## What is left behind of a script

A script is one run in a session of its own. What it leaves behind is an exit code, two streams, and
the flags of the session, and each of them tells the same.
-/

namespace CommandLine

/-- What is left behind of a script, by the number of its exit code: both streams and the flags of
the session tell the same. -/
inductive Account (o : Outcome) (s : Session) : Nat → Prop
  | clean (c : ExitCode) (hexit : o.exit = .code c) (hnumber : c.number = 0)
      (hdiagnostics : o.diagnostics = "") (herror : s.hadError = false)
      (hfailure : s.hadRuntimeError = false) : Account o s 0
  /-- There are static errors, and nothing was printed. -/
  | errors (c : ExitCode) (hexit : o.exit = .code c) (hnumber : c.number = 65)
      (houtput : o.output = "") (hdiagnostics : AreStaticReports o.diagnostics)
      (herror : s.hadError = true) (hfailure : s.hadRuntimeError = false) : Account o s 65
  /-- There is one failure, and nothing else is wrong. -/
  | failure (c : ExitCode) (hexit : o.exit = .code c) (hnumber : c.number = 70)
      (hdiagnostics : IsRuntimeReport o.diagnostics) (herror : s.hadError = false)
      (hfailure : s.hadRuntimeError = true) : Account o s 70

theorem Account.exists_code {o : Outcome} {s : Session} {n : Nat} (h : Account o s n) :
    ∃ c : ExitCode, o.exit = .code c ∧ c.number = n := by
  cases h with
  | clean c hexit hnumber => exact ⟨c, hexit, hnumber⟩
  | errors c hexit hnumber => exact ⟨c, hexit, hnumber⟩
  | failure c hexit hnumber => exact ⟨c, hexit, hnumber⟩

/-- The exit code of an outcome is one, so at most one account of it is true. -/
theorem Account.unique {o : Outcome} {s : Session} {n n' : Nat} (h : Account o s n)
    (h' : Account o s n') : n' = n := by
  obtain ⟨c, hexit, hnumber⟩ := h.exists_code
  obtain ⟨c', hexit', hnumber'⟩ := h'.exists_code
  have hsame : c = c' := by
    rw [hexit] at hexit'
    exact Exit.code.inj hexit'
  rw [← hnumber, ← hnumber', hsame]

/-- A script that ends with an exit code leaves one account behind. -/
theorem account_runSource {source : String}
    (hlost : ∀ e, (runSource host depth source).exit ≠ .lost e)
    (hendless : (runSource host depth source).exit ≠ .endless) :
    ∃ n, Account (runSource host depth source) (Session.initial.run host depth source).2 n := by
  unfold runSource at hlost hendless ⊢
  dsimp only at hlost hendless ⊢
  generalize hrun : Session.initial.run host depth source = r at hlost hendless ⊢
  obtain ⟨t, s⟩ := r
  have htells : Session.initial.Tells s t := by
    have h := Session.tells_run host depth .initial source
    rw [hrun] at h
    exact h
  dsimp only at hlost hendless ⊢
  -- A first run starts without errors, so what it tells is all that there is to tell.
  cases htells with
  | nothing hreports hending herror hfailure =>
    have hclean : exitOfEnding? t.ending = none := by
      cases ht : t.ending with
      | lost e => exact absurd (by simp [ht, exitOfEnding?]) (hlost e)
      | endless => exact absurd (by simp [ht, exitOfEnding?]) hendless
      | _ => rfl
    have hsilent : t.diagnostics = "" :=
      Session.Tells.diagnostics_of_nothing hreports hending
    have hcode : exitCode s = .ok := by
      unfold exitCode
      rw [herror, hfailure]
      rfl
    exact ⟨0, .clean .ok (by simp [hclean, hcode]) rfl hsilent herror hfailure⟩
  | errors hreports houtput hending herror hfailure =>
    have hstatic : AreStaticReports t.diagnostics := by
      rw [t.diagnostics_of_not_failed (by simp [hending])]
      exact areStaticReports_texts hreports
    have hcode : exitCode s = .staticError := by
      unfold exitCode
      rw [herror]
      rfl
    exact ⟨65, .errors .staticError (by simp [hending, exitOfEnding?, hcode]) rfl houtput
      hstatic herror hfailure⟩
  | failure f hreports hending herror hfailure =>
    have hruntime : IsRuntimeReport t.diagnostics := by
      rw [Transcript.diagnostics_of_failed hreports hending]
      exact f.isRuntimeReport_text
    have hcode : exitCode s = .runtimeError := by
      unfold exitCode
      rw [herror, hfailure]
      rfl
    exact ⟨70, .failure .runtimeError (by simp [hending, exitOfEnding?, hcode]) rfl
      hruntime herror hfailure⟩

/-- **Exit code, streams and flags agree.** A script that is a text, ends, and loses no local name
leaves exactly one of three accounts behind: all is well, or there are static errors and nothing was
printed, or there is one failure. And at each point of a session, the flag for static errors is set
if and only if some have been written since the session began or was last reset, and the flag for
failures if and only if one has been written. -/
theorem exit_codes_agree (host : Host) (depth : Nat) :
    (∀ content : ByteArray,
      (runContent host depth content).exit ≠ .notText →
      (∀ e, (runContent host depth content).exit ≠ .lost e) →
      (runContent host depth content).exit ≠ .endless →
      ∃ source, sourceText? content = some source ∧
        ∃! n, Account (runContent host depth content)
          (Session.initial.run host depth source).2 n) ∧
    ∀ before after : List SessionStep,
      (before = [] ∨ ∃ earlier, before = earlier ++ [.reset]) → .reset ∉ after →
      let shown := ((Session.initial.play host depth before).2.play host depth after).1
      let s := (Session.initial.play host depth (before ++ after)).2
      (s.hadError = true ↔ ∃ t ∈ shown, AreStaticReports t.diagnostics) ∧
      (s.hadRuntimeError = true ↔ ∃ t ∈ shown, IsRuntimeReport t.diagnostics) := by
  refine ⟨fun content htext hlost hendless => ?_, fun before after hbefore hafter => ?_⟩
  · unfold runContent at htext hlost hendless ⊢
    -- What is no text has been ruled out, so there is a source that was run.
    cases hsource : sourceText? content with
    | none =>
      simp only [hsource] at htext
      exact absurd rfl htext
    | some source =>
      simp only [hsource] at hlost hendless
      obtain ⟨n, haccount⟩ := account_runSource hlost hendless
      exact ⟨source, rfl, n, haccount, fun n' h => haccount.unique h⟩
  -- Both flags are down behind a reset, and what was shown before it is not counted.
  · obtain ⟨herror, hfailure⟩ := Session.flags_clear host depth hbefore
    have hflags := Session.flags_play host depth hafter
      (Session.initial.play host depth before).2
    rw [herror, hfailure] at hflags
    simp only [Session.play_append]
    simpa using hflags

/-- Three scripts, with their exit codes and the texts on both streams: one with two static errors,
one that prints and then fails, one that is well. Beside them, a session with a static error before
a reset and a failure behind it. -/
theorem exit_codes_agree_failing :
    let host : Host := ⟨fun _ => 0, 9⟩
    let misspelt := "print 1;\nprint ;\nvar 1;".toUTF8
    let failing := "print 1;\nprint a;".toUTF8
    let well := "print 1;".toUTF8
    let accounted (content : ByteArray) (n : Nat) (output diagnostics : String) : Prop :=
      (runContent host 40 content).output = output ∧
      (runContent host 40 content).diagnostics = diagnostics ∧
      ∃ source, sourceText? content = some source ∧
        Account (runContent host 40 content) (Session.initial.run host 40 source).2 n
    let steps : List SessionStep := [.run "print ;", .reset, .run "print a;"]
    accounted misspelt 65 ""
        ("[line 2] Error at ';': Expected expression.\n" ++
          "[line 3] Error at '1': Expected variable name.\n") ∧
      accounted failing 70 "1\n" "Undefined variable 'a'.\n[line 2]\n" ∧
      accounted well 0 "1\n" "" ∧
      (Session.initial.play host 40 steps).2.hadError = false ∧
      (Session.initial.play host 40 steps).2.hadRuntimeError = true := by
  intro host misspelt failing well accounted steps
  have hagree := exit_codes_agree host 40
  -- Of the accounts, the exit code picks the one that is true.
  have haccount {content : ByteArray} {c : ExitCode} {output diagnostics : String}
      (hrun : runContent host 40 content = ⟨output, diagnostics, .code c⟩) :
      accounted content c.number output diagnostics := by
    obtain ⟨source, hsource, n, haccount, -⟩ :=
      hagree.1 content (by simp [hrun]) (by simp [hrun]) (by simp [hrun])
    obtain ⟨c', hexit, rfl⟩ := haccount.exists_code
    obtain rfl : c = c' := by simpa [hrun] using hexit
    exact ⟨by rw [hrun], by rw [hrun], source, hsource, haccount⟩
  obtain ⟨herror, hfailure⟩ :=
    hagree.2 [.run "print ;", .reset] [.run "print a;"] (.inr ⟨[.run "print ;"], rfl⟩) (by simp)
  have hshown : ((Session.initial.play host 40 [.run "print ;", .reset]).2.play host 40
      [.run "print a;"]).1 = [⟨"", [], .failed ⟨.token ⟨.identifier "a", 1⟩,
        .undefinedVariable "a"⟩⟩] := by decide +kernel
  have hruntime : IsRuntimeReport "Undefined variable 'a'.\n[line 1]\n" :=
    ⟨.undefinedVariable "a", 1, by decide +kernel⟩
  rw [hshown] at herror hfailure
  have hmisspelt : runContent host 40 misspelt = ⟨"",
      "[line 2] Error at ';': Expected expression.\n" ++
        "[line 3] Error at '1': Expected variable name.\n", .code .staticError⟩ := by
    decide +kernel
  have hfailing : runContent host 40 failing =
      ⟨"1\n", "Undefined variable 'a'.\n[line 2]\n", .code .runtimeError⟩ := by decide +kernel
  have hwell : runContent host 40 well = ⟨"1\n", "", .code .ok⟩ := by decide +kernel
  refine ⟨haccount hmisspelt, haccount hfailing, haccount hwell, ?_, ?_⟩
  · refine Bool.eq_false_iff.mpr fun h => ?_
    obtain ⟨t, ht, hstatic⟩ := herror.mp h
    obtain rfl := List.mem_singleton.mp ht
    exact hstatic.not_isRuntimeReport hruntime
  · exact hfailure.mpr ⟨_, List.mem_singleton.mpr rfl, hruntime⟩

end CommandLine

end LoxLang
