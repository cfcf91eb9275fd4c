import LoxLang.CommandLine.Prompt
import LoxLang.Proofs.Correspondence.Sessions

/-!
# Refused sources change nothing

A source text with a static error shows its errors and changes nothing that a program could see. It
does use up numbers of uses, so that at the prompt, the lines behind it get others than they would
without it; but numbers do not show. Hence a refused line might as well not have been typed
(`refused_source_changes_nothing`).
-/

namespace LoxLang

/-!
## Lines of a text

A text is its lines, one behind the other. So deleting a line of a text is the same as deleting it
from the list of lines, which is where the prompt takes them from.
-/

namespace CommandLine

/-- Lines as they are cut from a text: a line break ends each line, and may be missing at the end of
the last one only. -/
inductive AreLines : List (List Char) → Prop
  | none : AreLines []
  | unended (line : List Char) (hne : line ≠ []) (hline : '\n' ∉ line) : AreLines [line]
  | ended (line : List Char) (more : List (List Char)) (hline : '\n' ∉ line)
      (h : AreLines more) : AreLines ((line ++ ['\n']) :: more)

theorem areLines_lines (cs : List Char) : AreLines (lines cs) := by
  induction cs with
  | nil => exact .none
  | cons c cs ih =>
    unfold lines
    split
    · next hc =>
      subst hc
      exact .ended [] _ List.not_mem_nil ih
    · next hc =>
      have hbegin : ∀ line : List Char, '\n' ∉ line → '\n' ∉ c :: line := fun line hline hmem =>
        (List.mem_cons.mp hmem).elim (fun h => hc h.symm) hline
      generalize lines cs = ls at ih
      cases ih with
      | none => exact .unended [c] (by simp) (hbegin [] List.not_mem_nil)
      | unended line hne hline => exact .unended (c :: line) (by simp) (hbegin line hline)
      | ended line more hline h => exact .ended (c :: line) more (hbegin line hline) h

theorem lines_append {line : List Char} (hline : '\n' ∉ line) (cs : List Char) :
    lines (line ++ '\n' :: cs) = (line ++ ['\n']) :: lines cs := by
  induction line with
  | nil => simp [lines]
  | cons c line ih =>
    rw [List.mem_cons, not_or] at hline
    rw [List.cons_append, lines, if_neg (Ne.symm hline.1), ih hline.2]
    rfl

theorem lines_eq_singleton {line : List Char} (hne : line ≠ []) (hline : '\n' ∉ line) :
    lines line = [line] := by
  induction line with
  | nil => exact absurd rfl hne
  | cons c line ih =>
    rw [List.mem_cons, not_or] at hline
    rw [lines, if_neg (Ne.symm hline.1)]
    cases line with
    | nil => rfl
    | cons c' line => rw [ih (by simp) hline.2]

/-- A text is cut into the lines that it was put together from. -/
theorem AreLines.lines_flatten {ls : List (List Char)} (h : AreLines ls) :
    lines ls.flatten = ls := by
  induction h with
  | none => rfl
  | unended line hne hline =>
    rw [List.flatten_cons, List.flatten_nil, List.append_nil]
    exact lines_eq_singleton hne hline
  | ended line more hline _ ih =>
    rw [List.flatten_cons, List.append_assoc, List.singleton_append, lines_append hline, ih]

theorem AreLines.delete {front back : List (List Char)} {line : List Char}
    (h : AreLines (front ++ line :: back)) : AreLines (front ++ back) := by
  induction front with
  | nil =>
    cases h with
    | unended => exact .none
    | ended _ _ _ h => exact h
  | cons first front ih =>
    rw [List.cons_append] at h ⊢
    generalize hrest : front ++ line :: back = rest at h
    cases h with
    | unended => simp at hrest
    | ended first _ hfirst h => exact .ended first _ hfirst (ih (hrest ▸ h))

/-!
## What the prompt shows

The transcripts of the lines up to the one that ends the prompt. The text that is shown is put
together from them in front of what is shown in the end.
-/

/-- Runs lines at the prompt, up to the first that ends it. Gives what each of them showed, and the
session behind. -/
def promptTranscripts (host : Host) (depth : Nat) :
    Session → List String → List Transcript × Session
  | s, [] => ([], s)
  | s, line :: more =>
    let (t, s) := s.run host depth line
    match exitOfEnding? t.ending with
    | some _ => ([t], s)
    | none =>
      let (ts, s) := promptTranscripts host depth s.reset more
      (t :: ts, s)

/-- What is left behind of what lines at the prompt showed. -/
def promptOutcome : List Transcript → Outcome
  | [] => ⟨promptSign ++ "\n", "", .code .ok⟩
  | t :: ts =>
    let next : Outcome := match exitOfEnding? t.ending with
      | some exit => .silent exit
      | none => promptOutcome ts
    next.after (promptSign ++ t.output) t.diagnostics

theorem prompt_eq_promptOutcome (host : Host) (depth : Nat) (s : Session) (ls : List String) :
    prompt host depth s ls = promptOutcome (promptTranscripts host depth s ls).1 := by
  induction ls generalizing s with
  | nil => rfl
  | cons line more ih =>
    unfold prompt promptTranscripts
    dsimp only
    cases hexit : exitOfEnding? (s.run host depth line).1.ending with
    | some exit =>
      simp only [promptOutcome, hexit]
    | none =>
      simp only [promptOutcome, hexit, ih]

/-- What lines show that do not end the prompt stands before all that is shown behind them. -/
theorem promptOutcome_append {ts : List Transcript}
    (hts : ∀ t ∈ ts, exitOfEnding? t.ending = none) (more : List Transcript) :
    promptOutcome (ts ++ more) = (promptOutcome more).after
      (String.join (ts.map fun t => promptSign ++ t.output))
      (String.join (ts.map Transcript.diagnostics)) := by
  induction ts with
  | nil => simp [Outcome.after]
  | cons t ts ih =>
    rw [List.forall_mem_cons] at hts
    simp only [List.cons_append, promptOutcome, hts.1, ih hts.2, Outcome.after, List.map_cons,
      String.join_cons, String.append_assoc]

end CommandLine

/-!
## Other numbers

A line that is refused takes numbers for the uses of names in it. So behind it the session counts
from a larger number than the session without the line, and it is otherwise the same. Sessions that
differ in this way show the same.
-/

/-- The same lines, the same numbers below one, and the numbers from it on counted from another. -/
def Correspondence.renumbering (n n' : UseId) : Correspondence :=
  ⟨Eq, fun i j => i = j ∧ i < n ∨ ∃ k, i = n + k ∧ j = n' + k⟩

theorem Correspondence.renumbers_renumbering {n n' : Nat} (h : n ≤ n') :
    (renumbering n n').Renumbers := by
  have hone (i i' j j' : Nat) (hi : i = i' ∧ i < n ∨ ∃ k, i = n + k ∧ i' = n' + k)
      (hj : j = j' ∧ j < n ∨ ∃ k, j = n + k ∧ j' = n' + k) : i = j ↔ i' = j' := by
    rcases hi with ⟨rfl, hi⟩ | ⟨k, rfl, rfl⟩ <;> rcases hj with ⟨rfl, hj⟩ | ⟨k', rfl, rfl⟩ <;> omega
  exact ⟨rfl, hone⟩

/-- A session may give other numbers from now on. -/
theorem Session.Numbered.renumber {s : Session} (h : s.Numbered) {n' : Nat}
    (hle : s.nextUse ≤ n') :
    s.Corresponds (.renumbering s.nextUse n') { s with nextUse := n' } := by
  have hwithin : (Correspondence.below s.nextUse).Within (.renumbering s.nextUse n') :=
    ⟨id, .inl⟩
  refine ⟨Machine.Corresponds.mono hwithin h.machine fun i j hi => ?_,
    fun k => .inr ⟨k, rfl, rfl⟩, rfl, rfl⟩
  rcases hi with ⟨rfl, -⟩ | ⟨k, rfl, rfl⟩
  · rfl
  · rw [h.fresh _ (Nat.le_add_right _ k), h.fresh _ (Nat.le_trans hle (Nat.le_add_right _ k))]

namespace CommandLine

variable {κ : Correspondence}

theorem promptTranscripts_corresponds (host : Host) (depth : Nat) (hκ : κ.Renumbers)
    {s s' : Session} (h : s.Corresponds κ s') (ls : List String) :
    (promptTranscripts host depth s ls).1 = (promptTranscripts host depth s' ls).1 ∧
      (promptTranscripts host depth s ls).2.Corresponds κ
        (promptTranscripts host depth s' ls).2 := by
  induction ls generalizing s s' with
  | nil => exact ⟨rfl, h⟩
  | cons line more ih =>
    obtain ⟨htranscript, hbehind⟩ := h.run host depth hκ line
    unfold promptTranscripts
    dsimp only
    rw [← htranscript]
    cases exitOfEnding? (s.run host depth line).1.ending with
    | some exit => exact ⟨rfl, hbehind⟩
    | none =>
      obtain ⟨hmore, hend⟩ := ih hbehind.reset
      exact ⟨congrArg (_ :: ·) hmore, hend⟩

/-- What comes of lines at the prompt with and without one of them. -/
structure Deleted (t : Transcript) (position : Nat) (whole rest : List Transcript × Session) :
    Prop where
  transcripts : ∃ before behind, before.length = position ∧ whole.1 = before ++ t :: behind ∧
    rest.1 = before ++ behind ∧ ∀ t' ∈ before, exitOfEnding? t'.ending = none
  refused : t.output = "" ∧ t.ending = .refused
  sessions : ∃ κ : Correspondence, κ.Renumbers ∧ rest.2.Corresponds κ whole.2

/-- A line that is refused can be deleted. -/
theorem promptTranscripts_delete (host : Host) (depth : Nat) {s : Session} (hs : s.Numbered)
    (hreset : s.reset = s) (front back : List String) (line : String) {t : Transcript}
    (ht : (promptTranscripts host depth s (front ++ line :: back)).1[front.length]? = some t)
    (hreports : t.reports ≠ []) :
    Deleted t front.length (promptTranscripts host depth s (front ++ line :: back))
      (promptTranscripts host depth s (front ++ back)) := by
  -- By induction on the lines before: both run them, and come to the line in the same session.
  induction front generalizing s with
  | nil =>
    rw [List.nil_append] at ht ⊢
    obtain rfl : (s.run host depth line).1 = t := by
      unfold promptTranscripts at ht
      dsimp only at ht
      cases hexit : exitOfEnding? (s.run host depth line).1.ending <;> rw [hexit] at ht <;>
        exact Option.some.inj ht
    obtain ⟨reports, hrun, -⟩ :=
      Session.run_of_not_accepts host (Session.not_accepts_of_reports_ne_nil hreports)
    -- What is left of the line is that its uses have taken numbers, which does not show.
    have hrenumber := hs.renumber (le_nextUse_parse depth s.nextUse (lex line))
    have hκ := Correspondence.renumbers_renumbering (le_nextUse_parse depth s.nextUse (lex line))
    obtain ⟨hmore, hend⟩ := promptTranscripts_corresponds host depth hκ
      (hreset ▸ hrenumber.reset) back
    let s' : Session := { s with nextUse := (parse depth s.nextUse (lex line)).nextUse }
    have hwhole : promptTranscripts host depth s (line :: back) =
        (⟨"", reports, .refused⟩ :: (promptTranscripts host depth s'.reset back).1,
          (promptTranscripts host depth s'.reset back).2) := by
      rw [promptTranscripts, hrun]
      rfl
    rw [hwhole, hrun]
    exact ⟨⟨[], _, rfl, rfl, hmore, nofun⟩, ⟨rfl, rfl⟩, _, hκ, hend⟩
  | cons first front ih =>
    unfold promptTranscripts at ht ⊢
    dsimp only [List.cons_append] at ht ⊢
    cases hexit : exitOfEnding? (s.run host depth first).1.ending with
    | some exit =>
      rw [hexit] at ht
      cases ht
    | none =>
      rw [hexit] at ht
      obtain ⟨⟨before, behind, hlength, hwhole, hrest, hgoes⟩, hrefused, hsessions⟩ :=
        ih (hs.run host depth first).reset rfl ht
      refine ⟨⟨(s.run host depth first).1 :: before, behind, congrArg (· + 1) hlength,
        congrArg (_ :: ·) hwhole, congrArg (_ :: ·) hrest,
        List.forall_mem_cons.mpr ⟨hexit, hgoes⟩⟩, hrefused, hsessions⟩

/-- **A statically wrong source changes nothing.** If there was an error before, or one is found
while a source text is read or resolved, then nothing is printed, and the state of the program with
all its frames, objects, classes and distances, the present frame and the flag for failures are what
they were.

So a line that shows a static error can be deleted from the text of the prompt. What the other lines
show is the same, in both streams and in the exit, apart from the sign and the errors of that line;
and the globals are the same in the end. -/
theorem refused_source_changes_nothing (host : Host) (depth : Nat) :
    (∀ (s : Session) (source : String),
      s.hadError = true ∨ (lex source).reports ≠ [] ∨
          (parse depth s.nextUse (lex source)).reports ≠ [] ∨
          (resolve depth (lex source).endLine
            (parse depth s.nextUse (lex source)).statements).reports ≠ [] →
        (s.run host depth source).1.output = "" ∧
        (s.run host depth source).1.ending = .refused ∧
        (s.run host depth source).2.machine = s.machine ∧
        (s.run host depth source).2.hadRuntimeError = s.hadRuntimeError) ∧
    ∀ (input : String) (front back : List (List Char)) (line : List Char),
      lines input.toList = front ++ line :: back →
      let whole := promptTranscripts host depth .initial ((lines input.toList).map String.ofList)
      let rest := promptTranscripts host depth .initial ((front ++ back).map String.ofList)
      ∀ t, whole.1[front.length]? = some t → t.reports ≠ [] →
        ∃ before behind,
          before.length = front.length ∧ whole.1 = before ++ t :: behind ∧
          rest.1 = before ++ behind ∧
          promptText host depth input =
            ((promptOutcome behind).after promptSign t.diagnostics).after
              (String.join (before.map fun t => promptSign ++ t.output))
              (String.join (before.map Transcript.diagnostics)) ∧
          promptText host depth (String.ofList (front ++ back).flatten) =
            (promptOutcome behind).after
              (String.join (before.map fun t => promptSign ++ t.output))
              (String.join (before.map Transcript.diagnostics)) ∧
          rest.2.globals = whole.2.globals ∧
          rest.2.machine.frames = whole.2.machine.frames ∧
          rest.2.machine.instances = whole.2.machine.instances ∧
          rest.2.hadRuntimeError = whole.2.hadRuntimeError := by
  refine ⟨fun s source hwrong => ?_, fun input front back line hlines => ?_⟩
  · have hrefuses : ¬s.Accepts depth source := fun h => by
      simp [h.clear, h.lexed, h.parsed, h.resolved] at hwrong
    obtain ⟨reports, hrun, -⟩ := Session.run_of_not_accepts host hrefuses
    rw [hrun]
    exact ⟨rfl, rfl, rfl, rfl⟩
  · have hdelete : lines (front ++ back).flatten = front ++ back :=
      (hlines ▸ areLines_lines input.toList).delete.lines_flatten
    -- So without the line the text falls into the other lines, and its prompt runs these.
    intro whole rest t ht hreports
    have hsplit : (lines input.toList).map String.ofList =
        front.map String.ofList ++ String.ofList line :: back.map String.ofList := by
      rw [hlines, List.map_append, List.map_cons]
    simp only [whole, hsplit] at ht ⊢
    simp only [rest, List.map_append]
    rw [← List.length_map String.ofList] at ht ⊢
    obtain ⟨⟨before, behind, hlength, hwhole, hrest, hgoes⟩, ⟨houtput, hending⟩, κ, hκ,
        hsessions⟩ :=
      promptTranscripts_delete host depth Session.numbered_initial rfl
        (front.map String.ofList) (back.map String.ofList) (String.ofList line) ht hreports
    refine ⟨before, behind, hlength, hwhole, hrest, ?_, ?_, hsessions.machine.globals_eq,
      hsessions.machine.frames, hsessions.machine.instances, hsessions.hadRuntimeError⟩
    · unfold promptText
      rw [hsplit, prompt_eq_promptOutcome, hwhole, promptOutcome_append hgoes]
      simp only [promptOutcome, houtput, hending, exitOfEnding?, String.append_empty]
    · unfold promptText
      rw [String.toList_ofList, hdelete, List.map_append, prompt_eq_promptOutcome, hrest,
        promptOutcome_append hgoes]

/-- A line with a mistake between two without, and its deletion. -/
theorem refused_line_between :
    let host : Host := ⟨fun _ => 0, 9⟩
    let t : Transcript := ⟨"", [.located (.token ⟨.mark .rightParen, 1⟩)
      (.grammar .expectedExpression)], .refused⟩
    let front := ["var a;\n".toList]
    let back := ["print a;\n".toList]
    let whole := promptTranscripts host 40 .initial
      ((lines "var a;\n)\nprint a;\n".toList).map String.ofList)
    let rest := promptTranscripts host 40 .initial ((front ++ back).map String.ofList)
    ({ Session.initial with hadError := true }.run host 40 "print nil;").1.output = "" ∧
      lines "var a;\n)\nprint a;\n".toList = front ++ ")\n".toList :: back ∧
      whole.1[front.length]? = some t ∧ t.reports ≠ [] ∧
      ∃ before behind, whole.1 = before ++ t :: behind ∧ rest.1 = before ++ behind ∧
        rest.2.globals = whole.2.globals := by
  have hlines : lines "var a;\n)\nprint a;\n".toList =
      ["var a;\n".toList] ++ ")\n".toList :: ["print a;\n".toList] := by decide +kernel
  -- The line in the middle is refused by the parser, and stands in none of the other transcripts.
  have ht : (promptTranscripts ⟨fun _ => 0, 9⟩ 40 .initial
      ((lines "var a;\n)\nprint a;\n".toList).map String.ofList)).1[["var a;\n".toList].length]? =
        some ⟨"", [.located (.token ⟨.mark .rightParen, 1⟩) (.grammar .expectedExpression)],
          .refused⟩ := by decide +kernel
  obtain ⟨hstate, hprompt⟩ := refused_source_changes_nothing ⟨fun _ => 0, 9⟩ 40
  obtain ⟨before, behind, -, hwhole, hrest, -, -, hglobals, -⟩ :=
    hprompt _ _ _ _ hlines _ ht (List.cons_ne_nil _ _)
  exact ⟨(hstate _ _ (.inl rfl)).1, hlines, ht, List.cons_ne_nil _ _, before, behind, hwhole, hrest,
    hglobals⟩

end CommandLine

end LoxLang
