import LoxLang.Proofs.Appending.Programs

/-!
# Parsing texts one after the other

A parser that comes to the end of a text hands over to what stands behind it (`HandsOver`) if it has
read the text without a mistake, or if the text is one statement with a mistake that was noticed at
one of its tokens: recovery then goes to just behind its semicolon. So a mistake in one statement
neither hides mistakes in those behind it nor makes new ones (`parse_append`).
-/

namespace LoxLang

open LoxLang.Parser Nested

variable {c : Surroundings} {depth n n' : Nat} {s s' : ParserState}

/-- A program is read up to the end of its tokens, and the same is read with others behind them,
where parsing goes on. -/
def HandsOver (c : Surroundings) (depth n n' : Nat) (s s' : ParserState) : Prop :=
  ∃ ss s₁ s₁' m, program (grammar depth) n s = .ok ss s₁ ∧ s₁.rest = [] ∧ s₁.Extends c s₁' ∧
    s₁'.endLine = s'.endLine ∧ s₁'.rest.length < m ∧
      program (grammar depth) n' s' = prepend ss (program (grammar depth) m s₁')

theorem handsOver_of_nil (hrest : s.rest = []) (hs : s.Extends c s') (hn' : s'.rest.length < n') :
    HandsOver c depth n n' s s' :=
  ⟨[], s, s', n', program_of_nil hrest, hrest, hs, rfl, hn', (prepend_nil _).symm⟩

/-- A declaration that is the same in both runs can be left out of account. -/
theorem HandsOver.afterDeclaration {first : Option Stmt} {s₁ s₁' : ParserState}
    (h : HandsOver c depth n n' s₁ s₁') (hrest : s.rest ≠ []) (hs : s.Extends c s')
    (hrun : (grammar depth).declaration s = .ok first s₁)
    (hrun' : (grammar depth).declaration s' = .ok first s₁') :
    HandsOver c depth (n + 1) (n' + 1) s s' := by
  -- Both programs hand over where they did behind this declaration, with its tree put in front.
  obtain ⟨ss, s₂, s₂', m, hprogram, hend, hs₂, hline, hm, hprogram'⟩ := h
  have hrest' := hs.rest_ne_nil hrest
  have hadvance := (((tracking_grammar c depth).declaration 0 0).advances s').advance
  rw [hrun'] at hadvance
  refine ⟨first.toList ++ ss, s₂, s₂', m, ?_, hend, hs₂, hline.trans hadvance.endLine, hm, ?_⟩
  · rw [program_succ hrest, hrun]
    show prepend first.toList (program (grammar depth) n s₁) = _
    rw [hprogram]
    rfl
  · rw [program_succ hrest', hrun']
    show prepend first.toList (program (grammar depth) n' s₁') = _
    rw [hprogram', prepend_prepend]

/-!
## Texts without a mistake

Where nothing is reported, no declaration was cut short, so each ends within the first text, and the
second run reads the same ones before it comes to the second text.
-/

theorem Advance.reports_eq {calm calm' : Prop} {s'' : ParserState} (h : Advance calm s s')
    (h' : Advance calm' s' s'') (heq : s''.reports = s.reports) : s'.reports = s.reports := by
  obtain ⟨new, hnew, -⟩ := h.reports
  obtain ⟨new', hnew', -⟩ := h'.reports
  have hlength := congrArg List.length heq
  rw [hnew', hnew, List.length_append, List.length_append] at hlength
  have hnil : new = [] := List.eq_nil_of_length_eq_zero (by omega)
  rw [hnew, hnil, List.append_nil]

/-- Reporting something is not nothing. -/
theorem Advance.reporting_ne {calm : Prop} (h : Advance calm s s') (place : Location)
    (e : StaticError) : (s'.reporting place e).reports ≠ s.reports := by
  obtain ⟨new, hnew, -⟩ := h.reports
  intro heq
  have hlength := congrArg List.length heq
  simp only [ParserState.reporting, hnew, List.length_append, List.length_singleton] at hlength
  omega

/-- A declaration in which nothing is reported is the same in both runs, since it has come to an end
within its tokens. -/
theorem declaration_of_clean {first : Option Stmt} {s₁ : ParserState} (hno : c.NoElse)
    (hs : s.Extends c s') (hrun : (grammar depth).declaration s = .ok first s₁)
    (hclean : s₁.reports = s.reports) :
    ∃ s₁', (grammar depth).declaration s' = .ok first s₁' ∧ s₁.Extends c s₁' := by
  cases depth with
  | zero => cases hrun
  | succ depth =>
    have htracks := tracks_declarationRule (tracking_grammar c depth) s.bound s'.bound
    have hends := htracks.advances s
    have halike := htracks.alike s s' hs hs.bound hs.bound'
    change (grammar depth).recovering s = _ at hrun
    show ∃ s₁', (grammar depth).recovering s' = _ ∧ _
    rw [recovering_eq] at hrun ⊢
    -- A declaration without a report is one without a mistake, so its rule ended normally.
    generalize (grammar depth).declarationRule s = r at hrun hends halike
    cases hends with
    | ok _ =>
      cases hrun
      rcases halike with halike | ⟨-, -, hsettled⟩
      · generalize (grammar depth).declarationRule s' = r' at halike
        cases halike with
        | ok hd hs₁ => exact ⟨_, congrArg (EStateM.Result.ok · _) (congrArg some hd.symm), hs₁⟩
      -- The rule has not run out: behind it there is no `else` that could belong to it.
      · obtain ⟨e, s₂, heq⟩ := hsettled hno
        cases heq
    | tooDeep _ => cases hrun
    | mistake hadvance _ =>
      cases hrun
      exact absurd hclean (hadvance.reporting_ne _ _)

/-- **A text without a mistake hands over.** -/
theorem handsOver_of_clean (hno : c.NoElse) (hs : s.Extends c s') (hn : s.rest.length < n)
    (hn' : s'.rest.length < n')
    (hclean : (stateOf (program (grammar depth) n s)).reports = s.reports) :
    HandsOver c depth n n' s s' := by
  -- By induction on the declarations, which are the same in both runs one by one.
  induction n generalizing n' s s' with
  | zero => exact absurd hn (Nat.not_lt_zero _)
  | succ n ih =>
    by_cases hrest : s.rest = []
    · exact handsOver_of_nil hrest hs hn'
    have hrest' := hs.rest_ne_nil hrest
    cases n' with
    | zero => exact absurd hn' (Nat.not_lt_zero _)
    | succ n' =>
      have htracks := tracking_grammar c depth
      have hadvance := ((htracks.declaration 0 0).advances s).advance
      rw [program_succ hrest] at hclean
      cases hrun : (grammar depth).declaration s with
      | error e s₁ =>
        rw [hrun] at hclean hadvance
        exact absurd hclean (hadvance.reporting_ne _ _)
      | ok first s₁ =>
        rw [hrun] at hclean hadvance
        have hmore := advance_program depth n s₁
        have hstate : stateOf (goOn (program (grammar depth) n) (.ok first s₁)) =
            stateOf (program (grammar depth) n s₁) := by
          show stateOf (prepend _ _) = _
          cases program (grammar depth) n s₁ <;> rfl
        rw [hstate] at hclean
        have hfirst := hadvance.reports_eq hmore hclean
        obtain ⟨s₁', hrun', hs₁⟩ := declaration_of_clean hno hs hrun hfirst
        have htakes := htracks.takes s first s₁ hrun hrest
        have htakes' := htracks.takes s' first s₁' hrun' hrest'
        have hover : HandsOver c depth n n' s₁ s₁' :=
          ih hs₁ (by omega) (by omega) (hclean.trans hfirst.symm)
        exact hover.afterDeclaration hrest hs hrun hrun'

/-!
## Statements with a mistake

A mistake skips tokens up to the start of a statement. In one plain statement there is no such token
but behind the semicolon at its end, so just the statement is skipped.
-/

/-- Tokens of one statement without a block: the only semicolon is the last token, and what begins a
statement stands at the front if anywhere. -/
structure PlainStatement (k : List Token) : Prop where
  noBrace : ∀ t ∈ k, t.kind ≠ .mark .leftBrace ∧ t.kind ≠ .mark .rightBrace
  semicolon : ∃ front last, k = front ++ [last] ∧ last.kind = .mark .semicolon ∧
    ∀ t ∈ front, t.kind ≠ .mark .semicolon
  keywords : ∀ t ∈ k.tail, beginsStatement t = false

theorem PlainStatement.ne_nil {k : List Token} (h : PlainStatement k) : k ≠ [] := by
  obtain ⟨front, last, rfl, -⟩ := h.semicolon
  exact List.concat_ne_nil last front

/-- Behind a semicolon, nothing more is skipped. -/
theorem resume_of_semicolon {t : Token} (h : t.kind = .mark .semicolon) (ts : List Token) :
    resume t ts = ts := by
  cases ts with
  | nil => rfl
  | cons u us =>
    unfold resume
    rw [if_pos]
    simp [endsStatement, h]

/-- Within a statement, everything is skipped up to the semicolon, which is skipped as well. -/
theorem resume_of_plain {t last : Token} {front : List Token} (us : List Token)
    (hlast : last.kind = .mark .semicolon)
    (hfront : ∀ x ∈ t :: front, x.kind ≠ .mark .semicolon)
    (hkeywords : ∀ x ∈ front ++ [last], beginsStatement x = false) :
    resume t (front ++ [last] ++ us) = us := by
  have ht : endsStatement t = false := by simpa [endsStatement] using hfront t List.mem_cons_self
  -- Token by token: none before the last ends a statement, and none begins one.
  induction front generalizing t with
  | nil =>
    have hbegins := hkeywords last List.mem_cons_self
    show resume t (last :: us) = us
    rw [resume, ht, hbegins]
    exact resume_of_semicolon hlast us
  | cons x front ih =>
    have hbegins := hkeywords x List.mem_cons_self
    have hx := hfront x (List.mem_cons_of_mem t List.mem_cons_self)
    show resume t (x :: (front ++ [last] ++ us)) = us
    rw [resume, ht, hbegins]
    apply ih
    · exact fun y hy => hfront y (List.mem_cons_of_mem t hy)
    · exact fun y hy => hkeywords y (List.mem_cons_of_mem x hy)
    · simpa [endsStatement] using hx

/-- From whatever token of a statement recovery starts, it goes to just behind the statement. -/
theorem PlainStatement.skipMistake {k ts : List Token} (h : PlainStatement k) (hts : ts <:+ k)
    (hne : ts ≠ []) (us : List Token) : skipMistake (ts ++ us) = us := by
  obtain ⟨front, last, hk, hlast, hfront⟩ := h.semicolon
  obtain ⟨t, rest, rfl⟩ := List.exists_cons_of_ne_nil hne
  obtain ⟨pre, hpre⟩ := hts
  show resume t (rest ++ us) = us
  rcases List.eq_nil_or_concat' rest with rfl | ⟨middle, last', rfl⟩
  · -- The mistake was noticed at the semicolon itself.
    obtain ⟨-, hlast'⟩ := List.append_inj' (hpre.trans hk) rfl
    obtain ⟨rfl, -⟩ := List.cons.inj hlast'
    exact resume_of_semicolon hlast us
  -- The last of the tokens that are left is the last of the statement, its semicolon.
  · have hpre' : pre ++ t :: middle ++ [last'] = front ++ [last] := by
      rw [← hk, ← hpre, List.append_assoc, List.cons_append]
    obtain ⟨rfl, hlast'⟩ := List.append_inj' hpre' rfl
    obtain ⟨rfl, -⟩ := List.cons.inj hlast'
    apply resume_of_plain us hlast
    · exact fun x hx => hfront x (List.mem_append_right pre hx)
    · intro x hx
      apply h.keywords
      rw [← hpre]
      cases pre with
      | nil => exact hx
      | cons p pre => exact List.mem_append_right pre (List.mem_cons_of_mem t hx)

/-- A statement that is read takes the semicolon. -/
theorem PlainStatement.rest_eq_nil {k taken rest : List Token} (h : PlainStatement k)
    (hk : k = taken ++ rest) (htaken : ∃ t ∈ taken, t.closes = true) : rest = [] := by
  obtain ⟨front, last, hk', -, hfront⟩ := h.semicolon
  obtain ⟨t, ht, hcloses⟩ := htaken
  rcases List.eq_nil_or_concat' rest with hnil | ⟨more, last', rfl⟩
  · exact hnil
  · -- Otherwise the semicolon would stand further in front.
    have hsplit : taken ++ more ++ [last'] = front ++ [last] := by
      rw [← hk', hk, List.append_assoc]
    obtain ⟨rfl, -⟩ := List.append_inj' hsplit rfl
    have hsemicolon := hfront t (List.mem_append_left more ht)
    have hbrace := (h.noBrace t (hk ▸ List.mem_append_left _ ht)).2
    simp [Token.closes, hsemicolon, hbrace] at hcloses

theorem PlainStatement.not_hasBrace {k : List Token} (h : PlainStatement k) : ¬HasBrace k := by
  rintro ⟨t, ht, hkind⟩
  exact (h.noBrace t ht).1 hkind

/-- Some reports are of a mistake over which a parser gave up at one of the tokens. -/
def StoppedAtToken (rs : List Report) : Prop :=
  ∃ t e, GrammarError.stops e = true ∧ .located (.token t) (.grammar e) ∈ rs

/-- Reports over which no parser gave up do not count. -/
theorem StoppedAtToken.of_append {new rs : List Report} (h : StoppedAtToken (new ++ rs))
    (hmild : ∀ r ∈ new, r.stops = false) : StoppedAtToken rs := by
  obtain ⟨t, e, he, hmem⟩ := h
  refine ⟨t, e, he, ?_⟩
  rcases List.mem_append.mp hmem with hmem | hmem
  · exact absurd ((hmild _ hmem).symm.trans he) (by simp)
  · exact hmem

theorem not_stoppedAtToken_nil : ¬StoppedAtToken [] := by
  rintro ⟨t, e, -, hmem⟩
  cases hmem

/-- Without a block, a parser that has gone on has reported nothing over which one gave up. -/
theorem Advance.mild (h : Advance True s s') (hplain : PlainStatement s.rest)
    (hnone : s.reports = []) : ∀ r ∈ s'.reports, r.stops = false := by
  obtain ⟨new, hnew, hmild⟩ := h.reports
  rw [hnew, hnone, List.nil_append]
  exact (hmild trivial).resolve_left hplain.not_hasBrace

/-- A mistake at the end of a text, or too much nesting, is at none of its tokens. -/
theorem not_stoppedAtToken_reporting {e : StaticError} (hmild : ∀ r ∈ s.reports, r.stops = false)
    (h : s.rest = [] ∨ e = .nesting) :
    ¬StoppedAtToken (s.reporting s.location e).reports := by
  intro hstopped
  obtain ⟨t, e', -, hmem⟩ := hstopped.of_append hmild
  have heq := List.mem_singleton.mp hmem
  rcases h with hrest | rfl
  · have hlocation : s.location = .endOfSource s.endLine := by
      unfold ParserState.location
      rw [hrest]
    rw [hlocation] at heq
    cases heq
  · cases (Report.located.inj heq).2

/-- Where everything is skipped, the second run goes on behind it. -/
theorem ParserState.Extends.recovered_of_skip (hs : s.Extends c s')
    (hskip : ∀ us, Parser.skipMistake (s.rest ++ us) = us) :
    s.recovered.rest = [] ∧ s.recovered.Extends c s'.recovered := by
  have hrest : s.recovered.rest = [] := by
    have hnil := hskip []
    rwa [List.append_nil] at hnil
  -- What is skipped is the same in both, so the second stops just before what stands behind.
  have hrest' : s'.recovered.rest = c.behind := by
    show Parser.skipMistake s'.rest = c.behind
    rw [hs.rest, hskip]
  have hbound' := hs.bound'
  rw [hs.rest, List.length_append] at hbound'
  refine ⟨hrest, { hs with rest := ?_, bound := ?_, bound' := ?_ }⟩
  · rw [hrest, hrest', List.nil_append]
  · rw [hrest]
    exact Nat.zero_lt_of_lt hs.bound
  · rw [hrest']
    show c.behind.length < s'.bound
    omega

/-- If a mistake is at one of the tokens of a statement, the declaration has stopped there: had it
been read, it would have come to the end of the statement. -/
theorem mistake_of_stoppedAtToken (hplain : PlainStatement s.rest) (hnone : s.reports = [])
    (hstopped : StoppedAtToken (stateOf (program (grammar (depth + 1)) (n + 1) s)).reports) :
    ∃ s₁, (grammar depth).declarationRule s = .error .mistake s₁ ∧ s₁.rest <:+ s.rest ∧
      s₁.rest ≠ [] := by
  have htracks := tracking_grammar ⟨[], []⟩ depth
  have hends := (tracks_declarationRule htracks 0 0).advances s
  rw [program_succ hplain.ne_nil] at hstopped
  change StoppedAtToken (stateOf (goOn _ ((grammar depth).recovering s))).reports at hstopped
  rw [recovering_eq] at hstopped
  generalize hrule : (grammar depth).declarationRule s = r at hends hstopped
  -- Two of the ways to end are out: they leave no report of a mistake at a token.
  cases hends with
  | @ok d s₁ hadvance =>
    -- A declaration that is read takes the whole statement, and nothing is left to report on.
    obtain ⟨taken, hk, htaken⟩ := closes_declarationRule htracks s d s₁ hrule
    have hmild := hadvance.mild hplain hnone
    change StoppedAtToken (stateOf (prepend _ (program _ n s₁))).reports at hstopped
    rw [program_of_nil (hplain.rest_eq_nil hk htaken)] at hstopped
    change StoppedAtToken s₁.reports at hstopped
    rw [← List.append_nil s₁.reports] at hstopped
    exact absurd (hstopped.of_append hmild) not_stoppedAtToken_nil
  | @tooDeep s₁ hadvance =>
    have hmild := hadvance.mild hplain hnone
    exact absurd hstopped (not_stoppedAtToken_reporting hmild (.inr rfl))
  | @mistake s₁ e hadvance _ =>
    -- The report of the mistake is the only one, so it cannot have been made at the end.
    refine ⟨_, rfl, hadvance.rest, fun hend => ?_⟩
    have hmild := hadvance.mild hplain hnone
    have hend : s₁.rest = [] := hend
    have hrecovered : (s₁.reporting s₁.location (.grammar e)).recovered.rest = [] := by
      show skipMistake s₁.rest = []
      rw [hend]
      rfl
    change StoppedAtToken (stateOf (prepend _ (program _ n _))).reports at hstopped
    rw [program_of_nil hrecovered] at hstopped
    exact not_stoppedAtToken_reporting hmild (.inl hend) hstopped

/-- **A statement with a mistake hands over** if the mistake was noticed at one of its tokens. -/
theorem handsOver_of_mistake (hplain : PlainStatement s.rest) (hnone : s.reports = [])
    (hs : s.Extends c s') (hn : s.rest.length < n) (hn' : s'.rest.length < n')
    (hstopped : StoppedAtToken (stateOf (program (grammar depth) n s)).reports) :
    HandsOver c depth n n' s s' := by
  have hrest := hplain.ne_nil
  obtain ⟨n, rfl⟩ := Nat.exists_eq_succ_of_ne_zero (Nat.ne_zero_of_lt hn)
  obtain ⟨n', rfl⟩ := Nat.exists_eq_succ_of_ne_zero (Nat.ne_zero_of_lt hn')
  cases depth with
  | zero =>
    rw [program_succ hrest] at hstopped
    have hmild : ∀ r ∈ s.reports, r.stops = false := hnone ▸ List.forall_mem_nil _
    exact absurd hstopped (not_stoppedAtToken_reporting hmild (.inr rfl))
  | succ depth =>
    obtain ⟨s₁, hrule, hsuffix, hend⟩ := mistake_of_stoppedAtToken hplain hnone hstopped
    have htracks := tracks_declarationRule (tracking_grammar c depth) (n + 1) (n' + 1)
    have halike := htracks.alike s s' hs hn hn'
    rw [hrule] at halike
    rcases halike with halike | ⟨-, hnil, -⟩
    · generalize hrule' : (grammar depth).declarationRule s' = r' at halike
      cases halike with
      | @error _ e' _ s₁' he' hs₁ =>
        obtain rfl := he'
        -- Recovery goes to the end of the statement, in both runs.
        obtain ⟨hnil, hs₂⟩ := hs₁.recovered_of_skip (hplain.skipMistake hsuffix hend)
        have hrun : (grammar (depth + 1)).declaration s = .ok none s₁.recovered :=
          (recovering_eq _ s).trans (congrArg takeUp hrule)
        have hrun' : (grammar (depth + 1)).declaration s' = .ok none s₁'.recovered :=
          (recovering_eq _ s').trans (congrArg takeUp hrule')
        have htakes := (tracking_grammar c (depth + 1)).takes s' _ _ hrun' (hs.rest_ne_nil hrest)
        have hover : HandsOver c (depth + 1) n n' s₁.recovered s₁'.recovered :=
          handsOver_of_nil hnil hs₂ (by omega)
        exact hover.afterDeclaration hrest hs hrun hrun'
    · exact absurd hnil hend

/-!
## Texts one after the other

In both cases the run over the joined texts stands at the second text, with what the first one gave
behind it. From there on it is a run over the second text alone.
-/

/-- Where a parser stands at the beginning of a text. -/
def ParserState.atStart (tokens : List Token) (endLine firstUse : Nat) : ParserState :=
  ⟨tokens, endLine, [], firstUse, tokens.length + 1⟩

theorem parse_of_program {firstUse endLine : Nat} {tokens : List Token} {ss : List Stmt}
    (h : program (grammar depth) (tokens.length + 1) (.atStart tokens endLine firstUse) =
      .ok ss s) :
    parse depth firstUse ⟨tokens, endLine, []⟩ = ⟨ss, s.reports, s.nextUse⟩ := by
  have hrun : program (grammar depth) (tokens.length + 1)
    ⟨tokens, endLine, [], firstUse, tokens.length + 1⟩ = .ok ss s := h
  simp only [parse, hrun]

/-- A text that hands over is parsed as if nothing stood behind it, and what stands behind it as if
nothing stood in front. -/
theorem parse_of_handsOver {firstUse endLine : Nat} {k rest : List Token}
    (h : HandsOver ⟨[], rest⟩ depth (k.length + 1) ((k ++ rest).length + 1)
      (.atStart k endLine firstUse) (.atStart (k ++ rest) endLine firstUse))
    {first second : Parsed} (hfirst : parse depth firstUse ⟨k, endLine, []⟩ = first)
    (hsecond : parse depth first.nextUse ⟨rest, endLine, []⟩ = second) :
    parse depth firstUse ⟨k ++ rest, endLine, []⟩ =
      ⟨first.statements ++ second.statements, first.reports ++ second.reports,
        second.nextUse⟩ := by
  obtain ⟨ss, s₁, s₁', m, hrun, hend, hs₁, hline, hm, hrun'⟩ := h
  have hrest : s₁'.rest = rest := by rw [hs₁.rest, hend]; rfl
  have hparse := parse_of_program hrun
  obtain rfl := hfirst.symm.trans hparse
  -- What stands behind the text is parsed in the same way from a fresh state.
  have hfresh : (ParserState.atStart rest endLine s₁.nextUse).Extends ⟨s₁'.reports, []⟩ s₁' :=
    { rest := hrest.trans (List.append_nil rest).symm
      endLine := fun _ => hline
      reports := (List.append_nil _).symm
      nextUse := hs₁.nextUse
      bound := Nat.lt_succ_self _
      bound' := hs₁.bound' }
  obtain ⟨ss', s₂, hsecondRun, -⟩ := program_total depth
    (s := .atStart rest endLine s₁.nextUse) (Nat.lt_succ_self rest.length)
  have hparse' := parse_of_program hsecondRun
  obtain rfl := hsecond.symm.trans hparse'
  have hends := program_same depth rfl hfresh (Nat.lt_succ_self rest.length) hm
  rw [hsecondRun] at hends
  generalize program (grammar depth) m s₁' = r at hends hrun'
  cases hends with
  | @ok _ ss'' _ s₂' hss hs₂ =>
    obtain rfl := hss
    have hwhole := parse_of_program hrun'
    rw [hwhole, hs₂.reports, hs₂.nextUse, hs₁.reports]
    rfl

/-- **Parsing goes statement by statement, and a mistake stays where it is.** Tokens are parsed as
if others did not stand behind them, and those others as if nothing stood in front, in two cases: if
nothing is reported of the first ones and no `else` follows them; or if they are one statement
without a block that has a mistake at one of its tokens. What is reported is then what is reported
of the first ones alone, and behind it what is reported of the others. -/
theorem parse_append {depth firstUse endLine : Nat} {k rest : List Token} {first second : Parsed}
    (hfirst : parse depth firstUse ⟨k, endLine, []⟩ = first)
    (hsecond : parse depth first.nextUse ⟨rest, endLine, []⟩ = second)
    (h : first.reports = [] ∧ NotNext (.keyword .«else») rest ∨
      PlainStatement k ∧ StoppedAtToken first.reports) :
    parse depth firstUse ⟨k ++ rest, endLine, []⟩ =
      ⟨first.statements ++ second.statements, first.reports ++ second.reports,
        second.nextUse⟩ := by
  have hs : (ParserState.atStart k endLine firstUse).Extends ⟨[], rest⟩
      (.atStart (k ++ rest) endLine firstUse) :=
    ⟨rfl, fun _ => rfl, rfl, rfl, Nat.lt_succ_self _, Nat.lt_succ_self _⟩
  have hn : k.length < k.length + 1 := Nat.lt_succ_self _
  have hn' : (k ++ rest).length < (k ++ rest).length + 1 := Nat.lt_succ_self _
  -- What is reported in the run on the first tokens is what is reported of them.
  have hreports : (stateOf (program (grammar depth) (k.length + 1)
      (.atStart k endLine firstUse))).reports = first.reports := by
    obtain ⟨ss, s, hrun, -⟩ := program_total depth (s := .atStart k endLine firstUse) hn
    rw [hrun, ← hfirst, parse_of_program hrun]
    rfl
  apply parse_of_handsOver _ hfirst hsecond
  rcases h with ⟨hclean, hno⟩ | ⟨hplain, hstopped⟩
  · exact handsOver_of_clean hno hs hn hn' (hreports.trans hclean)
  · rw [← hreports] at hstopped
    exact handsOver_of_mistake hplain rfl hs hn hn' hstopped

/-- The first statement has no expression, and the second one begins with an `else`. Both mistakes
are reported, and the third statement is read. -/
theorem parse_append_mistake :
    let k := (lex "print );").tokens
    let rest := (lex "else 1; print 2;").tokens
    let first := parse 20 0 ⟨k, 1, []⟩
    let second := parse 20 first.nextUse ⟨rest, 1, []⟩
    PlainStatement k ∧ StoppedAtToken first.reports ∧
      parse 20 0 ⟨k ++ rest, 1, []⟩ = ⟨first.statements ++ second.statements,
        first.reports ++ second.reports, second.nextUse⟩ ∧
      first.statements.length = 0 ∧ second.statements.length = 1 ∧
      (first.reports ++ second.reports).map Report.text =
        ["[line 1] Error at ')': Expected expression.\n",
          "[line 1] Error at 'else': Expected expression.\n"] := by
  intro k rest first second
  -- The statement ends in its only semicolon.
  have hplain : PlainStatement k := by
    refine ⟨by decide +kernel, ⟨[⟨.keyword .print, 1⟩, ⟨.mark .rightParen, 1⟩],
      ⟨.mark .semicolon, 1⟩, ?_, rfl, ?_⟩, ?_⟩
    · decide +kernel
    · decide
    · decide +kernel
  have hstopped : StoppedAtToken first.reports :=
    ⟨⟨.mark .rightParen, 1⟩, .expectedExpression, rfl, by decide +kernel⟩
  exact ⟨hplain, hstopped, parse_append rfl rfl (.inr ⟨hplain, hstopped⟩), by decide +kernel,
    by decide +kernel, by decide +kernel⟩

end LoxLang
