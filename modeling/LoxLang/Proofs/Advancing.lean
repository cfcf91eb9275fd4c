import LoxLang.Proofs.Grammar.Numbering

/-!
# Parsers go forward

What a parser may do on its way from one state to another (`Advance`): it leaves tokens out at the
front and reports behind what was reported before, and nothing else. `Ends` says so of each way in
which it can end. One that gives up over a mistake has reported it last of all, at the token where
it stands; other mistakes that would make a parser give up are reported only in blocks, where
parsing takes up again.
-/

namespace LoxLang

open LoxLang.Parser Nested

variable {α β : Type} {calm calm' : Prop} {s s' s'' : ParserState}

/-!
## States

A state behind another one has fewer tokens, more reports, and higher numbers of uses. `calm` says
that no mistake on the way made a parser give up.
-/

/-- Whether a mistake makes the parser give up that reports it. -/
def GrammarError.stops : GrammarError → Bool
  | .expectedExpression | .expectedName _ | .expectedMark _ _ => true
  | .tooManyParameters | .tooManyArguments | .invalidAssignmentTarget => false

/-- Whether a report is of a mistake over which a parser gave up. -/
def Report.stops : Report → Bool
  | .located _ (.grammar e) => e.stops
  | _ => false

namespace ParserState

/-- The place of the next token, or the end of the source. -/
def location (s : ParserState) : Location :=
  match s.rest with
  | [] => .endOfSource s.endLine
  | t :: _ => .token t

/-- A state with one report more. -/
def reporting (s : ParserState) (place : Location) (e : StaticError) : ParserState :=
  { s with reports := s.reports ++ [.located place e] }

end ParserState

/-- To look at the place changes nothing. -/
theorem here_eq (s : ParserState) : here s = .ok s.location s := by
  unfold here ParserState.location
  cases s.rest <;> rfl

/-- An opening brace is among some tokens. -/
def HasBrace (ts : List Token) : Prop := ∃ t ∈ ts, t.kind = .mark .leftBrace

/-- A brace among the last tokens is one among all. -/
theorem HasBrace.mono {ts ts' : List Token} (h : HasBrace ts') (hts : ts' <:+ ts) :
    HasBrace ts := by
  obtain ⟨t, ht, hkind⟩ := h
  exact ⟨t, hts.subset ht, hkind⟩

/-- A parser has gone on from one state to another. If it is calm, it reports mistakes over which a
parser gave up only if a block can have been in between. -/
structure Advance (calm : Prop) (s s' : ParserState) : Prop where
  rest : s'.rest <:+ s.rest
  endLine : s'.endLine = s.endLine
  bound : s'.bound = s.bound
  reports : ∃ new, s'.reports = s.reports ++ new ∧
    (calm → HasBrace s.rest ∨ ∀ r ∈ new, r.stops = false)

namespace Advance

/-- A parser that reports nothing. -/
theorem quiet (hrest : s'.rest <:+ s.rest) (hline : s'.endLine = s.endLine)
    (hbound : s'.bound = s.bound) (hreports : s'.reports = s.reports) : Advance calm s s' := by
  refine ⟨hrest, hline, hbound, [], ?_, fun _ => .inr ?_⟩
  · rw [hreports, List.append_nil]
  · exact List.forall_mem_nil _

theorem refl (s : ParserState) : Advance calm s s := quiet (List.suffix_refl _) rfl rfl rfl

/-- One way and then another. -/
theorem trans (h : Advance calm s s') (h' : Advance calm s' s'') : Advance calm s s'' := by
  obtain ⟨new, hnew, hmild⟩ := h.reports
  obtain ⟨new', hnew', hmild'⟩ := h'.reports
  refine ⟨h'.rest.trans h.rest, h'.endLine.trans h.endLine, h'.bound.trans h.bound,
    new ++ new', by rw [hnew', hnew, List.append_assoc], fun hcalm => ?_⟩
  rcases hmild hcalm with hbrace | hmild
  · exact .inl hbrace
  · rcases hmild' hcalm with hbrace | hmild'
    · exact .inl (hbrace.mono h.rest)
    · exact .inr (List.forall_mem_append.mpr ⟨hmild, hmild'⟩)

/-- Less may be asked of the reports. -/
theorem mono (h : Advance calm s s') (himp : calm' → calm) : Advance calm' s s' := by
  obtain ⟨new, hnew, hmild⟩ := h.reports
  exact ⟨h.rest, h.endLine, h.bound, new, hnew, fun hcalm => hmild (himp hcalm)⟩

/-- With an opening brace ahead, any mistake may be reported. -/
theorem ofBrace (h : Advance False s s') (hbrace : HasBrace s.rest) : Advance calm s s' := by
  obtain ⟨new, hnew, -⟩ := h.reports
  exact ⟨h.rest, h.endLine, h.bound, new, hnew, fun _ => .inl hbrace⟩

/-- No token is added. -/
theorem length_le (h : Advance calm s s') : s'.rest.length ≤ s.rest.length := h.rest.length_le

/-- At the end of the tokens there is nothing to take. -/
theorem rest_eq_nil (h : Advance calm s s') (hs : s.rest = []) : s'.rest = [] := by
  have hrest := h.rest
  rw [hs] at hrest
  exact List.suffix_nil.mp hrest

/-- A mistake is reported, and no token is taken. -/
theorem reporting (s : ParserState) (place : Location) {e : StaticError}
    (h : calm → (Report.located place e).stops = false) :
    Advance calm s (s.reporting place e) := by
  refine ⟨List.suffix_refl _, rfl, rfl, [.located place e], rfl, fun hcalm => .inr ?_⟩
  exact List.forall_mem_singleton.mpr (h hcalm)

end Advance

/-!
## Ends

What is known of a state behind another one is known of it however the parser ended. If it gave up
over a mistake, that is the last report.
-/

/-- The ways in which a parser can end that was started in a state. -/
inductive Ends (calm : Prop) (s : ParserState) :
    EStateM.Result ParserStop ParserState α → Prop where
  | ok {a : α} {s' : ParserState} : Advance calm s s' → Ends calm s (.ok a s')
  | tooDeep {s' : ParserState} : Advance calm s s' → Ends calm s (.error .tooDeep s')
  | mistake {s' : ParserState} {e : GrammarError} : Advance calm s s' → e.stops = true →
      Ends calm s (.error .mistake (s'.reporting s'.location (.grammar e)))

namespace Ends

variable {r : EStateM.Result ParserStop ParserState α}

/-- What happened before the parser began. -/
theorem trans (h : Advance calm s s') (h' : Ends calm s' r) : Ends calm s r := by
  cases h' with
  | ok h' => exact .ok (h.trans h')
  | tooDeep h' => exact .tooDeep (h.trans h')
  | mistake h' he => exact .mistake (h.trans h') he

/-- Less may be asked of the reports. -/
theorem mono (h : Ends calm s r) (himp : calm' → calm) : Ends calm' s r := by
  cases h with
  | ok h => exact .ok (h.mono himp)
  | tooDeep h => exact .tooDeep (h.mono himp)
  | mistake h he => exact .mistake (h.mono himp) he

/-- Mistakes in blocks are reported where a brace has been read. -/
theorem ofBrace (h : Ends False s r) (hbrace : HasBrace s.rest) : Ends calm s r := by
  cases h with
  | ok h => exact .ok (h.ofBrace hbrace)
  | tooDeep h => exact .tooDeep (h.ofBrace hbrace)
  | mistake h he => exact .mistake (h.ofBrace hbrace) he

/-- However a parser ends, it has gone forward. -/
theorem advance (h : Ends calm s r) : Advance False s (stateOf r) := by
  cases h with
  | ok h => exact h.mono False.elim
  | tooDeep h => exact h.mono False.elim
  | mistake h _ => exact (h.mono False.elim).trans (.reporting _ _ False.elim)

/-- In particular where the parser ended well. -/
theorem advance_ok {a : α} (h : Ends calm s (.ok a s')) : Advance calm s s' := by
  cases h with
  | ok h => exact h

end Ends

/-!
## Sequences

A parser behind another one, which goes on only if the first one ended well.
-/

namespace Parser

variable {p : Parser α} {f : α → Parser β}

/-- Behind a step that gives a result, a sequence does what comes next. -/
theorem bind_of_ok {a : α} (h : p s = .ok a s') : (p >>= f) s = f a s' := by
  show EStateM.bind p f s = _
  unfold EStateM.bind
  rw [h]

/-- Behind a step that gives up, nothing comes. -/
theorem bind_of_error {e : ParserStop} (h : p s = .error e s') : (p >>= f) s = .error e s' := by
  show EStateM.bind p f s = _
  unfold EStateM.bind
  rw [h]

/-- A sequence that gives a result went through both of its steps. -/
theorem bind_eq_ok {b : β} (h : (p >>= f) s = .ok b s') :
    ∃ a s₁, p s = .ok a s₁ ∧ f a s₁ = .ok b s' := by
  cases hrun : p s with
  | ok a s₁ => exact ⟨a, s₁, rfl, (bind_of_ok hrun).symm.trans h⟩
  | error e s₁ => cases (bind_of_error hrun).symm.trans h

end Parser

/-- Wherever it is started, a parser goes forward. -/
def Parser.Advances (calm : Prop) (p : Parser α) : Prop := ∀ s, Ends calm s (p s)

namespace Parser.Advances

variable {p q : Parser α} {f : α → Parser β}

/-- Less may be asked of the reports. -/
theorem mono (h : Advances calm p) (himp : calm' → calm) : Advances calm' p :=
  fun s => (h s).mono himp

theorem pure (a : α) : Advances calm (pure a) := fun s => .ok (.refl s)

theorem tooDeep : Advances calm (throw .tooDeep : Parser α) := fun s => .tooDeep (.refl s)

/-- Both go forward. -/
theorem bind (hp : Advances calm p) (hf : ∀ a, Advances calm (f a)) : Advances calm (p >>= f) := by
  intro s
  have hs := hp s
  cases hrun : p s with
  | ok a s' =>
    rw [hrun] at hs
    rw [bind_of_ok hrun]
    exact .trans hs.advance_ok (hf a s')
  | error e s' =>
    rw [hrun] at hs
    rw [bind_of_error hrun]
    cases hs with
    | tooDeep h => exact .tooDeep h
    | mistake h he => exact .mistake h he

/-- Whichever is taken. -/
theorem ite {c : Prop} [Decidable c] (hp : Advances calm p) (hq : Advances calm q) :
    Advances calm (if c then p else q) := by
  split
  · exact hp
  · exact hq

/-- A parser that looks only. -/
theorem of_eq {g : ParserState → α} (h : ∀ s, p s = .ok (g s) s) : Advances calm p := by
  intro s
  rw [h]
  exact .ok (.refl s)

end Parser.Advances

/-!
## Single steps

Each step takes one token at most, and reports one mistake at most.
-/

/-- The first token is taken. -/
theorem advance_of_take {t : Token} {rest : List Token} (h : s.rest = t :: rest) :
    Advance calm s { s with rest } := by
  refine .quiet ?_ rfl rfl rfl
  rw [h]
  exact List.suffix_cons t rest

theorem advances_here : here.Advances calm := .of_eq here_eq

/-- Looking at a token leaves it there. -/
theorem advances_isNext (kind : TokenKind) : (isNext kind).Advances calm :=
  .of_eq (g := fun s => s.rest.head?.map (·.kind) == some kind) fun _ => rfl

theorem advances_atEnd : atEnd.Advances calm :=
  .of_eq (g := fun s => s.rest.isEmpty) fun _ => rfl

/-- What is accepted is the next token, and otherwise nothing has changed. -/
theorem accept?_cases (f : TokenKind → Option α) (s : ParserState) :
    (∃ t rest a, s.rest = t :: rest ∧ f t.kind = some a ∧
      accept? f s = .ok (some (a, t.line)) { s with rest }) ∨
    accept? f s = .ok none s ∧ ∀ t rest, s.rest = t :: rest → f t.kind = none := by
  unfold accept?
  cases hrest : s.rest with
  | nil => exact .inr ⟨rfl, nofun⟩
  | cons t rest =>
    dsimp only
    cases hf : f t.kind with
    | some a => exact .inl ⟨t, rest, a, rfl, hf, rfl⟩
    | none =>
      refine .inr ⟨rfl, fun t' rest' h => ?_⟩
      obtain ⟨rfl, -⟩ := List.cons.inj h
      exact hf

/-- A token is taken, or left. -/
theorem advances_accept? (f : TokenKind → Option α) : (accept? f).Advances calm := by
  intro s
  rcases accept?_cases f s with ⟨t, rest, a, hrest, -, hrun⟩ | ⟨hrun, -⟩
  · rw [hrun]
    exact .ok (advance_of_take hrest)
  · rw [hrun]
    exact .ok (.refl s)

theorem advances_acceptKind? (kind : TokenKind) : (acceptKind? kind).Advances calm :=
  (advances_accept? _).bind fun _ => .pure _

/-- A mistake that makes no parser give up is reported at any time. -/
theorem advances_report (place : Location) {e : StaticError}
    (h : calm → (Report.located place e).stops = false) : (report place e).Advances calm :=
  fun s => .ok (.reporting s place h)

/-- Giving up is the one way in which a mistake stops a parser. -/
theorem fail_eq (e : GrammarError) (s : ParserState) :
    (fail e : Parser α) s = .error .mistake (s.reporting s.location (.grammar e)) :=
  bind_of_ok (here_eq s)

/-- Behind a mistake nothing is done. -/
theorem fail_bind (e : GrammarError) (f : α → Parser β) : fail e >>= f = fail e := by
  funext s
  rw [bind_of_error (fail_eq e s), fail_eq]

/-- The mistake is reported last of all. -/
theorem advances_fail {e : GrammarError} (he : e.stops = true) :
    (fail e : Parser α).Advances calm := by
  intro s
  rw [fail_eq]
  exact .mistake (.refl s) he

/-- The mark is taken, or its absence is reported. -/
theorem advances_expectMark (m : Mark) (place : MarkPlace) :
    (expectMark m place).Advances calm := by
  refine (advances_acceptKind? _).bind fun found => ?_
  cases found with
  | none => exact advances_fail rfl
  | some line => exact .pure line

/-- The same of a name. -/
theorem advances_expectName (role : NameRole) : (expectName role).Advances calm := by
  refine (advances_accept? _).bind fun found => ?_
  cases found with
  | none => exact advances_fail rfl
  | some found => exact .pure _

/-- The next number is higher. -/
theorem advances_freshUse : freshUse.Advances calm := fun _ =>
  .ok (.quiet (List.suffix_refl _) rfl rfl rfl)

/-- Two tokens ahead are looked at, and one is taken. -/
theorem advances_acceptFunction : acceptFunction.Advances calm := by
  intro s
  unfold acceptFunction
  split
  · next hrest => exact .ok (advance_of_take hrest)
  · exact .ok (.refl s)

end LoxLang
