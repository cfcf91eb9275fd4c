import LoxLang.Proofs.Advancing
import LoxLang.Proofs.Grammar.Accepting
import LoxLang.Proofs.Mirroring

/-!
# Parsers on texts that go on

A parser is run twice, on the tokens of a text and on the same tokens with others behind them
(`Extends`). As long as the first run has not come to the end of its tokens, the second does the
same (`Tracks`). Where the first one is at its end, they may part; a parser of statements has given
up there, unless an `else` follows in the second run.

With nothing behind the tokens the two runs never part. The numbers of times that loops may be
entered, which are different in the two, then do not matter.
-/

namespace LoxLang

open LoxLang.Parser Nested

variable {α β : Type}

/-!
## Runs that go together

As long as tokens of the first text are left, the two parsers see the same. What the second one has
more, behind the tokens and before the reports, it never looks at.
-/

/-- What the second of two runs has more: reports from before, and tokens behind. -/
structure Surroundings where
  before : List Report
  behind : List Token

/-- Parsers that stand at the same token, the second one in a text that goes on. -/
structure ParserState.Extends (c : Surroundings) (s s' : ParserState) : Prop where
  rest : s'.rest = s.rest ++ c.behind
  endLine : c.behind = [] → s'.endLine = s.endLine
  reports : s'.reports = c.before ++ s.reports
  nextUse : s'.nextUse = s.nextUse
  bound : s.rest.length < s.bound
  bound' : s'.rest.length < s'.bound

/-- The first of two runs is at the end of its tokens. If it is settled, it has given up. -/
def RunsOut (c : Surroundings) (settled : Prop)
    (r : EStateM.Result ParserStop ParserState α) : Prop :=
  c.behind ≠ [] ∧ (stateOf r).rest = [] ∧ (settled → ∃ e s, r = .error e s)

/-- Two runs end alike, or the first one has run out of tokens. -/
def RunsAlike (c : Surroundings) (settled : Prop)
    (r r' : EStateM.Result ParserStop ParserState α) : Prop :=
  EndsAlike (ParserState.Extends c) Eq Eq r r' ∨ RunsOut c settled r

/-- A parser goes forward, and another one agrees with it on texts that go on, if there are fewer
tokens than two numbers. -/
structure Parser.Tracks (c : Surroundings) (calm settled : Prop) (n n' : Nat)
    (p p' : Parser α) : Prop where
  advances : p.Advances calm
  alike : ∀ s s', s.Extends c s' → s.rest.length < n → s'.rest.length < n' →
    RunsAlike c settled (p s) (p' s')

variable {c : Surroundings} {calm calm' settled settled' : Prop} {n n' : Nat}

/-- Less may be asked of how it ends. -/
theorem RunsOut.mono {r : EStateM.Result ParserStop ParserState α} (h : RunsOut c settled r)
    (himp : settled' → settled) : RunsOut c settled' r :=
  ⟨h.1, h.2.1, fun hsettled => h.2.2 (himp hsettled)⟩

/-- Where a token is left to the first one, it is left to the second one. -/
theorem ParserState.Extends.rest_ne_nil {s s' : ParserState} (h : s.Extends c s')
    (hs : s.rest ≠ []) : s'.rest ≠ [] := by
  rw [h.rest]
  exact List.append_ne_nil_of_left_ne_nil hs c.behind

/-- At its end, a text that goes on differs from one that does not. -/
theorem ParserState.Extends.location_eq {s s' : ParserState} (h : s.Extends c s') :
    s'.location = s.location ∨ (c.behind ≠ [] ∧ s.rest = []) := by
  unfold location
  rw [h.rest]
  cases hrest : s.rest with
  | cons t rest => exact .inl rfl
  | nil =>
    by_cases hbehind : c.behind = []
    · rw [hbehind, h.endLine hbehind]
      exact .inl rfl
    · exact .inr ⟨hbehind, rfl⟩

/-!
## Parsers at the end of their tokens

A parser that needs a token fails where there is none. This is how the first run is known to have
given up at the end of its tokens.
-/

/-- A parser gives up with no token left. -/
def FailsFrom (s : ParserState) (p : Parser α) : Prop :=
  ∃ e s', p s = .error e s' ∧ s'.rest = []

/-- A parser cannot do without a token. -/
def Parser.NeedsToken (p : Parser α) : Prop := ∀ s, s.rest = [] → FailsFrom s p

/-- Nothing is done behind a failure. -/
theorem FailsFrom.bind {s : ParserState} {p : Parser α} (h : FailsFrom s p) (f : α → Parser β) :
    FailsFrom s (p >>= f) := by
  obtain ⟨e, s', hrun, hs'⟩ := h
  exact ⟨e, s', bind_of_error hrun, hs'⟩

/-- A step that is taken before a parser gives up. -/
theorem FailsFrom.after {s s' : ParserState} {p : Parser α} {a : α} {f : α → Parser β}
    (hrun : p s = .ok a s') (h : FailsFrom s' (f a)) : FailsFrom s (p >>= f) := by
  obtain ⟨e, s'', hrun', hs''⟩ := h
  exact ⟨e, s'', (bind_of_ok hrun).trans hrun', hs''⟩

/-- Where there is no token, none is taken. -/
theorem accept?_of_nil {s : ParserState} (h : s.rest = []) (f : TokenKind → Option α) :
    accept? f s = .ok none s := by
  unfold accept?
  rw [h]

namespace Parser.NeedsToken

/-- A parser that begins with one that needs a token. -/
theorem bind {p : Parser α} (h : p.NeedsToken) (f : α → Parser β) : (p >>= f).NeedsToken :=
  fun s hs => (h s hs).bind f

/-- Whichever is taken. -/
theorem ite {b : Prop} [Decidable b] {p q : Parser α} (hp : p.NeedsToken) (hq : q.NeedsToken) :
    (if b then p else q).NeedsToken := by
  split
  · exact hp
  · exact hq

theorem fail (e : GrammarError) : (fail e : Parser α).NeedsToken :=
  fun s hs => ⟨.mistake, _, fail_eq e s, hs⟩

/-- What needs a token where none was taken. -/
theorem accept? {f : TokenKind → Option α} {g : Option (α × Nat) → Parser β}
    (h : (g none).NeedsToken) : (Parser.accept? f >>= g).NeedsToken :=
  fun s hs => .after (accept?_of_nil hs f) (h s hs)

/-- The same for a token of one kind. -/
theorem acceptKind? {kind : TokenKind} {g : Option Nat → Parser β} (h : (g none).NeedsToken) :
    (Parser.acceptKind? kind >>= g).NeedsToken := by
  unfold Parser.acceptKind?
  rw [bind_assoc]
  exact accept? h

/-- The same where a token was looked at. -/
theorem isNext {kind : TokenKind} {g : Bool → Parser β} (h : (g false).NeedsToken) :
    (Parser.isNext kind >>= g).NeedsToken := by
  intro s hs
  have hnext : Parser.isNext kind s = .ok false s := by
    unfold Parser.isNext
    rw [hs]
    rfl
  exact .after hnext (h s hs)

/-- A mark that must be there. -/
theorem expectMark (m : Mark) (place : MarkPlace) : (Parser.expectMark m place).NeedsToken :=
  acceptKind? (fail _)

end Parser.NeedsToken

/-! ## Tokens that are taken -/

/-- Two runs take the same token or none, unless the first one is at its end. -/
theorem accept?_extends (f : TokenKind → Option α) {s s' : ParserState} (hs : s.Extends c s') :
    (∃ t a s₁ s₁', s.rest = t :: s₁.rest ∧ f t.kind = some a ∧
      accept? f s = .ok (some (a, t.line)) s₁ ∧ accept? f s' = .ok (some (a, t.line)) s₁' ∧
        s₁.Extends c s₁') ∨
    (accept? f s = .ok none s ∧ accept? f s' = .ok none s') ∨
    (accept? f s = .ok none s ∧ s.rest = [] ∧ c.behind ≠ []) := by
  have hrest' := hs.rest
  cases hrest : s.rest with
  | nil =>
    -- Where the first run is at its end, the second sees what stands behind, if anything.
    by_cases hbehind : c.behind = []
    · rw [hrest, hbehind, List.append_nil] at hrest'
      exact .inr (.inl ⟨accept?_of_nil hrest f, accept?_of_nil hrest' f⟩)
    · exact .inr (.inr ⟨accept?_of_nil hrest f, rfl, hbehind⟩)
  | cons t rest =>
    rw [hrest, List.cons_append] at hrest'
    cases ha : f t.kind with
    | none =>
      refine .inr (.inl ⟨?_, ?_⟩)
      · simp only [accept?, hrest, ha]
      · simp only [accept?, hrest', ha]
    | some a =>
      -- Both take the token, so both bounds are one further above what is left.
      have hbound := hs.bound
      have hbound' := hs.bound'
      rw [hrest, List.length_cons] at hbound
      rw [hrest', List.length_cons] at hbound'
      refine .inl ⟨t, a, { s with rest }, { s' with rest := rest ++ c.behind }, rfl, ha, ?_, ?_, ?_⟩
      · simp only [accept?, hrest, ha]
      · simp only [accept?, hrest', ha]
      · exact { hs with
          rest := rfl
          bound := Nat.lt_of_succ_lt hbound
          bound' := Nat.lt_of_succ_lt hbound' }

/-!
## Rules

The two runs agree on a sequence if they agree on each part, and if the rest of the sequence needs a
token where the first part may have used up all of them.
-/

namespace Parser.Tracks

variable {p p' q q' : Parser α} {f f' : α → Parser β}

/-- Less may be asked. -/
theorem mono (h : Tracks c calm settled n n' p p') (hcalm : calm' → calm)
    (hsettled : settled' → settled) : Tracks c calm' settled' n n' p p' := by
  refine ⟨h.advances.mono hcalm, fun s s' hs hn hn' => ?_⟩
  rcases h.alike s s' hs hn hn' with hends | hout
  · exact .inl hends
  · exact .inr (hout.mono hsettled)

/-- No text has less than no tokens. -/
theorem zero (h : p.Advances calm) : Tracks c calm settled 0 n' p p' :=
  ⟨h, fun _ _ _ hn => absurd hn (Nat.not_lt_zero _)⟩

/-- With no tokens to speak of, it is enough that the first one goes forward. -/
theorem zero' (h : p.Advances calm) : Tracks c calm settled n 0 p p' :=
  ⟨h, fun _ _ _ _ hn' => absurd hn' (Nat.not_lt_zero _)⟩

theorem pure (a : α) : Tracks c calm settled n n' (pure a) (pure a) :=
  ⟨.pure a, fun _ _ hs _ _ => .inl (.ok rfl hs)⟩

/-- Both are nested too deep. -/
theorem tooDeep :
    Tracks c calm settled n n' (throw .tooDeep : Parser α) (throw .tooDeep : Parser α) :=
  ⟨.tooDeep, fun _ _ hs _ _ => .inl (.error rfl hs)⟩

/-- Whichever both take. -/
theorem ite {b : Prop} [Decidable b] (hp : Tracks c calm settled n n' p p')
    (hq : Tracks c calm settled n n' q q') :
    Tracks c calm settled n n' (if b then p else q) (if b then p' else q') := by
  split
  · exact hp
  · exact hq

/-- One step of two runs, and what they do then. If the first one runs out of tokens in the step, it
must not go on where it has to be settled. -/
theorem bindAt {s s' : ParserState} (hp : RunsAlike c settled' (p s) (p' s'))
    (hf : ∀ a s₁ s₁', p s = .ok a s₁ → s₁.Extends c s₁' → RunsAlike c settled (f a s₁) (f' a s₁'))
    (hout : ∀ a s₁, p s = .ok a s₁ → s₁.rest = [] → (settled' → False) → c.behind ≠ [] →
      RunsOut c settled (f a s₁)) :
    RunsAlike c settled ((p >>= f) s) ((p' >>= f') s') := by
  show RunsAlike c settled (EStateM.bind p f s) (EStateM.bind p' f' s')
  unfold EStateM.bind
  rcases hp with hends | ⟨hbehind, hrest, hsettled⟩
  · cases hrun : p s with
    -- Nothing has differed so far, so both go on from corresponding states.
    | ok a s₁ =>
      rw [hrun] at hends
      cases hrun' : p' s' with
      | ok a' s₁' =>
        rw [hrun'] at hends
        cases hends with
        | ok ha hs => exact ha ▸ hf a s₁ s₁' hrun hs
      | error e' s₁' =>
        rw [hrun'] at hends
        cases hends
    | error e s₁ =>
      rw [hrun] at hends
      cases hrun' : p' s' with
      | ok a' s₁' =>
        rw [hrun'] at hends
        cases hends
      | error e' s₁' =>
        rw [hrun'] at hends
        cases hends with
        | error he hs => exact .inl (.error he hs)
  · -- Having run out, the first run can only go on at its end, or has given up.
    cases hrun : p s with
    | ok a s₁ =>
      rw [hrun] at hrest hsettled
      refine .inr (hout a s₁ hrun hrest (fun h => ?_) hbehind)
      obtain ⟨e, s, heq⟩ := hsettled h
      cases heq
    | error e s₁ =>
      rw [hrun] at hrest
      exact .inr ⟨hbehind, hrest, fun _ => ⟨e, s₁, rfl⟩⟩

/-- What a parser does at the end of its tokens leaves it there. -/
theorem runsOut_of_advances {s : ParserState} (hp : p.Advances calm) (hbehind : c.behind ≠ [])
    (hs : s.rest = []) (hsettled : settled → False) : RunsOut c settled (p s) :=
  ⟨hbehind, (hp s).advance.rest_eq_nil hs, fun h => (hsettled h).elim⟩

/-- At the end of its tokens, the first one fails. -/
theorem runsOut_of_needsToken {s : ParserState} (hp : p.NeedsToken) (hbehind : c.behind ≠ [])
    (hs : s.rest = []) : RunsOut c settled (p s) := by
  obtain ⟨e, s', hrun, hs'⟩ := hp s hs
  rw [hrun]
  exact ⟨hbehind, hs', fun _ => ⟨e, s', rfl⟩⟩

/-- Two numbers that bound how many tokens are ahead go on to do so. -/
theorem lengths_lt {s s' s₁ s₁' : ParserState} (hs : s.Extends c s') (hs₁ : s₁.Extends c s₁')
    (h : Advance calm s s₁) (hn : s.rest.length < n) (hn' : s'.rest.length < n') :
    s₁.rest.length < n ∧ s₁'.rest.length < n' := by
  have hle := h.length_le
  rw [hs.rest, List.length_append] at hn'
  rw [hs₁.rest, List.length_append]
  omega

/-- What comes behind a token that was taken has fewer tokens ahead. -/
theorem alikeTaken {s s' s₁ s₁' : ParserState} (hp : Tracks c calm settled (n - 1) (n' - 1) p p')
    (hs : s.Extends c s') (hs₁ : s₁.Extends c s₁') (hlt : s₁.rest.length < s.rest.length)
    (hn : s.rest.length < n) (hn' : s'.rest.length < n') : RunsAlike c settled (p s₁) (p' s₁') := by
  rw [hs.rest, List.length_append] at hn'
  apply hp.alike s₁ s₁' hs₁
  · omega
  · rw [hs₁.rest, List.length_append]
    omega

/-- Both in sequence. If the first run has come to its end in the first part, it stays there. -/
theorem bind (hp : Tracks c calm settled n n' p p')
    (hf : ∀ a, Tracks c calm settled n n' (f a) (f' a)) :
    Tracks c calm settled n n' (p >>= f) (p' >>= f') := by
  refine ⟨hp.advances.bind fun a => (hf a).advances, fun s s' hs hn hn' => ?_⟩
  apply bindAt (hp.alike s s' hs hn hn')
  · intro a s₁ s₁' hrun hs₁
    have hadvance := hp.advances s
    rw [hrun] at hadvance
    obtain ⟨hn₁, hn₁'⟩ := lengths_lt hs hs₁ hadvance.advance_ok hn hn'
    exact (hf a).alike s₁ s₁' hs₁ hn₁ hn₁'
  · intro a s₁ _ hrest hsettled hbehind
    exact runsOut_of_advances (hf a).advances hbehind hrest hsettled

/-- A parser settles what stands before it if it needs a token. -/
theorem settle (hp : Tracks c calm False n n' p p')
    (hf : ∀ a, Tracks c calm settled n n' (f a) (f' a)) (hneeds : ∀ a, (f a).NeedsToken) :
    Tracks c calm settled n n' (p >>= f) (p' >>= f') := by
  refine ⟨hp.advances.bind fun a => (hf a).advances, fun s s' hs hn hn' => ?_⟩
  apply bindAt (hp.alike s s' hs hn hn')
  · intro a s₁ s₁' hrun hs₁
    have hadvance := hp.advances s
    rw [hrun] at hadvance
    obtain ⟨hn₁, hn₁'⟩ := lengths_lt hs hs₁ hadvance.advance_ok hn hn'
    exact (hf a).alike s₁ s₁' hs₁ hn₁ hn₁'
  · intro a s₁ _ hrest _ hbehind
    exact runsOut_of_needsToken (hneeds a) hbehind hrest

/-- What is made of a result does not matter. -/
theorem map {g : α → β} (hp : Tracks c calm settled n n' p p') :
    Tracks c calm settled n n' (g <$> p) (g <$> p') :=
  hp.bind fun a => .pure (g a)

/-!
## Single steps

Each step sees the first token, so it does the same in both runs unless there is none in the first.
-/

/-- Both report the same mistake. -/
theorem report (place : Location) {e : StaticError}
    (h : calm → (Report.located place e).stops = false) :
    Tracks c calm settled n n' (report place e) (report place e) := by
  refine ⟨advances_report place h, fun s s' hs _ _ => .inl (.ok rfl { hs with reports := ?_ })⟩
  show s'.reports ++ _ = c.before ++ (s.reports ++ _)
  rw [hs.reports, List.append_assoc]

/-- Both give the same number. -/
theorem freshUse : Tracks c calm settled n n' freshUse freshUse := by
  refine ⟨advances_freshUse, fun s s' hs _ _ =>
    .inl (.ok hs.nextUse.symm { hs with nextUse := ?_ })⟩
  show s'.nextUse + 1 = s.nextUse + 1
  rw [hs.nextUse]

theorem here : Tracks c calm False n n' here here := by
  refine ⟨advances_here, fun s s' hs _ _ => ?_⟩
  rw [here_eq, here_eq]
  rcases hs.location_eq with heq | ⟨hbehind, hrest⟩
  · rw [heq]
    exact .inl (.ok rfl hs)
  · exact .inr ⟨hbehind, hrest, False.elim⟩

/-- Both fail with the same mistake. -/
theorem fail {e : GrammarError} (he : e.stops = true) :
    Tracks c calm settled n n' (fail e : Parser α) (fail e : Parser α) := by
  refine ⟨advances_fail he, fun s s' hs _ _ => ?_⟩
  rw [fail_eq, fail_eq]
  rcases hs.location_eq with heq | ⟨hbehind, hrest⟩
  · refine .inl (.error rfl { hs with reports := ?_ })
    show s'.reports ++ _ = c.before ++ (s.reports ++ _)
    rw [heq, hs.reports, List.append_assoc]
  · exact .inr ⟨hbehind, hrest, fun _ => ⟨_, _, rfl⟩⟩

/-- The number of times that a loop can be entered is a bound for the tokens ahead. -/
theorem bound {g : Nat → Parser α} (h : ∀ m m', Tracks c calm settled m m' (g m) (g m')) :
    Tracks c calm settled n n' (Parser.bound >>= g) (Parser.bound >>= g) := by
  refine ⟨fun s => (h s.bound s.bound).advances s, fun s s' hs _ _ => ?_⟩
  exact (h s.bound s'.bound).alike s s' hs hs.bound hs.bound'

/-- Where a token is taken, fewer are left. If it opens a block, what follows need not be calm. A
parser that has to be settled goes on at the end of its tokens only if the first token behind them
is not accepted either. -/
theorem acceptBrace? {h : TokenKind → Option α} {g g' : Option (α × Nat) → Parser β}
    (hnone : Tracks c calm settled n n' (g none) (g' none))
    (hend : settled → (g none).NeedsToken ∨ ∀ t rest, c.behind = t :: rest → h t.kind = none)
    (hsome : ∀ (t : Token) (a : α), h t.kind = some a →
      Tracks c (calm ∧ t.kind ≠ .mark .leftBrace) settled (n - 1) (n' - 1)
        (g (some (a, t.line))) (g' (some (a, t.line)))) :
    Tracks c calm settled n n' (accept? h >>= g) (accept? h >>= g') := by
  constructor
  · intro s
    rcases accept?_cases h s with ⟨t, rest, a, hrest, ha, hrun⟩ | ⟨hrun, -⟩
    · rw [bind_of_ok hrun]
      have hends := (hsome t a ha).advances { s with rest }
      -- Where a brace was taken, nothing is asked of the reports.
      by_cases hbrace : t.kind = .mark .leftBrace
      · have hin : HasBrace s.rest := ⟨t, hrest ▸ List.mem_cons_self, hbrace⟩
        exact ((hends.mono False.elim).trans (advance_of_take hrest)).ofBrace hin
      · exact (hends.mono fun hcalm => ⟨hcalm, hbrace⟩).trans (advance_of_take hrest)
    · rw [bind_of_ok hrun]
      exact hnone.advances s
  · intro s s' hs hn hn'
    rcases accept?_extends h hs with ⟨t, a, s₁, s₁', hrest, ha, hrun, hrun', hs₁⟩ |
      ⟨hrun, hrun'⟩ | ⟨hrun, hrest, hbehind⟩
    · -- Both runs take the same token.
      have hlt : s₁.rest.length < s.rest.length := by simp [hrest]
      rw [bind_of_ok hrun, bind_of_ok hrun']
      exact (hsome t a ha).alikeTaken hs hs₁ hlt hn hn'
    · rw [bind_of_ok hrun, bind_of_ok hrun']
      exact hnone.alike s s' hs hn hn'
    · -- The first run is at its end. What the second one sees is a token from behind.
      rw [bind_of_ok hrun]
      by_cases hsettled : settled
      · rcases hend hsettled with hneeds | hskip
        · exact .inr (runsOut_of_needsToken hneeds hbehind hrest)
        · have hrun' : Parser.accept? h s' = .ok none s' := by
            obtain ⟨t, rest, heq⟩ := List.exists_cons_of_ne_nil hbehind
            have hrest' : s'.rest = t :: rest := by rw [hs.rest, hrest, heq]; rfl
            simp only [Parser.accept?, hrest', hskip t rest heq]
          rw [bind_of_ok hrun']
          exact hnone.alike s s' hs hn hn'
      · exact .inr (runsOut_of_advances hnone.advances hbehind hrest hsettled)

/-- A token is taken in both runs. Where the first one has none left, what comes behind needs one.
-/
theorem accept? {h : TokenKind → Option α} {g g' : Option (α × Nat) → Parser β}
    (hnone : Tracks c calm settled n n' (g none) (g' none))
    (hneeds : settled → (g none).NeedsToken)
    (hsome : ∀ (a : α) (line : Nat), Tracks c calm settled (n - 1) (n' - 1)
      (g (some (a, line))) (g' (some (a, line)))) :
    Tracks c calm settled n n' (Parser.accept? h >>= g) (Parser.accept? h >>= g') :=
  acceptBrace? hnone (fun hsettled => .inl (hneeds hsettled)) fun t a _ =>
    (hsome a t.line).mono And.left id

/-- The same for a token of one kind. -/
theorem acceptKind? {kind : TokenKind} {g g' : Option Nat → Parser β}
    (hnone : Tracks c calm settled n n' (g none) (g' none))
    (hneeds : settled → (g none).NeedsToken)
    (hsome : ∀ line, Tracks c calm settled (n - 1) (n' - 1) (g (some line)) (g' (some line))) :
    Tracks c calm settled n n' (Parser.acceptKind? kind >>= g)
      (Parser.acceptKind? kind >>= g') := by
  unfold Parser.acceptKind?
  rw [bind_assoc, bind_assoc]
  exact accept? hnone hneeds fun _ line => hsome line

/-- A look at the next token is of no use at the end of the tokens. -/
theorem isNext {kind : TokenKind} {g g' : Bool → Parser β}
    (h : ∀ b, Tracks c calm settled n n' (g b) (g' b))
    (hneeds : settled → (g false).NeedsToken) :
    Tracks c calm settled n n' (isNext kind >>= g) (isNext kind >>= g') := by
  refine ⟨(advances_isNext kind).bind fun b => (h b).advances, fun s s' hs hn hn' => ?_⟩
  show RunsAlike c settled (g (s.rest.head?.map (·.kind) == some kind) s)
    (g' (s'.rest.head?.map (·.kind) == some kind) s')
  cases hrest : s.rest with
  | cons t rest =>
    have hhead : s'.rest.head? = (t :: rest).head? := by rw [hs.rest, hrest]; rfl
    rw [hhead]
    exact (h _).alike s s' hs hn hn'
  -- At its end, the first run sees no token where the second may see one from behind.
  | nil =>
    by_cases hbehind : c.behind = []
    · have hrest' : s'.rest = [] := by rw [hs.rest, hrest, hbehind]; rfl
      rw [hrest']
      exact (h _).alike s s' hs hn hn'
    · refine .inr ⟨hbehind, ((h _).advances s).advance.rest_eq_nil hrest, fun hsettled => ?_⟩
      exact (runsOut_of_needsToken (hneeds hsettled) hbehind hrest).2.2 hsettled

/-- Whether the first text is at its end may be answered differently, so nothing is said of the case
that it is. -/
theorem atEnd {g g' : Bool → Parser β} (h : ∀ b, Tracks c calm False n n' (g b) (g' b)) :
    Tracks c calm False n n' (atEnd >>= g) (atEnd >>= g') := by
  refine ⟨advances_atEnd.bind fun b => (h b).advances, fun s s' hs hn hn' => ?_⟩
  show RunsAlike c False (g s.rest.isEmpty s) (g' s'.rest.isEmpty s')
  cases hrest : s.rest with
  | cons t rest =>
    have hempty : s'.rest.isEmpty = (t :: rest).isEmpty := by rw [hs.rest, hrest]; rfl
    rw [hempty]
    exact (h _).alike s s' hs hn hn'
  | nil =>
    by_cases hbehind : c.behind = []
    · have hrest' : s'.rest = [] := by rw [hs.rest, hrest, hbehind]; rfl
      rw [hrest']
      exact (h _).alike s s' hs hn hn'
    · exact .inr ⟨hbehind, ((h _).advances s).advance.rest_eq_nil hrest, False.elim⟩

/-- Both take the mark, or both report its absence. -/
theorem expectMark (m : Mark) (place : MarkPlace) :
    Tracks c calm settled n n' (expectMark m place) (expectMark m place) :=
  acceptKind? (fail rfl) (fun _ => .fail _) fun line => .pure line

/-- The mark behind a parser settles what stands before the mark. -/
theorem thenMark {k k' : α → Nat → Parser β} {m : Mark} {place : MarkPlace}
    (hp : Tracks c calm False n n' p p')
    (hk : ∀ a line, Tracks c calm settled n n' (k a line) (k' a line)) :
    Tracks c calm settled n n' (p >>= fun a => Parser.expectMark m place >>= k a)
      (p' >>= fun a => Parser.expectMark m place >>= k' a) :=
  hp.settle (fun a => (expectMark m place).bind (hk a)) fun _ =>
    (NeedsToken.expectMark m place).bind _

/-- The same of a name. -/
theorem expectName (role : NameRole) :
    Tracks c calm settled n n' (expectName role) (expectName role) := by
  refine accept? (fail rfl) (fun _ => .fail _) fun text line => ?_
  exact pure (⟨text, line⟩ : Name)

/-- Behind an opening brace, a parser need not be calm. -/
theorem expectBrace {place : MarkPlace} {g g' : Nat → Parser β}
    (h : ∀ line, Tracks c False settled (n - 1) (n' - 1) (g line) (g' line)) :
    Tracks c calm settled n n' (Parser.expectMark .leftBrace place >>= g)
      (Parser.expectMark .leftBrace place >>= g') := by
  unfold Parser.expectMark Parser.acceptMark? Parser.acceptKind?
  simp only [bind_assoc]
  apply acceptBrace?
  · simp only [pure_bind, Option.map_none, fail_bind]
    exact fail rfl
  -- At the end of its text the first run fails for want of the brace.
  · intro _
    left
    simp only [pure_bind, Option.map_none, fail_bind]
    exact .fail _
  · intro t a ha
    have hkind : t.kind = .mark .leftBrace := by
      by_cases hkind : t.kind = .mark .leftBrace
      · exact hkind
      · rw [if_neg hkind] at ha
        cases ha
    simp only [pure_bind, Option.map_some]
    exact (h t.line).mono (fun hcalm => hcalm.2 hkind) id

end Parser.Tracks

end LoxLang
