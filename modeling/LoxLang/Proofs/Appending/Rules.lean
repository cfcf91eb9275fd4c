import LoxLang.Proofs.Appending
import LoxLang.Proofs.Grammar.LookingAhead

/-!
# The grammar on texts that go on

All rules of the grammar go forward and do the same on a text that goes on (`tracking_grammar`).
What ends a statement is a semicolon or a closing brace, so a parser of statements that runs out of
tokens has given up; the rules of expressions may also have given a result.

Each statement takes a semicolon or a closing brace (`Parser.Closes`), and what is skipped after a
mistake is a token at least. This is why the loops of the grammar come to an end.
-/

namespace LoxLang

open LoxLang.Parser Nested

variable {α β γ : Type} {c : Surroundings} {calm settled : Prop} {n n' : Nat}

/-!
## Loops

The loops of the grammar may be entered a different number of times in the two runs. This does not
matter, since each round takes a token and the numbers are larger than those of the tokens.
-/

/-- A loop tracks itself if one round of it does. -/
theorem Parser.Tracks.loop {p : Nat → γ → Parser α} (hzero : ∀ x, (p 0 x).Advances calm)
    (hstep : ∀ n n', (∀ x, Tracks c calm settled n n' (p n x) (p n' x)) →
      ∀ x, Tracks c calm settled (n + 1) (n' + 1) (p (n + 1) x) (p (n' + 1) x))
    (n n' : Nat) (x : γ) : Tracks c calm settled n n' (p n x) (p n' x) := by
  induction n generalizing n' x with
  | zero => exact .zero (hzero x)
  | succ n ih =>
    cases n' with
    | zero => exact .zero' (hstep n 0 (ih 0) x).advances
    | succ n' => exact hstep n n' (ih n') x

/-- Whether a token is one of those that end statements: semicolons and closing braces. -/
def Token.closes (t : Token) : Bool := t.kind = .mark .semicolon ∨ t.kind = .mark .rightBrace

/-- A parser takes a semicolon or a closing brace before it gives a result. -/
def Parser.Closes (p : Parser α) : Prop :=
  ∀ s a s', p s = .ok a s' →
    ∃ taken, s.rest = taken ++ s'.rest ∧ ∃ t ∈ taken, t.closes = true

/-- To take a semicolon or a brace is to take a token. -/
theorem Parser.Closes.length_lt {p : Parser α} (h : p.Closes) {s s' : ParserState} {a : α}
    (hrun : p s = .ok a s') : s'.rest.length < s.rest.length := by
  obtain ⟨taken, hrest, t, ht, -⟩ := h s a s' hrun
  have hpos := List.length_pos_of_mem ht
  rw [hrest, List.length_append]
  omega

section Taking

variable {p : Parser α} {f f' : α → Parser β}

/-- What follows a parser that has taken a token has fewer ahead. -/
theorem Parser.Tracks.alike_bindTaking {s s' : ParserState} (hp : Tracks c calm settled n n' p p)
    (hf : ∀ a, Tracks c calm settled (n - 1) (n' - 1) (f a) (f' a)) (hs : s.Extends c s')
    (hn : s.rest.length < n) (hn' : s'.rest.length < n')
    (htakes : ∀ a s₁, p s = .ok a s₁ → s₁.rest.length < s.rest.length) :
    RunsAlike c settled ((p >>= f) s) ((p >>= f') s') := by
  apply bindAt (hp.alike s s' hs hn hn')
  · intro a s₁ s₁' hrun hs₁
    exact (hf a).alikeTaken hs hs₁ (htakes a s₁ hrun) hn hn'
  · intro a s₁ _ hrest hsettled hbehind
    exact runsOut_of_advances (hf a).advances hbehind hrest hsettled

/-- Behind a parser that closes something, there is a token less to be read, in both runs. -/
theorem Parser.Tracks.bindClosing (hcloses : p.Closes) (hp : Tracks c calm settled n n' p p)
    (hf : ∀ a, Tracks c calm settled (n - 1) (n' - 1) (f a) (f' a)) :
    Tracks c calm settled n n' (p >>= f) (p >>= f') :=
  ⟨hp.advances.bind fun a => (hf a).advances, fun _ _ hs hn hn' =>
    hp.alike_bindTaking hf hs hn hn' fun _ _ hrun => hcloses.length_lt hrun⟩

/-- If the end is looked for first, it is enough that a token is taken where there is one. -/
theorem tracks_unlessAtEnd {b : β}
    (htakes : ∀ s a s', p s = .ok a s' → s.rest ≠ [] → s'.rest.length < s.rest.length)
    (hp : Tracks c calm False n n' p p)
    (hf : ∀ a, Tracks c calm False (n - 1) (n' - 1) (f a) (f' a)) :
    Tracks c calm False n n' (atEnd >>= fun e => if e then pure b else p >>= f)
      (atEnd >>= fun e => if e then pure b else p >>= f') := by
  refine ⟨advances_atEnd.bind fun _ =>
    .ite (.pure b) (hp.advances.bind fun a => (hf a).advances), fun s s' hs hn hn' => ?_⟩
  show RunsAlike c False ((if s.rest.isEmpty then pure b else p >>= f) s)
    ((if s'.rest.isEmpty then pure b else p >>= f') s')
  have hrest' := hs.rest
  cases hrest : s.rest with
  | nil =>
    -- Only the first run may be at its end, and it goes on there with nothing to read.
    by_cases hbehind : c.behind = []
    · rw [hrest, hbehind] at hrest'
      rw [hrest']
      exact .inl (.ok rfl hs)
    · exact .inr ⟨hbehind, hrest, False.elim⟩
  | cons t rest =>
    rw [hrest, List.cons_append] at hrest'
    rw [hrest']
    exact hp.alike_bindTaking hf hs hn hn' fun a s₁ hrun => htakes s a s₁ hrun (by simp [hrest])

end Taking

namespace Parser.Closes

variable {p q : Parser α} {f : α → Parser β}

/-- What has closed something has done so whatever follows. -/
theorem bind (hp : p.Closes) (hf : ∀ a, (f a).Advances False) : (p >>= f).Closes := by
  intro s b s' hrun
  obtain ⟨a, s₁, hfirst, hsecond⟩ := bind_eq_ok hrun
  have hends := hf a s₁
  rw [hsecond] at hends
  obtain ⟨taken, hrest, t, ht, hcloses⟩ := hp s a s₁ hfirst
  obtain ⟨more, hmore⟩ := hends.advance_ok.rest
  refine ⟨taken ++ more, ?_, t, List.mem_append_left _ ht, hcloses⟩
  rw [hrest, ← hmore, List.append_assoc]

/-- What goes forward may stand in front of what closes something. -/
theorem after (hp : p.Advances False) (hf : ∀ a, (f a).Closes) : (p >>= f).Closes := by
  intro s b s' hrun
  obtain ⟨a, s₁, hfirst, hsecond⟩ := bind_eq_ok hrun
  have hends := hp s
  rw [hfirst] at hends
  obtain ⟨taken, hrest, t, ht, hcloses⟩ := hf a s₁ b s' hsecond
  obtain ⟨more, hmore⟩ := hends.advance_ok.rest
  refine ⟨more ++ taken, ?_, t, List.mem_append_right _ ht, hcloses⟩
  rw [← hmore, hrest, List.append_assoc]

/-- The same of a parser that is known to track itself. -/
theorem afterTracked (hp : Tracks c True False n n' p p) (hf : ∀ a, (f a).Closes) :
    (p >>= f).Closes :=
  .after (hp.advances.mono False.elim) hf

/-- A result may be changed behind a parser. -/
theorem map {g : α → β} (hp : p.Closes) : (g <$> p).Closes :=
  hp.bind fun a => .pure (g a)

/-- Whichever of two parsers it is. -/
theorem ite {b : Prop} [Decidable b] (hp : p.Closes) (hq : q.Closes) :
    (if b then p else q).Closes := by
  split
  · exact hp
  · exact hq

/-- A semicolon or a brace that has to stand there is taken. -/
theorem expectMark {m : Mark} (hm : m = .semicolon ∨ m = .rightBrace) (place : MarkPlace) :
    (Parser.expectMark m place).Closes := by
  intro s a s' hrun
  unfold Parser.expectMark Parser.acceptMark? Parser.acceptKind? at hrun
  rw [bind_assoc] at hrun
  rcases accept?_cases _ s with ⟨t, rest, u, hrest, hu, hfirst⟩ | ⟨hfirst, -⟩
  · rw [bind_of_ok hfirst] at hrun
    cases hrun
    have hkind : t.kind = .mark m := by
      by_cases hkind : t.kind = .mark m
      · exact hkind
      · rw [if_neg hkind] at hu
        cases hu
    refine ⟨[t], hrest, t, List.mem_singleton_self t, ?_⟩
    rcases hm with rfl | rfl <;> simp [Token.closes, hkind]
  -- Without the mark the rule fails, so it has no result.
  · rw [bind_of_ok hfirst] at hrun
    change Parser.fail _ s = _ at hrun
    rw [fail_eq] at hrun
    cases hrun

end Parser.Closes

/-!
## Lists

A list ends with a parenthesis, and a block with a brace. A list of which the tokens run out may
have been read to its end or not.
-/

/-- No `else` stands behind the tokens, which could belong to a statement among them. -/
def Surroundings.NoElse (c : Surroundings) : Prop := NotNext (.keyword .«else») c.behind

/-- Whether an `else` follows is seen at the end of a statement, where it may be the end of the
tokens as well. -/
theorem Parser.Tracks.acceptElse {g g' : Option Nat → Parser β}
    (hnone : Tracks c calm c.NoElse n n' (g none) (g' none))
    (hsome : ∀ line, Tracks c calm c.NoElse (n - 1) (n' - 1) (g (some line)) (g' (some line))) :
    Tracks c calm c.NoElse n n' (acceptKeyword? .«else» >>= g) (acceptKeyword? .«else» >>= g') := by
  unfold acceptKeyword? Parser.acceptKind?
  rw [bind_assoc, bind_assoc]
  apply acceptBrace? hnone
  · intro hno
    right
    intro t rest hbehind
    exact if_neg (hno t rest hbehind)
  · intro t _ _
    exact (hsome t.line).mono And.left id

/-- The rules of the grammar one level further in do the same on a text that goes on. -/
structure Nested.Tracking (c : Surroundings) (inner : Nested) : Prop where
  declaration : ∀ n n', Tracks c False False n n' inner.declaration inner.declaration
  /-- A declaration takes a token where there is one, with or without a mistake. -/
  takes : ∀ s d s', inner.declaration s = .ok d s' → s.rest ≠ [] → s'.rest.length < s.rest.length
  statement : ∀ n n', Tracks c True c.NoElse n n' inner.statement inner.statement
  closes : inner.statement.Closes
  expression : ∀ n n', Tracks c True False n n' inner.expression inner.expression
  unary : ∀ n n', Tracks c True False n n' inner.unary inner.unary

section Lists

variable {item : Parser α} (hitem : ∀ n n', Tracks c calm False n n' item item)
  {tooMany : GrammarError} (hmild : tooMany.stops = false)
include hitem hmild

/-- Each item takes a token. -/
theorem tracks_moreItems (n n' count : Nat) :
    Tracks c calm False n n' (moreItems item tooMany n count)
      (moreItems item tooMany n' count) := by
  refine Tracks.loop (fun _ => .pure _) (fun n n' ih count => ?_) n n' count
  refine .acceptKind? (.pure _) False.elim fun line => ?_
  have hrest := (hitem n n').bind fun x => (ih (count + 1)).bind fun xs => .pure (x :: xs)
  have hreport (place : Location) : Tracks c calm False n n'
      (report place (.grammar tooMany)) (report place (.grammar tooMany)) :=
    .report place fun _ => hmild
  exact .ite (Tracks.here.bind fun place => (hreport place).bind fun _ => hrest) hrest

/-- The first item, and more behind commas. -/
theorem tracks_items (n n' : Nat) :
    Tracks c calm False n n' (items item tooMany) (items item tooMany) := by
  refine .isNext (fun _ => .ite (.pure _) ?_) False.elim
  exact (hitem n n').bind fun x => .bound fun m m' =>
    (tracks_moreItems hitem hmild m m' 1).bind fun xs => .pure (x :: xs)

end Lists

/-- Parameters end at a parenthesis, so that running out of tokens is a mistake. -/
theorem tracks_parameters (n n' : Nat) :
    Tracks c calm settled n n' parameters parameters :=
  (tracks_items (fun _ _ => .expectName _) rfl n n').thenMark fun _ _ => .pure _

section Blocks

variable {inner : Nested} (h : inner.Tracking c)
include h

/-- The statements of a block are read up to its brace. -/
theorem tracks_statements (n n' : Nat) :
    Tracks c False False n n' (inner.statements n) (inner.statements n') := by
  refine Tracks.loop (p := fun n (_ : Unit) => inner.statements n) (fun _ => .pure _)
    (fun n n' ih _ => ?_) n n' ()
  refine .isNext (fun _ => .ite (.pure _) ?_) False.elim
  exact tracks_unlessAtEnd h.takes (h.declaration _ _) fun first => (ih ()).bind fun others =>
    .pure (first.toList ++ others)

/-- A block without its brace is given up. -/
theorem tracks_block (n n' : Nat) :
    Tracks c False settled n n' inner.block inner.block :=
  .bound fun m m' => (tracks_statements h m m').thenMark fun _ _ => .pure _

end Blocks

/-!
## Expressions

Expressions have no last token of their own, so in the two runs they may end differently at the end
of the tokens of the first. Whoever asks for a semicolon behind them settles it.
-/

section Expressions

variable {inner : Nested}

/-- No expression begins at the end of the tokens, nor at a keyword `fun` just before it. -/
def AtLastFun (s : ParserState) : Prop :=
  s.rest = [] ∨ ∃ line, s.rest = [⟨.keyword .«fun», line⟩]

/-- Where no expression begins, no operator stands. -/
theorem accept?_of_atLastFun {s : ParserState} (hs : AtLastFun s) {f : TokenKind → Option α}
    (hf : f (.keyword .«fun») = none) : accept? f s = .ok none s := by
  unfold accept?
  rcases hs with hs | ⟨line, hs⟩
  · rw [hs]
  · rw [hs]
    simp only [hf]

/-- Without a token there is no expression, and a lambda needs more than its keyword. -/
theorem failsFrom_primary {s : ParserState} (hs : AtLastFun s) : FailsFrom s inner.primary := by
  rcases hs with hs | ⟨line, hs⟩
  · exact NeedsToken.accept? (.fail _) s hs
  · have htake : accept? PrimaryStart.ofKind? s =
        .ok (some (.lambda, line)) { s with rest := [] } := by
      unfold accept?
      rw [hs]
      rfl
    exact .after htake (NeedsToken.bind (.expectMark _ _) _ _ rfl)

/-- No operator in front, and no expression behind. -/
theorem failsFrom_unaryExpr {s : ParserState} (hs : AtLastFun s) : FailsFrom s inner.unaryExpr :=
  .after (accept?_of_atLastFun hs rfl) ((failsFrom_primary hs).bind _)

/-- Through all levels of operators. -/
theorem failsFrom_assignment {s : ParserState} (hs : AtLastFun s) : FailsFrom s inner.assignment :=
  ((((((failsFrom_unaryExpr hs).bind _).bind _).bind _).bind _).bind _).bind _ |>.bind _

/-- An expression has a token. -/
theorem needsToken_assignment : inner.assignment.NeedsToken :=
  fun _ hs => failsFrom_assignment (.inl hs)

variable (h : inner.Tracking c)
include h

/-- A lambda ends with a brace. -/
theorem tracks_lambda (line n n' : Nat) :
    Tracks c True settled n n' (inner.lambda line) (inner.lambda line) :=
  (Tracks.expectMark _ _).bind fun _ => (tracks_parameters n n').bind fun _ =>
    .expectBrace fun _ => (tracks_block h _ _).bind fun _ => .pure _

/-- What an expression begins with is a token, and decides how to go on. -/
theorem tracks_afterStart (line : Nat) (start : PrimaryStart) (n n' : Nat) :
    Tracks c True False n n' (inner.afterStart line start) (inner.afterStart line start) := by
  cases start with
  | literal value => exact .pure _
  | name text => exact Tracks.freshUse.bind fun _ => .pure _
  | parenthesis =>
    exact (h.expression n n').bind fun _ => (Tracks.expectMark _ _).bind fun _ => .pure _
  | lambda => exact tracks_lambda h line n n'
  | this => exact Tracks.freshUse.bind fun _ => .pure _
  | super =>
    exact (Tracks.expectMark _ _).bind fun _ => (Tracks.expectName _).bind fun _ =>
      Tracks.freshUse.bind fun _ => .pure _

/-- An expression without operators. -/
theorem tracks_primary (n n' : Nat) : Tracks c True False n n' inner.primary inner.primary :=
  .accept? (.fail rfl) False.elim fun start line => tracks_afterStart h line start _ _

/-- Calls and properties behind an expression, each of which takes a token. -/
theorem tracks_suffixes (n n' : Nat) (e : Expr) :
    Tracks c True False n n' (inner.suffixes n e) (inner.suffixes n' e) := by
  refine Tracks.loop (fun _ => .pure _) (fun n n' ih e => ?_) n n' e
  have harguments (e : Expr) (m m' : Nat) :
      Tracks c True False m m' (inner.arguments e) (inner.arguments e) :=
    (tracks_items h.expression rfl m m').bind fun _ => (Tracks.expectMark _ _).bind fun _ => .pure _
  refine .acceptKind? ?_ False.elim fun _ => (harguments e n n').bind fun e => ih e
  exact .acceptKind? (.pure _) False.elim fun _ => (Tracks.expectName _).bind fun name => ih _

/-- Operators in front of an expression. -/
theorem tracks_unaryExpr (n n' : Nat) :
    Tracks c True False n n' inner.unaryExpr inner.unaryExpr := by
  refine .accept? ?_ False.elim fun op line => (h.unary _ _).bind fun _ => .pure _
  exact (tracks_primary h n n').bind fun e => .bound fun m m' => tracks_suffixes h m m' e

omit h in
/-- Operands and operators in turn. -/
theorem tracks_chain {operand : Parser Expr}
    (hoperand : ∀ n n', Tracks c True False n n' operand operand)
    (operator? : TokenKind → Option α) (join : α → Nat → Expr → Expr → Expr) (n n' : Nat) :
    Tracks c True False n n' (chain operator? join operand) (chain operator? join operand) := by
  have hmore : ∀ n n' e, Tracks c True False n n' (moreOperands operator? join operand n e)
      (moreOperands operator? join operand n' e) := by
    refine Tracks.loop (fun _ => .pure _) fun n n' ih e => ?_
    exact .accept? (.pure _) False.elim fun _ _ => (hoperand n n').bind fun _ => ih _
  exact (hoperand n n').bind fun first => .bound fun m m' => hmore m m' first

/-- All levels of operators, from the tightest on. -/
theorem tracks_disjunction (n n' : Nat) :
    Tracks c True False n n' inner.disjunction inner.disjunction :=
  tracks_chain (tracks_chain (tracks_chain (tracks_chain (tracks_chain (tracks_chain
    (tracks_unaryExpr h) _ _) _ _) _ _) _ _) _ _) _ _ n n'

/-- A value, or a target with a value behind it. -/
theorem tracks_assignment (n n' : Nat) :
    Tracks c True False n n' inner.assignment inner.assignment := by
  refine (tracks_disjunction h n n').bind fun target => .acceptKind? (.pure _) False.elim
    fun line => (h.expression _ _).bind fun value => ?_
  unfold assignTo
  split
  · exact Tracks.freshUse.bind fun _ => .pure _
  · exact .pure _
  · exact (Tracks.report _ fun _ => rfl).bind fun _ => .pure _

end Expressions

/-!
## Statements

A statement that is followed by `else` in the second run may go on there, so it is settled only
where none follows.
-/

section Statements

variable {inner : Nested} (h : inner.Tracking c)
include h

/-- An expression and a mark behind it. -/
theorem tracks_assignmentThen {k : Expr → Nat → Parser α} {m : Mark} {place : MarkPlace}
    (hk : ∀ e line, Tracks c True settled n n' (k e line) (k e line)) :
    Tracks c True settled n n' (inner.assignment >>= fun e => expectMark m place >>= k e)
      (inner.assignment >>= fun e => expectMark m place >>= k e) :=
  (tracks_assignment h n n').thenMark hk

/-- A clause that may be missing, and a mark behind it. -/
theorem tracks_clauseThen {k : Option Expr → Nat → Parser α} {m : Mark} {place : MarkPlace}
    {present : Bool} (hk : ∀ e line, Tracks c True settled n n' (k e line) (k e line)) :
    Tracks c True settled n n'
      (if present then pure none >>= fun e => expectMark m place >>= k e
        else some <$> inner.assignment >>= fun e => expectMark m place >>= k e)
      (if present then pure none >>= fun e => expectMark m place >>= k e
        else some <$> inner.assignment >>= fun e => expectMark m place >>= k e) :=
  .ite ((Tracks.pure none).thenMark hk) ((tracks_assignment h n n').map.thenMark hk)

omit h in
/-- A clause that may be missing is none at the end of the tokens. -/
theorem needsToken_clauseThen {k : Option Expr → Parser α} {present : Bool}
    (hk : (k none).NeedsToken) :
    Parser.NeedsToken (if present then pure none >>= k else some <$> inner.assignment >>= k) :=
  .ite hk ((needsToken_assignment.bind _).bind _)

/-- The semicolon settles where the expression ends. -/
theorem tracks_expressionStatement (n n' : Nat) :
    Tracks c True settled n n' inner.expressionStatement inner.expressionStatement :=
  tracks_assignmentThen h fun _ _ => .pure _

/-- The semicolon settles where the initializer ends. -/
theorem tracks_varDeclaration (n n' : Nat) :
    Tracks c True settled n n' inner.varDeclaration inner.varDeclaration := by
  refine (Tracks.expectName _).bind fun name => .acceptKind? ?_ (fun _ => ?_) fun line => ?_
  · exact (Tracks.pure none).thenMark fun _ _ => .pure _
  · exact (NeedsToken.expectMark _ _).bind _
  · exact (tracks_assignment h _ _).map.thenMark fun _ _ => .pure _

/-- The mark behind a clause settles where it ends. -/
theorem tracks_forClause (final : Mark) (place : MarkPlace) (n n' : Nat) :
    Tracks c True settled n n' (inner.forClause final place) (inner.forClause final place) :=
  .isNext (fun _ => tracks_clauseThen h fun _ _ => .pure _) fun _ =>
    needsToken_clauseThen ((NeedsToken.expectMark _ _).bind _)

omit h in
/-- Even an empty clause has its mark. -/
theorem needsToken_forClause (final : Mark) (place : MarkPlace) :
    (inner.forClause final place).NeedsToken :=
  .isNext (needsToken_clauseThen ((NeedsToken.expectMark _ _).bind _))

/-- A declaration, an expression, or a semicolon. -/
theorem tracks_forInitializer (n n' : Nat) :
    Tracks c True False n n' inner.forInitializer inner.forInitializer := by
  refine .acceptKind? ?_ False.elim fun _ => .pure _
  exact .acceptKind? (tracks_expressionStatement h n n').map False.elim fun _ =>
    (tracks_varDeclaration h _ _).map

/-- A loop ends with its body. -/
theorem tracks_forStatement (n n' : Nat) :
    Tracks c True c.NoElse n n' inner.forStatement inner.forStatement := by
  refine (Tracks.expectMark _ _).bind fun _ => (tracks_forInitializer h n n').settle
    (fun _ => ?_) fun _ => (needsToken_forClause _ _).bind _
  exact (tracks_forClause h _ _ n n').bind fun _ => (tracks_forClause h _ _ n n').bind fun _ =>
    (h.statement n n').bind fun _ => .pure _

/-- Whether there is an `else` is seen behind the first branch. -/
theorem tracks_ifStatement (n n' : Nat) :
    Tracks c True c.NoElse n n' inner.ifStatement inner.ifStatement := by
  refine (Tracks.expectMark _ _).bind fun _ => tracks_assignmentThen h fun _ _ =>
    (h.statement n n').bind fun consequence => .acceptElse ?_ fun _ => ?_
  · exact (Tracks.pure none).bind fun _ => .pure _
  · exact (h.statement _ _).map.bind fun _ => .pure _

/-- A loop ends with its body. -/
theorem tracks_whileStatement (n n' : Nat) :
    Tracks c True c.NoElse n n' inner.whileStatement inner.whileStatement :=
  (Tracks.expectMark _ _).bind fun _ => tracks_assignmentThen h fun _ _ =>
    (h.statement n n').bind fun _ => .pure _

/-- The semicolon settles where the value ends. -/
theorem tracks_returnStatement (line n n' : Nat) :
    Tracks c True settled n n' (inner.returnStatement line) (inner.returnStatement line) :=
  .isNext (fun _ => tracks_clauseThen h fun _ _ => .pure _) fun _ =>
    needsToken_clauseThen ((NeedsToken.expectMark _ _).bind _)

/-- The first token decides on the kind of statement. -/
theorem tracks_afterStatementStart (line : Nat) (start : StatementStart) (n n' : Nat) :
    Tracks c (start ≠ .block) c.NoElse n n' (inner.afterStatementStart line start)
      (inner.afterStatementStart line start) := by
  cases start with
  | block => exact ((tracks_block h _ _).bind fun _ => .pure _).mono (fun hcalm => hcalm rfl) id
  | forLoop => exact (tracks_forStatement h _ _).mono (fun _ => trivial) id
  | ifThen => exact (tracks_ifStatement h _ _).mono (fun _ => trivial) id
  | print => exact (tracks_assignmentThen h fun _ _ => .pure _).mono (fun _ => trivial) id
  | returnValue => exact (tracks_returnStatement h _ _ _).mono (fun _ => trivial) id
  | whileLoop => exact (tracks_whileStatement h _ _).mono (fun _ => trivial) id

/-- All kinds of statements. -/
theorem tracks_statementRule (n n' : Nat) :
    Tracks c True c.NoElse n n' inner.statementRule inner.statementRule := by
  refine .acceptBrace? (tracks_expressionStatement h n n')
    (fun _ => .inl (needsToken_assignment.bind _)) fun t start ht => ?_
  apply (tracks_afterStatementStart h t.line start _ _).mono _ id
  rintro ⟨-, hkind⟩ rfl
  exact hkind (StatementStart.is_of_ofKind? ht)

/-!
## Declarations

Only for the keyword `fun` the parser looks two tokens ahead. If it is the last token, then no
lambda can be read behind it, so the first run fails.
-/

/-- A function ends with a brace. -/
theorem tracks_function (kind : FunctionKind) (n n' : Nat) :
    Tracks c True settled n n' (inner.function kind) (inner.function kind) :=
  (Tracks.expectName _).bind fun _ => (Tracks.expectMark _ _).bind fun _ =>
    (tracks_parameters n n').bind fun _ => .expectBrace fun _ => (tracks_block h _ _).bind fun _ =>
      .pure _

/-- A block takes its brace. -/
theorem closes_block : inner.block.Closes :=
  .after (.of_eq (g := ParserState.bound) fun _ => rfl) fun m =>
    .after (tracks_statements h m m).advances fun _ => (Closes.expectMark (.inr rfl) _).map

/-- A function takes the brace of its body. -/
theorem closes_function (kind : FunctionKind) : (inner.function kind).Closes :=
  .after (advances_expectName _) fun _ => .after (advances_expectMark _ _) fun _ =>
    .afterTracked (tracks_parameters (c := c) 0 0) fun _ =>
      .after (advances_expectMark _ _) fun _ => (closes_block h).map

/-- Each method takes a token. -/
theorem tracks_methods (n n' : Nat) :
    Tracks c True False n n' (inner.methods n) (inner.methods n') := by
  refine Tracks.loop (p := fun n (_ : Unit) => inner.methods n) (fun _ => .pure _)
    (fun n n' ih _ => ?_) n n' ()
  refine .atEnd fun _ => .ite (.pure _) ?_
  refine .isNext (fun _ => .ite (.pure _) ?_) False.elim
  refine .acceptKind? ?_ False.elim fun _ => ?_
  · exact .bindClosing (closes_function h _) (tracks_function h _ _ _) fun _ =>
      (ih ()).bind fun _ => .ite (.pure _) (.pure _)
  · exact (tracks_function h _ _ _).bind fun _ => (ih ()).bind fun _ => .ite (.pure _) (.pure _)

omit h in
/-- There may be a superclass or not. -/
theorem tracks_superclass (n n' : Nat) : Tracks c calm False n n' superclass superclass :=
  .acceptKind? (.pure _) False.elim fun _ => (Tracks.expectName _).bind fun _ =>
    Tracks.freshUse.bind fun _ => .pure _

/-- A class ends with a brace. -/
theorem tracks_classDeclaration (n n' : Nat) :
    Tracks c True settled n n' inner.classDeclaration inner.classDeclaration := by
  refine (Tracks.expectName _).bind fun name => (tracks_superclass n n').thenMark
    fun parent _ => .bound fun m m' => ?_
  exact (tracks_methods h m m').thenMark fun _ _ => .pure _

/-- Some tokens begin with the keyword `fun` and a name. -/
def BeginsFunction (ts : List Token) : Prop :=
  ∃ line x line' rest, ts = ⟨.keyword .«fun», line⟩ :: ⟨.identifier x, line'⟩ :: rest

omit h in
/-- Two tokens are looked at. Where the first run sees one only, that is all it has. -/
theorem acceptFunction_extends {s s' : ParserState} (hs : s.Extends c s') :
    (∃ s₁ s₁' t, s.rest = t :: s₁.rest ∧ acceptFunction s = .ok true s₁ ∧
      acceptFunction s' = .ok true s₁' ∧ s₁.Extends c s₁') ∨
    (acceptFunction s = .ok false s ∧ acceptFunction s' = .ok false s') ∨
    (acceptFunction s = .ok false s ∧ AtLastFun s ∧ c.behind ≠ []) := by
  have hno {s : ParserState} (h : ¬BeginsFunction s.rest) : acceptFunction s = .ok false s := by
    unfold acceptFunction
    split
    · next hrest => exact absurd ⟨_, _, _, _, hrest⟩ h
    · rfl
  have hrest' := hs.rest
  -- The rule looks two tokens ahead, so the first run may be one token before its end.
  by_cases hfun : BeginsFunction s.rest
  · obtain ⟨line, x, line', rest, hrest⟩ := hfun
    have hbound := hs.bound
    have hbound' := hs.bound'
    rw [hrest, List.cons_append, List.cons_append] at hrest'
    rw [hrest, List.length_cons] at hbound
    rw [hrest', List.length_cons] at hbound'
    refine .inl ⟨{ s with rest := ⟨.identifier x, line'⟩ :: rest },
      { s' with rest := ⟨.identifier x, line'⟩ :: (rest ++ c.behind) }, _, hrest, ?_, ?_, ?_⟩
    · simp only [acceptFunction, hrest]
    · simp only [acceptFunction, hrest']
    · exact { hs with
        rest := rfl
        bound := Nat.lt_of_succ_lt hbound
        bound' := Nat.lt_of_succ_lt hbound' }
  · by_cases hfun' : BeginsFunction s'.rest
    · -- The second run sees a token that is not among those of the first.
      obtain ⟨line, x, line', rest, hfun'⟩ := hfun'
      rw [hfun'] at hrest'
      refine .inr (.inr ⟨hno hfun, ?_, ?_⟩)
      · cases hrest : s.rest with
        | nil => exact .inl hrest
        | cons t ts =>
          rw [hrest, List.cons_append] at hrest'
          obtain ⟨rfl, hts⟩ := List.cons.inj hrest'
          cases ts with
          | nil => exact .inr ⟨line, hrest⟩
          | cons u us =>
            obtain ⟨rfl, -⟩ := List.cons.inj hts
            exact absurd ⟨_, _, _, _, hrest⟩ hfun
      · intro hbehind
        rw [hbehind, List.append_nil] at hrest'
        exact hfun ⟨_, _, _, _, hrest'.symm⟩
    · exact .inr (.inl ⟨hno hfun, hno hfun'⟩)

omit h in
/-- What follows where no function is declared fails if the tokens end too early to tell. -/
theorem Parser.Tracks.acceptFunction {g : Bool → Parser β}
    (h : ∀ b, Tracks c calm settled n n' (g b) (g b))
    (hend : ∀ s, AtLastFun s → FailsFrom s (g false)) :
    Tracks c calm settled n n' (acceptFunction >>= g) (acceptFunction >>= g) := by
  refine ⟨advances_acceptFunction.bind fun b => (h b).advances, fun s s' hs hn hn' => ?_⟩
  rcases acceptFunction_extends hs with ⟨s₁, s₁', t, hrest, hrun, hrun', hs₁⟩ | ⟨hrun, hrun'⟩ |
    ⟨hrun, hlast, hbehind⟩
  · rw [bind_of_ok hrun, bind_of_ok hrun']
    have hlength : s₁.rest.length + 1 = s.rest.length := by rw [hrest, List.length_cons]
    rw [hs.rest, List.length_append] at hn'
    apply (h true).alike s₁ s₁' hs₁
    · omega
    · rw [hs₁.rest, List.length_append]
      omega
  · rw [bind_of_ok hrun, bind_of_ok hrun']
    exact (h false).alike s s' hs hn hn'
  · rw [bind_of_ok hrun]
    -- The first run sees `fun` as the last token, and whatever it tries fails there.
    obtain ⟨e, s₁, hfail, hs₁⟩ := hend s hlast
    rw [hfail]
    exact .inr ⟨hbehind, hs₁, fun _ => ⟨e, s₁, rfl⟩⟩

omit h in
/-- Without a token, or with a last `fun` only, there is no statement. -/
theorem failsFrom_statementRule {s : ParserState} (hs : AtLastFun s) :
    FailsFrom s inner.statementRule :=
  .after (accept?_of_atLastFun hs rfl) ((failsFrom_assignment hs).bind _)

/-- All kinds of declarations. -/
theorem tracks_declarationRule (n n' : Nat) :
    Tracks c True c.NoElse n n' inner.declarationRule inner.declarationRule := by
  -- Where the tokens end with `fun`, none of the other declarations can begin.
  have hfails (s : ParserState) (hs : AtLastFun s) : FailsFrom s
      (acceptKeyword? .var >>= fun found =>
        if found.isSome then inner.varDeclaration else inner.statementRule) := by
    unfold acceptKeyword? Parser.acceptKind?
    rw [bind_assoc]
    exact .after (accept?_of_atLastFun hs rfl) (failsFrom_statementRule hs)
  refine .acceptKind? ?_ (fun _ s hs => ?_) fun _ => tracks_classDeclaration h _ _
  · refine .acceptFunction (fun b => .ite ?_ ?_) hfails
    · exact (tracks_function h _ _ _).bind fun _ => .pure _
    · exact .acceptKind? (tracks_statementRule h _ _)
        (fun _ s hs => failsFrom_statementRule (.inl hs)) fun _ => tracks_varDeclaration h _ _
  · have hrun : Nested.acceptFunction s = .ok false s := by
      unfold Nested.acceptFunction
      rw [hs]
    exact .after hrun (hfails s (.inl hs))

/-!
## Ends of statements

Each kind of statement takes a semicolon or a closing brace. Statements that contain others do so in
them.
-/

/-- A clause that may be missing, up to a semicolon. -/
theorem closes_afterClause {place : MarkPlace} {k : Option Expr → α} :
    Parser.Closes (pure none >>= fun e => expectMark .semicolon place >>= fun _ => pure (k e)) ∧
    Parser.Closes (some <$> inner.assignment >>= fun e => expectMark .semicolon place >>= fun _ =>
      pure (k e)) :=
  ⟨.after (.pure none) fun _ => (Closes.expectMark (.inl rfl) _).map,
    .afterTracked (tracks_assignment h 0 0).map fun _ => (Closes.expectMark (.inl rfl) _).map⟩

/-- The semicolon behind the expression. -/
theorem closes_expressionStatement : inner.expressionStatement.Closes :=
  .afterTracked (tracks_assignment h 0 0) fun _ => (Closes.expectMark (.inl rfl) _).map

/-- The semicolon behind the initializer. -/
theorem closes_varDeclaration : inner.varDeclaration.Closes :=
  .after (advances_expectName _) fun _ =>
    .after (advances_acceptKind? _) fun _ =>
      .ite (closes_afterClause h).2 (closes_afterClause h).1

/-- The semicolons between the clauses. -/
theorem closes_forStatement : inner.forStatement.Closes := by
  refine .after (advances_expectMark _ _) fun _ => ?_
  refine .afterTracked (tracks_forInitializer h 0 0) fun _ => ?_
  refine .afterTracked (tracks_forClause h _ _ 0 0) fun _ => ?_
  refine .afterTracked (tracks_forClause h _ _ 0 0) fun _ => ?_
  exact h.closes.map

/-- The end of the first branch. -/
theorem closes_ifStatement : inner.ifStatement.Closes := by
  refine .after (advances_expectMark _ _) fun _ => ?_
  refine .afterTracked (tracks_assignment h 0 0) fun _ => ?_
  refine .after (advances_expectMark _ _) fun _ => ?_
  have hstatement := (h.statement 0 0).advances.mono False.elim
  exact h.closes.bind fun _ => (advances_acceptKind? _).bind fun _ =>
    .ite ((hstatement.bind fun _ => .pure _).bind fun _ => .pure _)
      ((Advances.pure _).bind fun _ => .pure _)

/-- The end of the body. -/
theorem closes_whileStatement : inner.whileStatement.Closes := by
  refine .after (advances_expectMark _ _) fun _ => ?_
  refine .afterTracked (tracks_assignment h 0 0) fun _ => ?_
  exact .after (advances_expectMark _ _) fun _ => h.closes.map

/-- The semicolon behind the value. -/
theorem closes_returnStatement (line : Nat) : (inner.returnStatement line).Closes :=
  .after (advances_isNext _) fun _ =>
    .ite (closes_afterClause h).1 (closes_afterClause h).2

/-- Every statement. -/
theorem closes_statementRule : inner.statementRule.Closes := by
  refine .after (advances_accept? _) fun found => ?_
  cases found with
  | none => exact closes_expressionStatement h
  | some found =>
    obtain ⟨start, line⟩ := found
    cases start with
    | forLoop => exact closes_forStatement h
    | ifThen => exact closes_ifStatement h
    | print =>
      exact .afterTracked (tracks_assignment h 0 0) fun _ => (Closes.expectMark (.inl rfl) _).map
    | block => exact (closes_block h).map
    | returnValue => exact closes_returnStatement h line
    | whileLoop => exact closes_whileStatement h

/-- The brace of the class. -/
theorem closes_classDeclaration : inner.classDeclaration.Closes := by
  refine .after (advances_expectName _) fun _ => ?_
  refine .afterTracked (tracks_superclass (c := c) 0 0) fun _ => ?_
  refine .after (advances_expectMark _ _) fun _ => ?_
  refine .after (.of_eq (g := ParserState.bound) fun _ => rfl) fun m => ?_
  exact .afterTracked (tracks_methods h m m) fun _ => (Closes.expectMark (.inr rfl) _).map

/-- Every declaration. -/
theorem closes_declarationRule : inner.declarationRule.Closes := by
  refine .after (advances_acceptKind? _) fun _ => .ite (closes_classDeclaration h) ?_
  refine .after (advances_acceptFunction) fun _ => .ite (closes_function h _).map ?_
  exact .after (advances_acceptKind? _) fun _ =>
    .ite (closes_varDeclaration h) (closes_statementRule h)

end Statements

end LoxLang
