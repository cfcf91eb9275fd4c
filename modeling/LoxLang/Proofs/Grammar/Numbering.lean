import LoxLang.Tree.Parsing

/-!
# Numbers for uses

No number for a use of a name is given twice, in whatever way parsing ends: the number for the next
use never goes down, also over mistakes and the recovery from them.
-/

namespace LoxLang

open LoxLang.Parser Nested

variable {α β : Type}

/-- Where a parser stands in the end, however it ended. -/
def Parser.stateOf : EStateM.Result ParserStop ParserState α → ParserState
  | .ok _ s => s
  | .error _ s => s

/-- However it ends, a parser does not go back in the numbers of uses. -/
def Parser.Counts (p : Parser α) : Prop := ∀ s, s.nextUse ≤ (stateOf (p s)).nextUse

namespace Parser.Counts

/-!
## Rules

Whatever is put together of parsers that count up counts up.
-/

theorem pure (a : α) : Counts (pure a) := fun _ => Nat.le_refl _

theorem throw (e : ParserStop) : Counts (throw e : Parser α) := fun _ => Nat.le_refl _

/-- One parser behind another. If the first one stops, that is all. -/
theorem bind {p : Parser α} {f : α → Parser β} (hp : Counts p) (hf : ∀ a, Counts (f a)) :
    Counts (p >>= f) := by
  intro s
  have hs := hp s
  show s.nextUse ≤ (stateOf (EStateM.bind p f s)).nextUse
  unfold EStateM.bind
  cases hrun : p s with
  | ok a s' =>
    rw [hrun] at hs
    exact Nat.le_trans hs (hf a s')
  | error e s' =>
    rw [hrun] at hs
    exact hs

/-- What is made of a result does not matter. -/
theorem map {p : Parser α} (f : α → β) (hp : Counts p) : Counts (f <$> p) :=
  hp.bind fun a => pure (f a)

/-- Whichever way is taken. -/
theorem ite {c : Prop} [Decidable c] {p q : Parser α} (hp : Counts p) (hq : Counts q) :
    Counts (if c then p else q) := by
  split
  · exact hp
  · exact hq

/-- A parser that leaves the number alone. -/
theorem of_eq {p : Parser α} (h : ∀ s, (stateOf (p s)).nextUse = s.nextUse) : Counts p :=
  fun s => Nat.le_of_eq (h s).symm

end Parser.Counts

/-!
## Single steps

All steps but one leave the number alone. `Parser.freshUse` gives it away and takes the next.
-/

theorem counts_here : Parser.here.Counts := by
  refine Counts.of_eq fun s => ?_
  unfold Parser.here
  cases s.rest <;> rfl

theorem counts_bound : Parser.bound.Counts := Counts.of_eq fun _ => rfl

/-- A token is taken, or left. -/
theorem counts_accept? (f : TokenKind → Option α) : (Parser.accept? f).Counts := by
  refine Counts.of_eq fun s => ?_
  unfold Parser.accept?
  cases s.rest with
  | nil => rfl
  | cons t rest =>
    dsimp only
    cases f t.kind <;> rfl

theorem counts_isNext (kind : TokenKind) : (Parser.isNext kind).Counts := Counts.of_eq fun _ => rfl

theorem counts_atEnd : Parser.atEnd.Counts := Counts.of_eq fun _ => rfl

theorem counts_acceptKind? (kind : TokenKind) : (Parser.acceptKind? kind).Counts :=
  (counts_accept? _).bind fun _ => Counts.pure _

/-- A mistake is noted, and parsing goes on. -/
theorem counts_report (place : Location) (e : StaticError) : (Parser.report place e).Counts :=
  Counts.of_eq fun _ => rfl

/-- Parsing stops at a mistake. -/
theorem counts_fail (e : GrammarError) : (Parser.fail e : Parser α).Counts :=
  counts_here.bind fun _ => (counts_report _ _).bind fun _ => Counts.throw _

/-- A mark that must be there is taken, or its absence is a mistake. -/
theorem counts_expectMark (m : Mark) (place : MarkPlace) : (Parser.expectMark m place).Counts := by
  refine (counts_acceptKind? _).bind fun found => ?_
  cases found with
  | none => exact counts_fail _
  | some line => exact Counts.pure line

/-- The same of a name. -/
theorem counts_expectName (role : NameRole) : (Parser.expectName role).Counts := by
  refine (counts_accept? _).bind fun found => ?_
  cases found with
  | none => exact counts_fail _
  | some found => exact Counts.pure _

/-- The number that is given away is not given again. -/
theorem counts_freshUse : Parser.freshUse.Counts := fun _ => Nat.le_succ _

/-- Two tokens ahead are looked at, and one is taken. -/
theorem counts_acceptFunction : acceptFunction.Counts := by
  refine Counts.of_eq fun s => ?_
  unfold acceptFunction
  split <;> rfl

/-!
## Grammar rules

The rules are followed from those for parts to those for wholes. Where a rule makes use of rules one
level further in, these are assumed to count up.
-/

/-- The rules of the grammar one level further in do not go back in the numbers. -/
structure Nested.Counting (inner : Nested) : Prop where
  declaration : inner.declaration.Counts
  statement : inner.statement.Counts
  expression : inner.expression.Counts
  unary : inner.unary.Counts

section Lists

variable {inner : Nested} {item : Parser α}

/-- Further items behind commas, however many. -/
theorem counts_moreItems (h : item.Counts) (tooMany : GrammarError) (fuel count : Nat) :
    (moreItems item tooMany fuel count).Counts := by
  induction fuel generalizing count with
  | zero => exact Counts.pure _
  | succ fuel ih =>
    refine (counts_acceptKind? _).bind fun found => ?_
    cases found with
    | none => exact Counts.pure _
    | some line =>
      have hrest := h.bind fun x => (ih (count + 1)).bind fun xs => Counts.pure (x :: xs)
      exact .ite (counts_here.bind fun _ => (counts_report _ _).bind fun _ => hrest) hrest

/-- A list of items in parentheses. -/
theorem counts_items (h : item.Counts) (tooMany : GrammarError) :
    (items item tooMany).Counts := by
  refine (counts_isNext _).bind fun _ => .ite (Counts.pure _) ?_
  exact h.bind fun _ => counts_bound.bind fun _ => (counts_moreItems h tooMany _ 1).bind fun _ =>
    Counts.pure _

/-- The parameters of a function. -/
theorem counts_parameters : parameters.Counts :=
  (counts_items (counts_expectName _) _).bind fun _ => (counts_expectMark _ _).bind fun _ =>
    Counts.pure _

/-- The statements of a block. -/
theorem counts_statements (h : inner.Counting) (fuel : Nat) : (inner.statements fuel).Counts := by
  induction fuel with
  | zero => exact Counts.pure _
  | succ fuel ih =>
    have hrest := h.declaration.bind fun first => ih.bind fun others =>
      Counts.pure (first.toList ++ others)
    exact (counts_isNext _).bind fun _ => .ite (Counts.pure _) <|
      counts_atEnd.bind fun _ => .ite (Counts.pure _) hrest

/-- A block with its braces. -/
theorem counts_block (h : inner.Counting) : inner.block.Counts :=
  counts_bound.bind fun _ => (counts_statements h _).bind fun _ =>
    (counts_expectMark _ _).bind fun _ => Counts.pure _

end Lists

section Expressions

variable {inner : Nested} (h : inner.Counting)
include h

/-- A function without a name. -/
theorem counts_lambda (line : Nat) : (inner.lambda line).Counts :=
  (counts_expectMark _ _).bind fun _ => counts_parameters.bind fun _ =>
    (counts_expectMark _ _).bind fun _ => (counts_block h).bind fun _ => Counts.pure _

/-- The rest of a primary expression, which depends on how it starts. -/
theorem counts_afterStart (line : Nat) (start : PrimaryStart) :
    (inner.afterStart line start).Counts := by
  cases start with
  | literal value => exact Counts.pure _
  | name text => exact counts_freshUse.bind fun _ => Counts.pure _
  | parenthesis =>
    exact h.expression.bind fun _ => (counts_expectMark _ _).bind fun _ => Counts.pure _
  | lambda => exact counts_lambda h line
  | this => exact counts_freshUse.bind fun _ => Counts.pure _
  | super =>
    exact (counts_expectMark _ _).bind fun _ => (counts_expectName _).bind fun _ =>
      counts_freshUse.bind fun _ => Counts.pure _

/-- An expression without operators. A use of a name takes a number here. -/
theorem counts_primary : inner.primary.Counts := by
  refine (counts_accept? _).bind fun found => ?_
  cases found with
  | none => exact counts_fail _
  | some found => exact counts_afterStart h found.2 found.1

/-- Calls and properties behind an expression. -/
theorem counts_suffixes (fuel : Nat) (e : Expr) : (inner.suffixes fuel e).Counts := by
  induction fuel generalizing e with
  | zero => exact Counts.pure _
  | succ fuel ih =>
    have harguments : (inner.arguments e).Counts :=
      (counts_items h.expression _).bind fun _ => (counts_expectMark _ _).bind fun _ =>
        Counts.pure _
    refine (counts_acceptKind? _).bind fun _ => .ite (harguments.bind fun e => ih e) ?_
    exact (counts_acceptKind? _).bind fun _ => .ite ((counts_expectName _).bind fun name => ih _)
      (Counts.pure _)

/-- Operators in front of an expression. -/
theorem counts_unaryExpr : inner.unaryExpr.Counts := by
  refine (counts_accept? _).bind fun found => ?_
  cases found with
  | none => exact (counts_primary h).bind fun e => counts_bound.bind fun _ => counts_suffixes h _ e
  | some found => exact h.unary.bind fun _ => Counts.pure _

omit h in
/-- Binary operators of one level of precedence. -/
theorem counts_chain {operand : Parser Expr} (hoperand : operand.Counts)
    (operator? : TokenKind → Option α) (join : α → Nat → Expr → Expr → Expr) :
    (chain operator? join operand).Counts := by
  have hmore : ∀ fuel e, (moreOperands operator? join operand fuel e).Counts := by
    intro fuel
    induction fuel with
    | zero => exact fun _ => Counts.pure _
    | succ fuel ih =>
      intro e
      refine (counts_accept? _).bind fun found => ?_
      cases found with
      | none => exact Counts.pure _
      | some found => exact hoperand.bind fun _ => ih _
  exact hoperand.bind fun first => counts_bound.bind fun n => hmore n first

/-- All levels of precedence, from the lowest on. -/
theorem counts_disjunction : inner.disjunction.Counts :=
  counts_chain (counts_chain (counts_chain (counts_chain (counts_chain (counts_chain
    (counts_unaryExpr h) _ _) _ _) _ _) _ _) _ _) _ _

/-- An assignment makes a new tree of the one on its left, which has got its number already. -/
theorem counts_assignment : inner.assignment.Counts := by
  refine (counts_disjunction h).bind fun target => (counts_acceptKind? _).bind fun found => ?_
  cases found with
  | none => exact Counts.pure _
  | some line =>
    refine h.expression.bind fun value => ?_
    unfold assignTo
    split
    · exact counts_freshUse.bind fun _ => Counts.pure _
    · exact Counts.pure _
    · exact (counts_report _ _).bind fun _ => Counts.pure _

end Expressions

section Statements

variable {inner : Nested} (h : inner.Counting)
include h

theorem counts_expressionStatement : inner.expressionStatement.Counts :=
  (counts_assignment h).bind fun _ => (counts_expectMark _ _).bind fun _ => Counts.pure _

/-- A variable with or without an initializer. -/
theorem counts_varDeclaration : inner.varDeclaration.Counts := by
  have hrest := fun (name : Name) (e : Option Expr) =>
    (counts_expectMark .semicolon .afterVariable).bind fun _ => Counts.pure (Stmt.var name e)
  refine (counts_expectName _).bind fun name => (counts_acceptKind? _).bind fun _ => .ite ?_ ?_
  · exact ((counts_assignment h).map some).bind (hrest name)
  · exact (Counts.pure none).bind (hrest name)

/-- One of the clauses of a `for` loop, which may be left out. -/
theorem counts_forClause (final : Mark) (place : MarkPlace) :
    (inner.forClause final place).Counts := by
  have hrest := fun (e : Option Expr) =>
    (counts_expectMark final place).bind fun _ => Counts.pure e
  refine (counts_isNext _).bind fun _ => .ite ?_ ?_
  · exact (Counts.pure none).bind hrest
  · exact ((counts_assignment h).map some).bind hrest

/-- All clauses, and the body. -/
theorem counts_forStatement : inner.forStatement.Counts := by
  have hinitializer : inner.forInitializer.Counts :=
    (counts_acceptKind? _).bind fun _ => .ite (Counts.pure _) <|
      (counts_acceptKind? _).bind fun _ => .ite ((counts_varDeclaration h).map some)
        ((counts_expressionStatement h).map some)
  exact (counts_expectMark _ _).bind fun _ => hinitializer.bind fun _ =>
    (counts_forClause h _ _).bind fun _ => (counts_forClause h _ _).bind fun _ =>
      h.statement.bind fun _ => Counts.pure _

/-- The condition and the branches. -/
theorem counts_ifStatement : inner.ifStatement.Counts := by
  refine (counts_expectMark _ _).bind fun _ => (counts_assignment h).bind fun _ =>
    (counts_expectMark _ _).bind fun _ => h.statement.bind fun _ =>
      (counts_acceptKind? _).bind fun _ => .ite ?_ ?_
  · exact (h.statement.map some).bind fun _ => Counts.pure _
  · exact (Counts.pure none).bind fun _ => Counts.pure _

theorem counts_returnStatement (line : Nat) : (inner.returnStatement line).Counts := by
  have hrest := fun (e : Option Expr) =>
    (counts_expectMark .semicolon .afterReturnValue).bind fun _ =>
      Counts.pure (Stmt.returnValue line e)
  refine (counts_isNext _).bind fun _ => .ite ?_ ?_
  · exact (Counts.pure none).bind hrest
  · exact ((counts_assignment h).map some).bind hrest

/-- Any statement that is no declaration. -/
theorem counts_statementRule : inner.statementRule.Counts := by
  refine (counts_accept? _).bind fun found => ?_
  cases found with
  | none => exact counts_expressionStatement h
  | some found =>
    obtain ⟨start, line⟩ := found
    cases start with
    | forLoop => exact counts_forStatement h
    | ifThen => exact counts_ifStatement h
    | print =>
      exact (counts_assignment h).bind fun _ => (counts_expectMark _ _).bind fun _ =>
        Counts.pure _
    | block => exact (counts_block h).bind fun _ => Counts.pure _
    | returnValue => exact counts_returnStatement h line
    | whileLoop =>
      exact (counts_expectMark _ _).bind fun _ => (counts_assignment h).bind fun _ =>
        (counts_expectMark _ _).bind fun _ => h.statement.bind fun _ => Counts.pure _

/-- A function with a name, be it declared alone or in a class. -/
theorem counts_function (kind : FunctionKind) : (inner.function kind).Counts :=
  (counts_expectName _).bind fun _ => (counts_expectMark _ _).bind fun _ =>
    counts_parameters.bind fun _ => (counts_expectMark _ _).bind fun _ =>
      (counts_block h).bind fun _ => Counts.pure _

/-- The members of a class. -/
theorem counts_methods (fuel : Nat) : (inner.methods fuel).Counts := by
  induction fuel with
  | zero => exact Counts.pure _
  | succ fuel ih =>
    refine counts_atEnd.bind fun _ => .ite (Counts.pure _) <|
      (counts_isNext _).bind fun _ => .ite (Counts.pure _) <|
        (counts_acceptKind? _).bind fun _ => (counts_function h .method).bind fun _ =>
          ih.bind fun _ => ?_
    exact .ite (Counts.pure _) (Counts.pure _)

/-- A class, whose superclass is a use of a name as well. -/
theorem counts_classDeclaration : inner.classDeclaration.Counts := by
  have hsuperclass : superclass.Counts :=
    (counts_acceptKind? _).bind fun _ => .ite
      ((counts_expectName _).bind fun _ => counts_freshUse.bind fun _ => Counts.pure _)
      (Counts.pure _)
  exact (counts_expectName _).bind fun _ => hsuperclass.bind fun _ =>
    (counts_expectMark _ _).bind fun _ => counts_bound.bind fun _ =>
      (counts_methods h _).bind fun _ => (counts_expectMark _ _).bind fun _ => Counts.pure _

/-- Any declaration or statement. -/
theorem counts_declarationRule : inner.declarationRule.Counts := by
  refine (counts_acceptKind? _).bind fun _ => .ite (counts_classDeclaration h) ?_
  refine counts_acceptFunction.bind fun _ =>
    .ite ((counts_function h .function).bind fun _ => Counts.pure _) ?_
  exact (counts_acceptKind? _).bind fun _ => .ite (counts_varDeclaration h) (counts_statementRule h)

/-- Recovery does not go back in the numbers either. -/
theorem counts_recovering : inner.recovering.Counts := by
  intro s
  have hrule := counts_declarationRule h s
  unfold recovering
  cases hrun : inner.declarationRule s with
  | ok d s' =>
    rw [hrun] at hrule
    exact hrule
  | error e s' =>
    rw [hrun] at hrule
    cases e <;> exact hrule

end Statements

/-!
## Programs

Rules of all levels count up, and so does the parsing of a program.
-/

/-- By induction on the levels. -/
theorem counting_grammar (depth : Nat) : (grammar depth).Counting := by
  induction depth with
  | zero => exact ⟨.throw _, .throw _, .throw _, .throw _⟩
  | succ depth ih =>
    exact ⟨counts_recovering ih, counts_statementRule ih, counts_assignment ih,
      counts_unaryExpr ih⟩

/-- Declaration after declaration, with recovery from mistakes in between. -/
theorem counts_program {rules : Nested} (h : rules.Counting) (fuel : Nat) :
    (program rules fuel).Counts := by
  induction fuel with
  | zero => exact Counts.pure _
  | succ fuel ih =>
    intro s
    unfold program
    split
    · exact Nat.le_refl _
    · have hfirst := h.declaration s
      cases hrun : rules.declaration s with
      | ok first s' =>
        rw [hrun] at hfirst
        have hrest := ih s'
        dsimp only
        cases hrun' : program rules fuel s' with
        | ok others s'' =>
          rw [hrun'] at hrest
          exact Nat.le_trans hfirst hrest
        | error e s'' =>
          rw [hrun'] at hrest
          exact Nat.le_trans hfirst hrest
      | error e s' =>
        rw [hrun] at hfirst
        -- Nesting is reported without a number being given.
        have hreport : (do
            report (← here) .nesting
            return [] : Parser (List Stmt)).Counts :=
          counts_here.bind fun _ => (counts_report _ _).bind fun _ => Counts.pure _
        exact Nat.le_trans hfirst (hreport s')

/-- **Numbers of uses are not given twice.** Parsing, with or without mistakes, does not go back in
them. -/
theorem le_nextUse_parse (depth firstUse : Nat) (lexed : Lexed) :
    firstUse ≤ (parse depth firstUse lexed).nextUse := by
  have hprogram := counts_program (counting_grammar depth) (lexed.tokens.length + 1)
    ⟨lexed.tokens, lexed.endLine, [], firstUse, lexed.tokens.length + 1⟩
  unfold parse
  dsimp only
  generalize program _ _ _ = result at hprogram ⊢
  cases result <;> exact hprogram

end LoxLang
