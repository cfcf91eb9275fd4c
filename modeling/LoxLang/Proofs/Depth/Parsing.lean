import LoxLang.Proofs.Depth
import LoxLang.Tree.Parsing

/-!
# Parsing within a depth

Every rule of the grammar tells when its levels run out: no rule takes this for a mistake to recover
from, and the loop over the statements of a program reports it (`program_ends`). So what is parsed
without a report of nesting beyond the bound is parsed the same with any rules beyond the bound.
-/

namespace LoxLang

open LoxLang.Parser Nested

variable {B α : Type} {nothing : B}

/-- Rules of a grammar, with nothing nested any further in one of the ways to fill them. -/
def parserLimit (nothing : B) : Limit B ParserStop := ⟨nothing, (· = .tooDeep), fun _ _ => False⟩

/-- Rules of the grammar that tell when their levels run out. -/
structure LimitedGrammar (nothing : B) (inner : B → Nested) : Prop where
  declaration : Limited (parserLimit nothing) fun b => (inner b).declaration
  statement : Limited (parserLimit nothing) fun b => (inner b).statement
  expression : Limited (parserLimit nothing) fun b => (inner b).expression
  unary : Limited (parserLimit nothing) fun b => (inner b).unary

namespace LimitedGrammar

/-- Rules that have run out of levels say so. -/
theorem atLimit {rules : B → Nested} (h : rules nothing = .innermost) :
    LimitedGrammar nothing rules := by
  constructor <;> exact .ranOut rfl (congrArg _ h) fun _ _ hquits => hquits.elim

/-!
## Lists

Each rule is put together of steps that do not depend on the levels and of rules one level further
in.
-/

/-- A list of items in parentheses. -/
theorem items {item : B → Parser α} (hitem : Limited (parserLimit nothing) item)
    (tooMany : GrammarError) :
    Limited (parserLimit nothing) fun b => Nested.items (item b) tooMany := by
  have hmore (fuel count : Nat) :
      Limited (parserLimit nothing) fun b => moreItems (item b) tooMany fuel count := by
    induction fuel generalizing count with
    | zero => exact .const _
    | succ fuel ih =>
      refine .andThen fun found => ?_
      cases found with
      | none => exact .const _
      | some line =>
        have hrest := hitem.bind fun x => (ih (count + 1)).bind fun xs => .const (pure (x :: xs))
        exact .ite (.andThen fun _ => .andThen fun _ => hrest) hrest
  refine .andThen fun closed => .ite (.const _) ?_
  exact hitem.bind fun _ => .andThen fun fuel => (hmore fuel 1).bind fun _ => .const _

variable {inner : B → Nested} (h : LimitedGrammar nothing inner)
include h

/-- The statements between braces. -/
theorem block : Limited (parserLimit nothing) fun b => (inner b).block := by
  have hstatements (fuel : Nat) :
      Limited (parserLimit nothing) fun b => (inner b).statements fuel := by
    induction fuel with
    | zero => exact .const _
    | succ fuel ih =>
      refine .andThen fun closed => .ite (.const _) ?_
      refine .andThen fun ended => .ite (.const _) ?_
      exact h.declaration.bind fun _ => ih.bind fun _ => .const _
  exact .andThen fun fuel => (hstatements fuel).bind fun _ => .const _

/-!
## Expressions

Operators, calls and properties do not go a level further in, but their operands do.
-/

/-- An expression without operators. -/
theorem primary : Limited (parserLimit nothing) fun b => (inner b).primary := by
  refine .andThen fun found => ?_
  cases found with
  | none => exact .const _
  | some found =>
    obtain ⟨start, line⟩ := found
    cases start with
    | parenthesis => exact h.expression.bind fun _ => .const _
    | lambda =>
      exact .andThen fun _ => .andThen fun _ => .andThen fun _ => h.block.bind fun _ => .const _
    | _ => exact .const _

/-- The arguments of a call. -/
theorem arguments (callee : Expr) :
    Limited (parserLimit nothing) fun b => (inner b).arguments callee :=
  (items h.expression _).bind fun _ => .const _

/-- Calls and properties behind an expression. -/
theorem call : Limited (parserLimit nothing) fun b => (inner b).call := by
  have hsuffixes (fuel : Nat) (e : Expr) :
      Limited (parserLimit nothing) fun b => (inner b).suffixes fuel e := by
    induction fuel generalizing e with
    | zero => exact .const _
    | succ fuel ih =>
      refine .andThen fun opened => .ite ((h.arguments e).bind ih) ?_
      exact .andThen fun dot => .ite (.andThen fun _ => ih _) (.const _)
  exact h.primary.bind fun e => .andThen fun fuel => hsuffixes fuel e

/-- Operators in front of an expression. -/
theorem unaryExpr : Limited (parserLimit nothing) fun b => (inner b).unaryExpr := by
  refine .andThen fun found => ?_
  cases found with
  | none => exact h.call
  | some found => exact h.unary.bind fun _ => .const _

omit h in
/-- Binary operators of one level of precedence. -/
theorem chain {operand : B → Parser Expr} (hoperand : Limited (parserLimit nothing) operand)
    (operator? : TokenKind → Option α) (join : α → Nat → Expr → Expr → Expr) :
    Limited (parserLimit nothing) fun b => Nested.chain operator? join (operand b) := by
  have hmore (fuel : Nat) (e : Expr) : Limited (parserLimit nothing) fun b =>
      moreOperands operator? join (operand b) fuel e := by
    induction fuel generalizing e with
    | zero => exact .const _
    | succ fuel ih =>
      refine .andThen fun found => ?_
      cases found with
      | none => exact .const _
      | some found => exact hoperand.bind fun _ => ih _
  exact hoperand.bind fun first => .andThen fun fuel => hmore fuel first

/-- An assignment, or an expression without one. -/
theorem assignment : Limited (parserLimit nothing) fun b => (inner b).assignment := by
  have hfactor := chain h.unaryExpr factorOperator? .binary
  have hterm := chain hfactor termOperator? .binary
  have hcomparison := chain hterm comparisonOperator? .binary
  have hequality := chain hcomparison equalityOperator? .binary
  have hconjunction := chain hequality conjunctionOperator? .logical
  have hdisjunction := chain hconjunction disjunctionOperator? .logical
  refine hdisjunction.bind fun target => .andThen fun found => ?_
  cases found with
  | none => exact .const _
  | some line => exact h.expression.bind fun _ => .const _

/-!
## Statements

Their parts are expressions, statements and declarations one level further in.
-/

/-- An expression up to the semicolon. -/
theorem expressionStatement :
    Limited (parserLimit nothing) fun b => (inner b).expressionStatement :=
  h.assignment.bind fun _ => .const _

/-- A variable with or without an initializer. -/
theorem varDeclaration : Limited (parserLimit nothing) fun b => (inner b).varDeclaration :=
  .andThen fun _ => .andThen fun _ =>
    .ite ((h.assignment.map some).bind fun _ => .const _) (.const _)

/-- The condition and the branches. -/
theorem ifStatement : Limited (parserLimit nothing) fun b => (inner b).ifStatement := by
  refine .andThen fun _ => h.assignment.bind fun condition => .andThen fun _ => ?_
  refine h.statement.bind fun consequence => .andThen fun found => .ite ?_ (.const _)
  exact (h.statement.map some).bind fun _ => .const _

/-- A clause that may be left out. -/
theorem forClause (final : Mark) (place : MarkPlace) :
    Limited (parserLimit nothing) fun b => (inner b).forClause final place :=
  .andThen fun _ => .ite (.const _) ((h.assignment.map some).bind fun _ => .const _)

/-- A declaration, an expression, or nothing. -/
theorem forInitializer : Limited (parserLimit nothing) fun b => (inner b).forInitializer := by
  refine .andThen fun missing => .ite (.const _) ?_
  exact .andThen fun declared =>
    .ite (h.varDeclaration.map some) (h.expressionStatement.map some)

/-- All clauses, and the body. -/
theorem forStatement : Limited (parserLimit nothing) fun b => (inner b).forStatement :=
  .andThen fun _ => h.forInitializer.bind fun _ => (h.forClause _ _).bind fun _ =>
    (h.forClause _ _).bind fun _ => h.statement.bind fun _ => .const _

/-- Any statement that is no declaration. -/
theorem statementRule : Limited (parserLimit nothing) fun b => (inner b).statementRule := by
  refine .andThen fun found => ?_
  cases found with
  | none => exact h.expressionStatement
  | some found =>
    obtain ⟨start, line⟩ := found
    cases start with
    | forLoop => exact h.forStatement
    | ifThen => exact h.ifStatement
    | print => exact h.assignment.bind fun _ => .const _
    | block => exact h.block.bind fun _ => .const _
    | returnValue =>
      exact .andThen fun _ => .ite (.const _) ((h.assignment.map some).bind fun _ => .const _)
    | whileLoop =>
      exact .andThen fun _ => h.assignment.bind fun _ => .andThen fun _ =>
        h.statement.bind fun _ => .const _

/-!
## Declarations

Here mistakes are recovered from. Running out of levels is no mistake, so it is passed on.
-/

/-- A name, parameters and a body. -/
theorem function (kind : FunctionKind) :
    Limited (parserLimit nothing) fun b => (inner b).function kind :=
  .andThen fun _ => .andThen fun _ => .andThen fun _ => .andThen fun _ =>
    h.block.bind fun _ => .const _

/-- A class with its members. -/
theorem classDeclaration :
    Limited (parserLimit nothing) fun b => (inner b).classDeclaration := by
  have hmethods (fuel : Nat) : Limited (parserLimit nothing) fun b => (inner b).methods fuel := by
    induction fuel with
    | zero => exact .const _
    | succ fuel ih =>
      refine .andThen fun ended => .ite (.const _) ?_
      refine .andThen fun closed => .ite (.const _) ?_
      exact .andThen fun isStatic => (h.function .method).bind fun _ => ih.bind fun _ => .const _
  exact .andThen fun _ => .andThen fun _ => .andThen fun _ => .andThen fun fuel =>
    (hmethods fuel).bind fun _ => .const _

/-- Any declaration or statement. -/
theorem declarationRule : Limited (parserLimit nothing) fun b => (inner b).declarationRule := by
  refine .andThen fun isClass => .ite h.classDeclaration ?_
  refine .andThen fun isFunction => .ite ?_ ?_
  · exact (h.function .function).bind fun _ => .const _
  · exact .andThen fun isVar => .ite h.varDeclaration h.statementRule

/-- Recovery is from mistakes only. -/
theorem recovering : Limited (parserLimit nothing) fun b => (inner b).recovering := by
  intro s
  unfold Nested.recovering
  cases h.declarationRule s with
  | within hsame =>
    dsimp only at hsame
    exact .within fun b => by simp only [hsame b]
  | ranOut hreason hnothing _ =>
    obtain rfl := hreason
    dsimp only at hnothing
    exact .ranOut rfl (by simp only [hnothing]; rfl) fun _ _ hquits => hquits.elim

/-- All rules of a level. -/
theorem around : LimitedGrammar nothing fun b => (inner b).around :=
  ⟨h.recovering, h.statementRule, h.assignment, h.unaryExpr⟩

end LimitedGrammar

/-!
## Whole programs

Only the loop over the statements of a program reports that the levels have run out, and it stops
there.
-/

/-- Parses tokens by some rules, numbering uses from `firstUse` on. -/
def parseBy (rules : Nested) (firstUse : UseId) (lexed : Lexed) : Parsed :=
  let bound := lexed.tokens.length + 1
  match program rules bound ⟨lexed.tokens, lexed.endLine, [], firstUse, bound⟩ with
  | .ok statements s => ⟨statements, s.reports, s.nextUse⟩
  | .error _ s => ⟨[], s.reports, s.nextUse⟩

/-- Nesting beyond the bound is among reports. -/
def TooNested (reports : List Report) : Prop := ∃ place, .located place .nesting ∈ reports

/-- What is reported is the nesting. -/
theorem nesting_reported (s : ParserState) :
    ∃ s', (do report (← here) .nesting; return [] : Parser (List Stmt)) s = .ok [] s' ∧
      TooNested s'.reports := by
  obtain ⟨rest, endLine, reports, nextUse, bound⟩ := s
  cases rest with
  | nil => exact ⟨_, rfl, .endOfSource endLine, List.mem_concat_self⟩
  | cons t rest => exact ⟨_, rfl, .token t, List.mem_concat_self⟩

/-- The statements of a program are read the same by all rules, or it is reported that one of them
is nested too deeply. -/
theorem program_ends {inner : B → Nested} (h : LimitedGrammar nothing inner) (fuel : Nat)
    (s : ParserState) :
    (∀ b, program (inner b) fuel s = program (inner nothing) fuel s) ∨
      ∃ statements s', program (inner nothing) fuel s = .ok statements s' ∧
        TooNested s'.reports := by
  -- By induction on the turns of the loop: the turn in which the levels run out is its last.
  induction fuel generalizing s with
  | zero => exact .inl fun _ => rfl
  | succ fuel ih =>
    unfold program
    split
    · exact .inl fun _ => rfl
    · cases h.declaration s with
      | within hsame =>
        cases hfirst : (inner nothing).declaration s with
        | error e s₁ =>
          have hall : ∀ b, (inner b).declaration s = .error e s₁ :=
            fun b => (hsame b).trans hfirst
          exact .inl fun b => by rw [hall b]
        | ok first s₁ =>
          have hall : ∀ b, (inner b).declaration s = .ok first s₁ :=
            fun b => (hsame b).trans hfirst
          simp only [hall]
          rcases ih s₁ with hrest | ⟨others, s₂, hrest, hnested⟩
          · exact .inl fun b => by rw [hrest b]
          · rw [hrest]
            exact .inr ⟨_, s₂, rfl, hnested⟩
      | @ranOut e s₁ _ hnothing _ =>
        have hfirst : (inner nothing).declaration s = .error e s₁ := hnothing
        rw [hfirst]
        exact .inr ⟨[], nesting_reported s₁⟩

/-- What is parsed without nesting beyond the bound is parsed the same by all rules. -/
theorem LimitedGrammar.parseBy_eq {inner : B → Nested} (h : LimitedGrammar nothing inner)
    {firstUse : UseId} {lexed : Lexed}
    (hnested : ¬TooNested (parseBy (inner nothing) firstUse lexed).reports) (b : B) :
    parseBy (inner b) firstUse lexed = parseBy (inner nothing) firstUse lexed := by
  unfold parseBy at hnested ⊢
  dsimp only at hnested ⊢
  rcases program_ends h (lexed.tokens.length + 1) ⟨lexed.tokens, lexed.endLine, [], firstUse,
    lexed.tokens.length + 1⟩ with hsame | ⟨statements, s, hrun, htoo⟩
  · rw [hsame b]
  · rw [hrun] at hnested
    exact absurd htoo hnested

end LoxLang
