import LoxLang.Token.Lexing
import LoxLang.Tree

/-!
# From tokens to trees

The grammar, one parser for each of its rules. Rules that contain each other do so through a
`Nested`, the rules as they are one level further in; `grammar depth` ties the knot with at most
`depth` levels, so nesting is bounded and every parser is an ordinary function.

A mistake is reported where it is noticed. Parsing then takes up again at the next statement, so
one text can have several reports; the statement with the mistake is left out of the tree.
-/

namespace LoxLang

/-- Where a parser stands: the tokens ahead, the line on which the source ends, the reports so far
in their order, and the number for the next use of a name. The bound is larger than the number of
tokens ahead; as often can a loop that takes tokens be entered. -/
structure ParserState where
  rest : List Token
  endLine : Nat
  reports : List Report
  nextUse : UseId
  bound : Nat
deriving DecidableEq, Repr

/-- Why a parser gives up: a mistake, which has been reported already, or nesting beyond the
bound, which has not. -/
inductive ParserStop where
  | mistake
  | tooDeep
deriving DecidableEq, Repr

/-- A parser. What it has consumed and reported stays so even if it gives up. -/
abbrev Parser := EStateM ParserStop ParserState

namespace Parser

/-!
## Looking at tokens and taking them

The only steps that take tokens. Each takes one token or none.
-/

/-- The place of the next token, or the end of the source. -/
def here : Parser Location := fun s =>
  match s.rest with
  | [] => .ok (.endOfSource s.endLine) s
  | t :: _ => .ok (.token t) s

/-- How often a loop that takes tokens can be entered. -/
def bound : Parser Nat := fun s => .ok s.bound s

/-- Takes the next token if a function accepts its kind. Gives the function's result and the
token's line. -/
def accept? {α : Type} (f : TokenKind → Option α) : Parser (Option (α × Nat)) := fun s =>
  match s.rest with
  | [] => .ok none s
  | t :: rest =>
    match f t.kind with
    | some a => .ok (some (a, t.line)) { s with rest }
    | none => .ok none s

/-- Whether the next token is of a kind. -/
def isNext (kind : TokenKind) : Parser Bool := fun s =>
  .ok (s.rest.head?.map (·.kind) == some kind) s

/-- Whether no token is left. -/
def atEnd : Parser Bool := fun s => .ok s.rest.isEmpty s

/-- Takes the next token if it is of a kind. Gives its line. -/
def acceptKind? (kind : TokenKind) : Parser (Option Nat) := do
  let found ← accept? fun k => if k = kind then some () else none
  return found.map (·.2)

/-- Takes the next token if it is a keyword. Gives its line. -/
def acceptKeyword? (k : Keyword) : Parser (Option Nat) := acceptKind? (.keyword k)

/-- Takes the next token if it is a mark. Gives its line. -/
def acceptMark? (m : Mark) : Parser (Option Nat) := acceptKind? (.mark m)

/-!
## Reports

A parser that cannot go on reports this at the next token, or at the end of the source, and gives
up. Other mistakes are reported without giving up.
-/

/-- Reports an error and goes on. -/
def report (place : Location) (e : StaticError) : Parser Unit := fun s =>
  .ok () { s with reports := s.reports ++ [.located place e] }

/-- Reports an error at the next token and gives up. -/
def fail {α : Type} (e : GrammarError) : Parser α := do
  report (← here) (.grammar e)
  throw .mistake

/-- Takes the next token, which has to be a mark. Gives its line. -/
def expectMark (m : Mark) (place : MarkPlace) : Parser Nat := do
  match ← acceptMark? m with
  | some line => return line
  | none => fail (.expectedMark m place)

/-- The name that a token is, if it is an identifier. -/
def identifier? : TokenKind → Option String
  | .identifier name => some name
  | _ => none

/-- Takes the next token, which has to be a name. -/
def expectName (role : NameRole) : Parser Name := do
  match ← accept? identifier? with
  | some (text, line) => return ⟨text, line⟩
  | none => fail (.expectedName role)

/-- A number for a use of a name, never given before. -/
def freshUse : Parser UseId := fun s => .ok s.nextUse { s with nextUse := s.nextUse + 1 }

/-!
## Recovery

Behind a semicolon, or before a keyword that begins a statement. The token at which the mistake was
noticed is skipped in any case, so recovery always gets on.
-/

/-- Whether a token ends a statement. -/
def endsStatement (t : Token) : Bool := t.kind = .mark .semicolon

/-- Whether a token begins a statement with a keyword. -/
def beginsStatement (t : Token) : Bool :=
  match t.kind with
  | .keyword k => k.startsStatement
  | _ => false

/-- Skips tokens up to the start of a statement, given the token skipped last. -/
def resume (previous : Token) : List Token → List Token
  | [] => []
  | t :: rest => if endsStatement previous || beginsStatement t then t :: rest else resume t rest

/-- Skips the token at which a mistake was noticed, and what follows it up to the start of a
statement. -/
def skipMistake : List Token → List Token
  | [] => []
  | t :: rest => resume t rest

/-- Takes up parsing again after a mistake. -/
def recover : Parser Unit := fun s => .ok () { s with rest := skipMistake s.rest }

end Parser

open LoxLang.Parser

/-- The rules of the grammar that contain themselves, one level further in. -/
structure Nested where
  declaration : Parser (Option Stmt)
  statement : Parser Stmt
  expression : Parser Expr
  unary : Parser Expr

namespace Nested

/-!
## Lists

Loops that take tokens are entered no more often than there are tokens, so a bound on the number of
rounds does not end them early.
-/

/-- The further items of a list, each behind a comma. Items beyond the most that are allowed are
reported, and still belong to the list. -/
def moreItems {α : Type} (item : Parser α) (tooMany : GrammarError) :
    Nat → Nat → Parser (List α)
  | 0, _ => return []
  | fuel + 1, count => do
    match ← acceptMark? .comma with
    | none => return []
    | some _ =>
      if maxArguments ≤ count then
        report (← here) (.grammar tooMany)
      let x ← item
      let xs ← moreItems item tooMany fuel (count + 1)
      return x :: xs

/-- A list of items between commas, up to a closing parenthesis, which is not taken. -/
def items {α : Type} (item : Parser α) (tooMany : GrammarError) : Parser (List α) := do
  if ← isNext (.mark .rightParen) then
    return []
  let x ← item
  let xs ← moreItems item tooMany (← bound) 1
  return x :: xs

/-- The parameters of a function and the closing parenthesis behind them. -/
def parameters : Parser (List Name) := do
  let params ← items (expectName .parameter) .tooManyParameters
  let _ ← expectMark .rightParen .afterParameters
  return params

/-- Statements up to a closing brace, which is not taken. -/
def statements (inner : Nested) : Nat → Parser (List Stmt)
  | 0 => return []
  | fuel + 1 => do
    if ← isNext (.mark .rightBrace) then
      return []
    if ← atEnd then
      return []
    let first ← inner.declaration
    let others ← statements inner fuel
    return first.toList ++ others

/-- The statements of a block, whose opening brace has been taken, and its closing brace. -/
def block (inner : Nested) : Parser (List Stmt) := do
  let body ← inner.statements (← bound)
  let _ ← expectMark .rightBrace .afterBlock
  return body

/-!
## Expressions

From the tightest level to the loosest. Operators of one level are read in a loop and associate to
the left; an assignment reads its value by the rule for expressions and associates to the right.
-/

/-- A function without a name, whose keyword has been taken. -/
def lambda (inner : Nested) (line : Nat) : Parser Expr := do
  let _ ← expectMark .leftParen (.afterKeyword .«fun»)
  let params ← parameters
  let _ ← expectMark .leftBrace .beforeLambdaBody
  let body ← inner.block
  return .lambda line params body

/-- An expression in parentheses, the opening one of which has been taken. -/
def parenthesized (inner : Nested) : Parser Expr := do
  let e ← inner.expression
  let _ ← expectMark .rightParen .afterExpression
  return .grouping e

/-- A method of the superclass, whose keyword has been taken. -/
def superMethod (line : Nat) : Parser Expr := do
  let _ ← expectMark .dot (.afterKeyword .super)
  let method ← expectName .superclassMethod
  return .super (← freshUse) line method

/-- What an expression without operators begins with. -/
inductive PrimaryStart where
  | literal (value : Literal)
  | name (text : String)
  | parenthesis
  | lambda
  | this
  | super
deriving DecidableEq, Repr

/-- The expression without operators that a token begins, if it begins one. -/
def PrimaryStart.ofKind? : TokenKind → Option PrimaryStart
  | .keyword .«false» => some (.literal (.bool false))
  | .keyword .«true» => some (.literal (.bool true))
  | .keyword .nil => some (.literal .nil)
  | .number text => some (.literal (.number (Number.read text)))
  | .string content => some (.literal (.string content))
  | .mark .leftParen => some .parenthesis
  | .keyword .«fun» => some .lambda
  | .keyword .super => some .super
  | .keyword .this => some .this
  | .identifier text => some (.name text)
  | _ => none

/-- The rest of an expression without operators, given what its first token is. -/
def afterStart (inner : Nested) (line : Nat) : PrimaryStart → Parser Expr
  | .literal value => return .literal value
  | .name text => return .«variable» ⟨← freshUse, ⟨text, line⟩⟩
  | .parenthesis => inner.parenthesized
  | .lambda => inner.lambda line
  | .this => return .this (← freshUse) line
  | .super => superMethod line

/-- An expression without operators. -/
def primary (inner : Nested) : Parser Expr := do
  match ← accept? PrimaryStart.ofKind? with
  | some (start, line) => inner.afterStart line start
  | none => fail .expectedExpression

/-- The arguments of a call, whose opening parenthesis has been taken. -/
def arguments (inner : Nested) (callee : Expr) : Parser Expr := do
  let args ← items inner.expression .tooManyArguments
  let line ← expectMark .rightParen .afterArguments
  return .call callee line args

/-- The calls and properties that follow an expression. -/
def suffixes (inner : Nested) : Nat → Expr → Parser Expr
  | 0, e => return e
  | fuel + 1, e => do
    if (← acceptMark? .leftParen).isSome then
      let e ← inner.arguments e
      suffixes inner fuel e
    else if (← acceptMark? .dot).isSome then
      let name ← expectName .property
      suffixes inner fuel (.get e name)
    else
      return e

/-- An expression with the calls and properties that follow it. -/
def call (inner : Nested) : Parser Expr := do
  let e ← inner.primary
  inner.suffixes (← bound) e

/-- The unary operator that a token is. -/
def unaryOperator? : TokenKind → Option UnaryOperator
  | .mark .bang => some .not
  | .mark .minus => some .negate
  | _ => none

/-- An expression behind unary operators. -/
def unaryExpr (inner : Nested) : Parser Expr := do
  match ← accept? unaryOperator? with
  | some (op, line) => return .unary op line (← inner.unary)
  | none => inner.call

/-- The further operands of a chain of operators, each joined to all that stands before it. -/
def moreOperands {α : Type} (operator? : TokenKind → Option α)
    (join : α → Nat → Expr → Expr → Expr) (operand : Parser Expr) : Nat → Expr → Parser Expr
  | 0, e => return e
  | fuel + 1, e => do
    match ← accept? operator? with
    | none => return e
    | some (op, line) =>
      let right ← operand
      moreOperands operator? join operand fuel (join op line e right)

/-- Operands between operators of one precedence, joined from left to right. -/
def chain {α : Type} (operator? : TokenKind → Option α)
    (join : α → Nat → Expr → Expr → Expr) (operand : Parser Expr) : Parser Expr := do
  let first ← operand
  moreOperands operator? join operand (← bound) first

/-- The operator of a factor that a token is. -/
def factorOperator? : TokenKind → Option BinaryOperator
  | .mark .slash => some .divide
  | .mark .star => some .multiply
  | _ => none

/-- The operator of a term that a token is. -/
def termOperator? : TokenKind → Option BinaryOperator
  | .mark .minus => some .subtract
  | .mark .plus => some .add
  | _ => none

/-- The operator of a comparison that a token is. -/
def comparisonOperator? : TokenKind → Option BinaryOperator
  | .mark .greater => some .greater
  | .mark .greaterEqual => some .greaterEqual
  | .mark .less => some .less
  | .mark .lessEqual => some .lessEqual
  | _ => none

/-- The operator of an equation that a token is. -/
def equalityOperator? : TokenKind → Option BinaryOperator
  | .mark .bangEqual => some .notEqual
  | .mark .equalEqual => some .equal
  | _ => none

/-- The operator of a conjunction that a token is. -/
def conjunctionOperator? : TokenKind → Option LogicalOperator
  | .keyword .and => some .and
  | _ => none

/-- The operator of a disjunction that a token is. -/
def disjunctionOperator? : TokenKind → Option LogicalOperator
  | .keyword .or => some .or
  | _ => none

/-- Products and quotients. -/
def factor (inner : Nested) : Parser Expr := chain factorOperator? .binary inner.unaryExpr

/-- Sums and differences. -/
def term (inner : Nested) : Parser Expr := chain termOperator? .binary inner.factor

/-- Comparisons. -/
def comparison (inner : Nested) : Parser Expr := chain comparisonOperator? .binary inner.term

/-- Equations. -/
def equality (inner : Nested) : Parser Expr := chain equalityOperator? .binary inner.comparison

/-- Conjunctions. -/
def conjunction (inner : Nested) : Parser Expr := chain conjunctionOperator? .logical inner.equality

/-- Disjunctions. -/
def disjunction (inner : Nested) : Parser Expr :=
  chain disjunctionOperator? .logical inner.conjunction

/-- The assignment of a value to what stands before the equals sign. Only a variable or a property
can be assigned to; anything else is reported, and the value is dropped. -/
def assignTo (target : Expr) (line : Nat) (value : Expr) : Parser Expr := do
  match target with
  -- The name was read as a use of its own, and as a target it is another one.
  | .«variable» use => return .assign (← freshUse) use.name value
  | .get object name => return .set object name value
  | e =>
    report (Mark.equal.place line) (.grammar .invalidAssignmentTarget)
    return e

/-- Any expression: an assignment, or what can stand on the left of one. -/
def assignment (inner : Nested) : Parser Expr := do
  let target ← inner.disjunction
  match ← acceptMark? .equal with
  | none => return target
  | some line =>
    let value ← inner.expression
    assignTo target line value

/-!
## Statements

One parser for each keyword. There is no tree for a `for` loop: it is read as the `while` loop that
it stands for.
-/

/-- An expression and a semicolon. -/
def expressionStatement (inner : Nested) : Parser Stmt := do
  let e ← inner.assignment
  let _ ← expectMark .semicolon .afterExpression
  return .expression e

/-- A print statement, whose keyword has been taken. -/
def printStatement (inner : Nested) : Parser Stmt := do
  let e ← inner.assignment
  let _ ← expectMark .semicolon .afterValue
  return .print e

/-- A return statement, whose keyword has been taken. -/
def returnStatement (inner : Nested) (line : Nat) : Parser Stmt := do
  let value ← if ← isNext (.mark .semicolon) then pure none else some <$> inner.assignment
  let _ ← expectMark .semicolon .afterReturnValue
  return .returnValue line value

/-- A variable declaration, whose keyword has been taken. -/
def varDeclaration (inner : Nested) : Parser Stmt := do
  let name ← expectName .«variable»
  let initializer ←
    if (← acceptMark? .equal).isSome then some <$> inner.assignment else pure none
  let _ ← expectMark .semicolon .afterVariable
  return .var name initializer

/-- An if statement, whose keyword has been taken. An `else` belongs to the nearest `if`. -/
def ifStatement (inner : Nested) : Parser Stmt := do
  let _ ← expectMark .leftParen (.afterKeyword .«if»)
  let condition ← inner.assignment
  let _ ← expectMark .rightParen .afterIfCondition
  let consequence ← inner.statement
  let alternative ←
    if (← acceptKeyword? .«else»).isSome then some <$> inner.statement else pure none
  return .ifThen condition consequence alternative

/-- A while statement, whose keyword has been taken. -/
def whileStatement (inner : Nested) : Parser Stmt := do
  let _ ← expectMark .leftParen (.afterKeyword .«while»)
  let condition ← inner.assignment
  let _ ← expectMark .rightParen .afterWhileCondition
  let body ← inner.statement
  return .whileDo condition body

/-- A `for` loop, written with `while`. A block around the loop holds the first clause, a block
around its body adds the last one; without a condition the loop runs on. -/
def forLoop (initializer : Option Stmt) (condition increment : Option Expr) (body : Stmt) : Stmt :=
  let body := match increment with
    | none => body
    | some e => .block [body, .expression e]
  let loop := .whileDo (condition.getD (.literal (.bool true))) body
  match initializer with
  | none => loop
  | some s => .block [s, loop]

/-- The first clause of a `for` loop, with its semicolon. -/
def forInitializer (inner : Nested) : Parser (Option Stmt) := do
  if (← acceptMark? .semicolon).isSome then
    return none
  else if (← acceptKeyword? .var).isSome then
    some <$> inner.varDeclaration
  else
    some <$> inner.expressionStatement

/-- A clause of a `for` loop that may be missing, up to the mark that ends it. -/
def forClause (inner : Nested) (final : Mark) (place : MarkPlace) : Parser (Option Expr) := do
  let e ← if ← isNext (.mark final) then pure none else some <$> inner.assignment
  let _ ← expectMark final place
  return e

/-- A for statement, whose keyword has been taken. -/
def forStatement (inner : Nested) : Parser Stmt := do
  let _ ← expectMark .leftParen (.afterKeyword .«for»)
  let initializer ← inner.forInitializer
  let condition ← inner.forClause .semicolon .afterLoopCondition
  let increment ← inner.forClause .rightParen .afterForClauses
  let body ← inner.statement
  return forLoop initializer condition increment body

/-- What a statement that is no expression begins with. -/
inductive StatementStart where
  | forLoop
  | ifThen
  | print
  | block
  | returnValue
  | whileLoop
deriving DecidableEq, Repr

/-- The statement that a token begins, if it begins one other than an expression. -/
def StatementStart.ofKind? : TokenKind → Option StatementStart
  | .keyword .«for» => some .forLoop
  | .keyword .«if» => some .ifThen
  | .keyword .print => some .print
  | .mark .leftBrace => some .block
  | .keyword .«return» => some .returnValue
  | .keyword .«while» => some .whileLoop
  | _ => none

/-- The rest of a statement, given what its first token is. -/
def afterStatementStart (inner : Nested) (line : Nat) : StatementStart → Parser Stmt
  | .forLoop => inner.forStatement
  | .ifThen => inner.ifStatement
  | .print => inner.printStatement
  | .block => return .block (← inner.block)
  | .returnValue => inner.returnStatement line
  | .whileLoop => inner.whileStatement

/-- A statement that declares nothing. -/
def statementRule (inner : Nested) : Parser Stmt := do
  match ← accept? StatementStart.ofKind? with
  | some (start, line) => inner.afterStatementStart line start
  | none => inner.expressionStatement

/-!
## Declarations

What may stand in a block or a program. The innermost declaration around a mistake is dropped as a
whole, and parsing takes up again behind the mistake.
-/

/-- A function or method, from its name on. -/
def function (inner : Nested) (kind : FunctionKind) : Parser FunctionDecl := do
  let name ← expectName (.function kind)
  let _ ← expectMark .leftParen (.afterName kind)
  let params ← parameters
  let _ ← expectMark .leftBrace (.beforeBody kind)
  let body ← inner.block
  return ⟨name, params, body⟩

/-- The methods of a class body, up to its closing brace: those of instances, and those of the class
itself, which `class` stands before. -/
def methods (inner : Nested) : Nat → Parser (List FunctionDecl × List FunctionDecl)
  | 0 => return ([], [])
  | fuel + 1 => do
    if ← atEnd then
      return ([], [])
    if ← isNext (.mark .rightBrace) then
      return ([], [])
    let isStatic := (← acceptKeyword? .«class»).isSome
    let method ← inner.function .method
    let (instanceMethods, staticMethods) ← methods inner fuel
    if isStatic then
      return (instanceMethods, method :: staticMethods)
    else
      return (method :: instanceMethods, staticMethods)

/-- The superclass of a class declaration. -/
def superclass : Parser (Option VariableUse) := do
  if (← acceptMark? .less).isSome then
    let name ← expectName .superclass
    return some ⟨← freshUse, name⟩
  else
    return none

/-- A class declaration, whose keyword has been taken. -/
def classDeclaration (inner : Nested) : Parser Stmt := do
  let name ← expectName .className
  let parent ← superclass
  let _ ← expectMark .leftBrace .beforeClassBody
  let (instanceMethods, staticMethods) ← inner.methods (← bound)
  let _ ← expectMark .rightBrace .afterClassBody
  return .classDecl name parent instanceMethods staticMethods

/-- Takes the keyword `fun` if a name follows it. Otherwise it begins an expression. -/
def acceptFunction : Parser Bool := fun s =>
  match s.rest with
  | ⟨.keyword .«fun», _⟩ :: ⟨.identifier name, line⟩ :: rest =>
    .ok true { s with rest := ⟨.identifier name, line⟩ :: rest }
  | _ => .ok false s

/-- A declaration or statement. -/
def declarationRule (inner : Nested) : Parser Stmt := do
  if (← acceptKeyword? .«class»).isSome then
    inner.classDeclaration
  else if ← acceptFunction then
    return .function (← inner.function .function)
  else if (← acceptKeyword? .var).isSome then
    inner.varDeclaration
  else
    inner.statementRule

/-- A declaration or statement, or nothing if it has a mistake. -/
def recovering (inner : Nested) : Parser (Option Stmt) := fun s =>
  match inner.declarationRule s with
  | .ok d s => .ok (some d) s
  | .error .mistake s => (do recover; return none : Parser (Option Stmt)) s
  | .error .tooDeep s => .error .tooDeep s

/-!
## Tying the knot

Each level is the rules around those of the level below, and the last one allows for nothing. A
program has at most as many declarations as tokens.
-/

/-- Nothing can be nested any further. -/
def innermost : Nested where
  declaration := throw .tooDeep
  statement := throw .tooDeep
  expression := throw .tooDeep
  unary := throw .tooDeep

/-- The rules around rules one level further in. -/
def around (inner : Nested) : Nested where
  declaration := inner.recovering
  statement := inner.statementRule
  expression := inner.assignment
  unary := inner.unaryExpr

end Nested

/-- The grammar with at most `depth` levels of nesting. -/
def grammar : Nat → Nested
  | 0 => .innermost
  | depth + 1 => (grammar depth).around

/-- The statements of a program. If one of them is nested too deeply, this is reported where it was
noticed, and parsing ends there. -/
def program (rules : Nested) : Nat → Parser (List Stmt)
  | 0 => return []
  | fuel + 1 => fun s =>
    if s.rest.isEmpty then .ok [] s
    else
      match rules.declaration s with
      | .ok first s =>
        match program rules fuel s with
        | .ok others s => .ok (first.toList ++ others) s
        | .error e s => .error e s
      | .error _ s => (do report (← here) .nesting; return [] : Parser (List Stmt)) s

/-- The outcome of parsing: the statements that could be read, what was reported, and the number
for the next use of a name. -/
structure Parsed where
  statements : List Stmt
  reports : List Report
  nextUse : UseId

/-- Parses tokens with at most `depth` levels of nesting, numbering uses from `firstUse` on. -/
def parse (depth : Nat) (firstUse : UseId) (lexed : Lexed) : Parsed :=
  let bound := lexed.tokens.length + 1
  match program (grammar depth) bound ⟨lexed.tokens, lexed.endLine, [], firstUse, bound⟩ with
  | .ok statements s => ⟨statements, s.reports, s.nextUse⟩
  | .error _ s => ⟨[], s.reports, s.nextUse⟩

end LoxLang
