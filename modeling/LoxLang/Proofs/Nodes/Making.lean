import LoxLang.Proofs.Nodes
import LoxLang.Tree.Parsing

/-!
# Making nodes

The grammar once more, with parsers that make nodes. Each node is made where the rule for it is
through, with the next identity; a node that is a use of a name has the number of the use besides.
The rules are written anew because nearly all of them have to say which nodes they make and which
they have at hand. What they read is read by the plain parsers (`lift`), and that each rule reads
what the plain rule reads is shown in `LoxLang.Proofs.Nodes.Rules`.

Not all nodes that are made get into a tree. The target of an assignment is read as an expression
and then dropped, of a property the object is kept; the value of an assignment to something else is
dropped; and when a rule gives up, whatever trees it has at hand are dropped (`holding`). All stamps
that are dropped are noted.
-/

namespace LoxLang

open LoxLang.Parser

/-- Where a parser of nodes stands. -/
structure NodeState where
  parser : ParserState
  /-- The identity of the next node. -/
  nextNode : NodeId
  /-- The stamps of the nodes that were made and dropped. -/
  dropped : List Stamp

/-- A parser of nodes. -/
abbrev NodeParser := EStateM ParserStop NodeState

namespace NodeParser

/-- A step that makes no node. -/
def lift {α : Type} (p : Parser α) : NodeParser α := fun s =>
  match p s.parser with
  | .ok a t => .ok a { s with parser := t }
  | .error e t => .error e { s with parser := t }

/-- Makes a node. -/
def make {α : Type} (node : NodeId → α) : NodeParser α := fun s =>
  .ok (node s.nextNode) { s with nextNode := s.nextNode + 1 }

/-- Drops nodes with these stamps. -/
def drop (stamps : List Stamp) : NodeParser Unit := fun s =>
  .ok () { s with dropped := stamps ++ s.dropped }

/-- A step of a rule that has nodes with these stamps at hand. If it gives up, they are dropped. -/
def holding {α : Type} (stamps : List Stamp) (p : NodeParser α) : NodeParser α := fun s =>
  match p s with
  | .ok a s => .ok a s
  | .error e s => .error e { s with dropped := stamps ++ s.dropped }

end NodeParser

open LoxLang.NodeParser

/-- The rules of the grammar that contain themselves, one level further in. -/
structure NodeRules where
  declaration : NodeParser (Option StmtNode)
  statement : NodeParser StmtNode
  expression : NodeParser ExprNode
  unary : NodeParser ExprNode

namespace NodeRules

/-! ## Lists -/

/-- The further arguments of a call. -/
def moreArguments (inner : NodeRules) : Nat → Nat → NodeParser (List ExprNode)
  | 0, _ => return []
  | fuel + 1, count => do
    match ← lift (acceptMark? .comma) with
    | none => return []
    | some _ =>
      if maxArguments ≤ count then
        lift (report (← lift here) (.grammar .tooManyArguments))
      let x ← inner.expression
      let xs ← holding x.stamps (moreArguments inner fuel (count + 1))
      return x :: xs

/-- The arguments of a call, up to the closing parenthesis. -/
def argumentList (inner : NodeRules) : NodeParser (List ExprNode) := do
  if ← lift (isNext (.mark .rightParen)) then
    return []
  let x ← inner.expression
  let xs ← holding x.stamps (inner.moreArguments (← lift bound) 1)
  return x :: xs

/-- Statements up to a closing brace. -/
def statements (inner : NodeRules) : Nat → NodeParser (List StmtNode)
  | 0 => return []
  | fuel + 1 => do
    if ← lift (isNext (.mark .rightBrace)) then
      return []
    if ← lift atEnd then
      return []
    let first ← inner.declaration
    let others ← holding (stmtsStamps first.toList) (statements inner fuel)
    return first.toList ++ others

/-- The statements of a block and its closing brace. -/
def block (inner : NodeRules) : NodeParser (List StmtNode) := do
  let body ← inner.statements (← lift bound)
  let _ ← holding (stmtsStamps body) (lift (expectMark .rightBrace .afterBlock))
  return body

/-!
## Expressions

An operand at hand is passed to `holding` while the next one is read. Where an operator has been
read and its right operand has a mistake, the left operand is dropped with all that stands in it.
-/

/-- A function without a name. -/
def lambda (inner : NodeRules) (line : Nat) : NodeParser ExprNode := do
  let _ ← lift (expectMark .leftParen (.afterKeyword .«fun»))
  let params ← lift Nested.parameters
  let _ ← lift (expectMark .leftBrace .beforeLambdaBody)
  let body ← inner.block
  make (.lambda · line params body)

/-- An expression in parentheses. -/
def parenthesized (inner : NodeRules) : NodeParser ExprNode := do
  let e ← inner.expression
  let _ ← holding e.stamps (lift (expectMark .rightParen .afterExpression))
  make (.grouping · e)

/-- A method of the superclass. -/
def superMethod (line : Nat) : NodeParser ExprNode := do
  let _ ← lift (expectMark .dot (.afterKeyword .super))
  let method ← lift (expectName .superclassMethod)
  let id ← lift freshUse
  make (.super · id line method)

/-- The rest of an expression without operators. -/
def afterStart (inner : NodeRules) (line : Nat) : Nested.PrimaryStart → NodeParser ExprNode
  | .literal value => make (.literal · value)
  | .name text => do
    let id ← lift freshUse
    make fun n => .«variable» ⟨n, ⟨id, ⟨text, line⟩⟩⟩
  | .parenthesis => inner.parenthesized
  | .lambda => inner.lambda line
  | .this => do
    let id ← lift freshUse
    make (.this · id line)
  | .super => superMethod line

/-- An expression without operators. -/
def primary (inner : NodeRules) : NodeParser ExprNode := do
  match ← lift (accept? Nested.PrimaryStart.ofKind?) with
  | some (start, line) => inner.afterStart line start
  | none => lift (fail .expectedExpression)

/-- A call, with its arguments. -/
def arguments (inner : NodeRules) (callee : ExprNode) : NodeParser ExprNode := do
  let args ← holding callee.stamps inner.argumentList
  let line ← holding (callee.stamps ++ exprsStamps args)
    (lift (expectMark .rightParen .afterArguments))
  make (.call · callee line args)

/-- The calls and properties that follow an expression. -/
def suffixes (inner : NodeRules) : Nat → ExprNode → NodeParser ExprNode
  | 0, e => return e
  | fuel + 1, e => do
    if (← lift (acceptMark? .leftParen)).isSome then
      let e ← inner.arguments e
      suffixes inner fuel e
    else if (← lift (acceptMark? .dot)).isSome then
      let name ← holding e.stamps (lift (expectName .property))
      let e ← make (.get · e name)
      suffixes inner fuel e
    else
      return e

/-- An expression with the calls and properties that follow it. -/
def call (inner : NodeRules) : NodeParser ExprNode := do
  let e ← inner.primary
  inner.suffixes (← lift bound) e

/-- An expression behind unary operators. -/
def unaryExpr (inner : NodeRules) : NodeParser ExprNode := do
  match ← lift (accept? Nested.unaryOperator?) with
  | some (op, line) =>
    let e ← inner.unary
    make (.unary · op line e)
  | none => inner.call

/-- The further operands of a chain of operators. -/
def moreOperands {α : Type} (operator? : TokenKind → Option α)
    (join : NodeId → α → Nat → ExprNode → ExprNode → ExprNode) (operand : NodeParser ExprNode) :
    Nat → ExprNode → NodeParser ExprNode
  | 0, e => return e
  | fuel + 1, e => do
    match ← lift (accept? operator?) with
    | none => return e
    | some (op, line) =>
      let right ← holding e.stamps operand
      let e ← make (join · op line e right)
      moreOperands operator? join operand fuel e

/-- Operands between operators of one precedence. -/
def chain {α : Type} (operator? : TokenKind → Option α)
    (join : NodeId → α → Nat → ExprNode → ExprNode → ExprNode) (operand : NodeParser ExprNode) :
    NodeParser ExprNode := do
  let first ← operand
  moreOperands operator? join operand (← lift bound) first

/-- Operands of all precedences. -/
def disjunction (inner : NodeRules) : NodeParser ExprNode :=
  chain Nested.disjunctionOperator? .logical <| chain Nested.conjunctionOperator? .logical <|
    chain Nested.equalityOperator? .binary <| chain Nested.comparisonOperator? .binary <|
      chain Nested.termOperator? .binary <| chain Nested.factorOperator? .binary inner.unaryExpr

/-- The assignment of a value. A variable that it goes to is dropped. A property that it goes to is
dropped too, but its object goes into the assignment. -/
def assignTo (target : ExprNode) (line : Nat) (value : ExprNode) : NodeParser ExprNode := do
  match target with
  | .«variable» v =>
    drop v.stamps
    let id ← lift freshUse
    make (.assign · id v.use.name value)
  | .get n object name =>
    drop [.node n]
    make (.set · object name value)
  | e =>
    lift (report (Mark.equal.place line) (.grammar .invalidAssignmentTarget))
    drop value.stamps
    return e

/-- Any expression. -/
def assignment (inner : NodeRules) : NodeParser ExprNode := do
  let target ← inner.disjunction
  match ← lift (acceptMark? .equal) with
  | none => return target
  | some line =>
    let value ← holding target.stamps inner.expression
    assignTo target line value

/-!
## Statements

Clauses that have been read are at hand until the node of the statement is made. A `for` loop makes
nodes for the statements it stands for, also for those that nobody wrote.
-/

/-- An expression and a semicolon. -/
def expressionStatement (inner : NodeRules) : NodeParser StmtNode := do
  let e ← inner.assignment
  let _ ← holding e.stamps (lift (expectMark .semicolon .afterExpression))
  make (.expression · e)

/-- A print statement. -/
def printStatement (inner : NodeRules) : NodeParser StmtNode := do
  let e ← inner.assignment
  let _ ← holding e.stamps (lift (expectMark .semicolon .afterValue))
  make (.print · e)

/-- A return statement. -/
def returnStatement (inner : NodeRules) (line : Nat) : NodeParser StmtNode := do
  let value ← if ← lift (isNext (.mark .semicolon)) then pure none else some <$> inner.assignment
  let _ ← holding (exprsStamps value.toList) (lift (expectMark .semicolon .afterReturnValue))
  make (.returnValue · line value)

/-- A variable declaration. -/
def varDeclaration (inner : NodeRules) : NodeParser StmtNode := do
  let name ← lift (expectName .«variable»)
  let initializer ←
    if (← lift (acceptMark? .equal)).isSome then some <$> inner.assignment else pure none
  let _ ← holding (exprsStamps initializer.toList) (lift (expectMark .semicolon .afterVariable))
  make (.var · name initializer)

/-- An if statement. -/
def ifStatement (inner : NodeRules) : NodeParser StmtNode := do
  let _ ← lift (expectMark .leftParen (.afterKeyword .«if»))
  let condition ← inner.assignment
  let _ ← holding condition.stamps (lift (expectMark .rightParen .afterIfCondition))
  let consequence ← holding condition.stamps inner.statement
  let alternative ←
    if (← lift (acceptKeyword? .«else»)).isSome then
      some <$> holding (condition.stamps ++ consequence.stamps) inner.statement
    else pure none
  make (.ifThen · condition consequence alternative)

/-- A while statement. -/
def whileStatement (inner : NodeRules) : NodeParser StmtNode := do
  let _ ← lift (expectMark .leftParen (.afterKeyword .«while»))
  let condition ← inner.assignment
  let _ ← holding condition.stamps (lift (expectMark .rightParen .afterWhileCondition))
  let body ← holding condition.stamps inner.statement
  make (.whileDo · condition body)

/-- The body of a `for` loop, with the last clause behind it. -/
def loopBody (increment : Option ExprNode) (body : StmtNode) : NodeParser StmtNode :=
  match increment with
  | none => return body
  | some e => do
    let last ← make (.expression · e)
    make (.block · [body, last])

/-- The condition of a `for` loop. Where none is written, there is a node for it all the same. -/
def loopCondition : Option ExprNode → NodeParser ExprNode
  | none => make (.literal · (.bool true))
  | some e => return e

/-- A loop behind its first clause. -/
def behindInitializer (initializer : Option StmtNode) (loop : StmtNode) : NodeParser StmtNode :=
  match initializer with
  | none => return loop
  | some s => make (.block · [s, loop])

/-- A `for` loop, written with `while`. -/
def forLoop (initializer : Option StmtNode) (condition increment : Option ExprNode)
    (body : StmtNode) : NodeParser StmtNode := do
  let body ← loopBody increment body
  let condition ← loopCondition condition
  let loop ← make (.whileDo · condition body)
  behindInitializer initializer loop

/-- The first clause of a `for` loop. -/
def forInitializer (inner : NodeRules) : NodeParser (Option StmtNode) := do
  if (← lift (acceptMark? .semicolon)).isSome then
    return none
  else if (← lift (acceptKeyword? .var)).isSome then
    some <$> inner.varDeclaration
  else
    some <$> inner.expressionStatement

/-- A clause of a `for` loop that may be missing. -/
def forClause (inner : NodeRules) (final : Mark) (place : MarkPlace) :
    NodeParser (Option ExprNode) := do
  let e ← if ← lift (isNext (.mark final)) then pure none else some <$> inner.assignment
  let _ ← holding (exprsStamps e.toList) (lift (expectMark final place))
  return e

/-- A for statement. -/
def forStatement (inner : NodeRules) : NodeParser StmtNode := do
  let _ ← lift (expectMark .leftParen (.afterKeyword .«for»))
  let initializer ← inner.forInitializer
  let first := stmtsStamps initializer.toList
  let condition ← holding first (inner.forClause .semicolon .afterLoopCondition)
  let increment ← holding (first ++ exprsStamps condition.toList)
    (inner.forClause .rightParen .afterForClauses)
  let body ← holding (first ++ exprsStamps condition.toList ++ exprsStamps increment.toList)
    inner.statement
  forLoop initializer condition increment body

/-- The rest of a statement. -/
def afterStatementStart (inner : NodeRules) (line : Nat) :
    Nested.StatementStart → NodeParser StmtNode
  | .forLoop => inner.forStatement
  | .ifThen => inner.ifStatement
  | .print => inner.printStatement
  | .block => do
    let body ← inner.block
    make (.block · body)
  | .returnValue => inner.returnStatement line
  | .whileLoop => inner.whileStatement

/-- A statement that declares nothing. -/
def statementRule (inner : NodeRules) : NodeParser StmtNode := do
  match ← lift (accept? Nested.StatementStart.ofKind?) with
  | some (start, line) => inner.afterStatementStart line start
  | none => inner.expressionStatement

/-!
## Declarations

A class has the nodes of its superclass and of all its members at hand while the rest is read. A
declaration with a mistake is no node, and reading goes on behind it.
-/

/-- A function or method, from its name on. -/
def function (inner : NodeRules) (kind : FunctionKind) : NodeParser FunctionNode := do
  let name ← lift (expectName (.function kind))
  let _ ← lift (expectMark .leftParen (.afterName kind))
  let params ← lift Nested.parameters
  let _ ← lift (expectMark .leftBrace (.beforeBody kind))
  let body ← inner.block
  make (⟨·, name, params, body⟩)

/-- The methods of a class body. -/
def methods (inner : NodeRules) : Nat → NodeParser (List FunctionNode × List FunctionNode)
  | 0 => return ([], [])
  | fuel + 1 => do
    if ← lift atEnd then
      return ([], [])
    if ← lift (isNext (.mark .rightBrace)) then
      return ([], [])
    let isStatic := (← lift (acceptKeyword? .«class»)).isSome
    let method ← inner.function .method
    let (instanceMethods, staticMethods) ← holding method.stamps (methods inner fuel)
    if isStatic then
      return (instanceMethods, method :: staticMethods)
    else
      return (method :: instanceMethods, staticMethods)

/-- The superclass of a class declaration. -/
def superclass : NodeParser (Option UseNode) := do
  if (← lift (acceptMark? .less)).isSome then
    let name ← lift (expectName .superclass)
    let id ← lift freshUse
    make fun n => some ⟨n, ⟨id, name⟩⟩
  else
    return none

/-- A class declaration. -/
def classDeclaration (inner : NodeRules) : NodeParser StmtNode := do
  let name ← lift (expectName .className)
  let parent ← superclass
  let _ ← holding (superclassStamps parent) (lift (expectMark .leftBrace .beforeClassBody))
  let (instanceMethods, staticMethods) ←
    holding (superclassStamps parent) (inner.methods (← lift bound))
  let _ ← holding (superclassStamps parent ++
      (functionsStamps staticMethods ++ functionsStamps instanceMethods))
    (lift (expectMark .rightBrace .afterClassBody))
  make (.classDecl · name parent instanceMethods staticMethods)

/-- A declaration or statement. -/
def declarationRule (inner : NodeRules) : NodeParser StmtNode := do
  if (← lift (acceptKeyword? .«class»)).isSome then
    inner.classDeclaration
  else if ← lift Nested.acceptFunction then
    return .function (← inner.function .function)
  else if (← lift (acceptKeyword? .var)).isSome then
    inner.varDeclaration
  else
    inner.statementRule

/-- A declaration or statement, or nothing if it has a mistake. -/
def recovering (inner : NodeRules) : NodeParser (Option StmtNode) := fun s =>
  match inner.declarationRule s with
  | .ok d s => .ok (some d) s
  | .error .mistake s => (do lift recover; return none : NodeParser (Option StmtNode)) s
  | .error .tooDeep s => .error .tooDeep s

/-!
## Tying the knot

The levels of nesting are those of the plain grammar, one for each rule that contains itself. A list
of statements goes on behind a mistake, and ends where the levels run out.
-/

/-- Nothing can be nested any further. -/
def innermost : NodeRules where
  declaration := throw .tooDeep
  statement := throw .tooDeep
  expression := throw .tooDeep
  unary := throw .tooDeep

/-- The rules around rules one level further in. -/
def around (inner : NodeRules) : NodeRules where
  declaration := inner.recovering
  statement := inner.statementRule
  expression := inner.assignment
  unary := inner.unaryExpr

end NodeRules

/-- The grammar with at most `depth` levels of nesting. -/
def nodeGrammar : Nat → NodeRules
  | 0 => .innermost
  | depth + 1 => (nodeGrammar depth).around

/-- The statements of a program. -/
def nodeProgram (rules : NodeRules) : Nat → NodeParser (List StmtNode)
  | 0 => return []
  | fuel + 1 => fun s =>
    if s.parser.rest.isEmpty then .ok [] s
    else
      match rules.declaration s with
      | .ok first s =>
        match holding (stmtsStamps first.toList) (nodeProgram rules fuel) s with
        | .ok others s => .ok (first.toList ++ others) s
        | .error e s => .error e s
      | .error _ s =>
        (do lift (report (← lift here) .nesting); return [] : NodeParser (List StmtNode)) s

/-- What parsing makes: the statements that could be read, what was dropped, and the identity of the
next node. -/
structure ParsedNodes where
  statements : List StmtNode
  dropped : List Stamp
  nextNode : NodeId

/-- Parses tokens, giving identities from `firstNode` on. -/
def parseNodes (depth : Nat) (firstUse : UseId) (firstNode : NodeId) (lexed : Lexed) :
    ParsedNodes :=
  let bound := lexed.tokens.length + 1
  match nodeProgram (nodeGrammar depth) bound
      ⟨⟨lexed.tokens, lexed.endLine, [], firstUse, bound⟩, firstNode, []⟩ with
  | .ok statements s => ⟨statements, s.dropped, s.nextNode⟩
  | .error _ s => ⟨[], s.dropped, s.nextNode⟩

end LoxLang
