import LoxLang.Text.Quoted
import LoxLang.Tree

/-!
# Outlines of trees

An outline lists the labelled parts of a tree, in order, down to its tokens and literals. It is
what tools show of a tree; its text is the one for debugging.
-/

namespace LoxLang

/-- The outline of a tree or of a part of one. -/
inductive Outline where
  | node (label : String) (parts : List (String × Outline))
  | token (place : Location)
  | literal (value : Literal)
  | items (parts : List Outline)
  | absent

namespace Outline

/-- The outline of a name. -/
def ofName (n : Name) : Outline := .token n.place

/-- The outline of a name's use. -/
def ofUse (use : VariableUse) : Outline := .node "Expr.Variable" [("name", ofName use.name)]

/-- The outline of an operator. -/
def ofOperator (kind : TokenKind) (line : Nat) : Outline := .token (.token ⟨kind, line⟩)

end Outline

mutual

/-- The outline of an expression. -/
def Expr.outline : Expr → Outline
  | .literal value => .node "Expr.Literal" [("value", .literal value)]
  | .grouping inner => .node "Expr.Grouping" [("expression", inner.outline)]
  | .unary op line operand =>
    .node "Expr.Unary" [("operator", .ofOperator op.token line), ("right", operand.outline)]
  | .binary op line left right =>
    .node "Expr.Binary"
      [("left", left.outline), ("operator", .ofOperator op.token line), ("right", right.outline)]
  | .logical op line left right =>
    .node "Expr.Logical"
      [("left", left.outline), ("operator", .ofOperator op.token line), ("right", right.outline)]
  | .«variable» use => .ofUse use
  | .assign _ name value =>
    .node "Expr.Assign" [("name", .ofName name), ("value", value.outline)]
  | .call callee line arguments =>
    .node "Expr.Call"
      [("callee", callee.outline), ("paren", .token (Mark.rightParen.place line)),
        ("arguments", .items (exprOutlines arguments))]
  | .get object name => .node "Expr.Get" [("object", object.outline), ("name", .ofName name)]
  | .set object name value =>
    .node "Expr.Set"
      [("object", object.outline), ("name", .ofName name), ("value", value.outline)]
  | .lambda line params body =>
    .node "Expr.Lambda"
      [("keyword", .token (Keyword.«fun».place line)), ("params", .items (params.map .ofName)),
        ("body", .items (stmtOutlines body))]
  | .this _ line => .node "Expr.This" [("keyword", .token (Keyword.this.place line))]
  | .super _ line method =>
    .node "Expr.Super"
      [("keyword", .token (Keyword.super.place line)), ("method", .ofName method)]

/-- The outline of a statement. -/
def Stmt.outline : Stmt → Outline
  | .expression e => .node "Stmt.Expression" [("expression", e.outline)]
  | .print e => .node "Stmt.Print" [("expression", e.outline)]
  | .var name initializer =>
    .node "Stmt.Var" [("name", .ofName name), ("initializer", exprOutline? initializer)]
  | .block body => .node "Stmt.Block" [("statements", .items (stmtOutlines body))]
  | .ifThen condition consequence alternative =>
    .node "Stmt.If"
      [("condition", condition.outline), ("then_branch", consequence.outline),
        ("else_branch", stmtOutline? alternative)]
  | .whileDo condition body =>
    .node "Stmt.While" [("condition", condition.outline), ("body", body.outline)]
  | .function f => f.outline
  | .returnValue line value =>
    .node "Stmt.Return"
      [("keyword", .token (Keyword.«return».place line)), ("value", exprOutline? value)]
  | .classDecl name superclass methods staticMethods =>
    .node "Stmt.Class"
      [("name", .ofName name),
        ("superclass", match superclass with
          | none => .absent
          | some use => .ofUse use),
        ("methods", .items (functionOutlines methods)),
        ("static_methods", .items (functionOutlines staticMethods))]

/-- The outline of a function declaration. -/
def FunctionDecl.outline : FunctionDecl → Outline
  | ⟨name, params, body⟩ =>
    .node "Stmt.Function"
      [("name", .ofName name), ("params", .items (params.map .ofName)),
        ("body", .items (stmtOutlines body))]

/-- The outlines of expressions. -/
def exprOutlines : List Expr → List Outline
  | [] => []
  | e :: es => e.outline :: exprOutlines es

/-- The outlines of statements. -/
def stmtOutlines : List Stmt → List Outline
  | [] => []
  | s :: ss => s.outline :: stmtOutlines ss

/-- The outlines of function declarations. -/
def functionOutlines : List FunctionDecl → List Outline
  | [] => []
  | f :: fs => f.outline :: functionOutlines fs

/-- The outline of an expression that may be absent. -/
def exprOutline? : Option Expr → Outline
  | none => .absent
  | some e => e.outline

/-- The outline of a statement that may be absent. -/
def stmtOutline? : Option Stmt → Outline
  | none => .absent
  | some s => s.outline

end

/-- The text of a literal for debugging. -/
def Literal.debugText : Literal → String
  | .nil => "None"
  | .bool true => "True"
  | .bool false => "False"
  | .number x => Number.debugText x
  | .string s => Text.quoted s

/-- The text of a token for debugging. -/
def Location.debugText (l : Location) : String :=
  let value := match l.literal? with
    | some value => value.debugText
    | none => "None"
  let kind := Text.quoted l.label
  s!"Token(type={kind}, lexeme={Text.quoted l.lexeme}, literal={value}, line={l.line})"

namespace Outline

mutual

/-- How many levels of parts an outline has. -/
def depth : Outline → Nat
  | .node _ parts => partsDepth parts + 1
  | .items parts => itemsDepth parts + 1
  | .token _ | .literal _ | .absent => 1

/-- How many levels the deepest part of a node has. -/
def partsDepth : List (String × Outline) → Nat
  | [] => 0
  | (_, part) :: parts => max part.depth (partsDepth parts)

/-- How many levels the deepest part of a list has. -/
def itemsDepth : List Outline → Nat
  | [] => 0
  | part :: parts => max part.depth (itemsDepth parts)

end

mutual

/-- The text of an outline for debugging. -/
def text : Outline → String
  | .node label parts => label ++ "(" ++ ", ".intercalate (partTexts parts) ++ ")"
  | .token place => place.debugText
  | .literal value => value.debugText
  | .items parts => "[" ++ ", ".intercalate (texts parts) ++ "]"
  | .absent => "None"

/-- The texts of a node's parts, each behind its label. -/
def partTexts : List (String × Outline) → List String
  | [] => []
  | (label, part) :: parts => (label ++ "=" ++ part.text) :: partTexts parts

/-- The texts of the parts of a list. -/
def texts : List Outline → List String
  | [] => []
  | part :: parts => part.text :: texts parts

end

end Outline

end LoxLang
