import LoxLang.Proofs.Parts

/-!
# Nodes with an identity

Syntax trees as they are made, node by node: each node has an identity of its own beside what it
says. Two places of a tree, or of two trees, hold the same node if they hold the same identity.
What is left of such a tree without the identities is a plain one (`StmtNode.tree`).

The numbers by which uses of names are looked up stand in the trees already. `stamps` lists both,
so that one account can be kept of all that sets the nodes of a tree apart.
-/

namespace LoxLang

/-- The identity of a node. -/
abbrev NodeId := Nat

/-- A node that is a use of a variable. -/
structure UseNode where
  node : NodeId
  use : VariableUse

mutual

/-- An expression, each node with its identity. -/
inductive ExprNode where
  | literal (node : NodeId) (value : Literal)
  | grouping (node : NodeId) (inner : ExprNode)
  | unary (node : NodeId) (op : UnaryOperator) (line : Nat) (operand : ExprNode)
  | binary (node : NodeId) (op : BinaryOperator) (line : Nat) (left right : ExprNode)
  | logical (node : NodeId) (op : LogicalOperator) (line : Nat) (left right : ExprNode)
  | «variable» (v : UseNode)
  | assign (node : NodeId) (id : UseId) (name : Name) (value : ExprNode)
  | call (node : NodeId) (callee : ExprNode) (line : Nat) (arguments : List ExprNode)
  | get (node : NodeId) (object : ExprNode) (name : Name)
  | set (node : NodeId) (object : ExprNode) (name : Name) (value : ExprNode)
  | lambda (node : NodeId) (line : Nat) (params : List Name) (body : List StmtNode)
  | this (node : NodeId) (id : UseId) (line : Nat)
  | super (node : NodeId) (id : UseId) (line : Nat) (method : Name)

/-- A statement, each node with its identity. -/
inductive StmtNode where
  | expression (node : NodeId) (e : ExprNode)
  | print (node : NodeId) (e : ExprNode)
  | var (node : NodeId) (name : Name) (initializer : Option ExprNode)
  | block (node : NodeId) (body : List StmtNode)
  | ifThen (node : NodeId) (condition : ExprNode) (consequence : StmtNode)
      (alternative : Option StmtNode)
  | whileDo (node : NodeId) (condition : ExprNode) (body : StmtNode)
  | function (f : FunctionNode)
  | returnValue (node : NodeId) (line : Nat) (value : Option ExprNode)
  | classDecl (node : NodeId) (name : Name) (superclass : Option UseNode)
      (methods : List FunctionNode) (staticMethods : List FunctionNode)

/-- A function or method with a name, which is one node. -/
structure FunctionNode where
  node : NodeId
  name : Name
  params : List Name
  body : List StmtNode

end

/-!
## The trees without identities

What a node says without what it is. Plain trees are what the program is parsed to.
-/

mutual

/-- The expression that a node is. -/
@[simp] def ExprNode.tree : ExprNode → Expr
  | .literal _ value => .literal value
  | .grouping _ e => .grouping e.tree
  | .unary _ op line e => .unary op line e.tree
  | .binary _ op line left right => .binary op line left.tree right.tree
  | .logical _ op line left right => .logical op line left.tree right.tree
  | .«variable» v => .«variable» v.use
  | .assign _ id name value => .assign id name value.tree
  | .call _ callee line arguments => .call callee.tree line (exprTrees arguments)
  | .get _ object name => .get object.tree name
  | .set _ object name value => .set object.tree name value.tree
  | .lambda _ line params body => .lambda line params (stmtTrees body)
  | .this _ id line => .this id line
  | .super _ id line method => .super id line method

/-- The statement that a node is. -/
@[simp] def StmtNode.tree : StmtNode → Stmt
  | .expression _ e => .expression e.tree
  | .print _ e => .print e.tree
  | .var _ name none => .var name none
  | .var _ name (some e) => .var name (some e.tree)
  | .block _ body => .block (stmtTrees body)
  | .ifThen _ condition s none => .ifThen condition.tree s.tree none
  | .ifThen _ condition s (some t) => .ifThen condition.tree s.tree (some t.tree)
  | .whileDo _ condition s => .whileDo condition.tree s.tree
  | .function f => .function f.tree
  | .returnValue _ line none => .returnValue line none
  | .returnValue _ line (some e) => .returnValue line (some e.tree)
  | .classDecl _ name parent methods statics =>
    .classDecl name (parent.map (·.use)) (functionTrees methods) (functionTrees statics)

/-- The function that a node is. -/
@[simp] def FunctionNode.tree : FunctionNode → FunctionDecl
  | ⟨_, name, params, body⟩ => ⟨name, params, stmtTrees body⟩

/-- The expressions that nodes are. -/
@[simp] def exprTrees : List ExprNode → List Expr
  | [] => []
  | e :: es => e.tree :: exprTrees es

/-- The statements that nodes are. -/
@[simp] def stmtTrees : List StmtNode → List Stmt
  | [] => []
  | s :: ss => s.tree :: stmtTrees ss

/-- The functions that nodes are. -/
@[simp] def functionTrees : List FunctionNode → List FunctionDecl
  | [] => []
  | f :: fs => f.tree :: functionTrees fs

end

/-- Statements one after the other. -/
theorem stmtTrees_append (ss ts : List StmtNode) :
    stmtTrees (ss ++ ts) = stmtTrees ss ++ stmtTrees ts := by
  induction ss with
  | nil => rfl
  | cons s ss ih => rw [List.cons_append, stmtTrees, stmtTrees, ih, List.cons_append]

theorem stmtTrees_toList (s : Option StmtNode) :
    stmtTrees s.toList = (s.map StmtNode.tree).toList := by
  cases s <;> rfl

/-- The initializer may be left out. -/
theorem StmtNode.tree_var (n : NodeId) (name : Name) (e : Option ExprNode) :
    (StmtNode.var n name e).tree = .var name (e.map ExprNode.tree) := by
  cases e <;> rfl

/-- The second branch may be left out. -/
theorem StmtNode.tree_ifThen (n : NodeId) (condition : ExprNode) (s : StmtNode)
    (t : Option StmtNode) : (StmtNode.ifThen n condition s t).tree =
      .ifThen condition.tree s.tree (t.map StmtNode.tree) := by
  cases t <;> rfl

/-- The value may be left out. -/
theorem StmtNode.tree_returnValue (n : NodeId) (line : Nat) (e : Option ExprNode) :
    (StmtNode.returnValue n line e).tree = .returnValue line (e.map ExprNode.tree) := by
  cases e <;> rfl

/-!
## Stamps

The identities of nodes and the numbers of uses, in the order in which the resolver comes to them.
-/

/-- What sets a node apart: its identity, and the number of the use of a name that it is. -/
inductive Stamp where
  | node (id : NodeId)
  | use (id : UseId)
deriving DecidableEq, Repr

/-- The identity that a stamp is. -/
def Stamp.node? : Stamp → Option NodeId
  | node id => some id
  | use _ => none

/-- The number of a use that a stamp is. -/
def Stamp.use? : Stamp → Option UseId
  | node _ => none
  | use id => some id

/-- The identities among stamps. -/
def nodeIds (stamps : List Stamp) : List NodeId := stamps.filterMap Stamp.node?

/-- The numbers of uses among stamps. -/
def useIds (stamps : List Stamp) : List UseId := stamps.filterMap Stamp.use?

section Ids

variable (n : NodeId) (id : UseId) (xs ys : List Stamp)

@[simp] theorem nodeIds_nil : nodeIds [] = [] := rfl

@[simp] theorem nodeIds_node : nodeIds (.node n :: xs) = n :: nodeIds xs := rfl

@[simp] theorem nodeIds_use : nodeIds (.use id :: xs) = nodeIds xs := rfl

/-- Identities of two parts. -/
@[simp] theorem nodeIds_append : nodeIds (xs ++ ys) = nodeIds xs ++ nodeIds ys :=
  List.filterMap_append

@[simp] theorem useIds_nil : useIds [] = [] := rfl

@[simp] theorem useIds_node : useIds (.node n :: xs) = useIds xs := rfl

@[simp] theorem useIds_use : useIds (.use id :: xs) = id :: useIds xs := rfl

/-- Numbers of two parts. -/
@[simp] theorem useIds_append : useIds (xs ++ ys) = useIds xs ++ useIds ys :=
  List.filterMap_append

end Ids

/-- The stamps of a use of a variable. -/
@[simp] def UseNode.stamps (v : UseNode) : List Stamp := [.node v.node, .use v.use.id]

/-- The stamps of a superclass. -/
@[simp] def superclassStamps : Option UseNode → List Stamp
  | none => []
  | some v => v.stamps

mutual

/-- The stamps of an expression, place by place: those of a node come before those of what stands in
it. -/
@[simp] def ExprNode.stamps : ExprNode → List Stamp
  | .literal n _ => [.node n]
  | .grouping n e => .node n :: e.stamps
  | .unary n _ _ e => .node n :: e.stamps
  | .binary n _ _ left right => .node n :: (left.stamps ++ right.stamps)
  | .logical n _ _ left right => .node n :: (left.stamps ++ right.stamps)
  | .«variable» v => v.stamps
  | .assign n id _ value => .node n :: .use id :: value.stamps
  | .call n callee _ arguments => .node n :: (callee.stamps ++ exprsStamps arguments)
  | .get n object _ => .node n :: object.stamps
  | .set n object _ value => .node n :: (value.stamps ++ object.stamps)
  | .lambda n _ _ body => .node n :: stmtsStamps body
  | .this n id _ => [.node n, .use id]
  | .super n id _ _ => [.node n, .use id]

/-- The stamps of a statement, place by place. -/
@[simp] def StmtNode.stamps : StmtNode → List Stamp
  | .expression n e => .node n :: e.stamps
  | .print n e => .node n :: e.stamps
  | .var n _ none => [.node n]
  | .var n _ (some e) => .node n :: e.stamps
  | .block n body => .node n :: stmtsStamps body
  | .ifThen n condition s none => .node n :: (condition.stamps ++ s.stamps)
  | .ifThen n condition s (some t) => .node n :: (condition.stamps ++ (s.stamps ++ t.stamps))
  | .whileDo n condition s => .node n :: (condition.stamps ++ s.stamps)
  | .function f => f.stamps
  | .returnValue n _ none => [.node n]
  | .returnValue n _ (some e) => .node n :: e.stamps
  | .classDecl n _ parent methods statics =>
    .node n :: (superclassStamps parent ++ (functionsStamps statics ++ functionsStamps methods))

/-- The stamps of a function, place by place. -/
@[simp] def FunctionNode.stamps : FunctionNode → List Stamp
  | ⟨n, _, _, body⟩ => .node n :: stmtsStamps body

/-- The stamps of expressions. -/
@[simp] def exprsStamps : List ExprNode → List Stamp
  | [] => []
  | e :: es => e.stamps ++ exprsStamps es

/-- The stamps of statements. -/
@[simp] def stmtsStamps : List StmtNode → List Stamp
  | [] => []
  | s :: ss => s.stamps ++ stmtsStamps ss

/-- The stamps of functions. -/
@[simp] def functionsStamps : List FunctionNode → List Stamp
  | [] => []
  | f :: fs => f.stamps ++ functionsStamps fs

end

/-- Statements one after the other. -/
theorem stmtsStamps_append (ss ts : List StmtNode) :
    stmtsStamps (ss ++ ts) = stmtsStamps ss ++ stmtsStamps ts := by
  induction ss with
  | nil => rfl
  | cons s ss ih => rw [List.cons_append, stmtsStamps, stmtsStamps, ih, List.append_assoc]

/-- The node, and then its initializer. -/
theorem StmtNode.stamps_var (n : NodeId) (name : Name) (e : Option ExprNode) :
    (StmtNode.var n name e).stamps = .node n :: exprsStamps e.toList := by
  cases e <;> simp

/-- The node, and then its parts. -/
theorem StmtNode.stamps_ifThen (n : NodeId) (condition : ExprNode) (s : StmtNode)
    (t : Option StmtNode) : (StmtNode.ifThen n condition s t).stamps =
      .node n :: (condition.stamps ++ (s.stamps ++ stmtsStamps t.toList)) := by
  cases t <;> simp

/-- The node, and then its value. -/
theorem StmtNode.stamps_returnValue (n : NodeId) (line : Nat) (e : Option ExprNode) :
    (StmtNode.returnValue n line e).stamps = .node n :: exprsStamps e.toList := by
  cases e <;> simp

/-!
## One identity for each part

A tree has as many identities as the plain tree has parts, so none of them is shared if they are all
different.
-/

mutual

/-- Expressions. -/
theorem ExprNode.length_nodeIds (e : ExprNode) :
    (nodeIds e.stamps).length = e.tree.parts.length := by
  cases e with
  | literal n value => rfl
  | «variable» v => rfl
  | this n id line => rfl
  | super n id line method => rfl
  | grouping n e => simp [e.length_nodeIds]
  | unary n op line e => simp [e.length_nodeIds]
  | binary n op line left right => simp [left.length_nodeIds, right.length_nodeIds]
  | logical n op line left right => simp [left.length_nodeIds, right.length_nodeIds]
  | assign n id name value => simp [value.length_nodeIds]
  | call n callee line arguments => simp [callee.length_nodeIds, length_nodeIds_exprs arguments]
  | get n object name => simp [object.length_nodeIds]
  | set n object name value => simp [object.length_nodeIds, value.length_nodeIds]
  | lambda n line params body => simp [length_nodeIds_stmts body]

/-- Statements. -/
theorem StmtNode.length_nodeIds (s : StmtNode) :
    (nodeIds s.stamps).length = s.tree.parts.length := by
  cases s with
  | expression n e => simp [e.length_nodeIds]
  | print n e => simp [e.length_nodeIds]
  | var n name initializer =>
    cases initializer with
    | none => rfl
    | some e => simp [e.length_nodeIds]
  | block n body => simp [length_nodeIds_stmts body]
  | ifThen n condition s alternative =>
    cases alternative with
    | none => simp [condition.length_nodeIds, s.length_nodeIds]
    | some t => simp [condition.length_nodeIds, s.length_nodeIds, t.length_nodeIds]
  | whileDo n condition s => simp [condition.length_nodeIds, s.length_nodeIds]
  | function f => simp [f.length_nodeIds]
  | returnValue n line value =>
    cases value with
    | none => rfl
    | some e => simp [e.length_nodeIds]
  | classDecl n name parent methods statics =>
    cases parent with
    | none => simp [length_nodeIds_functions methods, length_nodeIds_functions statics]
    | some v => simp [length_nodeIds_functions methods, length_nodeIds_functions statics]

/-- The node of a function is one of those of the statement or class in which it stands. -/
theorem FunctionNode.length_nodeIds (f : FunctionNode) :
    (nodeIds f.stamps).length = f.tree.parts.length + 1 := by
  obtain ⟨n, name, params, body⟩ := f
  simp [length_nodeIds_stmts body]

/-- Lists of expressions. -/
theorem length_nodeIds_exprs (es : List ExprNode) :
    (nodeIds (exprsStamps es)).length = (exprsParts (exprTrees es)).length := by
  cases es with
  | nil => rfl
  | cons e es => simp [e.length_nodeIds, length_nodeIds_exprs es]

/-- There are as many identities in trees as there are parts. -/
theorem length_nodeIds_stmts (ss : List StmtNode) :
    (nodeIds (stmtsStamps ss)).length = (stmtsParts (stmtTrees ss)).length := by
  cases ss with
  | nil => rfl
  | cons s ss => simp [s.length_nodeIds, length_nodeIds_stmts ss]

/-- The members of a class. -/
theorem length_nodeIds_functions (fs : List FunctionNode) :
    (nodeIds (functionsStamps fs)).length = (membersParts (functionTrees fs)).length := by
  cases fs with
  | nil => rfl
  | cons f fs =>
    simp [f.length_nodeIds, length_nodeIds_functions fs]
    omega

end

end LoxLang
