import LoxLang.Tree

/-!
# The parts of a tree

All nodes of a syntax tree in one list: a node comes first, and then what stands in it, in the order
in which names are resolved. The superclass that a class declaration names is a node of its own, and
so is each method.
-/

namespace LoxLang

/-- A node of a syntax tree, with all that stands in it. -/
inductive Part where
  | expr (e : Expr)
  | stmt (s : Stmt)
  | method (f : FunctionDecl)

/-- The node of a superclass. -/
@[simp] def superclassParts : Option VariableUse → List Part
  | none => []
  | some use => [.expr (.«variable» use)]

mutual

/-- The nodes of an expression. -/
@[simp] def Expr.parts : Expr → List Part
  | .literal value => [.expr (.literal value)]
  | .grouping e => .expr (.grouping e) :: e.parts
  | .unary op line e => .expr (.unary op line e) :: e.parts
  | .binary op line left right => .expr (.binary op line left right) :: (left.parts ++ right.parts)
  | .logical op line left right =>
    .expr (.logical op line left right) :: (left.parts ++ right.parts)
  | .«variable» use => [.expr (.«variable» use)]
  | .assign id name value => .expr (.assign id name value) :: value.parts
  | .call callee line arguments =>
    .expr (.call callee line arguments) :: (callee.parts ++ exprsParts arguments)
  | .get object name => .expr (.get object name) :: object.parts
  | .set object name value => .expr (.set object name value) :: (value.parts ++ object.parts)
  | .lambda line params body => .expr (.lambda line params body) :: stmtsParts body
  | .this id line => [.expr (.this id line)]
  | .super id line method => [.expr (.super id line method)]

/-- The nodes of a statement. -/
@[simp] def Stmt.parts : Stmt → List Part
  | .expression e => .stmt (.expression e) :: e.parts
  | .print e => .stmt (.print e) :: e.parts
  | .var name none => [.stmt (.var name none)]
  | .var name (some e) => .stmt (.var name (some e)) :: e.parts
  | .block body => .stmt (.block body) :: stmtsParts body
  | .ifThen condition s none => .stmt (.ifThen condition s none) :: (condition.parts ++ s.parts)
  | .ifThen condition s (some t) =>
    .stmt (.ifThen condition s (some t)) :: (condition.parts ++ (s.parts ++ t.parts))
  | .whileDo condition s => .stmt (.whileDo condition s) :: (condition.parts ++ s.parts)
  | .function f => .stmt (.function f) :: f.parts
  | .returnValue line none => [.stmt (.returnValue line none)]
  | .returnValue line (some e) => .stmt (.returnValue line (some e)) :: e.parts
  | .classDecl name parent methods statics =>
    .stmt (.classDecl name parent methods statics) ::
      (superclassParts parent ++ (membersParts statics ++ membersParts methods))

/-- The nodes in the body of a function. -/
@[simp] def FunctionDecl.parts : FunctionDecl → List Part
  | ⟨_, _, body⟩ => stmtsParts body

/-- The nodes of expressions. -/
@[simp] def exprsParts : List Expr → List Part
  | [] => []
  | e :: es => e.parts ++ exprsParts es

/-- The nodes of statements. -/
@[simp] def stmtsParts : List Stmt → List Part
  | [] => []
  | s :: ss => s.parts ++ stmtsParts ss

/-- The nodes of members of a class. -/
@[simp] def membersParts : List FunctionDecl → List Part
  | [] => []
  | f :: fs => .method f :: (f.parts ++ membersParts fs)

end

theorem FunctionDecl.parts_eq (f : FunctionDecl) : f.parts = stmtsParts f.body := by
  cases f
  rfl

end LoxLang
