import LoxLang.Operator

/-!
# Syntax trees

Expressions and statements as they are after parsing. Grouping is kept; `for` loops are not, they
are written with blocks and `while`. Each use of a local name carries a number of its own, by which
the distance to its declaration is looked up.
-/

namespace LoxLang

/-- The number of a use of a name, unique within a session. -/
abbrev UseId := Nat

/-- An identifier at its line. -/
structure Name where
  text : String
  line : Nat
deriving DecidableEq, Repr

/-- The place of a name. -/
def Name.place (n : Name) : Location := .token ⟨.identifier n.text, n.line⟩

/-- A use of a variable. -/
structure VariableUse where
  id : UseId
  name : Name
deriving DecidableEq, Repr

mutual

/-- An expression. Lines are those of the operator, of the closing parenthesis of a call, or of the
keyword that begins the expression. -/
inductive Expr where
  | literal (value : Literal)
  | grouping (inner : Expr)
  | unary (op : UnaryOperator) (line : Nat) (operand : Expr)
  | binary (op : BinaryOperator) (line : Nat) (left right : Expr)
  | logical (op : LogicalOperator) (line : Nat) (left right : Expr)
  | «variable» (use : VariableUse)
  | assign (id : UseId) (name : Name) (value : Expr)
  | call (callee : Expr) (line : Nat) (arguments : List Expr)
  | get (object : Expr) (name : Name)
  | set (object : Expr) (name : Name) (value : Expr)
  | lambda (line : Nat) (params : List Name) (body : List Stmt)
  | this (id : UseId) (line : Nat)
  | super (id : UseId) (line : Nat) (method : Name)

/-- A statement. -/
inductive Stmt where
  | expression (e : Expr)
  | print (e : Expr)
  | var (name : Name) (initializer : Option Expr)
  | block (body : List Stmt)
  | ifThen (condition : Expr) (consequence : Stmt) (alternative : Option Stmt)
  | whileDo (condition : Expr) (body : Stmt)
  | function (f : FunctionDecl)
  | returnValue (line : Nat) (value : Option Expr)
  | classDecl (name : Name) (superclass : Option VariableUse) (methods : List FunctionDecl)
      (staticMethods : List FunctionDecl)

/-- A function or method with a name. -/
structure FunctionDecl where
  name : Name
  params : List Name
  body : List Stmt

end

/-- The name of the method that initializes new instances of a class. -/
def initializerName : String := "init"

instance : Inhabited Expr := ⟨.literal .nil⟩

instance : Inhabited Stmt := ⟨.block []⟩

/-- The place of a keyword. -/
def Keyword.place (k : Keyword) (line : Nat) : Location := .token ⟨.keyword k, line⟩

/-- The place of a mark. -/
def Mark.place (m : Mark) (line : Nat) : Location := .token ⟨.mark m, line⟩

end LoxLang
