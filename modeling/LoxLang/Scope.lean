import Std.Data.TreeMap
import LoxLang.Bindings
import LoxLang.Report
import LoxLang.Tree

/-!
# Scopes

Before a program runs, each use of a local name is given its distance: how many scopes lie between
the use and the scope that declares the name. Names that no scope declares are global and get no
distance. On the way, misplaced names and keywords are reported.

The rules for this do not depend on what trees are made of, and they may be carried out by any steps
that those of resolving are among (`Walk`). The plain walk is over trees as they are parsed.
-/

namespace LoxLang

/-- The names of a scope, and whether the initializer of each is behind us. -/
abbrev Scope := Bindings Bool

/-- The kind of a use of a name. -/
inductive UseKind where
  | «variable»
  | assignment
  | this
  | super
deriving DecidableEq, Repr

/-- The name of a kind of use in listings. -/
def UseKind.label : UseKind → String
  | «variable» => "Variable"
  | assignment => "Assign"
  | this => "This"
  | super => "Super"

/-- A use of a local name and its distance to the declaration. -/
structure Resolved where
  kind : UseKind
  name : String
  line : Nat
  distance : Nat
  id : UseId
deriving DecidableEq, Repr

/-- The distances of the uses of local names. -/
abbrev Distances := Std.TreeMap UseId Nat

/-- Adds resolved uses to a table of distances. -/
def Distances.insertAll (table : Distances) (uses : List Resolved) : Distances :=
  uses.foldl (fun table use => table.insert use.id use.distance) table

/-- The kind of the innermost function around a place. -/
inductive FunctionContext where
  | none
  | function
  | method
  | initializer
deriving DecidableEq, Repr

/-- What the innermost class around a place means for it. -/
inductive ClassContext where
  | none
  | «class»
  | subclass
  | staticMethod
deriving DecidableEq, Repr

/-- The functions and classes around a place. -/
structure ScopeContext where
  inFunction : FunctionContext
  inClass : ClassContext
deriving DecidableEq, Repr

/-- What has been found out so far: the open scopes from the innermost outwards, the global names
whose initializers are being looked at, the resolved uses from the last to the first, and the
reports in their order. -/
structure ScopeState where
  scopes : List Scope
  initializing : List String
  uses : List Resolved
  reports : List Report
deriving DecidableEq, Repr

/-- Why resolving gives up: nesting beyond the bound. -/
inductive ScopeStop where
  | tooDeep
deriving DecidableEq, Repr

/-- A step of resolving. -/
abbrev Resolver := EStateM ScopeStop ScopeState

namespace Resolver

/-- Reports an error. -/
def report (place : Location) (e : ScopeError) : Resolver Unit :=
  modify fun s => { s with reports := s.reports ++ [.located place (.scope e)] }

/-- Opens a scope with some names in it. -/
def openScope (scope : Scope) : Resolver Unit :=
  modify fun s => { s with scopes := scope :: s.scopes }

/-- Closes the innermost scope. -/
def closeScope : Resolver Unit :=
  modify fun s => { s with scopes := s.scopes.drop 1 }

/-- The innermost scope, if any is open. -/
def innermost? : Resolver (Option Scope) := do return (← get).scopes.head?

/-- Sets a name in the innermost scope. Global names are not tracked. -/
def setInnermost (name : String) (ready : Bool) : Resolver Unit :=
  modify fun s =>
    match s.scopes with
    | [] => s
    | scope :: outer => { s with scopes := scope.insert name ready :: outer }

/-- Enters a name into the innermost scope, its initializer being still ahead. -/
def declare (name : Name) : Resolver Unit := do
  if let some scope := ← innermost? then
    if scope.contains name.text then
      report name.place .alreadyDeclared
  setInnermost name.text false

/-- Marks a name of the innermost scope as ready for use. -/
def define (name : Name) : Resolver Unit := setInnermost name.text true

/-- Enters a name that has no initializer, or that its own initializer may use. -/
def declareReady (name : Name) : Resolver Unit := do
  declare name
  define name

/-- Records the distance of a use, if an open scope declares its name. -/
def resolveUse (kind : UseKind) (name : String) (line : Nat) (id : UseId) : Resolver Unit :=
  modify fun s =>
    match s.scopes.findIdx? (·.contains name) with
    | none => s
    | some distance => { s with uses := ⟨kind, name, line, distance, id⟩ :: s.uses }

/-- Whether a name may be read where it stands: not if it is the name of a variable of the innermost
scope, or of a global one, whose initializer it stands in. -/
def isReady (name : String) : Resolver Bool := do
  let s ← get
  match s.scopes with
  | [] => return !s.initializing.contains name
  | scope :: _ => return scope.get? name != some false

/-- Resolves the reading of a variable. -/
def readVariable (use : VariableUse) : Resolver Unit := do
  unless ← isReady use.name.text do
    report use.name.place .ownInitializer
  resolveUse .«variable» use.name.text use.name.line use.id

/-- Notes that the initializer of a global variable begins. -/
def beginInitializer (name : String) : Resolver Unit :=
  modify fun s =>
    if s.scopes.isEmpty then { s with initializing := name :: s.initializing } else s

/-- Notes that the initializer of a variable is over. -/
def endInitializer (name : String) : Resolver Unit :=
  modify fun s => { s with initializing := s.initializing.filter (· ≠ name) }

end Resolver

open LoxLang.Resolver

/-- The walks over the parts of a tree that lie one level further in. Trees may have expressions and
statements of any kind. -/
structure Walk (M : Type → Type) (E S : Type) where
  expr : ScopeContext → E → M Unit
  stmt : ScopeContext → S → M Unit

/-!
## Rules for any trees

These rules say in which scopes the parts of a tree stand, in which order they are walked over, and
what is reported on the way.
-/

namespace Walk

variable {M : Type → Type} [Monad M] [MonadLiftT Resolver M] {E S : Type} (inner : Walk M E S)
  (context : ScopeContext)

/-- Resolves the parameters and the body of a function, which share one scope. -/
@[inline] def function (params : List Name) (body : List S) : M Unit := do
  openScope []
  (params.forM declareReady : Resolver Unit)
  body.forM (inner.stmt context)
  closeScope

/-- Resolves a function with a name, which its body may use. -/
@[inline] def functionDeclaration (name : Name) (params : List Name) (body : List S) : M Unit := do
  declareReady name
  inner.function { context with inFunction := .function } params body

/-- Resolves the two operands of an operator. -/
@[inline] def operands (left right : E) : M Unit := do
  inner.expr context left
  inner.expr context right

/-- Resolves a call. -/
@[inline] def call (callee : E) (arguments : List E) : M Unit := do
  inner.expr context callee
  arguments.forM (inner.expr context)

/-- Resolves an assignment to a property. The value comes before the object. -/
@[inline] def set (object value : E) : M Unit := do
  inner.expr context value
  inner.expr context object

/-- Resolves an assignment. The use is recorded behind the value. -/
@[inline] def assign (id : UseId) (name : Name) (value : E) : M Unit := do
  inner.expr context value
  resolveUse .assignment name.text name.line id

/-- Resolves a variable declaration. -/
@[inline] def varDeclaration (name : Name) (initializer : Option E) : M Unit := do
  -- The name is in scope for its initializer, but not ready there.
  declare name
  if let some e := initializer then
    beginInitializer name.text
    inner.expr context e
    endInitializer name.text
  define name

/-- Resolves a block. -/
@[inline] def block (body : List S) : M Unit := do
  openScope []
  body.forM (inner.stmt context)
  closeScope

/-- Resolves an if statement. -/
@[inline] def ifThen (condition : E) (consequence : S) (alternative : Option S) : M Unit := do
  inner.expr context condition
  inner.stmt context consequence
  if let some s := alternative then
    inner.stmt context s

/-- Resolves a while statement. -/
@[inline] def whileDo (condition : E) (body : S) : M Unit := do
  inner.expr context condition
  inner.stmt context body

/-- Resolves a return statement. -/
@[inline] def returnValue (line : Nat) (value : Option E) : M Unit := do
  if context.inFunction = .none then
    report (Keyword.«return».place line) .returnAtTopLevel
  if let some e := value then
    if context.inFunction = .initializer then
      report (Keyword.«return».place line) .returnValueFromInitializer
    inner.expr context e

/-- Resolves a static method, which stands outside the scopes of `this` and `super`. -/
@[inline] def staticFunction (name : Name) (params : List Name) (body : List S) : M Unit := do
  if name.text = initializerName then
    report name.place .staticInitializer
  inner.function ⟨.method, .staticMethod⟩ params body

/-- Resolves a method of instances. -/
@[inline] def instanceFunction (inClass : ClassContext) (name : Name) (params : List Name)
    (body : List S) : M Unit :=
  let inFunction := if name.text = initializerName then .initializer else .method
  inner.function ⟨inFunction, inClass⟩ params body

/-- Resolves a class declaration, given how its members are. The methods of instances stand in a
scope that holds `this`, and that in one that holds `super` if there is a superclass. -/
@[inline] def classWith {U : Type} (name : Name) (parent : Option U) (superclass : U → M Unit)
    (staticMethods : M Unit) (methods : ClassContext → M Unit) : M Unit := do
  declareReady name
  if let some use := parent then
    superclass use
  staticMethods
  if parent.isSome then
    openScope [("super", true)]
  openScope [("this", true)]
  methods (if parent.isSome then .subclass else .«class»)
  closeScope
  if parent.isSome then
    closeScope

end Walk

/-!
## Walking over trees

The general rules of a walk, carried out by a resolver over trees without further data. Only uses of
`this` and `super`, and which of its parts a node has, are said here.
-/

/-- The walks over the parts of a tree that lie one level further in. -/
abbrev ScopeWalk := Walk Resolver Expr Stmt

namespace ScopeWalk

/-- Resolves a use of `this`. -/
def this (context : ScopeContext) (id : UseId) (line : Nat) : Resolver Unit :=
  match context.inClass with
  | .none => report (Keyword.this.place line) .thisOutsideClass
  | .staticMethod => report (Keyword.this.place line) .thisInStaticMethod
  | .«class» | .subclass => resolveUse .this "this" line id

/-- Resolves a use of `super`. -/
def super (context : ScopeContext) (id : UseId) (line : Nat) : Resolver Unit :=
  match context.inClass with
  | .none => report (Keyword.super.place line) .superOutsideClass
  | .staticMethod => report (Keyword.super.place line) .superInStaticMethod
  | .«class» => report (Keyword.super.place line) .superWithoutSuperclass
  | .subclass => resolveUse .super "super" line id

/-- Resolves an expression. -/
def exprRule (inner : ScopeWalk) (context : ScopeContext) : Expr → Resolver Unit
  | .literal _ => pure ()
  | .grouping e => inner.expr context e
  | .unary _ _ e => inner.expr context e
  | .binary _ _ left right => inner.operands context left right
  | .logical _ _ left right => inner.operands context left right
  | .«variable» use => readVariable use
  | .assign id name value => inner.assign context id name value
  | .call callee _ arguments => inner.call context callee arguments
  | .get object _ => inner.expr context object
  | .set object _ value => inner.set context object value
  | .lambda _ params body => inner.function { context with inFunction := .function } params body
  | .this id line => this context id line
  | .super id line _ => super context id line

/-- Resolves a static method. -/
def staticMethod (inner : ScopeWalk) (f : FunctionDecl) : Resolver Unit :=
  inner.staticFunction f.name f.params f.body

/-- Resolves a method of instances. -/
def instanceMethod (inner : ScopeWalk) (inClass : ClassContext) (f : FunctionDecl) :
    Resolver Unit :=
  inner.instanceFunction inClass f.name f.params f.body

/-- Resolves the superclass of a class. -/
def superclass (name : Name) (use : VariableUse) : Resolver Unit := do
  if name.text = use.name.text then
    report use.name.place .inheritsFromItself
  readVariable use

/-- Resolves a class declaration. -/
def classDeclaration (inner : ScopeWalk) (name : Name) (parent : Option VariableUse)
    (methods staticMethods : List FunctionDecl) : Resolver Unit :=
  Walk.classWith name parent (superclass name) (staticMethods.forM inner.staticMethod)
    fun inClass => methods.forM (inner.instanceMethod inClass)

/-- Resolves a statement. -/
def stmtRule (inner : ScopeWalk) (context : ScopeContext) : Stmt → Resolver Unit
  | .expression e => inner.expr context e
  | .print e => inner.expr context e
  | .var name initializer => inner.varDeclaration context name initializer
  | .block body => inner.block context body
  | .ifThen condition consequence alternative =>
    inner.ifThen context condition consequence alternative
  | .whileDo condition body => inner.whileDo context condition body
  | .function f => inner.functionDeclaration context f.name f.params f.body
  | .returnValue line value => inner.returnValue context line value
  | .classDecl name parent methods staticMethods =>
    inner.classDeclaration name parent methods staticMethods

/-- Nothing can be nested any further. -/
def innermost : ScopeWalk where
  expr _ _ := throw .tooDeep
  stmt _ _ := throw .tooDeep

/-- The walks around walks one level further in. -/
def around (inner : ScopeWalk) : ScopeWalk where
  expr := inner.exprRule
  stmt := inner.stmtRule

end ScopeWalk

/-- The walks over trees with at most `depth` levels of nesting. -/
def scopeWalk : Nat → ScopeWalk
  | 0 => .innermost
  | depth + 1 => (scopeWalk depth).around

/-- The outcome of resolving: the resolved uses in the order in which they were met, and what was
reported. -/
structure Resolution where
  uses : List Resolved
  reports : List Report
deriving DecidableEq, Repr

/-- Resolves a program with at most `depth` levels of nesting. Deeper nesting is reported at the end
of the source. -/
def resolve (depth endLine : Nat) (statements : List Stmt) : Resolution :=
  match statements.forM ((scopeWalk depth).stmt ⟨.none, .none⟩) ⟨[], [], [], []⟩ with
  | .ok _ s => ⟨s.uses.reverse, s.reports⟩
  | .error .tooDeep s =>
    ⟨s.uses.reverse, s.reports ++ [.located (.endOfSource endLine) .nesting]⟩

end LoxLang
