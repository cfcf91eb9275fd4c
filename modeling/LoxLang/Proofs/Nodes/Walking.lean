import LoxLang.Proofs.Nodes
import LoxLang.Scope

/-!
# Walking over nodes

The walk over trees whose nodes have identities. It notes each node at which it arrives (`visit`);
what it does there is what the plain walk does, by the rules that both share (`Walk`).
-/

namespace LoxLang

open LoxLang.Resolver

/-- What has been found out so far, and the nodes visited on the way. -/
structure VisitState where
  scope : ScopeState
  visited : List NodeId

/-- A step of resolving that notes the nodes it visits. -/
abbrev NodeResolver := EStateM ScopeStop VisitState

namespace NodeResolver

/-- A step that visits no node. -/
def lift {α : Type} (q : Resolver α) : NodeResolver α := fun s =>
  match q s.scope with
  | .ok a t => .ok a { s with scope := t }
  | .error e t => .error e { s with scope := t }

/-- Arrives at a node. -/
def visit (n : NodeId) : NodeResolver Unit := fun s =>
  .ok () { s with visited := s.visited ++ [n] }

end NodeResolver

open LoxLang.NodeResolver

/-- Steps of resolving are steps that visit no node. -/
instance : MonadLift Resolver NodeResolver := ⟨lift⟩

/-- The walks over the parts of a tree that lie one level further in. -/
abbrev NodeWalk := Walk NodeResolver ExprNode StmtNode

namespace NodeWalk

/-- Resolves an expression. -/
def exprRule (inner : NodeWalk) (context : ScopeContext) : ExprNode → NodeResolver Unit
  | .literal n _ => visit n
  | .grouping n e => do
    visit n
    inner.expr context e
  | .unary n _ _ e => do
    visit n
    inner.expr context e
  | .binary n _ _ left right => do
    visit n
    inner.operands context left right
  | .logical n _ _ left right => do
    visit n
    inner.operands context left right
  | .«variable» v => do
    visit v.node
    readVariable v.use
  | .assign n id name value => do
    visit n
    inner.assign context id name value
  | .call n callee _ arguments => do
    visit n
    inner.call context callee arguments
  | .get n object _ => do
    visit n
    inner.expr context object
  | .set n object _ value => do
    visit n
    inner.set context object value
  | .lambda n _ params body => do
    visit n
    inner.function { context with inFunction := .function } params body
  | .this n id line => do
    visit n
    ScopeWalk.this context id line
  | .super n id line _ => do
    visit n
    ScopeWalk.super context id line

/-- Resolves a static method. -/
def staticMethod (inner : NodeWalk) (f : FunctionNode) : NodeResolver Unit := do
  visit f.node
  inner.staticFunction f.name f.params f.body

/-- Resolves a method of instances. -/
def instanceMethod (inner : NodeWalk) (inClass : ClassContext) (f : FunctionNode) :
    NodeResolver Unit := do
  visit f.node
  inner.instanceFunction inClass f.name f.params f.body

/-- Resolves the superclass of a class. -/
def superclass (name : Name) (v : UseNode) : NodeResolver Unit := do
  visit v.node
  ScopeWalk.superclass name v.use

/-- Resolves a class declaration. -/
def classDeclaration (inner : NodeWalk) (name : Name) (parent : Option UseNode)
    (methods staticMethods : List FunctionNode) : NodeResolver Unit :=
  Walk.classWith name parent (superclass name) (staticMethods.forM inner.staticMethod)
    fun inClass => methods.forM (inner.instanceMethod inClass)

/-- Resolves a statement. -/
def stmtRule (inner : NodeWalk) (context : ScopeContext) : StmtNode → NodeResolver Unit
  | .expression n e => do
    visit n
    inner.expr context e
  | .print n e => do
    visit n
    inner.expr context e
  | .var n name initializer => do
    visit n
    inner.varDeclaration context name initializer
  | .block n body => do
    visit n
    inner.block context body
  | .ifThen n condition consequence alternative => do
    visit n
    inner.ifThen context condition consequence alternative
  | .whileDo n condition body => do
    visit n
    inner.whileDo context condition body
  | .function f => do
    visit f.node
    inner.functionDeclaration context f.name f.params f.body
  | .returnValue n line value => do
    visit n
    inner.returnValue context line value
  | .classDecl n name parent methods staticMethods => do
    visit n
    inner.classDeclaration name parent methods staticMethods

/-- Nothing can be nested any further. -/
def innermost : NodeWalk where
  expr _ _ := throw .tooDeep
  stmt _ _ := throw .tooDeep

/-- The walks around walks one level further in. -/
def around (inner : NodeWalk) : NodeWalk where
  expr := inner.exprRule
  stmt := inner.stmtRule

end NodeWalk

/-- The walks over trees with at most `depth` levels of nesting. -/
def nodeWalk : Nat → NodeWalk
  | 0 => .innermost
  | depth + 1 => (nodeWalk depth).around

/-- Resolves a program. Gives the nodes visited besides. -/
def resolveNodes (depth endLine : Nat) (program : List StmtNode) : Resolution × List NodeId :=
  match program.forM ((nodeWalk depth).stmt ⟨.none, .none⟩) ⟨⟨[], [], [], []⟩, []⟩ with
  | .ok _ s => (⟨s.scope.uses.reverse, s.scope.reports⟩, s.visited)
  | .error .tooDeep s =>
    (⟨s.scope.uses.reverse,
      s.scope.reports ++ [.located (.endOfSource endLine) .nesting]⟩, s.visited)

end LoxLang
