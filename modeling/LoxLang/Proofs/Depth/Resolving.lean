import LoxLang.Proofs.Depth.Parsing
import LoxLang.Scope

/-!
# Resolving within a depth

A walk over a tree has but one reason to give up, that its levels have run out, and every part of
the walk hands it on. So a tree that is resolved without a report of nesting beyond the bound is
resolved the same by any walks beyond the bound.
-/

namespace LoxLang

open LoxLang.Resolver ScopeWalk

variable {B : Type} {nothing : B}

/-- Walks over trees, with nothing nested any further in one of the ways to fill them. -/
def resolverLimit (nothing : B) : Limit B ScopeStop := ⟨nothing, (· = .tooDeep), fun _ _ => False⟩

/-- Walks that tell when their levels run out. -/
structure LimitedWalk (nothing : B) (inner : B → ScopeWalk) : Prop where
  expr : ∀ context e, Limited (resolverLimit nothing) fun b => (inner b).expr context e
  stmt : ∀ context s, Limited (resolverLimit nothing) fun b => (inner b).stmt context s

namespace LimitedWalk

theorem atLimit {walks : B → ScopeWalk} (h : walks nothing = .innermost) :
    LimitedWalk nothing walks where
  expr context e := .ranOut rfl (congrArg (·.expr context e) h) fun _ _ hquits => hquits.elim
  stmt context s := .ranOut rfl (congrArg (·.stmt context s) h) fun _ _ hquits => hquits.elim

variable {inner : B → ScopeWalk} (h : LimitedWalk nothing inner)
include h

theorem function (context : ScopeContext) (params : List Name) (body : List Stmt) :
    Limited (resolverLimit nothing) fun b => (inner b).function context params body :=
  .andThen fun _ => .andThen fun _ => (Limited.forM (h.stmt context) body).bind fun _ => .const _

theorem exprRule (context : ScopeContext) (e : Expr) :
    Limited (resolverLimit nothing) fun b => (inner b).exprRule context e := by
  cases e with
  | grouping e => exact h.expr context e
  | unary op line e => exact h.expr context e
  | binary op line left right => exact (h.expr context left).bind fun _ => h.expr context right
  | logical op line left right => exact (h.expr context left).bind fun _ => h.expr context right
  | assign id name value => exact (h.expr context value).bind fun _ => .const _
  | call callee line arguments =>
    exact (h.expr context callee).bind fun _ => .forM (h.expr context) arguments
  | get object name => exact h.expr context object
  | set object name value => exact (h.expr context value).bind fun _ => h.expr context object
  | lambda line params body => exact h.function _ params body
  | _ => exact .const _

theorem varDeclaration (context : ScopeContext) (name : Name) (initializer : Option Expr) :
    Limited (resolverLimit nothing) fun b => (inner b).varDeclaration context name initializer := by
  refine .andThen fun _ => ?_
  cases initializer with
  | none => exact .const _
  | some e =>
    exact .andThen fun _ => (h.expr context e).bind fun _ => .const _

theorem returnValue (context : ScopeContext) (line : Nat) (value : Option Expr) :
    Limited (resolverLimit nothing) fun b => (inner b).returnValue context line value := by
  cases value with
  | none => exact .ite (.const _) (.const _)
  | some e =>
    have hvalue := Limited.ite (c := context.inFunction = .initializer) (p := fun b => do
      report (Keyword.«return».place line) .returnValueFromInitializer
      (inner b).expr context e) (.andThen fun _ => h.expr context e) (h.expr context e)
    exact .ite (.andThen fun _ => hvalue) hvalue

theorem classDeclaration (name : Name) (parent : Option VariableUse)
    (methods staticMethods : List FunctionDecl) :
    Limited (resolverLimit nothing) fun b =>
      (inner b).classDeclaration name parent methods staticMethods := by
  have hstatic (f : FunctionDecl) :
      Limited (resolverLimit nothing) fun b => (inner b).staticMethod f :=
    .ite (.andThen fun _ => h.function _ f.params f.body) (h.function _ f.params f.body)
  have hmethod (inClass : ClassContext) (f : FunctionDecl) :
      Limited (resolverLimit nothing) fun b => (inner b).instanceMethod inClass f :=
    h.function _ f.params f.body
  refine .andThen fun _ => ?_
  cases parent with
  | none =>
    exact (Limited.forM hstatic staticMethods).bind fun _ => .andThen fun _ =>
      (Limited.forM (hmethod _) methods).bind fun _ => .const _
  | some use =>
    exact .andThen fun _ => (Limited.forM hstatic staticMethods).bind fun _ => .andThen fun _ =>
      .andThen fun _ => (Limited.forM (hmethod _) methods).bind fun _ => .const _

theorem stmtRule (context : ScopeContext) (s : Stmt) :
    Limited (resolverLimit nothing) fun b => (inner b).stmtRule context s := by
  cases s with
  | expression e => exact h.expr context e
  | print e => exact h.expr context e
  | var name initializer => exact h.varDeclaration context name initializer
  | block body =>
    exact .andThen fun _ => (Limited.forM (h.stmt context) body).bind fun _ => .const _
  | ifThen condition consequence alternative =>
    refine (h.expr context condition).bind fun _ => ?_
    cases alternative with
    | none => exact (h.stmt context consequence).bind fun _ => .const _
    | some s => exact (h.stmt context consequence).bind fun _ => h.stmt context s
  | whileDo condition body =>
    exact (h.expr context condition).bind fun _ => h.stmt context body
  | function f => exact .andThen fun _ => h.function _ f.params f.body
  | returnValue line value => exact h.returnValue context line value
  | classDecl name parent methods staticMethods =>
    exact h.classDeclaration name parent methods staticMethods

theorem around : LimitedWalk nothing fun b => (inner b).around := ⟨h.exprRule, h.stmtRule⟩

end LimitedWalk

/-! ## Whole programs -/

/-- Resolves a program by some walks. -/
def resolveBy (walk : ScopeWalk) (endLine : Nat) (statements : List Stmt) : Resolution :=
  match statements.forM (walk.stmt ⟨.none, .none⟩) ⟨[], [], [], []⟩ with
  | .ok _ s => ⟨s.uses.reverse, s.reports⟩
  | .error .tooDeep s =>
    ⟨s.uses.reverse, s.reports ++ [.located (.endOfSource endLine) .nesting]⟩

/-- What is resolved without nesting beyond the bound is resolved the same by all walks. -/
theorem LimitedWalk.resolveBy_eq {inner : B → ScopeWalk} (h : LimitedWalk nothing inner)
    {endLine : Nat} {statements : List Stmt}
    (hnested : ¬TooNested (resolveBy (inner nothing) endLine statements).reports) (b : B) :
    resolveBy (inner b) endLine statements = resolveBy (inner nothing) endLine statements := by
  have hprogram := Limited.forM (h.stmt ⟨.none, .none⟩) statements
  unfold resolveBy at hnested ⊢
  cases hprogram ⟨[], [], [], []⟩ with
  | within hsame =>
    dsimp only at hsame
    rw [hsame b]
    rfl
  -- Running out leaves the report that the program is nested too deeply, which is excluded.
  | @ranOut e s _ hnothing _ =>
    have hrun : statements.forM ((inner nothing).stmt ⟨.none, .none⟩) ⟨[], [], [], []⟩ =
      .error e s := hnothing
    rw [hrun] at hnested
    cases e
    exact absurd ⟨_, List.mem_concat_self⟩ hnested

end LoxLang
