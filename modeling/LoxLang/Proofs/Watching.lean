import LoxLang.Proofs.Scoping
import LoxLang.Session

/-!
# Evaluation under watch

An evaluator that does something more each time before it evaluates an expression. What it does may
look at the state and end the run, so that what holds whenever an expression is evaluated can be
said by a run under watch that ends as the plain one does.

The superclass of a class declaration is read by the declaration itself. It is an evaluation of a
variable like others.
-/

namespace LoxLang

/-- The use of a name that an expression itself is, given the scopes that are open. -/
def Expr.visit? (scopes : List Scope) : Expr → Option Visit
  | .«variable» use => some ⟨.«variable», use.name.text, use.name.line, use.id, scopes⟩
  | .assign id name _ => some ⟨.assignment, name.text, name.line, id, scopes⟩
  | .this id line => some ⟨.this, "this", line, id, scopes⟩
  | .super id line _ => some ⟨.super, "super", line, id, scopes⟩
  | _ => none

theorem Expr.scopes_of_visit? {scopes : List Scope} {e : Expr} {v : Visit}
    (h : e.visit? scopes = some v) : v.scopes = scopes := by
  cases e <;> simp only [visit?] at h <;> cases h <;> rfl

theorem Expr.use_mem_occurrences {scopes : List Scope} {e : Expr} {v : Visit}
    (h : e.visit? scopes = some v) : .use v ∈ e.occurrences scopes := by
  cases e <;> simp only [visit?] at h <;> cases h <;> simp [occurrences]

namespace Evaluator

/-- What is done before a statement: of a class declaration, the superclass is evaluated. -/
def watchSuperclass (watch : Expr → Run Unit) : Stmt → Run Unit
  | .classDecl _ (some use) _ _ => watch (.«variable» use)
  | _ => pure ()

/-- The rules around rules one level further in, under watch. -/
def watchedAround (host : Host) (watch : Expr → Run Unit) (inner : Evaluator) : Evaluator where
  eval e := do
    watch e
    inner.exprRule host e
  exec s := do
    watchSuperclass watch s
    inner.stmtRule host s

end Evaluator

/-- Evaluation under watch with at most `depth` levels of nesting. -/
def watchedEvaluator (host : Host) (watch : Expr → Run Unit) : Nat → Evaluator
  | 0 => .innermost
  | depth + 1 => (watchedEvaluator host watch depth).watchedAround host watch

/-- Runs the statements of a program under watch. -/
def watchedExecute (host : Host) (watch : Expr → Run Unit) (depth : Nat) (program : List Stmt) :
    Run Unit :=
  let rules := watchedEvaluator host watch depth
  program.forM fun s => do
    let _ ← rules.exec s

/-- If nothing is done before an expression, evaluation is as ever. -/
theorem watchedEvaluator_pure (host : Host) (depth : Nat) :
    watchedEvaluator host (fun _ => pure ()) depth = evaluator host depth := by
  induction depth with
  | zero => rfl
  | succ depth ih =>
    have hnothing : Evaluator.watchSuperclass (fun _ => pure ()) = fun _ => pure () := by
      funext s
      unfold Evaluator.watchSuperclass
      split <;> rfl
    unfold watchedEvaluator evaluator Evaluator.watchedAround Evaluator.around
    rw [ih, hnothing]
    rfl

theorem watchedExecute_pure (host : Host) (depth : Nat) (program : List Stmt) :
    watchedExecute host (fun _ => pure ()) depth program = execute host depth program := by
  unfold watchedExecute execute
  rw [watchedEvaluator_pure]

end LoxLang
