import LoxLang.Proofs.Receivers.Steps
import LoxLang.Proofs.Lexical.Lookups

/-!
# Evaluation keeps states genuine

Since genuine states are a maintained invariant, whole evaluators keep them, also under a watch that
may end the run at any moment (`keeps_watchedEvaluator`). In later states the instance that an
initializer is bound to is still found, so that is what a call of it gives, however its body ends
(`callClosure_initializer`).
-/

namespace LoxLang

open Machine (Later Genuine)
open Lexical (Harmless)

variable {F : FunctionText → Prop}

/-! ## Whole evaluators -/

/-- What an evaluator is used on keeps states genuine, if it belongs to the programs. -/
structure Evaluator.Keeps (F : FunctionText → Prop) (inner : Evaluator) : Prop where
  eval : ∀ {m S e}, Belongs F (e.occurrences S) e.functions →
    (Genuine.invariant F).Keeps m (inner.eval e) fun m v => m.Holds v
  exec : ∀ {m S s}, Belongs F (s.occurrences S) s.functions →
    (Genuine.invariant F).Keeps m (inner.exec s) fun m c => c.HeldIn m

/-- Evaluation keeps states genuine, at whatever moment it is ended. -/
theorem keeps_watchedEvaluator (F : FunctionText → Prop) {watch : Expr → Run Unit}
    (hwatch : Harmless watch) (host : Host) (depth : Nat) :
    (watchedEvaluator host watch depth).Keeps F := by
  have hrules := (maintained_genuine F).watchedEvaluator (hwatch.agrees _) host depth
  refine ⟨fun {m S e} he => (hrules.eval (e.belongTo he)).keeps, fun {m S s} hs => ?_⟩
  refine ((hrules.exec (s.belongTo hs)).mono fun m' c _ hc => ?_).keeps
  cases c <;> exact hc

/-! ## Initializers -/

namespace Evaluator

/-- Looking up the instance that an initializer is bound to does not fail, however much later. -/
theorem callResult_initializer {m m' : Machine} {c : Closure} {i : InstanceId}
    (hthis : m.frames.local? c.frame "this" = some (.object i)) (hinit : c.isInitializer = true)
    (hlater : Later m m') (completion : Completion) :
    callResult c completion m' = .ok (.object i) m' := by
  unfold callResult
  rw [if_pos hinit]
  unfold Run.readAt
  rw [Homed.getAt_zero (hlater.frames.hidden not_isName_this hthis)]
  rfl

/-- However the body of an initializer ends that is bound to an instance, the call gives that
instance. -/
theorem callClosure_initializer {inner : Evaluator} {m m₁ : Machine} {c : Closure}
    {i : InstanceId} {arguments : List Value} {completion : Completion}
    (hinner : (Genuine.invariant F).Agreement inner inner) (hm : m.Genuine F)
    (hc : (Genuine.invariant F).function m c)
    (hthis : m.frames.local? c.frame "this" = some (.object i)) (hinit : c.isInitializer = true)
    (harguments : ∀ v ∈ arguments, m.Holds v)
    (hbody : (do
      let frame ← callFrame c arguments
      Run.inFrame frame (inner.execAll c.body)) m = .ok completion m₁) :
    inner.callClosure c arguments m = .ok (.object i) m₁ := by
  have hkeeps := ((maintained_genuine F).callBody hinner hc harguments hm).2
  rw [hbody] at hkeeps
  rw [callClosure_eq, Run.bind_of_ok hbody]
  exact callResult_initializer hthis hinit hkeeps.2.1 completion

end Evaluator

end LoxLang
