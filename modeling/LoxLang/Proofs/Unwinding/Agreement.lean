import LoxLang.Proofs.Unwinding

/-!
# Unwinding agrees with plain evaluation

Evaluation in which `return` unwinds is plain evaluation, read in that way: `plain` and `unwound`
are compatible with the way steps are put together, so each rule of the one evaluator is the image
of the same rule of the other (`evaluator_eq`).
-/

namespace LoxLang.Unwinding

variable {α β : Type}

/-!
## Steps

How the two readings of a step go with the ways to combine steps: one after the other, under a
condition, in a frame, and behind an end that may be a `return`.
-/

namespace Run

theorem plain_pure (a : α) : plain (pure a) = pure a := rfl

theorem plain_get : plain get = get := rfl

theorem plain_bind (p : LoxLang.Run α) (q : α → LoxLang.Run β) :
    plain (p >>= q) = plain p >>= fun a => plain (q a) := by
  funext m
  show plain (EStateM.bind p q) m = EStateM.bind (plain p) (fun a => plain (q a)) m
  unfold plain EStateM.bind
  dsimp only
  cases p m <;> rfl

theorem plain_ite (c : Prop) [Decidable c] (p q : LoxLang.Run α) :
    plain (if c then p else q) = if c then plain p else plain q := by
  split <;> rfl

theorem unwound_bind (p : LoxLang.Run α) (q : α → LoxLang.Run Completion) :
    unwound (p >>= q) = plain p >>= fun a => unwound (q a) := by
  funext m
  show unwound (EStateM.bind p q) m = EStateM.bind (plain p) (fun a => unwound (q a)) m
  unfold unwound plain EStateM.bind
  dsimp only
  cases p m <;> rfl

theorem unwound_ite (c : Prop) [Decidable c] (p q : LoxLang.Run Completion) :
    unwound (if c then p else q) = if c then unwound p else unwound q := by
  split <;> rfl

/-- What always ends normally does not unwind. -/
theorem unwound_normally (p : LoxLang.Run α) :
    unwound (Completion.endings.normally p) = plain p >>= fun _ => pure () :=
  unwound_bind p fun _ => pure .normal

/-- To go on only behind a normal end is just to go on, where returning unwinds. -/
theorem unwound_andThen (p q : LoxLang.Run Completion) :
    unwound (do
      match ← p with
      | .normal => q
      | .returned v => return .returned v) = unwound p >>= fun _ => unwound q := by
  funext m
  show unwound (EStateM.bind p _) m = EStateM.bind (unwound p) (fun _ => unwound q) m
  unfold unwound EStateM.bind
  dsimp only
  rcases p m with ⟨_ | v, m'⟩ | ⟨a, m'⟩ <;> rfl

theorem unwound_inFrame (f : FrameId) (p : LoxLang.Run Completion) :
    unwound (LoxLang.Run.inFrame f p) = inFrame f (unwound p) := by
  funext m
  unfold unwound LoxLang.Run.inFrame inFrame
  dsimp only
  rcases p { m with current := f } with ⟨_ | v, m'⟩ | ⟨a, m'⟩ <;> rfl

/-- The value of a body that was executed: what it returned, or `nil`. -/
def valueOf : Completion → Value
  | .normal => .nil
  | .returned v => v

/-- To catch what unwinds is to look at how the body ends. -/
theorem catchReturn_unwound (p : LoxLang.Run Completion) :
    catchReturn (unwound p) = plain p >>= fun c => pure (valueOf c) := by
  funext m
  show catchReturn (unwound p) m = EStateM.bind (plain p) (fun c => pure (valueOf c)) m
  unfold catchReturn unwound plain EStateM.bind
  dsimp only
  rcases p m with ⟨_ | v, m'⟩ | ⟨a, m'⟩ <;> rfl

end Run

/-!
## Rules

Around rules that are images of plain ones, the calls are images of the plain calls. Where one of
them catches a `return`, the plain one looks at how the body ends.
-/

namespace Evaluator

open Unwinding.Run

/-- Plain evaluation, read as one in which `return` unwinds. -/
def ofPlain (inner : LoxLang.Evaluator) : Evaluator where
  eval e := plain (inner.eval e)
  exec s := unwound (inner.exec s)

variable (host : Host) (inner : LoxLang.Evaluator)

theorem execAll_ofPlain (ss : List Stmt) :
    endings.execAll (ofPlain inner).exec ss = unwound (inner.execAll ss) := by
  induction ss with
  | nil => rfl
  | cons s ss ih =>
    unfold Endings.execAll
    rw [ih]
    exact (unwound_andThen (inner.exec s) (inner.execAll ss)).symm

theorem evalAll_ofPlain (es : List Expr) :
    ExprSteps.evalAll (ofPlain inner).eval es = plain (inner.evalAll es) := by
  induction es with
  | nil => rfl
  | cons e es ih =>
    show _ = plain (inner.eval e >>= fun v => inner.evalAll es >>= fun vs => pure (v :: vs))
    unfold ExprSteps.evalAll
    rw [ih]
    simp only [plain_bind, plain_pure]
    rfl

theorem callClosure_ofPlain (c : Closure) (arguments : List Value) :
    (ofPlain inner).callClosure c arguments = plain (inner.callClosure c arguments) := by
  unfold callClosure LoxLang.Evaluator.callClosure
  rw [execAll_ofPlain]
  simp only [← unwound_inFrame, catchReturn_unwound, plain_bind, bind_assoc, pure_bind]
  refine congrArg _ (funext fun frame => congrArg _ (funext fun completion => ?_))
  -- How the body ended matters only where its value does.
  unfold LoxLang.Evaluator.callResult
  rw [plain_ite]
  cases completion <;> rfl

theorem construct_ofPlain (c : ClassId) (init? : Option Closure) (arguments : List Value) :
    (ofPlain inner).construct c init? arguments = plain (inner.construct c init? arguments) := by
  unfold construct LoxLang.Evaluator.construct
  rw [plain_bind]
  refine congrArg _ (funext fun i => ?_)
  cases init? with
  | none => rfl
  | some init =>
    simp only [callClosure_ofPlain, plain_bind, plain_pure]

theorem invoke_ofPlain (arguments : List Value) (callee : Callee) :
    (ofPlain inner).invoke host arguments callee = plain (inner.invoke host arguments callee) := by
  cases callee with
  | native n => rfl
  | closure c => exact callClosure_ofPlain inner c arguments
  | constructor c init? => exact construct_ofPlain inner c init? arguments

theorem guarded_plain (place : Location) (p : LoxLang.Run α) :
    guarded place (plain p) = plain (LoxLang.Evaluator.guarded place p) := by
  funext m
  unfold guarded plain LoxLang.Evaluator.guarded
  cases p m with
  | ok a m' => rfl
  | error a m' => cases a <;> rfl

theorem call_ofPlain (place : Location) (callee : Value) (arguments : List Value) :
    (ofPlain inner).call host place callee arguments =
      plain (inner.call host place callee arguments) := by
  unfold call LoxLang.Evaluator.call
  rw [plain_bind, plain_get]
  refine congrArg _ (funext fun m => ?_)
  cases m.callee? callee with
  | none => rfl
  | some callee =>
    dsimp only
    rw [plain_ite, invoke_ofPlain, guarded_plain]

/-!
## Expressions

The rules for expressions are shared by both evaluators and hold no `return` themselves, so each is
compatible with `plain` by the lemmas about steps.
-/

theorem binary_ofPlain (op : BinaryOperator) (line : Nat) (left right : Expr) :
    (LoxLang.Evaluator.exprSteps.lift plain).binary (ofPlain inner).eval op line left right =
      plain (LoxLang.Evaluator.exprSteps.binary inner.eval op line left right) := by
  unfold ExprSteps.binary
  simp only [plain_bind]
  rfl

theorem logical_ofPlain (op : LogicalOperator) (left right : Expr) :
    ExprSteps.logical (ofPlain inner).eval op left right =
      plain (ExprSteps.logical inner.eval op left right) := by
  unfold ExprSteps.logical
  simp only [plain_bind, plain_ite, plain_pure]
  rfl

theorem assign_ofPlain (id : UseId) (name : Name) (value : Expr) :
    (LoxLang.Evaluator.exprSteps.lift plain).assign (ofPlain inner).eval id name value =
      plain (LoxLang.Evaluator.exprSteps.assign inner.eval id name value) := by
  unfold ExprSteps.assign
  simp only [plain_bind, plain_pure]
  rfl

theorem callExpr_ofPlain (callee : Expr) (line : Nat) (arguments : List Expr) :
    ExprSteps.callExpr (ofPlain inner).eval ((ofPlain inner).call host) callee line arguments =
      plain (inner.callExpr host callee line arguments) := by
  unfold ExprSteps.callExpr LoxLang.Evaluator.callExpr ExprSteps.callExpr
  simp only [plain_bind, evalAll_ofPlain, call_ofPlain]
  rfl

theorem getExpr_ofPlain (object : Expr) (name : Name) :
    (LoxLang.Evaluator.exprSteps.lift plain).getExpr (ofPlain inner).eval object name =
      plain (LoxLang.Evaluator.exprSteps.getExpr inner.eval object name) := by
  unfold ExprSteps.getExpr
  rw [plain_bind]
  refine congrArg _ (funext fun v => ?_)
  cases v <;> rfl

theorem setExpr_ofPlain (object : Expr) (name : Name) (value : Expr) :
    (LoxLang.Evaluator.exprSteps.lift plain).setExpr (ofPlain inner).eval object name value =
      plain (LoxLang.Evaluator.exprSteps.setExpr inner.eval object name value) := by
  unfold ExprSteps.setExpr
  rw [plain_bind]
  refine congrArg _ (funext fun v => ?_)
  cases v with
  | object i =>
    simp only [plain_bind, plain_pure]
    rfl
  | _ => rfl

theorem exprRule_ofPlain (e : Expr) :
    (ofPlain inner).exprRule host e = plain (inner.exprRule host e) := by
  cases e with
  | unary op line e => exact (plain_bind _ _).symm
  | binary op line left right => exact binary_ofPlain inner op line left right
  | logical op line left right => exact logical_ofPlain inner op left right
  | assign id name value => exact assign_ofPlain inner id name value
  | call callee line arguments => exact callExpr_ofPlain host inner callee line arguments
  | get object name => exact getExpr_ofPlain inner object name
  | set object name value => exact setExpr_ofPlain inner object name value
  | _ => rfl

/-!
## Statements

The rules for statements differ in what they do with a `return` inside of them. The plain ones pass
it on, and where it unwinds they need not.
-/

theorem block_ofPlain (body : List Stmt) :
    inBlock (endings.execAll (ofPlain inner).exec body) = unwound (inner.block body) := by
  unfold inBlock LoxLang.Evaluator.block LoxLang.Evaluator.inBlock
  simp only [unwound_bind, unwound_inFrame, execAll_ofPlain]

theorem loop_ofPlain (condition : Expr) (body : Stmt) (n : Nat) :
    endings.loop (ofPlain inner).eval (ofPlain inner).exec condition body n =
      unwound (Completion.endings.loop inner.eval inner.exec condition body n) := by
  induction n with
  | zero => rfl
  | succ n ih =>
    unfold Endings.loop
    rw [unwound_bind, ih]
    refine congrArg _ (funext fun v => ?_)
    rw [unwound_ite]
    exact congrArg (ite _ · _) (unwound_andThen (inner.exec body) _).symm

theorem ifThen_ofPlain (condition : Expr) (consequence : Stmt) (alternative : Option Stmt) :
    endings.ifThen (ofPlain inner).eval (ofPlain inner).exec condition consequence alternative =
      unwound (Completion.endings.ifThen inner.eval inner.exec condition consequence
        alternative) := by
  unfold Endings.ifThen
  rw [unwound_bind]
  refine congrArg _ (funext fun v => ?_)
  rw [unwound_ite]
  cases alternative <;> rfl

theorem var_ofPlain (name : Name) (initializer : Option Expr) :
    stmtSteps.var (ofPlain inner).eval name initializer =
      plain (LoxLang.Evaluator.stmtSteps.var inner.eval name initializer) := by
  cases initializer with
  | none => rfl
  | some e => exact (plain_bind (inner.eval e) fun v => LoxLang.Run.define name.text v).symm

theorem printValue_ofPlain (e : Expr) :
    stmtSteps.printValue (ofPlain inner).eval e =
      plain (LoxLang.Evaluator.stmtSteps.printValue inner.eval e) :=
  (plain_bind (inner.eval e) LoxLang.Run.print).symm

theorem returnValue_ofPlain (value : Option Expr) :
    endings.returnValue (ofPlain inner).eval value =
      unwound (Completion.endings.returnValue inner.eval value) := by
  cases value with
  | none => rfl
  | some e => exact (unwound_bind (inner.eval e) fun v => pure (.returned v)).symm

theorem stmtRule_ofPlain (s : Stmt) :
    (ofPlain inner).stmtRule host s = unwound (inner.stmtRule host s) := by
  cases s with
  | expression e => exact (unwound_normally _).symm
  | print e =>
    refine Eq.trans ?_ (unwound_normally _).symm
    exact congrArg endings.normally (printValue_ofPlain inner e)
  | var name initializer =>
    refine Eq.trans ?_ (unwound_normally _).symm
    exact congrArg endings.normally (var_ofPlain inner name initializer)
  | block body => exact block_ofPlain inner body
  | ifThen condition consequence alternative =>
    exact ifThen_ofPlain inner condition consequence alternative
  | whileDo condition body => exact loop_ofPlain inner condition body host.iterations
  | function f => exact (unwound_normally (LoxLang.Evaluator.function f)).symm
  | returnValue line value => exact returnValue_ofPlain inner value
  | classDecl name parent methods statics => exact (unwound_normally _).symm

end Evaluator

/-- Unwinding evaluation is plain evaluation, read as unwinding, within every bound of nesting. -/
theorem evaluator_eq (host : Host) (depth : Nat) :
    evaluator host depth = .ofPlain (LoxLang.evaluator host depth) := by
  induction depth with
  | zero => rfl
  | succ depth ih =>
    unfold evaluator LoxLang.evaluator Evaluator.around
    rw [ih]
    have hexpr := funext (Evaluator.exprRule_ofPlain host (LoxLang.evaluator host depth))
    have hstmt := funext (Evaluator.stmtRule_ofPlain host (LoxLang.evaluator host depth))
    rw [hexpr, hstmt]
    rfl

end LoxLang.Unwinding
