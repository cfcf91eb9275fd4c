import LoxLang.Proofs.Depth
import LoxLang.Session

/-!
# Evaluation within a depth

Every rule of the evaluator tells when its levels run out. The nearest call takes this for a stack
overflow, and nothing takes a failure for anything else; so whatever is being evaluated is given up
at once, in the state that any other reason to give up would have left.
-/

namespace LoxLang

variable {B α : Type}

/-- Rules that give up, whatever they are used for. -/
def Evaluator.quitting (reason : Abort) : Evaluator where
  eval _ := throw reason
  exec _ := throw reason

/-- The reasons to give up that say that the levels have run out: as such, or as the failure of a
call within which they did. -/
def Abort.SaysTooDeep : Abort → Prop
  | .failure f => f.error = .stackOverflow
  | .tooDeep => True
  | _ => False

/-- Rules of evaluation, with other rules beyond them, or nothing. -/
def evaluatorLimit (nothing : B) (beyond : B → Evaluator) : Limit B Abort where
  nothing := nothing
  RanOut := Abort.SaysTooDeep
  Quits b reason := reason ≠ .tooDeep ∧ beyond b = .quitting reason

/-- Rules of evaluation that tell when their levels run out. -/
structure LimitedEvaluator (nothing : B) (beyond inner : B → Evaluator) : Prop where
  eval : ∀ e, Limited (evaluatorLimit nothing beyond) fun b => (inner b).eval e
  exec : ∀ s, Limited (evaluatorLimit nothing beyond) fun b => (inner b).exec s

namespace LimitedEvaluator

variable {nothing : B} {beyond inner : B → Evaluator}

theorem atLimit (h : beyond nothing = .innermost) : LimitedEvaluator nothing beyond beyond where
  eval e := .ranOut (e := .tooDeep) trivial (congrArg (·.eval e) h) fun _ _ hquits =>
    congrArg (·.eval e) hquits.2
  exec s := .ranOut (e := .tooDeep) trivial (congrArg (·.exec s) h) fun _ _ hquits =>
    congrArg (·.exec s) hquits.2

/-!
## Calls

A call turns nesting that is too deep into a failure at its own place. So the levels that ran out
may show as a stack overflow instead.
-/

/-- The way back to the present frame is the same however the body ends. -/
theorem inFrame {p : B → Run α} (hp : Limited (evaluatorLimit nothing beyond) p) (frame : FrameId) :
    Limited (evaluatorLimit nothing beyond) fun b => Run.inFrame frame (p b) := by
  intro m
  unfold Run.inFrame
  cases hp { m with current := frame } with
  | within hsame => exact .within fun b => by simp only [hsame b]
  | ranOut hreason hnothing hquits =>
    refine .ranOut hreason (by simp only [hnothing]; rfl) fun b x hx => ?_
    simp only [hquits b x hx]

/-- A call hands on every reason to give up but one. -/
theorem guarded_of_error {p : Run α} {place : Location} {m m' : Machine} {x : Abort}
    (h : p m = .error x m') (hx : x ≠ .tooDeep) :
    Evaluator.guarded place p m = .error x m' := by
  unfold Evaluator.guarded
  rw [h]
  cases x with
  | tooDeep => exact absurd rfl hx
  | _ => rfl

theorem guarded_of_tooDeep {p : Run α} {place : Location} {m m' : Machine}
    (h : p m = .error .tooDeep m') :
    Evaluator.guarded place p m = .error (.failure ⟨place, .stackOverflow⟩) m' := by
  unfold Evaluator.guarded
  rw [h]
  rfl

theorem guarded {p : B → Run α} (hp : Limited (evaluatorLimit nothing beyond) p)
    (place : Location) :
    Limited (evaluatorLimit nothing beyond) fun b => Evaluator.guarded place (p b) := by
  intro m
  cases hp m with
  | within hsame =>
    unfold Evaluator.guarded
    exact .within fun b => by simp only [hsame b]
  | @ranOut e m' hreason hnothing hquits =>
    have hpasses : ∀ b x, (evaluatorLimit nothing beyond).Quits b x →
        Evaluator.guarded place (p b) m = .error x m' :=
      fun b x hx => guarded_of_error (hquits b x hx) hx.1
    -- Levels that ran out outside of all inner calls become the failure of this one.
    by_cases he : e = .tooDeep
    · rw [he] at hnothing
      exact .ranOut (e := .failure ⟨place, .stackOverflow⟩) rfl (guarded_of_tooDeep hnothing)
        hpasses
    · exact .ranOut hreason (guarded_of_error hnothing he) hpasses

theorem normally {p : B → Run α} (hp : Limited (evaluatorLimit nothing beyond) p) :
    Limited (evaluatorLimit nothing beyond) fun b => Completion.endings.normally (p b) :=
  hp.bind fun _ => .const _

variable (h : LimitedEvaluator nothing beyond inner) (host : Host)
include h

theorem evalAll (es : List Expr) :
    Limited (evaluatorLimit nothing beyond) fun b => (inner b).evalAll es := by
  induction es with
  | nil => exact .const _
  | cons e es ih => exact (h.eval e).bind fun _ => ih.bind fun _ => .const _

theorem execAll (ss : List Stmt) :
    Limited (evaluatorLimit nothing beyond) fun b => (inner b).execAll ss := by
  induction ss with
  | nil => exact .const _
  | cons s ss ih =>
    refine (h.exec s).bind fun completion => ?_
    cases completion with
    | normal => exact ih
    | returned v => exact .const _

theorem callClosure (c : Closure) (arguments : List Value) :
    Limited (evaluatorLimit nothing beyond) fun b => (inner b).callClosure c arguments :=
  .andThen fun frame => (inFrame (h.execAll c.body) frame).bind fun _ => .const _

theorem invoke (arguments : List Value) (callee : Callee) :
    Limited (evaluatorLimit nothing beyond) fun b => (inner b).invoke host arguments callee := by
  cases callee with
  | native n => exact .const _
  | closure c => exact h.callClosure c arguments
  | constructor c initializer =>
    refine .andThen fun object => ?_
    cases initializer with
    | none => exact .const _
    | some init =>
      exact .andThen fun bound => (h.callClosure bound arguments).bind fun _ => .const _

theorem call (place : Location) (callee : Value) (arguments : List Value) :
    Limited (evaluatorLimit nothing beyond) fun b =>
      (inner b).call host place callee arguments := by
  refine .andThen fun m => ?_
  cases m.callee? callee with
  | none => exact .const _
  | some callee => exact .ite (guarded (h.invoke host arguments callee) place) (.const _)

/-! ## Expressions -/

theorem exprRule (e : Expr) :
    Limited (evaluatorLimit nothing beyond) fun b => (inner b).exprRule host e := by
  cases e with
  | grouping e => exact h.eval e
  | unary op line e => exact (h.eval e).bind fun _ => .const _
  | binary op line left right =>
    exact (h.eval left).bind fun _ => (h.eval right).bind fun _ => .const _
  | logical op line left right => exact (h.eval left).bind fun _ => .ite (.const _) (h.eval right)
  | assign id name value =>
    exact (h.eval value).bind fun v => .const (Run.writeVariable id name v >>= fun _ => pure v)
  | call callee line arguments =>
    exact (h.eval callee).bind fun v => (h.evalAll arguments).bind fun vs => h.call host _ v vs
  | get object name =>
    refine (h.eval object).bind fun v => ?_
    cases v with
    | object i => exact .const (Run.property i name)
    | «class» c => exact .const (Run.staticProperty c name)
    | _ => exact .const (Run.fail name.place .noProperties)
  | set object name value =>
    refine (h.eval object).bind fun v => ?_
    cases v with
    | object i => exact (h.eval value).bind fun _ => .const _
    -- What does not evaluate parts needs no levels below.
    | _ => exact .const _
  | _ => exact .const _

/-!
## Statements

A loop runs its body as often as it likes, in the levels that it has. Its fuel is not one of them.
-/

/-- A loop may run out of levels in any of its iterations, and is given up in that one. -/
theorem loop (condition : Expr) (body : Stmt) (iterations : Nat) :
    Limited (evaluatorLimit nothing beyond) fun b =>
      Completion.endings.loop (inner b).eval (inner b).exec condition body iterations := by
  induction iterations with
  | zero => exact .const _
  | succ iterations ih =>
    refine (h.eval condition).bind fun v => .ite ?_ (.const (pure Completion.normal))
    refine (h.exec body).bind fun completion => ?_
    cases completion with
    | normal => exact ih
    | returned v => exact .const _

theorem ifThen (condition : Expr) (consequence : Stmt) (alternative : Option Stmt) :
    Limited (evaluatorLimit nothing beyond) fun b =>
      Completion.endings.ifThen (inner b).eval (inner b).exec condition consequence
        alternative := by
  refine (h.eval condition).bind fun v => .ite (h.exec consequence) ?_
  cases alternative with
  | none => exact .const (pure Completion.normal)
  | some s => exact h.exec s

theorem stmtRule (s : Stmt) :
    Limited (evaluatorLimit nothing beyond) fun b => (inner b).stmtRule host s := by
  cases s with
  | expression e => exact normally (h.eval e)
  | print e => exact normally ((h.eval e).bind fun _ => .const _)
  | var name initializer =>
    cases initializer with
    | none => exact normally (.const (Run.define name.text .nil))
    | some e => exact normally ((h.eval e).bind fun _ => .const _)
  | block body => exact .andThen fun _ => .andThen fun frame => inFrame (h.execAll body) frame
  | ifThen condition consequence alternative => exact h.ifThen condition consequence alternative
  | whileDo condition body => exact h.loop condition body host.iterations
  | returnValue line value =>
    cases value with
    | none => exact .const _
    | some e => exact (h.eval e).bind fun _ => .const _
  | function f => exact normally (.const (Evaluator.function f))
  | classDecl name parent methods statics =>
    exact normally (.const (Evaluator.classDecl name parent methods statics))

theorem around : LimitedEvaluator nothing beyond fun b => (inner b).around host :=
  ⟨h.exprRule host, h.stmtRule host⟩

end LimitedEvaluator

/-! ## Whole programs -/

/-- Runs the statements of a program one after the other by some rules. -/
def executeBy (rules : Evaluator) (program : List Stmt) : Run Unit :=
  program.forM fun s => do
    let _ ← rules.exec s

theorem LimitedEvaluator.executeBy {nothing : B} {beyond inner : B → Evaluator}
    (h : LimitedEvaluator nothing beyond inner) (program : List Stmt) :
    Limited (evaluatorLimit nothing beyond) fun b => LoxLang.executeBy (inner b) program :=
  .forM (fun s => (h.exec s).bind fun _ => .const _) program

theorem Abort.SaysTooDeep.ending {reason : Abort} (h : reason.SaysTooDeep) (endLine : Nat) :
    ∃ place, Ending.ofAbort endLine reason = .failed ⟨place, .stackOverflow⟩ := by
  cases reason with
  | failure f =>
    obtain ⟨place, error⟩ := f
    obtain rfl : error = .stackOverflow := h
    exact ⟨place, rfl⟩
  | tooDeep => exact ⟨_, rfl⟩
  | frame e => exact h.elim
  | endless => exact h.elim

end LoxLang
