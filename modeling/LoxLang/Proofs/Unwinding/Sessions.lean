import LoxLang.Proofs.Acceptance
import LoxLang.Proofs.Receivers.Rules
import LoxLang.Proofs.Unwinding.Agreement

/-!
# Returning unwinds to the call

A `return` at the top level would end the program where it unwinds, and would not where it is one
end of a statement among others. The walk that resolves names lets no such `return` pass, so no
statement at the top level of an accepted program ever returns, and whole sessions are the same with
unwinding and without (`returns_unwind`).
-/

namespace LoxLang

open LoxLang.Resolver

/-!
## Returns at the top level

A `return` outside of all functions is reported by the walk, so a program that is accepted has none.
Returns within the functions of a statement do not count.
-/

mutual

/-- Whether a statement has a `return` that does not stand in a function of it. -/
def Stmt.hasReturn : Stmt → Bool
  | .block body => stmtsHaveReturn body
  | .ifThen _ s none => s.hasReturn
  | .ifThen _ s (some t) => s.hasReturn || t.hasReturn
  | .whileDo _ s => s.hasReturn
  | .returnValue _ _ => true
  | _ => false

/-- Whether one of some statements has a `return` that does not stand in a function of it. -/
def stmtsHaveReturn : List Stmt → Bool
  | [] => false
  | s :: ss => s.hasReturn || stmtsHaveReturn ss

end

section Walks

variable {inner : ScopeWalk} {c : ClassContext}

/-- What a step passes without a report it passes. -/
theorem Resolver.walks_true {α : Type} {p : Resolver α} {Q : ScopeState → α → ScopeState → Prop}
    (h : Walks p Q) : Walks p fun _ _ _ => True :=
  h.mono fun _ _ _ _ => trivial

theorem walks_hasReturn_stmts
    (h : ∀ s, Walks (inner.stmt ⟨.none, c⟩ s) fun _ _ _ => s.hasReturn = false) (ss : List Stmt) :
    Walks (ss.forM (inner.stmt ⟨.none, c⟩)) fun _ _ _ => stmtsHaveReturn ss = false := by
  induction ss with
  | nil => exact (Unreported.pure ()).mono fun _ _ _ _ => rfl
  | cons s ss ih =>
    refine ((h s).bind fun _ => ih).mono ?_
    rintro _ _ _ ⟨_, _, hs, hss⟩
    rw [stmtsHaveReturn, hs, hss]
    rfl

theorem walks_hasReturn_returnValue (hinner : WalksAt inner) (line : Nat) (value : Option Expr) :
    Walks (inner.returnValue ⟨.none, c⟩ line value) fun _ _ _ => False := by
  have hreport := walks_report (Keyword.«return».place line) .returnAtTopLevel
  cases value with
  | none =>
    refine (hreport.bind fun _ => Unreported.pure ()).mono ?_
    rintro _ _ _ ⟨_, _, hfalse, -⟩
    exact hfalse
  | some e =>
    refine (hreport.bind fun _ => walks_true (hinner.expr ⟨.none, c⟩ e)).mono ?_
    rintro _ _ _ ⟨_, _, hfalse, -⟩
    exact hfalse

theorem walks_hasReturn_stmtRule (hinner : WalksAt inner)
    (h : ∀ s, Walks (inner.stmt ⟨.none, c⟩ s) fun _ _ _ => s.hasReturn = false) (s : Stmt) :
    Walks (inner.stmtRule ⟨.none, c⟩ s) fun _ _ _ => s.hasReturn = false := by
  cases s with
  | block body =>
    refine ((walks_openScope []).bind fun _ => (walks_hasReturn_stmts h body).bind
      fun _ => walks_closeScope).mono ?_
    rintro _ _ _ ⟨_, _, -, _, _, hbody, -⟩
    exact hbody
  | ifThen condition s alternative =>
    have hcondition := walks_true (hinner.expr ⟨.none, c⟩ condition)
    cases alternative with
    | none =>
      refine (hcondition.bind fun _ => (h s).bind fun _ => Unreported.pure ()).mono ?_
      rintro _ _ _ ⟨_, _, -, _, _, hs, -⟩
      exact hs
    | some t =>
      refine (hcondition.bind fun _ => (h s).bind fun _ => h t).mono ?_
      rintro _ _ _ ⟨_, _, -, _, _, hs, ht⟩
      rw [Stmt.hasReturn, hs, ht]
      rfl
  | whileDo condition s =>
    refine ((walks_true (hinner.expr ⟨.none, c⟩ condition)).bind fun _ => h s).mono ?_
    rintro _ _ _ ⟨_, _, -, hs⟩
    exact hs
  | returnValue line value =>
    exact (walks_hasReturn_returnValue hinner line value).mono fun _ _ _ h => h.elim
  -- No other statement has a `return` of the function it stands in.
  | _ => exact (walks_stmtRule hinner ⟨.none, c⟩ _).mono fun _ _ _ _ => rfl

theorem walks_hasReturn (depth : Nat) (s : Stmt) :
    Walks ((scopeWalk depth).stmt ⟨.none, c⟩ s) fun _ _ _ => s.hasReturn = false := by
  induction depth generalizing s with
  | zero => exact Unreported.throw (by simp)
  | succ depth ih => exact walks_hasReturn_stmtRule (walks_scopeWalk depth) ih s

/-- An accepted program has no `return` at its top level. -/
theorem stmtsHaveReturn_of_reports_eq_nil {depth endLine : Nat} {program : List Stmt}
    (h : (resolve depth endLine program).reports = []) : stmtsHaveReturn program = false := by
  have hwalks := walks_hasReturn_stmts (walks_hasReturn (c := .none) depth) program ⟨[], [], [], []⟩
  unfold resolve at h
  split at hwalks
  · next s' hrun =>
    rw [hrun] at h
    exact hwalks.2 h
  · next s' hrun => simp [hrun] at h

end Walks

/-!
## Statements that never return

That a statement does not return is a matter of its text: without a `return` of its own it never
ends by returning, whatever it calls.
-/

/-- A statement never ends by returning. -/
def NeverReturns (p : Run Completion) : Prop := ∀ m v m', p m ≠ .ok (.returned v) m'

namespace NeverReturns

variable {α : Type} {host : Host} {inner : Evaluator}

theorem bind {p : Run α} {q : α → Run Completion} (hq : ∀ a, NeverReturns (q a)) :
    NeverReturns (p >>= q) := by
  intro m v m' h
  obtain ⟨a, m₁, -, h⟩ := Run.bind_eq_ok h
  exact hq a m₁ v m' h

theorem normal : NeverReturns (pure .normal) := by
  rintro m v m' ⟨⟩

theorem throw (a : Abort) : NeverReturns (throw a) := by
  rintro m v m' ⟨⟩

theorem ite {c : Prop} [Decidable c] {p q : Run Completion} (hp : NeverReturns p)
    (hq : NeverReturns q) : NeverReturns (if c then p else q) := by
  split
  · exact hp
  · exact hq

/-- Behind a statement that never returns, what comes next decides. -/
theorem andThen {p q : Run Completion} (hp : NeverReturns p) (hq : NeverReturns q) :
    NeverReturns (do
      match ← p with
      | .normal => q
      | .returned v => return .returned v) := by
  intro m v m' h
  obtain ⟨completion, m₁, hfirst, h⟩ := Run.bind_eq_ok h
  cases completion with
  | normal => exact hq m₁ v m' h
  | returned u => exact hp m u m₁ hfirst

theorem inFrame {p : Run Completion} (hp : NeverReturns p) (f : FrameId) :
    NeverReturns (Run.inFrame f p) := by
  intro m v m' h
  unfold Run.inFrame at h
  dsimp only at h
  split at h
  · next hrun =>
    cases h
    exact hp _ _ _ hrun
  · cases h

theorem execAll (h : ∀ s : Stmt, s.hasReturn = false → NeverReturns (inner.exec s))
    {ss : List Stmt} (hss : stmtsHaveReturn ss = false) : NeverReturns (inner.execAll ss) := by
  induction ss with
  | nil => exact normal
  | cons s ss ih =>
    rw [stmtsHaveReturn, Bool.or_eq_false_iff] at hss
    exact andThen (h s hss.1) (ih hss.2)

theorem loop (h : ∀ s : Stmt, s.hasReturn = false → NeverReturns (inner.exec s)) {s : Stmt}
    (hs : s.hasReturn = false) (condition : Expr) (n : Nat) :
    NeverReturns (Completion.endings.loop inner.eval inner.exec condition s n) := by
  induction n with
  | zero => exact throw .endless
  | succ n ih => exact bind fun v => ite (andThen (h s hs) ih) normal

theorem stmtRule (h : ∀ s : Stmt, s.hasReturn = false → NeverReturns (inner.exec s)) {s : Stmt}
    (hs : s.hasReturn = false) : NeverReturns (inner.stmtRule host s) := by
  cases s with
  | block body =>
    rw [Stmt.hasReturn] at hs
    exact bind fun _ => bind fun f => inFrame (execAll h hs) f
  | ifThen condition s alternative =>
    cases alternative with
    | none =>
      rw [Stmt.hasReturn] at hs
      exact bind fun v => ite (h s hs) normal
    | some t =>
      rw [Stmt.hasReturn, Bool.or_eq_false_iff] at hs
      exact bind fun v => ite (h s hs.1) (h t hs.2)
  | whileDo condition s =>
    rw [Stmt.hasReturn] at hs
    exact loop h hs condition host.iterations
  -- A `return` itself is excluded.
  | returnValue line value =>
    rw [Stmt.hasReturn] at hs
    cases hs
  | _ => exact bind fun _ => normal

theorem exec (host : Host) (depth : Nat) {s : Stmt} (hs : s.hasReturn = false) :
    NeverReturns ((evaluator host depth).exec s) := by
  induction depth generalizing s with
  | zero => exact throw .tooDeep
  | succ depth ih => exact stmtRule (fun _ => ih) hs

end NeverReturns

namespace Unwinding

variable {depth : Nat} {s : Session} {source : String}

/-!
## Programs and sessions

Accepted programs execute alike in both evaluations, and refused ones do not execute. So sessions go
the same way.
-/

/-- Without a `return` at the top level, a program is executed in the same way. -/
theorem execute_eq (host : Host) (depth : Nat) {program : List Stmt}
    (h : stmtsHaveReturn program = false) :
    execute host depth program = Run.plain (LoxLang.execute host depth program) := by
  unfold execute LoxLang.execute
  rw [evaluator_eq]
  induction program with
  | nil => rfl
  | cons s ss ih =>
    rw [stmtsHaveReturn, Bool.or_eq_false_iff] at h
    have hexec := NeverReturns.exec host depth h.1
    -- The signal is dropped behind each statement, and `hexec` says that there is none but to go
    -- on.
    have hstep : Run.unwound ((LoxLang.evaluator host depth).exec s) =
        Run.plain (do let _ ← (LoxLang.evaluator host depth).exec s) := by
      funext m
      show _ = Run.plain (EStateM.bind ((LoxLang.evaluator host depth).exec s) _) m
      unfold Run.unwound Run.plain EStateM.bind
      cases hrun : (LoxLang.evaluator host depth).exec s m with
      | error a m' => rfl
      | ok completion m' =>
        cases completion with
        | normal => rfl
        | returned v => exact absurd hrun (hexec m v m')
    simp only [List.forM_eq_forM, List.forM_cons] at ih ⊢
    rw [Run.plain_bind, ← ih h.2]
    exact congrArg (· >>= _) hstep

theorem executeProgram_eq (host : Host) (depth endLine : Nat) {program : List Stmt}
    (h : stmtsHaveReturn program = false) (uses : List Resolved) (m : Machine) :
    executeProgram host depth endLine program uses m =
      Session.executeProgram host depth endLine program uses m := by
  unfold executeProgram Session.executeProgram
  rw [execute_eq host depth h]
  unfold Run.plain
  dsimp only
  cases LoxLang.execute host depth program _ <;> rfl

theorem run_eq (host : Host) (depth : Nat) (s : Session) (source : String) :
    run host depth s source = s.run host depth source := by
  unfold run Session.run
  dsimp only
  split
  · rfl
  · split
    · rfl
    · next hresolved =>
      have hreturn := stmtsHaveReturn_of_reports_eq_nil (by simpa using hresolved)
      rw [executeProgram_eq host depth _ hreturn]

theorem play_eq (host : Host) (depth : Nat) (s : Session) (steps : List SessionStep) :
    play host depth s steps = s.play host depth steps := by
  unfold play Session.play
  rw [show run host depth = Session.run host depth from
    funext fun s => funext fun source => run_eq host depth s source]

/-- No statement at the top level of an accepted source text ever returns. -/
theorem neverReturns_of_accepts (h : s.Accepts depth source) {d : Stmt}
    (hd : d ∈ (parse depth s.nextUse (lex source)).statements) (host : Host) (levels : Nat) :
    NeverReturns ((LoxLang.evaluator host levels).exec d) := by
  have hreturn := stmtsHaveReturn_of_reports_eq_nil h.resolved
  refine NeverReturns.exec host levels ?_
  generalize (parse depth s.nextUse (lex source)).statements = program at hd hreturn
  induction program with
  | nil => cases hd
  | cons t ts ih =>
    rw [stmtsHaveReturn, Bool.or_eq_false_iff] at hreturn
    rcases List.mem_cons.mp hd with rfl | hd
    · exact hreturn.1
    · exact ih hd hreturn.2

/-- The value that is returned where a body ends. -/
def bodyValue : Completion → Value
  | .normal => .nil
  | .returned v => v

/-- What a call gives whose body has ended. An initializer gives the instance it is bound to. -/
theorem callClosure_of_body {F : FunctionText → Prop} (host : Host) (levels : Nat)
    {m m₁ : Machine} {c : Closure} {arguments : List Value} {completion : Completion}
    (hm : m.Genuine F) (horigin : m.Origin F c) (hwritten : Machine.Written F c)
    (harguments : ∀ v ∈ arguments, m.Holds v)
    (hbody : (do
      let frame ← LoxLang.Evaluator.callFrame c arguments
      LoxLang.Run.inFrame frame ((LoxLang.evaluator host levels).execAll c.body)) m =
        .ok completion m₁) :
    ∃ v, (LoxLang.evaluator host levels).callClosure c arguments m = .ok v m₁ ∧
      if c.isInitializer then ∃ i, v = .object i ∧ m.frames.local? c.frame "this" = some v
      else v = bodyValue completion := by
  by_cases hinit : c.isInitializer = true
  -- An initializer gives its instance, whatever its body has returned.
  · obtain ⟨i, hthis⟩ := horigin.receiver hinit
    have hrules := (maintained_genuine F).evaluator host levels
    refine ⟨.object i, LoxLang.Evaluator.callClosure_initializer hrules hm ⟨horigin, hwritten⟩ hthis
      hinit harguments hbody, ?_⟩
    rw [if_pos hinit]
    exact ⟨i, rfl, hthis⟩
  · have hcall : (LoxLang.evaluator host levels).callClosure c arguments m =
        LoxLang.Evaluator.callResult c completion m₁ := by
      rw [LoxLang.Evaluator.callClosure_eq]
      exact LoxLang.Run.bind_of_ok hbody
    refine ⟨bodyValue completion, ?_, by rw [if_neg hinit]⟩
    rw [hcall]
    unfold LoxLang.Evaluator.callResult
    rw [if_neg hinit]
    cases completion <;> rfl

/-- **Returning unwinds to the nearest call.** Whatever is run in a session, evaluation in which
`return` gives up the function around it shows and leaves behind the same as evaluation in which a
statement may end by returning. This is so of each expression and of each statement: an expression
never returns from the function it stands in, and a statement returns where the other one gives up.
No statement at the top level of an accepted source text ever returns. And when the body of a
function has ended, the call gives what it has returned, or `nil`, but for an initializer, which
gives its instance. -/
theorem returns_unwind (host : Host) (depth : Nat) (s : Session) (steps : List SessionStep) :
    play host depth s steps = s.play host depth steps ∧
    (∀ e, (evaluator host depth).eval e = Run.plain ((LoxLang.evaluator host depth).eval e)) ∧
    (∀ d, (evaluator host depth).exec d = Run.unwound ((LoxLang.evaluator host depth).exec d)) ∧
    (∀ (t : Session) source, t.Accepts depth source →
      ∀ d ∈ (parse depth t.nextUse (lex source)).statements,
        NeverReturns ((LoxLang.evaluator host depth).exec d)) ∧
    ∀ F m m₁ c arguments completion, m.Genuine F → m.Origin F c → Machine.Written F c →
      (∀ v ∈ arguments, m.Holds v) →
      (do
        let frame ← LoxLang.Evaluator.callFrame c arguments
        LoxLang.Run.inFrame frame ((LoxLang.evaluator host depth).execAll c.body)) m =
          .ok completion m₁ →
      ∃ v, (LoxLang.evaluator host depth).callClosure c arguments m = .ok v m₁ ∧
        if c.isInitializer then ∃ i, v = .object i ∧ m.frames.local? c.frame "this" = some v
        else v = bodyValue completion := by
  refine ⟨play_eq host depth s steps, fun e => ?_, fun d => ?_,
    fun t source ht d hd => neverReturns_of_accepts ht hd host depth,
    fun F m m₁ c arguments completion hm horigin hwritten harguments hbody =>
      callClosure_of_body host depth hm horigin hwritten harguments hbody⟩
  · rw [evaluator_eq]
    rfl
  · rw [evaluator_eq]
    rfl

/-- A function that returns from within loops and blocks, a function without a value, and an
initializer that returns early. What stands behind each `return` in its function is not executed,
what stands behind each call is. Beside it, a call in the first state of a session. -/
theorem returns_unwind_nested :
    let host : Host := ⟨fun _ => 0, 9⟩
    let source :=
      "fun f() \x7b while (true) \x7b \x7b return 1; \x7d print 0; \x7d print 0; \x7d " ++
      "fun g() \x7b if (true) return; print 0; \x7d " ++
      "class A \x7b init() \x7b this.x = 2; for (;;) return; this.x = 0; \x7d \x7d " ++
      "print f(); print g(); print A().x; print 3;"
    let lambda : Closure :=
      ⟨none, [], [.returnValue 1 (some (.literal (.string "a")))], Machine.globalFrame, false⟩
    play host 40 .initial [.run source] = Session.initial.play host 40 [.run source] ∧
      Session.initial.Accepts 40 source ∧
      (∀ d ∈ (parse 40 0 (lex source)).statements,
        NeverReturns ((LoxLang.evaluator host 40).exec d)) ∧
      (Session.initial.play host 40 [.run source]).1.map (·.output) = ["1\nnil\n2\n3\n"] ∧
      ∃ m₁, (LoxLang.evaluator host 40).callClosure lambda [] .initial = .ok (.string "a") m₁ := by
  intro host source lambda
  have haccepts : Session.initial.Accepts 40 source :=
    ⟨rfl, by decide +kernel, by decide +kernel, by decide +kernel⟩
  have hall := returns_unwind host 40 .initial [.run source]
  have hbody : ∃ m₁, (do
      let frame ← LoxLang.Evaluator.callFrame lambda []
      LoxLang.Run.inFrame frame ((LoxLang.evaluator host 40).execAll lambda.body))
        Machine.initial = .ok (.returned (.string "a")) m₁ := ⟨_, rfl⟩
  -- The body uses no name and makes no function.
  have hwritten : Machine.Written (fun _ => True) lambda :=
    ⟨[], fun o ho => (by cases ho), fun _ _ => trivial⟩
  obtain ⟨m₁, hbody⟩ := hbody
  obtain ⟨v, hcall, hv⟩ := hall.2.2.2.2 (fun _ => True) .initial m₁ lambda [] _ .initial
    (.lambda _ _ trivial rfl) hwritten (List.forall_mem_nil _) hbody
  obtain rfl : v = .string "a" := hv
  exact ⟨hall.1, haccepts, hall.2.2.2.1 .initial source haccepts, by decide +kernel, m₁, hcall⟩

end Unwinding

end LoxLang
