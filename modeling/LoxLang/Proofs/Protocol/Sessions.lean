import LoxLang.Proofs.Protocol.Agreement
import LoxLang.Proofs.Receivers.Sessions

/-!
# Sessions keep the protocol

Between the runs of a session its state is genuine and founded, and the functions of its programs
have parameters that differ (`Upheld`). So a session in which programs are evaluated by the protocol
is the session as ever (`calls_keep_protocol`).
-/

namespace LoxLang.Protocol

variable {F : FunctionText → Prop} {m : Machine} {S : List Scope} {watch : Moment → Run Unit}

/-- What calls rely on: the functions of the programs have different parameters, and the state is
genuine and founded. -/
structure Upheld (F : FunctionText → Prop) (m : Machine) : Prop where
  distinct : ∀ f, F f → (f.params.map (·.text)).Nodup
  good : (invariant F).good m

theorem upheld_initial : Upheld (fun _ => False) Machine.initial := ⟨nofun, .initial, .initial⟩

/-- A program whose functions have different parameters joins those before it. -/
theorem Upheld.extend (h : Upheld F m) {program : List Stmt}
    (hdistinct : ∀ f ∈ stmtsFunctions program, (f.params.map (·.text)).Nodup) :
    Upheld (fun f => F f ∨ f ∈ stmtsFunctions program) m where
  distinct f hf := hf.elim (h.distinct f) (hdistinct f)
  good := ⟨h.good.1.mono fun _ => .inl, h.good.2.mono fun _ hp => hp.mono fun _ => .inl⟩

section Watched

variable (hwatch : ∀ moment m, moment.Proper m → watch moment m = .ok () m) (host : Host)
  (depth : Nat)
include hwatch

/-- A program does by the protocol what it does as ever. -/
theorem Upheld.executeProgram (h : Upheld F m) (endLine : Nat) {program : List Stmt}
    (uses : List Resolved)
    (hprogram : Belongs F (stmtsOccurrences S program) (stmtsFunctions program)) :
    Session.executeProgramBy (evaluator host watch depth) endLine program uses m =
        Session.executeProgram host depth endLine program uses m ∧
      Upheld F (Session.executeProgram host depth endLine program uses m).2 := by
  have hknown := known_of_belongTo (stmts_belongTo program hprogram)
  have hbegin : (invariant F).good
      { m with output := "", distances := m.distances.insertAll uses } :=
    ⟨(h.good.1.congr { m with output := "", distances := m.distances.insertAll uses }
        rfl rfl rfl rfl).1,
      (h.good.2.same { m with output := "", distances := m.distances.insertAll uses }
        rfl rfl rfl rfl rfl).1⟩
  obtain ⟨hsame, hlead⟩ :=
    (agreement_evaluator h.distinct hwatch host depth).executeAll hknown hbegin
  -- The machine behind the run is good, whether the run has ended or failed.
  unfold Session.executeProgramBy Session.executeProgram executeBy execute
  dsimp only
  rw [hsame]
  unfold Invariant.Leads at hlead
  split at hlead
  · next hrun =>
    rw [hrun]
    exact ⟨rfl, h.distinct, hlead.1⟩
  · next hrun =>
    rw [hrun]
    exact ⟨rfl, h.distinct, hlead.1⟩

/-- Running a source text, whatever it is. -/
theorem Upheld.run {s : Session} (h : Upheld F s.machine) (source : String) :
    s.runBy ⟨grammar depth, scopeWalk depth, evaluator host watch depth⟩ source =
        s.run host depth source ∧
      ∃ F', Upheld F' (s.run host depth source).2.machine := by
  have hplain : s.run host depth source =
      s.runBy ⟨grammar depth, scopeWalk depth, LoxLang.evaluator host depth⟩ source := rfl
  have hparse (rules : Evaluator) :
      parseBy (Stages.parsing ⟨grammar depth, scopeWalk depth, rules⟩) s.nextUse (lex source) =
        parse depth s.nextUse (lex source) := rfl
  rw [hplain]
  cases hread : s.hadError ||
      !((lex source).reports ++ (parse depth s.nextUse (lex source)).reports).isEmpty with
  | true =>
    rw [Session.runBy_of_misread (hparse _) hread, Session.runBy_of_misread (hparse _) hread]
    exact ⟨rfl, F, h⟩
  | false =>
    obtain ⟨-, -, hparsed⟩ : s.hadError = false ∧ (lex source).reports = [] ∧
        (parse depth s.nextUse (lex source)).reports = [] := by
      simpa using hread
    have hresolve (rules : Evaluator) :
        resolveBy (Stages.resolving ⟨grammar depth, scopeWalk depth, rules⟩) (lex source).endLine
            (parse depth s.nextUse (lex source)).statements =
          resolve depth (lex source).endLine (parse depth s.nextUse (lex source)).statements := rfl
    by_cases hreports : (resolve depth (lex source).endLine
        (parse depth s.nextUse (lex source)).statements).reports = []
    case neg =>
      rw [Session.runBy_of_unresolved (hparse _) hread (hresolve _) hreports,
        Session.runBy_of_unresolved (hparse _) hread (hresolve _) hreports]
      exact ⟨rfl, F, h⟩
    rw [Session.runBy_of_resolved (hparse _) hread (hresolve _) hreports,
      Session.runBy_of_resolved (hparse _) hread (hresolve _) hreports]
    -- The text is accepted, so the parameters of its functions are different.
    have hwritten := (stretch_of_parse hparsed []).written
    have hextended := h.extend fun f hf => distinct_parameters hwritten hreports hf
    obtain ⟨hsame, hupheld⟩ := hextended.executeProgram hwatch host depth (lex source).endLine
      (resolve depth (lex source).endLine (parse depth s.nextUse (lex source)).statements).uses
      ⟨hwritten, fun _ => .inr⟩
    dsimp only
    exact ⟨by rw [hsame]; rfl, _, hupheld⟩

/-- Leading a session through steps. -/
theorem Upheld.play {s : Session} (h : Upheld F s.machine) (steps : List SessionStep) :
    play host watch depth s steps = s.play host depth steps := by
  have hagree : (Protocol.play host watch depth s steps).1 = (s.play host depth steps).1 ∧
      (Protocol.play host watch depth s steps).2 = (s.play host depth steps).2 ∧
      ∃ F', Upheld F' (s.play host depth steps).2.machine := by
    refine playSteps_agree (Φ := fun (s' s : Session) => s' = s ∧ ∃ F', Upheld F' s.machine)
      (fun s' s h => ?_) (fun s' s source h => ?_) ⟨rfl, F, h⟩ steps
    · exact ⟨congrArg Session.reset h.1, h.2⟩
    · obtain ⟨rfl, F, h⟩ := h
      obtain ⟨hrun, hupheld⟩ := h.run hwatch host depth source
      exact ⟨congrArg Prod.fst hrun, congrArg Prod.snd hrun, hupheld⟩
  exact Prod.ext hagree.1 hagree.2.1

end Watched

/-- A call with another number of arguments than its callee takes fails at once. -/
theorem call_of_arity_ne {host : Host} {inner : Evaluator} {place : Location} {callee : Value}
    {arguments : List Value} {target : Callee} (htarget : m.callee? callee = some target)
    (harity : arguments.length ≠ target.arity) :
    inner.call host place callee arguments m =
      .error (.failure ⟨place, .argumentCount target.arity arguments.length⟩) m := by
  have hget (q : Machine → Run Value) : (get >>= q) m = q m m := rfl
  unfold Evaluator.call
  rw [hget, htarget]
  dsimp only
  rw [if_neg harity]
  rfl

/-- **Calls keep the protocol.** Whatever is run in a session, evaluation by the protocol shows and
leaves behind the same as plain evaluation, also under a watch that lets proper moments pass, and
whatever else it may do. So each body that is entered is entered with as many arguments as the
function has parameters, each bound to its own. Each construction runs the nearest initializer, that
whose parameters were counted, on an instance that nothing refers to yet, or runs none if there is
none. It gives that instance, and so does each call of an initializer that is bound to one, however
its body ends.

A call with any other number of arguments than its callee takes fails at the closing parenthesis, in
the state that the evaluation of the arguments has left. -/
theorem calls_keep_protocol (host : Host) (depth : Nat) (steps : List SessionStep)
    (watch : Moment → Run Unit)
    (hwatch : ∀ moment m, moment.Proper m → watch moment m = .ok () m) :
    play host watch depth .initial steps = Session.initial.play host depth steps ∧
    (∀ (inner : Evaluator) callee line arguments m m₁ m₂ v vs target,
      inner.eval callee m = .ok v m₁ → inner.evalAll arguments m₁ = .ok vs m₂ →
      m₂.callee? v = some target → vs.length ≠ target.arity →
      inner.callExpr host callee line arguments m = .error (.failure
        ⟨Mark.rightParen.place line, .argumentCount target.arity vs.length⟩) m₂) ∧
    ∀ expected got, (RuntimeError.argumentCount expected got).message =
      s!"Expected {expected} arguments but got {got}." := by
  refine ⟨upheld_initial.play hwatch host depth steps, ?_, fun _ _ => rfl⟩
  intro inner callee line arguments m m₁ m₂ v vs target hcallee harguments htarget harity
  exact (Run.bind_of_ok hcallee).trans
    ((Run.bind_of_ok harguments).trans (call_of_arity_ne htarget harity))

open Classical in
/-- Ends the run at a moment that is not proper. -/
noncomputable def assertProper (moment : Moment) : Run Unit := fun m =>
  if moment.Proper m then .ok () m else .error (.frame .pastOutermost) m

/-- An initializer that returns early from within a loop, inherited, called again on its instance,
and called from another initializer with a function in it that returns a value. Then a call with too
few arguments. -/
theorem calls_keep_protocol_initializers :
    let host : Host := ⟨fun _ => 0, 9⟩
    let steps : List SessionStep :=
      [.run ("class A \x7b init(x) \x7b this.x = x; for (;;) \x7b \x7b if (x > 0) return; \x7d " ++
        "this.x = 0; \x7d \x7d \x7d class B < A \x7b \x7d class C < A \x7b init(a, b) \x7b " ++
        "super.init(a + b); fun f() \x7b return 1; \x7d f(); return; \x7d \x7d " ++
        "var p = B(1); print p.init(7) == p; print p.x; print C(2, 3).x;"),
        .run "print 0; B();"]
    let lambda : Expr := .lambda 1 [] []
    (∀ moment m, moment.Proper m → assertProper moment m = .ok () m) ∧
      play host assertProper 40 .initial steps = Session.initial.play host 40 steps ∧
      (Session.initial.play host 40 steps).1 =
        [⟨"true\n7\n5\n", [], .finished⟩,
          ⟨"0\n", [], .failed ⟨Mark.rightParen.place 1, .argumentCount 1 0⟩⟩] ∧
      ∃ m, (LoxLang.evaluator host 2).callExpr host lambda 1 [.literal .nil] .initial =
        .error (.failure ⟨Mark.rightParen.place 1, .argumentCount 0 1⟩) m := by
  intro host steps lambda
  have hassert : ∀ (moment : Moment) (m : Machine), moment.Proper m →
      assertProper moment m = .ok () m := fun _ _ h => if_pos h
  have hall := calls_keep_protocol host 40 steps assertProper hassert
  -- The function with no parameters is the first one made, so its number is 0.
  have hmismatch := hall.2.1 (LoxLang.evaluator host 2) lambda 1 [.literal .nil] .initial _ _
    (.function 0) [.nil] (.closure ⟨none, [], [], 0, false⟩) rfl rfl rfl (by decide)
  exact ⟨hassert, hall.1, by decide +kernel, _, hmismatch⟩

end LoxLang.Protocol
