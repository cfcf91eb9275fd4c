import LoxLang.Proofs.Homes.Sessions
import LoxLang.Proofs.Receivers.Rules

/-!
# This is the receiver

All states of a session are genuine, at whatever moment its runs are ended (`Sincere.play`).
Together with what homes say of `this`, it follows that each `this` that is evaluated gives the
instance for which the method around it was called (`this_is_receiver`).
-/

namespace LoxLang

open Machine (Later Genuine Written Origin)
open Lexical (Harmless)

variable {F : FunctionText → Prop} {S : List Scope}

section Watched

variable {watch : Expr → Run Unit} (hwatch : Harmless watch) (host : Host) (depth : Nat)
include hwatch

/-- A program keeps states genuine, at whatever moment it is ended. -/
theorem genuine_watchedExecuteProgram {m : Machine} (hm : m.Genuine F) (endLine : Nat)
    {program : List Stmt} (uses : List Resolved)
    (h : Belongs F (stmtsOccurrences S program) (stmtsFunctions program)) :
    (Genuine.invariant F).Step m
      (Session.watchedExecuteProgram host watch depth endLine program uses m).2 :=
  (maintained_genuine F).watchedExecuteProgram (hwatch.agrees _) host depth endLine uses
    (hm.congr { m with output := "", distances := m.distances.insertAll uses } rfl rfl rfl rfl)
    (stmts_belongTo program h)

end Watched

/-!
## Sessions

The programs of a session grow, and with them what functions can have come from. What was genuine
among fewer programs is genuine among more.
-/

namespace WatchedSession

/-- The functions in the programs that were executed. -/
def Knows (s : WatchedSession) (f : FunctionText) : Prop :=
  f ∈ s.programs.flatMap stmtsFunctions

/-- The state of a session is genuine, and no name in its programs is a keyword. -/
structure Sincere (s : WatchedSession) : Prop where
  genuine : s.session.machine.Genuine s.Knows
  written : ∀ p ∈ s.programs, ∀ o ∈ stmtsOccurrences [] p, o.Written

theorem sincere_initial : Sincere .initial := ⟨.initial, nofun⟩

/-- Whether a session is sincere depends on its state and its programs. -/
theorem Sincere.congr {s s' : WatchedSession} (h : s.Sincere)
    (hmachine : s'.session.machine = s.session.machine) (hprograms : s'.programs = s.programs) :
    s'.Sincere := by
  refine ⟨?_, fun p hp => h.written p (hprograms ▸ hp)⟩
  unfold Knows
  rw [hmachine, hprograms]
  exact h.genuine

variable {watch : Expr → Run Unit} (hwatch : Harmless watch) (host : Host) (depth : Nat)
  {s : WatchedSession}
include hwatch

/-- Running a source text, whatever it is, and ending the run at any moment. -/
theorem Sincere.run (h : s.Sincere) (source : String) :
    (s.run host (fun _ => watch) depth source).2.Sincere ∧
      Later s.session.machine (s.run host (fun _ => watch) depth source).2.session.machine := by
  rcases run_cases host (fun _ => watch) depth s source with
    ⟨hmachine, hprograms⟩ | ⟨hreports, hmachine, hprograms⟩
  · rw [hmachine]
    exact ⟨h.congr hmachine hprograms, .refl _⟩
  have hwritten := (stretch_of_parse hreports []).written
  generalize (parse depth s.session.nextUse (lex source)).statements = program at *
  -- The programs so far are known, and then this one too.
  have hknown : ∀ f, s.Knows f → f ∈ (s.programs ++ [program]).flatMap stmtsFunctions :=
    fun f hf => by
      rw [List.flatMap_append]
      exact List.mem_append_left _ hf
  have hbelongs : Belongs (· ∈ (s.programs ++ [program]).flatMap stmtsFunctions)
      (stmtsOccurrences [] program) (stmtsFunctions program) := by
    refine ⟨hwritten, fun f hf => ?_⟩
    rw [List.flatMap_append, List.flatMap_singleton]
    exact List.mem_append_right _ hf
  obtain ⟨hgenuine, hlater⟩ := genuine_watchedExecuteProgram hwatch host depth
    (h.genuine.mono hknown) (lex source).endLine (resolve depth (lex source).endLine program).uses
    hbelongs
  rw [← hmachine] at hgenuine hlater
  refine ⟨⟨?_, fun p hp => ?_⟩, hlater⟩
  · unfold Knows
    rw [hprograms]
    exact hgenuine
  · rw [hprograms] at hp
    rcases List.mem_append.mp hp with hp | hp
    · exact h.written p hp
    · rw [List.mem_singleton.mp hp]
      exact hwritten

theorem Sincere.play (h : s.Sincere) (steps : List SessionStep) :
    (s.play host (fun _ => watch) depth steps).2.Sincere ∧
      Later s.session.machine (s.play host (fun _ => watch) depth steps).2.session.machine := by
  refine playSteps_keeps (Φ := fun s' : WatchedSession =>
    s'.Sincere ∧ Later s.session.machine s'.session.machine) (fun s' h' => ?_)
    (fun s' source h' => ?_) ⟨h, .refl _⟩ steps
  · exact ⟨⟨h'.1.genuine, h'.1.written⟩, h'.2⟩
  · obtain ⟨hrun, hlater⟩ := h'.1.run hwatch host depth source
    exact ⟨hrun, h'.2.trans hlater⟩

end WatchedSession

/-- Names that are missing are names of variables, so neither `this` nor `super` is ever missing,
and no chain of frames ends too early. -/
theorem isName_of_lost (host : Host) (depth : Nat) (steps : List SessionStep) {t : Transcript}
    (ht : t ∈ (Session.initial.play host depth steps).1) {e : FrameError}
    (he : t.ending = .lost e) : ∃ x, IsName x ∧ e = .missing x := by
  obtain ⟨-, -, -, hlost⟩ := Lexical.follows_initial.play host depth steps Lexical.unobtrusive_pure
  rw [(WatchedSession.play_pure host depth steps .initial).1] at hlost
  obtain ⟨v, hv, hkind, -, hname⟩ := hlost t ht e he
  obtain ⟨p, hp, hvp⟩ := List.mem_flatMap.mp hv
  have hharmless : Harmless fun _ => pure () := fun _ _ => rfl
  obtain ⟨hsincere, -⟩ := WatchedSession.sincere_initial.play hharmless host depth steps
  exact ⟨v.name, hsincere.written p hp _ (mem_usesIn.mp hvp) (.inl hkind), hname⟩

/-- **`this` is the receiver.** Whatever is run in a session, evaluation with homes shows and leaves
behind the same as plain evaluation, also under a watch that lets each fixed use of `this` pass. So
each use of `this` that is evaluated gives the instance of its home: that for which the method
around it was called, be it directly or in functions of the method that are called from elsewhere.

At whatever moment a run is ended, the state is genuine: each function that a variable or a field
holds was made by a function declaration, a lambda or the declaration of a static method, or it is a
method that is bound to an instance, in a frame that holds the instance as `this`. So are the states
that evaluating anything leads to, and the values it gives. What a frame holds as `this` or `super`
is still there in all later states. Hence a call of an initializer finds the instance, whatever its
body has done; and a session never misses `this`. -/
theorem this_is_receiver (host : Host) (depth : Nat) (steps : List SessionStep)
    (watch : Option Homed.Home → Expr → Homed.Run Unit)
    (hwatch : ∀ home e s, Homed.ThisFixed home e s.machine → watch home e s = .ok () s)
    (stop : Expr → Run Unit) (hstop : Harmless stop) :
    let homed := Homed.Session.initial.play host watch depth steps
    let plain := Session.initial.play host depth steps
    let stopped := (WatchedSession.initial.play host (fun _ => stop) depth steps).2
    (homed.1 = plain.1 ∧ homed.2.session = plain.2) ∧
    stopped.session.machine.Genuine stopped.Knows ∧
    (∀ more, Later stopped.session.machine
      (stopped.play host (fun _ => stop) depth more).2.session.machine) ∧
    (∀ F, (watchedEvaluator host stop depth).Keeps F) ∧
    (∀ F m c, m.Origin F c → c.isInitializer = true →
      ∃ i, m.frames.local? c.frame "this" = some (.object i) ∧
        ∀ m' completion, Later m m' →
          Evaluator.callResult c completion m' = .ok (.object i) m') ∧
    ∀ t ∈ plain.1, ∀ e, t.ending = .lost e → ∃ x, IsName x ∧ e = .missing x := by
  -- What the watch may assume of a use of `this` is a part of what evaluation guarantees of every
  -- use.
  have hfixed : ∀ home e s, Homed.Fixed home e s.machine → watch home e s = .ok () s :=
    fun home e s h => hwatch home e s h.this
  obtain ⟨hsincere, -⟩ := WatchedSession.sincere_initial.play hstop host depth steps
  refine ⟨Homed.Session.ready_initial.follow hfixed host depth steps, hsincere.genuine,
    fun more => (hsincere.play hstop host depth more).2,
    fun F => keeps_watchedEvaluator F hstop host depth, fun F m c hc hinit => ?_,
    fun t ht e he => isName_of_lost host depth steps ht he⟩
  obtain ⟨i, hthis⟩ := hc.receiver hinit
  exact ⟨i, hthis, fun m' completion hlater =>
    Evaluator.callResult_initializer hthis hinit hlater completion⟩

open Classical in
/-- Ends the run at a use of `this` that is not fixed. -/
noncomputable def assertReceiver (home : Option Homed.Home) (e : Expr) : Homed.Run Unit := fun s =>
  if Homed.ThisFixed home e s.machine then .ok () s else .error (.frame .pastOutermost) s

/-- A method that is stored as a field of another instance, and a lambda that outlives the method it
stands in, with an assertion at each use of `this`. Both still give the instance they were taken
from. The state is genuine also where the second instance has just been made. -/
theorem this_is_receiver_stored :
    let host : Host := ⟨fun _ => 0, 9⟩
    let stop : Expr → Run Unit := fun _ m =>
      if m.instances.size < 2 then .ok () m else .error .endless m
    let steps : List SessionStep :=
      [.run ("class A \x7b init(x) \x7b this.x = x; return; \x7d " ++
        "m() \x7b return fun () \x7b return this.x; \x7d; \x7d \x7d " ++
        "var a = A(\"a\"); var b = A(\"b\"); b.f = a.m; var g = b.m();"),
        .run "print b.f()(); print g(); print a.init(\"c\") == a;"]
    (∀ home e s, Homed.ThisFixed home e s.machine → assertReceiver home e s = .ok () s) ∧
      Harmless stop ∧
      (Homed.Session.initial.play host assertReceiver 40 steps).1 =
        (Session.initial.play host 40 steps).1 ∧
      (WatchedSession.initial.play host (fun _ => stop) 40 steps).2.session.machine.Genuine
        (WatchedSession.initial.play host (fun _ => stop) 40 steps).2.Knows ∧
      (Session.initial.play host 40 steps).1.map (·.output) = ["", "a\nb\ntrue\n"] := by
  have hassert : ∀ (home : Option Homed.Home) (e : Expr) (s : Homed.State),
      Homed.ThisFixed home e s.machine → assertReceiver home e s = .ok () s :=
    fun _ _ _ h => if_pos h
  -- The run is stopped in the middle, at the first expression behind the second instance.
  have hstop : Harmless fun _ m =>
      if m.instances.size < 2 then .ok () m else .error .endless m := by
    intro e m
    unfold Run.stateAfter
    dsimp only
    split <;> rename_i hrun <;> split at hrun <;> cases hrun <;> rfl
  have hall := this_is_receiver ⟨fun _ => 0, 9⟩ 40
    [.run ("class A \x7b init(x) \x7b this.x = x; return; \x7d " ++
      "m() \x7b return fun () \x7b return this.x; \x7d; \x7d \x7d " ++
      "var a = A(\"a\"); var b = A(\"b\"); b.f = a.m; var g = b.m();"),
      .run "print b.f()(); print g(); print a.init(\"c\") == a;"]
    assertReceiver hassert _ hstop
  exact ⟨hassert, hstop, hall.1.1, hall.2.1, by decide +kernel⟩

end LoxLang
