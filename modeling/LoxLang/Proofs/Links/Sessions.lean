import LoxLang.Proofs.Links.Steps
import LoxLang.Proofs.Receivers.Sessions

/-!
# Links in sessions

All states of a session are founded, at whatever moment its runs are ended (`Founded.play`). So all
links lead to older objects and stay as they are, and lookups along them find what is nearest
(`links_well_founded`). Class names may be declared again and assigned to as a program likes: links
do not go through names.
-/

namespace LoxLang

open Machine (Lasting)
open Lexical (Harmless)

variable {P : Part → Prop}

section Watched

variable {watch : Expr → Run Unit} (hwatch : Harmless watch) (host : Host) (depth : Nat)
include hwatch

/-- A program keeps states founded, at whatever moment it is ended. -/
theorem founded_watchedExecuteProgram {m : Machine} (hm : m.Founded P) (endLine : Nat)
    {program : List Stmt} (uses : List Resolved) (h : ∀ p ∈ stmtsParts program, P p) :
    (Machine.Founded.invariant P).Step m
      (Session.watchedExecuteProgram host watch depth endLine program uses m).2 :=
  (maintained_founded P).watchedExecuteProgram (hwatch.agrees _) host depth endLine uses
    (hm.same { m with output := "", distances := m.distances.insertAll uses }
      rfl rfl rfl rfl rfl) h

end Watched

namespace WatchedSession

/-- The parts of the programs that were executed. -/
def Contains (s : WatchedSession) (p : Part) : Prop :=
  p ∈ s.programs.flatMap stmtsParts

/-- The state of a session is founded in its programs. -/
def Founded (s : WatchedSession) : Prop := s.session.machine.Founded s.Contains

theorem founded_initial : Founded .initial := .initial

variable {watch : Expr → Run Unit} (hwatch : Harmless watch) (host : Host) (depth : Nat)
  {s : WatchedSession}
include hwatch

/-- Running a source text, whatever it is, and ending the run at any moment. -/
theorem Founded.run (h : s.Founded) (source : String) :
    (s.run host (fun _ => watch) depth source).2.Founded ∧
      Lasting s.session.machine (s.run host (fun _ => watch) depth source).2.session.machine := by
  rcases run_cases host (fun _ => watch) depth s source with
    ⟨hmachine, hprograms⟩ | ⟨-, hmachine, hprograms⟩
  · unfold Founded Contains
    rw [hmachine, hprograms]
    exact ⟨h, .refl _⟩
  generalize (parse depth s.session.nextUse (lex source)).statements = program at *
  -- What the programs so far contain is still contained, and what this one contains is too.
  have hknown : ∀ p, s.Contains p → p ∈ (s.programs ++ [program]).flatMap stmtsParts :=
    fun p hp => by
      rw [List.flatMap_append]
      exact List.mem_append_left _ hp
  have hprogram : ∀ p ∈ stmtsParts program,
      p ∈ (s.programs ++ [program]).flatMap stmtsParts := fun p hp => by
    rw [List.flatMap_append, List.flatMap_singleton]
    exact List.mem_append_right _ hp
  obtain ⟨hfounded, hlasting⟩ := founded_watchedExecuteProgram hwatch host depth
    (Machine.Founded.mono h hknown) (lex source).endLine
    (resolve depth (lex source).endLine program).uses hprogram
  unfold Founded Contains
  rw [hmachine, hprograms]
  exact ⟨hfounded, hlasting⟩

theorem Founded.play (h : s.Founded) (steps : List SessionStep) :
    (s.play host (fun _ => watch) depth steps).2.Founded ∧
      Lasting s.session.machine (s.play host (fun _ => watch) depth steps).2.session.machine := by
  refine playSteps_keeps (Φ := fun s' : WatchedSession =>
    s'.Founded ∧ Lasting s.session.machine s'.session.machine) (fun s' h' => ?_)
    (fun s' source h' => ?_) ⟨h, .refl _⟩ steps
  · exact ⟨h'.1, h'.2⟩
  · obtain ⟨hrun, hlasting⟩ := h'.1.run hwatch host depth source
    exact ⟨hrun, h'.2.trans hlasting⟩

end WatchedSession

/-!
## Lookups

What a property of an instance means is looked up among its fields first and then along its class
and the superclasses; what one of a class means, along the class and its superclasses alone. That it
is the nearest that is found is part of `Machine.FindsNearest`.
-/

/-- Reading a property of an instance. -/
theorem exprRule_get_object (host : Host) {inner : Evaluator} {e : Expr} {m m' : Machine}
    {i : InstanceId} (he : inner.eval e m = .ok (.object i) m') (name : Name) :
    inner.exprRule host (.get e name) m = Run.property i name m' :=
  Run.bind_of_ok he

/-- Reading a property of a class. -/
theorem exprRule_get_class (host : Host) {inner : Evaluator} {e : Expr} {m m' : Machine}
    {k : ClassId} (he : inner.eval e m = .ok (.«class» k) m') (name : Name) :
    inner.exprRule host (.get e name) m = Run.staticProperty k name m' :=
  Run.bind_of_ok he

/-- **Links are well-founded, and lookups find what is nearest.** At whatever moment the runs of a
session are ended, its state is founded: links of frames and classes lead to older ones, all lines
of frames end in the global frame, and each class has the tables of the methods declared in it,
of which the last one of a name counts. No link and no table ever changes, be it within an
evaluation or in any later run.

In all founded states lookups come to an end. A variable is read and written in the first frame on
its line that holds the name. A method and a static method is that of the first class on the line of
superclasses whose own table has the name. A property of an instance is its field of that name, and
otherwise a fresh binding of its method; that of a class is its static method. Instances do not see
static methods, and classes do not see methods of instances. -/
theorem links_well_founded (host : Host) (depth : Nat) (steps : List SessionStep)
    (stop : Expr → Run Unit) (hstop : Harmless stop) :
    let stopped := (WatchedSession.initial.play host (fun _ => stop) depth steps).2
    stopped.Founded ∧
    (∀ more, Lasting stopped.session.machine
      (stopped.play host (fun _ => stop) depth more).2.session.machine) ∧
    (∀ P, (watchedEvaluator host stop depth).Founds P) ∧
    (∀ P (m : Machine), m.Founded P → m.FindsNearest) ∧
    ∀ (inner : Evaluator) e name m m',
      (∀ i, inner.eval e m = .ok (.object i) m' →
        inner.exprRule host (.get e name) m = Run.property i name m') ∧
      ∀ k, inner.eval e m = .ok (.«class» k) m' →
        inner.exprRule host (.get e name) m = Run.staticProperty k name m' := by
  obtain ⟨hfounded, -⟩ := WatchedSession.founded_initial.play hstop host depth steps
  exact ⟨hfounded, fun more => (hfounded.play hstop host depth more).2,
    fun P => founds_watchedEvaluator P hstop host depth, fun P m hm => hm.findsNearest,
    fun inner e name m m' => ⟨fun i he => exprRule_get_object host he name,
      fun k he => exprRule_get_class host he name⟩⟩

/-- A class that is declared below a subclass of the class that had its name before, with a method
that is declared twice. The run is stopped when the third class has been made, and the next run goes
on from there. -/
theorem links_well_founded_redeclared :
    let host : Host := ⟨fun _ => 0, 9⟩
    let stop : Expr → Run Unit := fun _ m =>
      if m.classes.size = 3 ∧ m.instances.size = 1 then .error .endless m else .ok () m
    let steps : List SessionStep :=
      [.run ("class A { m() { return 1; } class s() { return 2; } } " ++
        "class B < A { m() { return 3; } m() { return 4; } } " ++
        "class A < B { class m() { return 5; } } " ++
        "print A().m(); print A.s(); print A.m();"), .run "A = 6; print A().s;"]
    let stopped := (WatchedSession.initial.play host (fun _ => stop) 40 steps).2
    Harmless stop ∧ stopped.Founded ∧ stopped.session.machine.FindsNearest ∧
      stopped.session.machine.classes.map (·.superclass) = #[none, some 0, some 1] ∧
      (Session.initial.play host 40 (steps.take 1)).1.map (·.output) = ["4\n2\n5\n"] := by
  -- The run is stopped when the third class and the first instance are there.
  have hstop : Harmless fun _ m =>
      if m.classes.size = 3 ∧ m.instances.size = 1 then .error .endless m else .ok () m := by
    intro e m
    unfold Run.stateAfter
    dsimp only
    split <;> rename_i hrun <;> split at hrun <;> cases hrun <;> rfl
  obtain ⟨hfounded, -, -, hfinds, -⟩ := links_well_founded ⟨fun _ => 0, 9⟩ 40
    [.run ("class A { m() { return 1; } class s() { return 2; } } " ++
      "class B < A { m() { return 3; } m() { return 4; } } " ++
      "class A < B { class m() { return 5; } } " ++
      "print A().m(); print A.s(); print A.m();"), .run "A = 6; print A().s;"] _ hstop
  exact ⟨hstop, hfounded, hfinds _ _ hfounded, by decide +kernel, by decide +kernel⟩

end LoxLang
