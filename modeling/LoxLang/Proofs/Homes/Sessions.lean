import LoxLang.Proofs.Homes.Rules
import LoxLang.Proofs.Lexical.Sessions

/-!
# Super is fixed by the class

Over a session, evaluation with homes does what plain evaluation does, so each use of `super` that
is evaluated gives the method that is found from the superclass of the class around it, bound to the
instance that the method around it is bound to (`super_fixed`).
-/

namespace LoxLang.Homed

open Lexical (Fine)

variable {T T' : Distances} {P P' : Visit → Prop}

/-- What is settled stays so when a program is entered into the table. -/
theorem Settled.extend {s : State} (h : Settled T P s)
    (hTP : ∀ v, P v → P' v ∧ T'[v.id]? = T[v.id]?) :
    Settled T' P' { s with machine := { s.machine with output := "", distances := T' } } := by
  refine ⟨h.functions.mono fun _ _ hc => ?_, fun c info x closure hinfo hx => ?_, rfl⟩
  · obtain ⟨S, hplace, hfine⟩ := hc
    exact ⟨S, hplace, hfine.extend hTP⟩
  · obtain ⟨S, hplace, hfine⟩ := h.methods c info x closure hinfo hx
    exact ⟨S, hplace, hfine.extend hTP⟩

namespace Session

/-- A session is settled between two runs, given the uses of names in the programs that were
executed. -/
structure Ready (uses : List Visit) (s : Session) : Prop where
  settled : Settled s.session.machine.distances (· ∈ uses) ⟨s.session.machine, s.homes⟩
  current : s.session.machine.current = Machine.globalFrame
  tabled : Tabled s.session.nextUse s.session.machine.distances uses

theorem ready_initial : Ready [] .initial := by
  refine ⟨⟨⟨rfl, ?_⟩, ?_, rfl⟩, rfl, fun i _ => Std.TreeMap.getElem?_emptyc, nofun, List.nodup_nil⟩
  · intro i c home hc
    cases hc
  · intro c info x closure hinfo
    cases hinfo

theorem Ready.reset {uses : List Visit} {s : Session} (h : Ready uses s) : Ready uses s.reset :=
  ⟨h.settled, h.current, h.tabled⟩

section Watched

variable {watch : Option Home → Expr → Run Unit}
  (hwatch : ∀ home e s, Fixed home e s.machine → watch home e s = .ok () s)
  (host : Host) (depth : Nat)
include hwatch

/-- A program ends in the same way with homes and without. -/
theorem executeProgram_tracks {s : State} (endLine : Nat) {program : List Stmt}
    {uses : List Resolved}
    (hsettled : Settled T P { s with
      machine := { s.machine with output := "", distances := s.machine.distances.insertAll uses } })
    (hcurrent : s.machine.current = Machine.globalFrame)
    (hfine : Fine T P (stmtsOccurrences [] program)) :
    ∃ ending s', executeProgram host watch depth endLine program uses s = (ending, s') ∧
      LoxLang.Session.executeProgram host depth endLine program uses s.machine =
        (ending, s'.machine) ∧
      Settled T P s' ∧ s'.machine.current = Machine.globalFrame := by
  -- A program stands at a place without a home.
  have htracks : Tracks T P s.machine.frames Machine.globalFrame
      (execute host watch depth program) (LoxLang.execute host depth program) :=
    .execute hwatch host depth .globals hfine
  have hends := htracks _ _ ⟨rfl, hsettled, hcurrent, .refl _⟩
  unfold executeProgram LoxLang.Session.executeProgram
  dsimp only at hends ⊢
  generalize Homed.execute host watch depth program _ = r at hends
  generalize LoxLang.execute host depth program _ = r' at hends
  cases hends with
  | ok _ hat =>
    obtain rfl := hat.machine
    exact ⟨.finished, _, rfl, rfl, hat.settled, hat.current⟩
  | error he hat =>
    obtain rfl := hat.machine
    obtain rfl := he
    exact ⟨.ofAbort endLine _, _, rfl, rfl, hat.settled, hat.current⟩

/-- Running a source text, whatever it is. -/
theorem Ready.run {uses : List Visit} {s : Session} (h : Ready uses s) (source : String) :
    (s.run host watch depth source).1 = (s.session.run host depth source).1 ∧
      (s.run host watch depth source).2.session = (s.session.run host depth source).2 ∧
      ∃ uses', Ready uses' (s.run host watch depth source).2 := by
  have hle := le_nextUse_parse depth s.session.nextUse (lex source)
  unfold Session.run LoxLang.Session.run
  dsimp only
  split
  · exact ⟨rfl, rfl, uses, h.settled, h.current, h.tabled.mono hle⟩
  · split
    · exact ⟨rfl, rfl, uses, h.settled, h.current, h.tabled.mono hle⟩
    · next hread hresolved =>
      obtain ⟨-, -, hreports⟩ : s.session.hadError = false ∧ (lex source).reports = [] ∧
          (parse depth s.session.nextUse (lex source)).reports = [] := by
        simpa using hread
      have hresolve : (resolve depth (lex source).endLine
          (parse depth s.session.nextUse (lex source)).statements).reports = [] := by
        simpa using hresolved
      -- The text is accepted, so its program finds its distances in the table.
      obtain ⟨htabled, hsame⟩ := h.tabled.accepted hreports hresolve
      have hfine := fine_of_accepted hreports hresolve h.tabled.fresh
        fun v hv => List.mem_append_right uses hv
      have hold : ∀ v ∈ uses, v ∈ uses ++ usesIn (parse depth s.session.nextUse
          (lex source)).statements := fun v hv => List.mem_append_left _ hv
      have hsettled := h.settled.extend fun v hv => ⟨hold v hv, hsame v hv⟩
      obtain ⟨ending, s', hp, hq, hsettled', hcurrent⟩ := executeProgram_tracks hwatch host depth
        (lex source).endLine hsettled h.current hfine
      dsimp only at hp hq
      rw [hp, hq]
      rw [← hsettled'.distances] at htabled hsettled'
      exact ⟨rfl, rfl, _, hsettled', hcurrent, htabled⟩

theorem Ready.follow {uses : List Visit} {s : Session} (h : Ready uses s)
    (steps : List SessionStep) :
    (s.play host watch depth steps).1 = (s.session.play host depth steps).1 ∧
      (s.play host watch depth steps).2.session = (s.session.play host depth steps).2 := by
  refine playSteps_agree (Φ := fun (s : Session) s' => s.session = s' ∧ ∃ uses, Ready uses s)
    (fun s s' h => ?_) (fun s s' source h => ?_) ⟨rfl, uses, h⟩ steps |>.imp_right And.left
  · obtain ⟨rfl, uses, hready⟩ := h
    exact ⟨rfl, uses, hready.reset⟩
  · obtain ⟨rfl, uses, hready⟩ := h
    exact hready.run hwatch host depth source

end Watched

/-- What a watch lets pass that looks at `super` only. -/
theorem Ready.play {watch : Option Home → Expr → Run Unit}
    (hwatch : ∀ home e s, SuperFixed home e s.machine → watch home e s = .ok () s) (host : Host)
    (depth : Nat) {uses : List Visit} {s : Session} (h : Ready uses s) (steps : List SessionStep) :
    (s.play host watch depth steps).1 = (s.session.play host depth steps).1 ∧
      (s.play host watch depth steps).2.session = (s.session.play host depth steps).2 :=
  h.follow (fun home e s hfixed => hwatch home e s hfixed.super) host depth steps

end Session

/-- **Super is fixed by the class.** Whatever is run in a session, evaluation with homes shows and
leaves behind the same as plain evaluation, also under a watch that lets each fixed use of `super`
pass. So each use of `super` that is evaluated is fixed: it stands in a method, directly or in
functions of the method that may be called long after it has ended, and it gives the first method of
its name among the superclass that the class of the method got when it was declared, and the
superclasses of that, bound to the instance for which the method was called. It fails if there is no
such method, and only then. -/
theorem super_fixed (host : Host) (depth : Nat) (steps : List SessionStep)
    (watch : Option Home → Expr → Run Unit)
    (hwatch : ∀ home e s, SuperFixed home e s.machine → watch home e s = .ok () s) :
    let homed := Session.initial.play host watch depth steps
    let plain := LoxLang.Session.initial.play host depth steps
    homed.1 = plain.1 ∧ homed.2.session = plain.2 ∧
    ∀ (c : ClassId) (i : InstanceId) (method : Name) (m : Machine),
      match m.method? c method.text with
      | some closure => ∃ f id m', boundFrom c i method m = .ok (.function id) m' ∧
          m'.functions[id]? = some { closure with frame := f } ∧
          m'.frames.frame? f = some ⟨[("this", .object i)], some closure.frame⟩
      | none => ∃ e, boundFrom c i method m = .error (.failure ⟨method.place, e⟩) m ∧
          e.message = s!"Undefined property '{method.text}'." := by
  -- The watch passes wherever `super` and `this` are fixed, and they are at each expression.
  obtain ⟨htranscripts, hsession⟩ := Session.ready_initial.play hwatch host depth steps
  refine ⟨htranscripts, hsession, fun c i method m => ?_⟩
  split
  · next closure hfound => exact boundFrom_of_method? i hfound
  · next hnone => exact ⟨_, boundFrom_of_none i hnone, rfl⟩

open Classical in
/-- Ends the run at a use of `super` that is not fixed. -/
noncomputable def assertFixed (home : Option Home) (e : Expr) : Run Unit := fun s =>
  if SuperFixed home e s.machine then .ok () s else .error (.frame .pastOutermost) s

/-- A lambda that a method of a superclass has returned, called in a later run after both class
names have got other values, with an assertion at each use. It finds the method above the class that
declares it, not that of the instance's own class. -/
theorem super_fixed_later_run :
    let host : Host := ⟨fun _ => 0, 9⟩
    let steps : List SessionStep :=
      [.run ("class A \x7b m() \x7b return \"A\"; \x7d \x7d " ++
        "class B < A \x7b f() \x7b return fun () \x7b return super.m(); \x7d; \x7d \x7d " ++
        "class C < B \x7b m() \x7b return \"C\"; \x7d \x7d " ++
        "var g = C().f(); A = C; B = C;"), .run "print g();"]
    (∀ home e s, SuperFixed home e s.machine → assertFixed home e s = .ok () s) ∧
      (Session.initial.play host assertFixed 40 steps).1 =
        (LoxLang.Session.initial.play host 40 steps).1 ∧
      (LoxLang.Session.initial.play host 40 steps).1.map (·.output) = ["", "A\n"] := by
  have hassert : ∀ (home : Option Home) (e : Expr) (s : State),
      SuperFixed home e s.machine → assertFixed home e s = .ok () s := fun _ _ _ h => if_pos h
  exact ⟨hassert, (super_fixed _ 40 _ assertFixed hassert).1, by decide +kernel⟩

end LoxLang.Homed
