import LoxLang.Proofs.Evolution
import LoxLang.Proofs.Sessions

/-!
# Coming back to the present frame

Blocks and calls execute their bodies in other frames, and a class declaration goes into the frame
of its methods. However any of them ends, the present frame is the one from before (`ComesBack`,
`Evolution`). So each run of a session begins and ends in the global frame, and what a program
declares at its top level is a global (`present_frame_restored`).
-/

namespace LoxLang

variable {host : Host} {depth : Nat} {inner : Evaluator} {m m' : Machine}

/-!
## What declarations declare

A `var`, a function or a class binds one name in the frame that is current when it begins, and when
it ends that frame is the current one again. So what is declared lands where the statement stands.
-/

/-- A declaration binds a name to a value: a variable to what its initializer gave, a function to
itself, made in the present frame, and a class to a class of that name. -/
inductive Declared (inner : Evaluator) (m m' : Machine) : Stmt → String → Value → Prop
  | nil (name : Name) : Declared inner m m' (.var name none) name.text .nil
  | var (name : Name) (e : Expr) (v : Value) (m₁ : Machine) (h : inner.eval e m = .ok v m₁) :
      Declared inner m m' (.var name (some e)) name.text v
  | function (f : FunctionDecl) (id : FunctionId)
      (h : m'.functions[id]? = some (Evaluator.closureOf f m.current false)) :
      Declared inner m m' (.function f) f.name.text (.function id)
  | «class» (name : Name) (parent : Option VariableUse) (methods statics : List FunctionDecl)
      (id : ClassId) (info : ClassInfo) (h : m'.classes[id]? = some info)
      (hname : info.name = name.text) :
      Declared inner m m' (.classDecl name parent methods statics) name.text (.«class» id)

theorem Evaluator.methodFrame_apply (parent : Option ClassId) (m : Machine) :
    ∃ f frames, methodFrame m.current parent m = .ok f { m with frames } ∧
      ∀ g x, (m.frames.local? g x).isSome → (frames.local? g x).isSome := by
  cases parent with
  | none => exact ⟨m.current, m.frames, rfl, fun _ _ h => h⟩
  | some c =>
    refine ⟨m.frames.size, _, rfl, fun g x hx => ?_⟩
    exact evolution_keepsNames.newFrame m m.current [("super", .«class» c)] g x hx

/-- A class declaration whose superclass is known ends normally, with the class in the present
frame. -/
theorem Evaluator.declareClass_apply (name : Name) (parent : Option ClassId)
    (methods statics : List FunctionDecl) (hcurrent : m.current < m.frames.size) :
    ∃ m' id info, declareClass name parent methods statics m = .ok () m' ∧
      m'.frames.local? m.current name.text = some (.«class» id) ∧
      m'.classes[id]? = some info ∧ info.name = name.text := by
  rw [declareClass_eq]
  have hdefined := local?_define_current hcurrent name.text .nil
  obtain ⟨ids, functions, hstatics⟩ := staticMethods_apply
    { m with frames := m.frames.define m.current name.text .nil } m.current statics
  obtain ⟨f, frames, hframe, hkept⟩ := methodFrame_apply parent
    { m with frames := m.frames.define m.current name.text .nil, functions }
  have hlocal : (frames.local? m.current name.text).isSome :=
    hkept m.current name.text (Option.isSome_of_eq_some hdefined)
  let info : ClassInfo :=
    ⟨name.text, parent, Evaluator.methods f methods, Bindings.insertMany [] ids⟩
  let m₁ : Machine := { m with frames, functions, classes := m.classes.push info }
  -- The frame for methods is made behind the name, which is still bound where it was.
  have hwrite := Run.writeFrom_current (m := m₁) hlocal (.«class» m.classes.size)
  refine ⟨{ m₁ with frames := frames.define m.current name.text (.«class» m.classes.size) },
    m.classes.size, info, ?_, ?_, Array.getElem?_push_size, rfl⟩
  · exact (Run.bind_of_ok hstatics).trans ((Run.bind_of_ok hframe).trans hwrite)
  · obtain ⟨v, hv⟩ := Option.isSome_iff_exists.mp hlocal
    exact local?_define_current (m := m₁) (frames.lt_size_of_local? name.text hv) _ _

/-- A declaration that ends normally has put its name into the present frame. -/
theorem Evaluator.stmtRule_declared {s : Stmt} {c : Completion} (hs : s.declares = true)
    (hinner : inner.Evolves ComesBack) (hcurrent : m.current < m.frames.size)
    (h : inner.stmtRule host s m = .ok c m') :
    ∃ x v, Declared inner m m' s x v ∧ m'.frames.local? m.current x = some v := by
  cases s with
  | var name initializer =>
    obtain ⟨_, m₁, hvar, hend⟩ := Run.bind_eq_ok h
    cases hend
    cases initializer with
    | none =>
      cases hvar
      exact ⟨name.text, .nil, .nil name, local?_define_current hcurrent _ _⟩
    | some e =>
      obtain ⟨v, m₂, heval, hdefine⟩ := Run.bind_eq_ok hvar
      cases hdefine
      -- The initializer has come back, so the name goes into the frame from before it.
      obtain ⟨hsame, hsize⟩ := (hinner.eval e).of_eq_ok heval
      rw [← hsame] at hcurrent ⊢
      exact ⟨name.text, v, .var name e v m₂ heval,
        local?_define_current (Nat.lt_of_lt_of_le hcurrent hsize) _ _⟩
  | function f =>
    cases h
    exact ⟨f.name.text, .function m.functions.size, .function f _ Array.getElem?_push_size,
      local?_define_current hcurrent _ _⟩
  | classDecl name parent methods statics =>
    obtain ⟨_, m₁, hdecl, hend⟩ := Run.bind_eq_ok h
    cases hend
    obtain ⟨c?, m₂, hback, hbody⟩ : ∃ c? m₂, ComesBack m m₂ ∧
        declareClass name c? methods statics m₂ = .ok () m' := by
      cases parent with
      | none => exact ⟨none, m, evolution_comesBack.refl m, hdecl⟩
      | some use =>
        obtain ⟨c, m₂, hsuper, hbody⟩ := Run.bind_eq_ok hdecl
        exact ⟨some c, m₂, (evolution_comesBack.look (.superclass use)).of_eq_ok hsuper, hbody⟩
    obtain ⟨hsame, hsize⟩ := hback
    rw [← hsame] at hcurrent ⊢
    obtain ⟨m₃, id, info, hok, hlocal, hinfo, hname⟩ :=
      declareClass_apply name c? methods statics (Nat.lt_of_lt_of_le hcurrent hsize)
    rw [hbody] at hok
    cases hok
    exact ⟨name.text, .«class» id, .«class» name parent methods statics id info hinfo hname, hlocal⟩
  | _ => cases hs

/-!
## Sessions

What holds of every expression and statement is carried over runs and resets. Declarations at top
level stand in the global frame, so what they bind is a global variable.
-/

/-- A relation that also bears a new program's table of distances, and the output being forgotten,
holds between the states before and behind a session's steps. -/
theorem Evolution.play {R : Machine → Machine → Prop} (h : Evolution R) (host : Host) (depth : Nat)
    (hstart : ∀ m T, R m { m with output := "", distances := T }) (s : Session)
    (steps : List SessionStep) : R s.machine (s.play host depth steps).2.machine := by
  have hrun : ∀ (s : Session) (source : String),
      R s.machine (s.run host depth source).2.machine := by
    intro s source
    unfold Session.run
    dsimp only
    split
    · exact h.refl _
    · split
      · exact h.refl _
      -- Only an accepted text is executed, from a state with its distances in the table.
      · exact h.trans (hstart _ _) (h.executeProgram host depth _ _ _ _)
  have hreset : ∀ s' : Session, R s.machine s'.machine → R s.machine s'.reset.machine := fun _ => id
  exact playSteps_keeps (Φ := fun s' : Session => R s.machine s'.machine) hreset
    (fun s' source h' => h.trans h' (hrun s' source)) (h.refl _) steps

/-- **The present frame is restored.** Whatever the state, a block, a call, a class declaration, and
any expression and statement leave the present frame what it was, whether they end normally, by
returning a value, or early. So behind all steps of a session it is the global frame, and when the
program that runs next has executed some of its statements, it still is; what a declaration at its
top level declares is then bound there. -/
theorem present_frame_restored (host : Host) (depth : Nat) :
    (∀ m body, (((evaluator host depth).block body).stateAfter m).current = m.current) ∧
    (∀ m place callee arguments,
      (((evaluator host depth).call host place callee arguments).stateAfter m).current =
        m.current) ∧
    (∀ m name parent methods statics,
      ((Evaluator.classDecl name parent methods statics).stateAfter m).current = m.current) ∧
    (∀ m e, (((evaluator host depth).eval e).stateAfter m).current = m.current) ∧
    (∀ m s, (((evaluator host depth).exec s).stateAfter m).current = m.current) ∧
    ∀ steps : List SessionStep,
      let m := (Session.initial.play host depth steps).2.machine
      m.current = Machine.globalFrame ∧
      ∀ (uses : List Resolved) (before : List Stmt) (m₁ : Machine),
        execute host depth before
          { m with output := "", distances := m.distances.insertAll uses } = .ok () m₁ →
        m₁.current = Machine.globalFrame ∧
        ∀ (d : Stmt) (c : Completion) (m₂ : Machine), d.declares = true →
          (evaluator host depth).exec d m₁ = .ok c m₂ →
          ∃ x v, Declared (evaluator host (depth - 1)) m₁ m₂ d x v ∧
            m₂.frames.local? Machine.globalFrame x = some v := by
  -- Each step comes back, so by the rules of evaluation all trees do, and by induction all
  -- sessions.
  have h := evolution_comesBack
  have hinner := h.evaluator host depth
  refine ⟨fun m body => ((h.block hinner body).stateAfter m).1,
    fun m place callee arguments => ((h.call hinner place callee arguments).stateAfter m).1,
    fun m name parent methods statics => ((h.classDecl name parent methods statics).stateAfter m).1,
    fun m e => ((hinner.eval e).stateAfter m).1, fun m s => ((hinner.exec s).stateAfter m).1,
    fun steps => ?_⟩
  obtain ⟨hglobal, hsize⟩ := h.play host depth (fun _ _ => ⟨rfl, Nat.le_refl _⟩) .initial steps
  refine ⟨hglobal, fun uses before m₁ hbefore => ?_⟩
  obtain ⟨hsame, hmore⟩ := (h.execute host depth before).of_eq_ok hbefore
  refine ⟨hsame.trans hglobal, fun d c m₂ hd hexec => ?_⟩
  -- Programs start in the global frame, and statements before the declaration have come back.
  have hcurrent : m₁.current < m₁.frames.size := by
    rw [hsame.trans hglobal]
    exact Nat.lt_of_lt_of_le (Nat.lt_of_lt_of_le Nat.zero_lt_one hsize) hmore
  cases depth with
  | zero => cases hexec
  | succ depth =>
    have hdeclared := Evaluator.stmtRule_declared hd (h.evaluator host depth) hcurrent hexec
    rw [hsame.trans hglobal] at hdeclared
    exact hdeclared

/-- A variable declared in a block, and then one of the same name at the top level: the second is a
global. -/
theorem global_behind_block :
    let host : Host := ⟨fun _ => 0, 1⟩
    let d : Stmt := .var ⟨"a", 1⟩ none
    ∃ m₁ m₂,
      execute host 2 [.block [d]] { Machine.initial with
        output := "", distances := Machine.initial.distances.insertAll [] } = .ok () m₁ ∧
      d.declares = true ∧ (evaluator host 2).exec d m₁ = .ok .normal m₂ ∧
      m₁.current = Machine.globalFrame ∧
      ∃ x v, Declared (evaluator host 1) m₁ m₂ d x v ∧
        m₂.frames.local? Machine.globalFrame x = some v := by
  intro host d
  refine ⟨_, _, rfl, rfl, rfl, ?_⟩
  obtain ⟨-, -, -, -, -, hsessions⟩ := present_frame_restored host 2
  obtain ⟨hcurrent, hdeclared⟩ := (hsessions []).2 [] [.block [d]] _ rfl
  exact ⟨hcurrent, hdeclared d .normal _ rfl rfl⟩

end LoxLang
