import LoxLang.Proofs.Lexical.Variables

/-!
# Functions, classes and instances

Functions, classes and instances are the same with frames and with cells, so what is made of them,
is found in them and is shown of them is the same.
-/

namespace LoxLang.Lexical

variable {T : Distances} {P : Visit → Prop} {β : Links} {m : Machine} {w : Store} {S : List Scope}
  {ρ : Environment} {x : String}

/-!
## Lookups

Tables of methods have the same names on both sides, with related functions under them.
-/

/-- What is looked up in a class and its superclasses is related if it is in each single class. -/
theorem Related.inClasses? {α α' : Type} {R : α → α' → Prop} {own? : LoxLang.ClassInfo → Option α}
    {own'? : ClassInfo → Option α'} (h : Related T P β m w)
    (hown : ∀ info info', ClassRelated T P β m.frames info info' →
      Found R (own? info) (own'? info'))
    (c : ClassId) : Found R (m.inClasses? own? c) (w.inClasses? own'? c) :=
  h.classes.inLineage? (fun _ _ hrelated => hrelated.superclass) hown c

theorem Related.method? (h : Related T P β m w) (c : ClassId) (x : String) :
    Found (ClosureRelated T P β m.frames thisScope) (m.method? c x) (w.method? c x) :=
  h.inClasses? (fun _ _ hrelated => hrelated.methods x) c

theorem Related.staticMethod? (h : Related T P β m w) (c : ClassId) (x : String) :
    m.staticMethod? c x = w.staticMethod? c x := by
  have hfound : Found (· = ·) (m.staticMethod? c x) (w.staticMethod? c x) := by
    refine h.inClasses? (fun info info' hrelated => ?_) c
    rw [hrelated.staticMethods]
    cases info'.staticMethods.get? x with
    | none => trivial
    | some f => rfl
  obtain ⟨hnone, hnone'⟩ | ⟨f, f', hf, hf', rfl⟩ := hfound.cases
  · rw [hnone, hnone']
  · rw [hf, hf']

/-- What is called is the same. -/
inductive CalleeRelated (T : Distances) (P : Visit → Prop) (β : Links) (fs : Frames Value) :
    LoxLang.Callee → Callee → Prop where
  | native (n : Native) : CalleeRelated T P β fs (.native n) (.native n)
  | closure {c : LoxLang.Closure} {c' : Closure} (h : ClosureRelated T P β fs [] c c') :
      CalleeRelated T P β fs (.closure c) (.closure c')
  | constructor (c : ClassId) {init? : Option LoxLang.Closure} {init'? : Option Closure}
      (h : Found (ClosureRelated T P β fs thisScope) init? init'?) :
      CalleeRelated T P β fs (.constructor c init?) (.constructor c init'?)

theorem CalleeRelated.arity_eq {fs : Frames Value} {c : LoxLang.Callee} {c' : Callee}
    (h : CalleeRelated T P β fs c c') : c.arity = c'.arity := by
  cases h with
  | native n => rfl
  | closure h => exact congrArg List.length h.params
  | constructor c h =>
    obtain ⟨rfl, rfl⟩ | ⟨init, init', rfl, rfl, h⟩ := h.cases
    · rfl
    · exact congrArg List.length h.params

theorem Related.callee? (h : Related T P β m w) (v : Value) :
    Found (CalleeRelated T P β m.frames) (m.callee? v) (w.callee? v) := by
  cases v with
  | native n => exact .native n
  | function f =>
    simp only [Machine.callee?, Store.callee?]
    obtain ⟨hnone, hnone'⟩ | ⟨c, c', hc, hc', hrelated⟩ := (h.functions.found f).cases
    · rw [hnone, hnone']
      trivial
    · rw [hc, hc']
      exact .closure hrelated
  | «class» c => exact .constructor c (h.method? c initializerName)
  | _ => trivial

/-! ## Texts -/

theorem Related.className (h : Related T P β m w) (c : ClassId) :
    m.classes[c]?.map (·.name) = w.classes[c]?.map (·.name) := by
  obtain ⟨hnone, hnone'⟩ | ⟨info, info', hinfo, hinfo', hrelated⟩ := (h.classes.found c).cases
  · rw [hnone, hnone']
    rfl
  · rw [hinfo, hinfo', Option.map_some, Option.map_some, hrelated.name]

/-- Values look the same. -/
theorem Related.text (h : Related T P β m w) (v : Value) : m.text v = w.text v := by
  cases v with
  | function f =>
    simp only [Machine.text, Store.text]
    obtain ⟨hnone, hnone'⟩ | ⟨c, c', hc, hc', hrelated⟩ := (h.functions.found f).cases
    · rw [hnone, hnone']
      rfl
    -- Closures differ in what they keep of their place, but not in their names.
    · have htext : c.text = c'.text := by
        have hname := hrelated.name
        unfold LoxLang.Closure.text Closure.text
        cases hname' : c'.name? <;> simp only [hname, hname']
      simp only [hc, hc', Option.map_some, htext]
  | «class» c =>
    simp only [Machine.text, Store.text]
    rw [h.className c]
  | object i =>
    simp only [Machine.text, Store.text]
    rw [h.instances]
    cases w.instances[i]? with
    | none => rfl
    | some object =>
      dsimp only
      rw [h.className object.classId]
  | _ => rfl

namespace Simulates

/-! ## Making things -/

theorem newFunction {c : LoxLang.Closure} {c' : Closure} (h : Related T P β m w)
    (hc : ClosureRelated T P β m.frames [] c c') :
    Simulates T P none (LoxLang.Run.newFunction c) (Run.newFunction c') β m w Same := by
  refine of_ok _ _ rfl rfl ⟨rfl, .refl none β m.frames, ?_⟩ h.functions.size
  exact ⟨h.frames, h.functions.push hc, h.classes, h.instances, h.output, h.clockReadings,
    h.distances⟩

theorem newClass {info : LoxLang.ClassInfo} {info' : ClassInfo} (h : Related T P β m w)
    (hinfo : ClassRelated T P β m.frames info info') :
    Simulates T P none (LoxLang.Run.newClass info) (Run.newClass info') β m w Same := by
  refine of_ok _ _ rfl rfl ⟨rfl, .refl none β m.frames, ?_⟩ h.classes.size
  exact ⟨h.frames, h.functions, h.classes.push hinfo, h.instances, h.output, h.clockReadings,
    h.distances⟩

theorem newInstance (h : Related T P β m w) (c : ClassId) :
    Simulates T P none (LoxLang.Run.newInstance c) (Run.newInstance c) β m w Same := by
  refine of_ok _ _ rfl rfl ⟨rfl, .refl none β m.frames, ?_⟩ (congrArg Array.size h.instances)
  exact ⟨h.frames, h.functions, h.classes, congrArg (Array.push · _) h.instances, h.output,
    h.clockReadings, h.distances⟩

/-- A bound method is a function with one scope more around it. -/
theorem bind_method {c : LoxLang.Closure} {c' : Closure} (h : Related T P β m w)
    (hc : ClosureRelated T P β m.frames thisScope c c') (u : Value) :
    Simulates T P none (LoxLang.Run.bind c u) (Run.bind c' u) β m w
      fun bound bound' β' fs' =>
        ClosureRelated T P β' fs' [] bound bound' ∧ bound.params = c.params := by
  obtain ⟨S, hchain, hfine, -⟩ := hc.scopes
  have hu : Fitting "this" u := fun heq => absurd heq (by decide)
  obtain ⟨hlater, hchain'⟩ := h.hiddenFrame hchain hu
  exact of_ok _ _ rfl rfl hlater ⟨⟨hc.name, hc.params, hc.body, hc.isInitializer,
    [("this", true)] :: S, hchain', hfine, fun _ _ => ⟨S, rfl⟩⟩, rfl⟩

/-!
## Properties

Fields come before methods on both sides. A method that is found is bound, which makes a function.
-/

theorem property (h : Related T P β m w) (i : InstanceId) (name : Name) :
    Simulates T P none (LoxLang.Run.property i name) (Run.property i name) β m w Same := by
  unfold LoxLang.Run.property Run.property
  refine get ?_
  rw [h.instances]
  cases w.instances[i]? with
  | none => exact fail h name.place (.undefinedProperty name.text)
  | some object =>
    simp only [Option.bind_eq_bind, Option.bind_some]
    -- Fields are the same on both sides; of methods, only those bound are compared.
    cases object.fields.get? name.text with
    | some v => exact pure v v h rfl
    | none =>
      obtain ⟨hnone, hnone'⟩ | ⟨c, c', hc, hc', hrelated⟩ :=
        (h.method? object.classId name.text).cases
      · simp only [hnone, hnone', Option.bind_none]
        exact fail h name.place (.undefinedProperty name.text)
      · simp only [hc, hc', Option.bind_some]
        refine bind (bind_method h hrelated (.object i)) ?_
        rintro c c' β' m' w' hlater ⟨hbound, -⟩
        refine bind (newFunction hlater.related hbound) ?_
        rintro f _ β'' m'' w'' hlater' rfl
        exact pure _ _ hlater'.related rfl

theorem staticProperty (h : Related T P β m w) (c : ClassId) (name : Name) :
    Simulates T P none (LoxLang.Run.staticProperty c name) (Run.staticProperty c name) β m w
      Same := by
  have hmethod := h.staticMethod? c name.text
  cases hstatic : w.staticMethod? c name.text with
  | some f =>
    rw [hstatic] at hmethod
    refine (pure (.function f) (.function f) h rfl).congr ?_ ?_
    · simp only [LoxLang.Run.staticProperty, hmethod]
      rfl
    · simp only [Run.staticProperty, hstatic]
      rfl
  | none =>
    rw [hstatic] at hmethod
    refine (fail h name.place (.undefinedStaticMethod name.text)).congr ?_ ?_
    · simp only [LoxLang.Run.staticProperty, hmethod]
    · simp only [Run.staticProperty, hstatic]

theorem setField (h : Related T P β m w) (i : InstanceId) (x : String) (u : Value) :
    Simulates T P none (LoxLang.Run.setField i x u) (Run.setField i x u) β m w Same := by
  refine of_ok () () rfl rfl ⟨rfl, .refl none β m.frames, ?_⟩ rfl
  refine ⟨h.frames, h.functions, h.classes, ?_, h.output, h.clockReadings, h.distances⟩
  dsimp only
  rw [h.instances]

/-! ## The world outside -/

theorem print (h : Related T P β m w) (u : Value) :
    Simulates T P none (LoxLang.Run.print u) (Run.print u) β m w Same := by
  refine of_ok () () rfl rfl ⟨rfl, .refl none β m.frames, ?_⟩ rfl
  refine ⟨h.frames, h.functions, h.classes, h.instances, ?_, h.clockReadings, h.distances⟩
  show m.output ++ (m.text u ++ "\n") = w.output ++ (w.text u ++ "\n")
  rw [h.output, h.text]

theorem countReading (h : Related T P β m w) :
    Simulates T P none LoxLang.Run.countReading Run.countReading β m w Same := by
  refine of_ok _ _ rfl rfl ⟨rfl, .refl none β m.frames, ?_⟩ h.clockReadings
  exact ⟨h.frames, h.functions, h.classes, h.instances, h.output,
    congrArg (· + 1) h.clockReadings, h.distances⟩

/-!
## Methods of a superclass

The superclass is read by its distance in the one evaluator and by its name in the other. It is the
same class.
-/

/-- In a method of a subclass, `super` has a value that is a class, and `this` has one. -/
theorem superExpr {v : Visit} (h : Related T P β m w) (hchain : Chain β m.frames m.current S ρ)
    (hfine : (Occurrence.use v).Fine T P) (hscopes : v.scopes = S) (hkind : v.kind = .super)
    (hname : v.name = "super") (method : Name) :
    Simulates T P none (LoxLang.Evaluator.superExpr v.id method) (Evaluator.superExpr ρ method)
      β m w Same := by
  subst hscopes
  obtain ⟨hT, -⟩ := hfine.settled v rfl
  have hplaced : v.Placed := hfine.placed
  unfold Visit.Placed at hplaced
  rw [hkind] at hplaced
  obtain ⟨k, hd, hthis⟩ := hplaced
  have hd' : Scope.distance? v.scopes "super" = some (k + 1) := by
    rw [← hname]
    exact hd
  obtain ⟨g, u, hlocal, hsuper, hsuper'⟩ := h.readHidden hchain hd' fun hx => hx.2 rfl
  obtain ⟨_, this, _, hthis, hthis'⟩ := h.readHidden hchain hthis fun hx => hx.1 rfl
  obtain ⟨c, rfl⟩ := h.frames.supers g u hlocal
  have hget : (MonadState.get : LoxLang.Run Machine) m = .ok m m := rfl
  have hget' : (MonadState.get : Run Store) w = .ok w w := rfl
  -- Both go on with the same class and the same instance.
  obtain ⟨hnone, hnone'⟩ | ⟨f, f', hf, hf', hrelated⟩ := (h.method? c method.text).cases
  · refine (fail h method.place (.undefinedProperty method.text)).congr ?_ ?_
    · unfold LoxLang.Evaluator.superExpr
      simp only [Bind.bind, EStateM.bind, LoxLang.Run.distance?, h.distances, hT, hd,
        LoxLang.Run.currentFrame, hsuper, Nat.add_sub_cancel, hthis, hget, hnone]
    · unfold Evaluator.superExpr
      simp only [Bind.bind, EStateM.bind, hsuper', hthis', hget', hnone']
  · have hp : LoxLang.Evaluator.superExpr v.id method m =
        (do return .function (← LoxLang.Run.newFunction (← LoxLang.Run.bind f this)) :
          LoxLang.Run Value) m := by
      unfold LoxLang.Evaluator.superExpr
      simp only [Bind.bind, EStateM.bind, LoxLang.Run.distance?, h.distances, hT, hd,
        LoxLang.Run.currentFrame, hsuper, Nat.add_sub_cancel, hthis, hget, hf]
    have hq : Evaluator.superExpr ρ method w =
        (do return .function (← Run.newFunction (← Run.bind f' this)) : Run Value) w := by
      unfold Evaluator.superExpr
      simp only [Bind.bind, EStateM.bind, hsuper', hthis', hget', hf']
    refine Simulates.congr ?_ hp hq
    refine bind (bind_method h hrelated this) ?_
    rintro f f' β' m' w' hlater ⟨hbound, -⟩
    refine bind (newFunction hlater.related hbound) ?_
    rintro id _ β'' m'' w'' hlater' rfl
    exact pure _ _ hlater'.related rfl

end Simulates

end LoxLang.Lexical
