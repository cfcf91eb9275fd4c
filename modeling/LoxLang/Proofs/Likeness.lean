import Mathlib.Data.List.Forall2
import LoxLang.Evaluation
import LoxLang.Proofs.Stores

/-!
# Functions and classes that are alike

Two states may hold the same functions and classes up to some relation between closures, one for
functions and one for methods. What is looked up in the two is alike then (`Machine.Akin`): methods
of classes, texts of values, and what can be called.
-/

namespace LoxLang

variable {R R' : Closure → Closure → Prop}

/-!
## Methods

Tables with the same names, and related methods under each, find related methods.
-/

/-- Methods of the same names that are related one by one. -/
abbrev MethodsAlike (R : Closure → Closure → Prop) (bs bs' : Bindings Closure) : Prop :=
  List.Forall₂ (fun b b' => b.1 = b'.1 ∧ R b.2 b'.2) bs bs'

theorem MethodsAlike.get? {bs bs' : Bindings Closure} (h : MethodsAlike R bs bs') (x : String) :
    Found R (bs.get? x) (bs'.get? x) := by
  induction h with
  | nil => trivial
  | @cons b b' bs bs' hb hbs ih =>
    obtain ⟨key, c⟩ := b
    obtain ⟨key', c'⟩ := b'
    obtain ⟨rfl, hc⟩ := hb
    unfold Bindings.get?
    split
    · exact hc
    · exact ih

theorem MethodsAlike.insert {bs bs' : Bindings Closure} (h : MethodsAlike R bs bs') (x : String)
    {c c' : Closure} (hc : R c c') : MethodsAlike R (bs.insert x c) (bs'.insert x c') := by
  induction h with
  | nil => exact .cons ⟨rfl, hc⟩ .nil
  | @cons b b' bs bs' hb hbs ih =>
    obtain ⟨key, d⟩ := b
    obtain ⟨key', d'⟩ := b'
    obtain ⟨rfl, hd⟩ := hb
    unfold Bindings.insert
    split
    · exact .cons ⟨rfl, hc⟩ hbs
    · exact .cons ⟨rfl, hd⟩ ih

/-- Declarations of the same names from which related closures are made give related methods. -/
theorem methodsAlike_methods {fs fs' : List FunctionDecl} {frame : FrameId}
    (h : List.Forall₂ (fun f f' => f.name.text = f'.name.text ∧ ∀ isInitializer,
      R (Evaluator.closureOf f frame isInitializer) (Evaluator.closureOf f' frame isInitializer))
      fs fs') :
    MethodsAlike R (Evaluator.methods frame fs) (Evaluator.methods frame fs') := by
  unfold Evaluator.methods Bindings.insertMany
  -- Of tables that are alike to begin with.
  have hall : ∀ bs bs', MethodsAlike R bs bs' → MethodsAlike R
      ((fs.map fun f => (f.name.text, Evaluator.closureOf f frame
        (f.name.text = initializerName))).foldl (fun bs (x, c) => Bindings.insert bs x c) bs)
      ((fs'.map fun f => (f.name.text, Evaluator.closureOf f frame
        (f.name.text = initializerName))).foldl (fun bs (x, c) => Bindings.insert bs x c) bs') := by
    induction h with
    | nil => exact fun _ _ h => h
    | @cons f f' fs fs' hf _ ih =>
      intro bs bs' hbs
      simp only [List.map_cons, List.foldl_cons]
      rw [hf.1]
      exact ih _ _ (hbs.insert _ (hf.2 _))
  exact hall [] [] .nil

/-!
## States

If functions, classes and instances are alike then so is all that can be looked up in them: methods,
what a value is as a callee, and the text that is shown for it.
-/

/-- The same class but for its methods, which are related. -/
structure ClassInfo.Alike (R : Closure → Closure → Prop) (info info' : ClassInfo) : Prop where
  name : info.name = info'.name
  superclass : info.superclass = info'.superclass
  methods : ∀ x, Found R (info.methods.get? x) (info'.methods.get? x)
  staticMethods : info.staticMethods = info'.staticMethods

theorem ClassInfo.Alike.mono {info info' : ClassInfo} (h : info.Alike R info')
    (himp : ∀ c c', R c c' → R' c c') : info.Alike R' info' :=
  ⟨h.name, h.superclass, fun x => (h.methods x).imp himp, h.staticMethods⟩

/-- The same callee up to relations between functions and between methods. -/
inductive Callee.Alike (R R' : Closure → Closure → Prop) : Callee → Callee → Prop
  | native (n : Native) : Alike R R' (.native n) (.native n)
  | closure {c c' : Closure} (h : R c c') : Alike R R' (.closure c) (.closure c')
  | constructor (c : ClassId) {init? init'? : Option Closure} (h : Found R' init? init'?) :
      Alike R R' (.constructor c init?) (.constructor c init'?)

theorem Callee.Alike.arity_eq (hR : ∀ c c', R c c' → c.params.length = c'.params.length)
    (hR' : ∀ c c', R' c c' → c.params.length = c'.params.length) {c c' : Callee}
    (h : c.Alike R R' c') : c.arity = c'.arity := by
  cases h with
  | native n => rfl
  | closure h => exact hR _ _ h
  | constructor c h =>
    obtain ⟨rfl, rfl⟩ | ⟨init, init', rfl, rfl, h⟩ := h.cases
    · rfl
    · exact hR' _ _ h

/-- Two states hold the same functions, classes and instances, up to a relation between functions
and one between methods. -/
structure Machine.Akin (R R' : Closure → Closure → Prop) (m m' : Machine) : Prop where
  functions : LoxLang.Alike R m.functions m'.functions
  classes : LoxLang.Alike (ClassInfo.Alike R') m.classes m'.classes
  instances : m.instances = m'.instances

namespace Machine.Akin

variable {m m' : Machine} (h : m.Akin R R' m')
include h

/-- What is looked up among a class and its superclasses is related if it is in each class. -/
theorem inClasses? {α : Type} {Q : α → α → Prop} {own? : ClassInfo → Option α}
    (hown : ∀ info info', info.Alike R' info' → Found Q (own? info) (own? info'))
    (c : ClassId) : Found Q (m.inClasses? own? c) (m'.inClasses? own? c) :=
  h.classes.inLineage? (fun _ _ hc => hc.superclass) hown c

theorem method? (c : ClassId) (x : String) : Found R' (m.method? c x) (m'.method? c x) :=
  h.inClasses? (fun _ _ hc => hc.methods x) c

theorem staticMethod? (c : ClassId) (x : String) : m.staticMethod? c x = m'.staticMethod? c x := by
  have hfound : Found Eq (m.staticMethod? c x) (m'.staticMethod? c x) := by
    refine h.inClasses? (fun info info' hc => ?_) c
    rw [hc.staticMethods]
    cases info'.staticMethods.get? x with
    | none => trivial
    | some f => rfl
  obtain ⟨hnone, hnone'⟩ | ⟨f, f', hf, hf', rfl⟩ := hfound.cases
  · rw [hnone, hnone']
  · rw [hf, hf']

theorem className (c : ClassId) : m.classes[c]?.map (·.name) = m'.classes[c]?.map (·.name) := by
  obtain ⟨hnone, hnone'⟩ | ⟨info, info', hinfo, hinfo', hc⟩ := (h.classes.found c).cases
  · rw [hnone, hnone']
  · rw [hinfo, hinfo', Option.map_some, Option.map_some, hc.name]

/-- Values look the same if functions have the same names. -/
theorem text (hname : ∀ c c', R c c' → c.name? = c'.name?) (v : Value) :
    m.text v = m'.text v := by
  -- Texts name functions and classes, and names are the same on both sides.
  cases v with
  | function f =>
    simp only [Machine.text]
    obtain ⟨hnone, hnone'⟩ | ⟨c, c', hc, hc', hcc⟩ := (h.functions.found f).cases
    · rw [hnone, hnone']
    · rw [hc, hc', Option.map_some, Option.map_some, Closure.text, Closure.text, hname c c' hcc]
  | «class» c =>
    simp only [Machine.text]
    rw [h.className c]
  | object i =>
    simp only [Machine.text]
    rw [h.instances]
    cases m'.instances[i]? with
    | none => rfl
    | some object =>
      dsimp only
      rw [h.className object.classId]
  | _ => rfl

theorem callee? (v : Value) : Found (Callee.Alike R R') (m.callee? v) (m'.callee? v) := by
  cases v with
  | native n => exact .native n
  | function f =>
    simp only [Machine.callee?]
    obtain ⟨hnone, hnone'⟩ | ⟨c, c', hc, hc', hcc⟩ := (h.functions.found f).cases
    · rw [hnone, hnone']
      trivial
    · rw [hc, hc']
      exact .closure hcc
  | «class» c => exact .constructor c (h.method? c initializerName)
  | _ => trivial

end Machine.Akin

end LoxLang
