import LoxLang.Proofs.ClassDeclarations
import LoxLang.Proofs.Lexical.Rules

/-!
# Declarations with frames and with cells

With cells, a local name is there from the beginning of its declaration on; in the frame it appears
when it is given a value. Apart from that the two evaluators do the same steps. The module ends with
the agreement of whole evaluators, under any watch that changes nothing.
-/

namespace LoxLang.Lexical

variable {T : Distances} {P : Visit → Prop} {inner : LoxLang.Evaluator} {inner' : Evaluator}
  {β β' : Links} {m m' : Machine} {w w' : Store} {S : List Scope} {ρ : Environment} {place : Place}
  {host : Host} {α γ γ' : Type}

open Simulates

/-- The first step with cells has no counterpart with frames. -/
theorem Simulates.bind_right {free : Option FrameId} {q : Run α} {p : LoxLang.Run γ}
    {g : α → Run γ'} {Q : Unit → α → Links → Frames Value → Prop}
    {R : γ → γ' → Links → Frames Value → Prop}
    (h : Simulates T P free (Pure.pure ()) q β m w Q)
    (hpg : ∀ a β' m' w', Later T P free β m β' m' w' → Q () a β' m'.frames →
      Simulates T P free p (g a) β' m' w' R) :
    Simulates T P free p (q >>= g) β m w R := by
  have hboth : Simulates T P free (Pure.pure () >>= fun _ => p) (q >>= g) β m w R :=
    bind h fun _ a β' m' w' hlater hQ => hpg a β' m' w' hlater hQ
  exact hboth.congr rfl rfl

/-!
## Variables and functions

A variable has its cell before its initializer is evaluated, and the cell is filled where the frame
gets the entry. A function is made after its name is declared, so its closure reaches its own cell.
-/

/-- Giving a declared name its value ends its declaration. -/
theorem Simulates.define_place {free : Option FrameId} {name : Name} (h : Related T P β m w)
    (hpos : Position β m.frames m.current (Scope.enter name.text false S) place)
    (hname : IsName name.text) (v : Value) :
    Simulates T P free (LoxLang.Run.define name.text v)
      (do
        Run.define place name.text v
        return place) β m w
      fun _ place' β' fs' => Position β' fs' m.current (Scope.enter name.text true S) place' := by
  have hboth : Simulates T P free
      (LoxLang.Run.define name.text v >>= fun _ => Pure.pure ())
      (Run.define place name.text v >>= fun _ => Pure.pure place) β m w
      fun _ place' β' fs' => Position β' fs' m.current (Scope.enter name.text true S) place' := by
    refine Simulates.bind ((define h hpos hname).weaken free) ?_
    rintro _ _ β' m' w' hlater ⟨hpos', -⟩
    exact pure () place hlater.related hpos'
  exact hboth.congr rfl rfl

theorem Agrees.var (h : Agrees T P inner inner') {name : Name} {initializer : Option Expr}
    (hrel : Related T P β m w) (hpos : Position β m.frames m.current S place)
    (hfine : Fine T P ((Stmt.var name initializer).occurrences S)) :
    Simulates T P (some m.current) (LoxLang.Evaluator.stmtSteps.var inner.eval name initializer)
      (inner'.var place name initializer) β m w fun _ place' β' fs' =>
        Position β' fs' m.current (Scope.enter name.text true S) place' := by
  have hname : (Occurrence.declaration name.text S).Fine T P := by
    cases initializer <;> (rw [Stmt.occurrences] at hfine; exact hfine.head)
  refine bind_right (declare hrel hpos hname.written hname.placed) ?_
  rintro place' β' m' w' hlater hpos'
  rw [← hlater.current] at hpos' ⊢
  cases initializer with
  | none => exact (define_place hlater.related hpos' hname.written .nil).congr rfl rfl
  | some e =>
    -- The initializer stands in the scope of the name, which is not ready yet.
    rw [Stmt.occurrences] at hfine
    refine bind_none (h.eval hlater.related hpos'.chain hfine.tail.tail) ?_
    rintro v _ β'' m'' w'' hlater' rfl
    have hpos'' := hlater'.position hpos'
    rw [← hlater'.current]
    exact define_place hlater'.related hpos'' hname.written v

theorem function_apply (f : FunctionDecl) (m : Machine) :
    LoxLang.Evaluator.function f m =
      (do
        LoxLang.Run.define f.name.text (.function m.functions.size)
        let _ ← LoxLang.Run.newFunction (LoxLang.Evaluator.closureOf f m.current false)) m := rfl

/-- Defining the name and then making the function comes to the same. -/
theorem function_place_apply (f : FunctionDecl) (place : Place) (w : Store) :
    (do
      let id ← Run.newFunction (Evaluator.closureOf f place.environment false)
      Run.define place f.name.text (.function id)
      return place : Run Place) w =
    (do
      Run.define place f.name.text (.function w.functions.size)
      let _ ← Run.newFunction (Evaluator.closureOf f place.environment false)
      return place : Run Place) w := by
  cases place with
  | topLevel => rfl
  | inside ρ =>
    simp only [Bind.bind, EStateM.bind, Run.newFunction, Run.define, Place.environment]
    cases ρ.get? f.name.text <;> rfl

/-- A function of a declaration stands in the scope of its name. -/
theorem ClosureRelated.of_decl {hidden : List Scope} {f : FunctionDecl} {fs : Frames Value}
    {frame : FrameId} {isInitializer : Bool} (hchain : Chain β fs frame S ρ)
    (hfine : Fine T P (f.occurrences (hidden ++ S)))
    (hinit : hidden = [] → isInitializer = false) :
    ClosureRelated T P β fs hidden (LoxLang.Evaluator.closureOf f frame isInitializer)
      (Evaluator.closureOf f ρ isInitializer) := by
  refine ⟨rfl, rfl, rfl, rfl, S, hchain, ?_, ?_⟩
  · obtain ⟨name, params, body⟩ := f
    rw [FunctionDecl.occurrences] at hfine
    exact hfine
  · intro hhidden htrue
    have hfalse : isInitializer = false := hinit hhidden
    rw [show (LoxLang.Evaluator.closureOf f frame isInitializer).isInitializer = isInitializer
      from rfl, hfalse] at htrue
    cases htrue

theorem Simulates.function {f : FunctionDecl} (hrel : Related T P β m w)
    (hpos : Position β m.frames m.current S place)
    (hfine : Fine T P ((Stmt.function f).occurrences S)) :
    Simulates T P (some m.current) (LoxLang.Evaluator.function f) (Evaluator.function place f)
      β m w fun _ place' β' fs' =>
        Position β' fs' m.current (Scope.enter f.name.text true S) place' := by
  rw [Stmt.occurrences] at hfine
  have hname := hfine.head
  refine bind_right (declare hrel hpos hname.written hname.placed) ?_
  rintro place' β' m' w' hlater hpos'
  rw [← hlater.current] at hpos' ⊢
  -- On both sides the name is defined first, so that the function is made where it is known.
  have hboth : Simulates T P (some m'.current)
      (do
        LoxLang.Run.define f.name.text (.function m'.functions.size)
        let _ ← LoxLang.Run.newFunction (LoxLang.Evaluator.closureOf f m'.current false))
      (do
        Run.define place' f.name.text (.function w'.functions.size)
        let _ ← Run.newFunction (Evaluator.closureOf f place'.environment false)
        return place') β' m' w' fun _ place' β' fs' =>
          Position β' fs' m'.current (Scope.enter f.name.text true S) place' := by
    rw [← hlater.related.functions.size]
    refine bind_none (define hlater.related hpos' hname.written) ?_
    rintro _ _ β'' m'' w'' hlater' ⟨hpos'', -⟩
    have hclosure : ClosureRelated T P β'' m''.frames []
        (LoxLang.Evaluator.closureOf f m'.current false)
        (Evaluator.closureOf f place'.environment false) :=
      .of_decl hpos''.chain hfine.tail fun _ => rfl
    refine bind_none (newFunction hlater'.related hclosure) ?_
    rintro _ _ β₃ m₃ w₃ hlater'' -
    exact pure () place' hlater''.related (hlater''.grows.position hpos'')
  exact hboth.congr (function_apply f m') (function_place_apply f place' w')

/-!
## Classes

The class takes its name first and its methods are made behind that, each in a frame or environment
that has `super` if there is a superclass.
-/

/-- The superclass is read where the class has a name but no value, which makes no difference since
the names are different. -/
theorem Simulates.superclass {name : Name} {use : VariableUse} (hrel : Related T P β m w)
    (hchain : Chain β m.frames m.current (Scope.enter name.text false S) ρ)
    (hfine : Fine T P (superclassOccurrences (Scope.enter name.text true S) name (some use))) :
    Simulates T P none (LoxLang.Evaluator.superclass use) (Evaluator.superclass ρ use) β m w
      Same := by
  have hne : name.text ≠ use.name.text := hfine.head.placed
  have hagree : Scope.AgreeOn use.name.text (Scope.enter name.text false S)
      (Scope.enter name.text true S) :=
    (Scope.agreeOn_enter hne false S).trans (Scope.agreeOn_enter hne true S).symm
  refine Simulates.bind
    (readVariable use.name.line hrel hchain hfine.tail.head hagree (.inl rfl)) ?_
  rintro v _ β' m' w' hlater rfl
  cases v with
  | «class» c => exact pure c c hlater.related rfl
  | _ => exact fail hlater.related use.name.place .superclassNotClass

theorem Simulates.staticMethods {fs : List FunctionDecl} {frame : FrameId}
    (hrel : Related T P β m w) (hchain : Chain β m.frames frame S ρ)
    (hfine : Fine T P (functionsOccurrences S fs)) :
    Simulates T P none (LoxLang.Evaluator.staticMethods frame fs) (Evaluator.staticMethods ρ fs)
      β m w Same := by
  induction fs generalizing β m w with
  | nil => exact pure ([] : Bindings FunctionId) ([] : Bindings FunctionId) hrel rfl
  | cons f fs ih =>
    rw [functionsOccurrences] at hfine
    have hclosure : ClosureRelated T P β m.frames []
        (LoxLang.Evaluator.closureOf f frame false) (Evaluator.closureOf f ρ false) :=
      .of_decl hchain hfine.left fun _ => rfl
    refine Simulates.bind (newFunction hrel hclosure) ?_
    rintro id _ β' m' w' hlater rfl
    refine Simulates.bind (ih hlater.related (hlater.grows.chain hchain) hfine.right) ?_
    rintro others _ β'' m'' w'' hlater' rfl
    exact pure _ _ hlater'.related rfl

/-- The methods of a class, found by their names. -/
theorem found_methods {fs : List FunctionDecl} {frames : Frames Value} {frame : FrameId}
    (hchain : Chain β frames frame S ρ)
    (hfine : Fine T P (functionsOccurrences (thisScope ++ S) fs)) (x : String) :
    Found (ClosureRelated T P β frames thisScope)
      ((LoxLang.Evaluator.methods frame fs).get? x) ((Evaluator.methods ρ fs).get? x) := by
  -- The tables are filled from left to right, so the statement is about tables that are begun.
  have hinsert : ∀ (bs : Bindings LoxLang.Closure) (bs' : Bindings Closure),
      Found (ClosureRelated T P β frames thisScope) (bs.get? x) (bs'.get? x) →
      Found (ClosureRelated T P β frames thisScope)
        ((bs.insertMany (fs.map fun f => (f.name.text,
          LoxLang.Evaluator.closureOf f frame (f.name.text = initializerName)))).get? x)
        ((bs'.insertMany (fs.map fun f => (f.name.text,
          Evaluator.closureOf f ρ (f.name.text = initializerName)))).get? x) := by
    induction fs with
    | nil => exact fun _ _ h => h
    | cons f fs ih =>
      intro bs bs' h
      rw [functionsOccurrences] at hfine
      refine ih hfine.right (bs.insert f.name.text _) (bs'.insert f.name.text _) ?_
      rw [Bindings.get?_insert, Bindings.get?_insert]
      split
      · exact .of_decl hchain hfine.left nofun
      · exact h
  exact hinsert [] [] trivial

/-- The scope that holds `super`, if there is a superclass. -/
def superScopes (S : List Scope) : Option VariableUse → List Scope
  | none => S
  | some _ => [("super", true)] :: S

theorem Simulates.methodFrame {parent : Option VariableUse} {c? : Option ClassId} {frame : FrameId}
    (hrel : Related T P β m w) (hchain : Chain β m.frames frame S ρ)
    (hsome : c?.isSome = parent.isSome) :
    Simulates T P none (LoxLang.Evaluator.methodFrame frame c?)
      (Evaluator.methodEnvironment ρ c?) β m w
      fun f ρ' β' fs' => Chain β' fs' f (superScopes S parent) ρ' := by
  cases parent with
  | none =>
    obtain rfl : c? = none := by simpa using hsome
    exact pure frame ρ hrel hchain
  | some use =>
    obtain ⟨c, rfl⟩ := Option.isSome_iff_exists.mp hsome
    have hclass : Fitting "super" (.«class» c) := fun _ => ⟨c, rfl⟩
    obtain ⟨hlater, hchain'⟩ := hrel.hiddenFrame hchain hclass
    exact of_ok m.frames.size (("super", w.cells.size) :: ρ) rfl rfl hlater hchain'

/-- What a class declaration does once the superclass is known. -/
theorem Simulates.classBody {name : Name} {parent : Option VariableUse} {c? : Option ClassId}
    {methods statics : List FunctionDecl} (hrel : Related T P β m w)
    (hpos : Position β m.frames m.current (Scope.enter name.text false S) place)
    (hname : IsName name.text) (hsome : c?.isSome = parent.isSome)
    (hstatics : Fine T P (functionsOccurrences (Scope.enter name.text true S) statics))
    (hmethods : Fine T P
      (functionsOccurrences (methodScopes (Scope.enter name.text true S) parent) methods)) :
    Simulates T P (some m.current)
      (LoxLang.Evaluator.classBody name c? methods statics)
      (do
        Run.define place name.text .nil
        let ids ← Evaluator.staticMethods place.environment statics
        let inner ← Evaluator.methodEnvironment place.environment c?
        let id ← Run.newClass ⟨name.text, c?, Evaluator.methods inner methods,
          Bindings.insertMany [] ids⟩
        Run.define place name.text (.«class» id)
        return place) β m w
      fun _ place' β' fs' => Position β' fs' m.current (Scope.enter name.text true S) place' := by
  refine bind_none (define hrel hpos hname) ?_
  rintro _ _ β' m' w' hlater ⟨hpos', hlocal⟩
  rw [← hlater.current] at hpos' hlocal ⊢
  refine Simulates.congr ?_ (show _ = (do
    let ids ← LoxLang.Evaluator.staticMethods m'.current statics
    let inner ← LoxLang.Evaluator.methodFrame m'.current c?
    let id ← LoxLang.Run.newClass ⟨name.text, c?, LoxLang.Evaluator.methods inner methods,
      Bindings.insertMany [] ids⟩
    LoxLang.Run.writeFrom m'.current name (.«class» id) : LoxLang.Run Unit) m' from rfl) rfl
  -- Each of the steps leaves the place of the name alone, so its position is carried along.
  refine bind_none (staticMethods hlater.related hpos'.chain hstatics) ?_
  rintro ids _ β₁ m₁ w₁ hlater₁ rfl
  have hpos₁ := hlater₁.grows.position hpos'
  refine bind_none (methodFrame hlater₁.related hpos₁.chain hsome) ?_
  rintro inner ρ₂ β₂ m₂ w₂ hlater₂ hchain₂
  have hpos₂ := hlater₂.grows.position hpos₁
  have hmethods' : Fine T P (functionsOccurrences
      (thisScope ++ superScopes (Scope.enter name.text true S) parent) methods) := by
    cases parent <;> exact hmethods
  have hclass : ClassRelated T P β₂ m₂.frames
      ⟨name.text, c?, LoxLang.Evaluator.methods inner methods, Bindings.insertMany [] ids⟩
      ⟨name.text, c?, Evaluator.methods ρ₂ methods, Bindings.insertMany [] ids⟩ :=
    ⟨rfl, rfl, rfl, found_methods hchain₂ hmethods'⟩
  refine bind_none (newClass hlater₂.related hclass) ?_
  rintro id _ β₃ m₃ w₃ hlater₃ rfl
  -- The name still has its place, so the class is written to it.
  have hcurrent : m₃.current = m'.current :=
    hlater₃.current.trans (hlater₂.current.trans hlater₁.current)
  have hpos₃ := hlater₃.grows.position hpos₂
  have hlocal₃ : (m₃.frames.local? m₃.current name.text).isSome := by
    rw [hcurrent]
    exact hlater₃.grows.kept _ _ (hlater₂.grows.kept _ _ (hlater₁.grows.kept _ _ hlocal))
  rw [← hcurrent] at hpos₃ ⊢
  have hdefine : Simulates T P (some m₃.current)
      (LoxLang.Run.define name.text (.«class» id) >>= fun _ => Pure.pure ())
      (Run.define place name.text (.«class» id) >>= fun _ => Pure.pure place) β₃ m₃ w₃
      fun _ place' β' fs' =>
        Position β' fs' m₃.current (Scope.enter name.text true S) place' := by
    refine bind_none (define hlater₃.related hpos₃ hname) ?_
    rintro _ _ β₄ m₄ w₄ hlater₄ ⟨hpos₄, -⟩
    exact pure () place hlater₄.related hpos₄
  exact hdefine.congr (LoxLang.Run.writeFrom_current hlocal₃ _) rfl

theorem Simulates.classDecl {name : Name} {parent : Option VariableUse}
    {methods statics : List FunctionDecl} (hrel : Related T P β m w)
    (hpos : Position β m.frames m.current S place)
    (hfine : Fine T P ((Stmt.classDecl name parent methods statics).occurrences S)) :
    Simulates T P (some m.current) (LoxLang.Evaluator.classDecl name parent methods statics)
      (Evaluator.classDecl place name parent methods statics) β m w
      fun _ place' β' fs' => Position β' fs' m.current (Scope.enter name.text true S) place' := by
  rw [Stmt.occurrences] at hfine
  have hname := hfine.head
  have hstatics := hfine.tail.right.left
  have hmethods := hfine.tail.right.right
  refine bind_right (declare hrel hpos hname.written hname.placed) ?_
  rintro place' β' m' w' hlater hpos'
  rw [← hlater.current] at hpos' ⊢
  -- The superclass is read in the scope of the new name, before this is defined.
  cases parent with
  | none =>
    have hnone : (none : Option ClassId).isSome = (none : Option VariableUse).isSome := rfl
    have hbody := classBody hlater.related hpos' hname.written hnone hstatics hmethods
    rw [← LoxLang.Evaluator.declareClass_eq] at hbody
    exact hbody.congr rfl rfl
  | some use =>
    have hread : Simulates T P none (some <$> LoxLang.Evaluator.superclass use)
        (some <$> Evaluator.superclass place'.environment use) β' m' w'
        fun c? c'? _ _ => c? = c'? ∧ c?.isSome = (some use).isSome :=
      (superclass hlater.related hpos'.chain hfine.tail.left).map
        fun c c' _ _ hsame => ⟨congrArg some hsame, rfl⟩
    have hdecl : LoxLang.Evaluator.classDecl name (some use) methods statics =
        some <$> LoxLang.Evaluator.superclass use >>= fun c? =>
          LoxLang.Evaluator.classBody name c? methods statics := by
      simp only [LoxLang.Evaluator.classDecl, LoxLang.Evaluator.declareClass_eq, bind_map_left]
    rw [hdecl]
    refine bind_none hread ?_
    rintro c? _ β'' m'' w'' hlater' ⟨rfl, hsome⟩
    have hpos'' := hlater'.position hpos'
    rw [← hlater'.current]
    exact classBody hlater'.related hpos'' hname.written hsome hstatics hmethods

/-!
## Whole evaluators

By induction on the levels. Positions are needed only where statements follow one another; where a
part is an expression or a body, what it leaves behind is its value.
-/

/-- A statement that declares nothing, from what it does. -/
theorem Simulates.exec_of {s : Stmt} {p : LoxLang.Run Completion} {q : Run Completion}
    (h : Simulates T P none p q β m w Same) (hpos : Position β m.frames m.current S place)
    (hafter : s.scopesAfter S = S) (free : Option FrameId) :
    Simulates T P free p (do return (← q, place)) β m w fun c r β' fs' => c = r.1 ∧
      (c = .normal → Position β' fs' m.current (s.scopesAfter S) r.2) := by
  have hboth : Simulates T P free (p >>= Pure.pure) (q >>= fun c => Pure.pure (c, place)) β m w
      fun c r β' fs' => c = r.1 ∧
        (c = .normal → Position β' fs' m.current (s.scopesAfter S) r.2) := by
    refine bind_none h ?_
    rintro c _ β' m' w' hlater rfl
    rw [hafter]
    exact pure c (c, place) hlater.related ⟨rfl, fun _ => hlater.grows.position hpos⟩
  exact hboth.congr (by simp) rfl

/-- A statement that always ends normally and declares nothing, from what it does. -/
theorem Simulates.effect_of {s : Stmt} {α' : Type} {p : LoxLang.Run α} {q : Run α'}
    {Q : α → α' → Links → Frames Value → Prop} (h : Simulates T P none p q β m w Q)
    (hpos : Position β m.frames m.current S place) (hafter : s.scopesAfter S = S) :
    Simulates T P none (Completion.endings.normally p)
      (do
        let _ ← q
        return (.normal, place)) β m w fun c r β' fs' => c = r.1 ∧
      (c = .normal → Position β' fs' m.current (s.scopesAfter S) r.2) := by
  refine Simulates.bind h ?_
  rintro _ _ β' m' w' hlater -
  rw [hafter]
  exact pure Completion.normal (Completion.normal, place) hlater.related
    ⟨rfl, fun _ => hlater.grows.position hpos⟩

/-- A declaration, from the place behind it. -/
theorem Simulates.declaration_of {s : Stmt} {p : LoxLang.Run Unit} {q : Run Place}
    (h : Simulates T P (some m.current) p q β m w fun _ place' β' fs' =>
      Position β' fs' m.current (s.scopesAfter S) place') :
    Simulates T P (some m.current) (Completion.endings.normally p)
      (do return (.normal, ← q)) β m w fun c r β' fs' => c = r.1 ∧
        (c = .normal → Position β' fs' m.current (s.scopesAfter S) r.2) := by
  refine Simulates.bind h ?_
  rintro _ place' β' m' w' hlater hpos'
  exact pure Completion.normal (Completion.normal, place') hlater.related ⟨rfl, fun _ => hpos'⟩

/-- Every statement. -/
theorem Agrees.stmtRule (h : Agrees T P inner inner') (host : Host) {s : Stmt}
    (hrel : Related T P β m w) (hpos : Position β m.frames m.current S place)
    (hfine : Fine T P (s.occurrences S)) :
    Simulates T P (if s.declares then some m.current else none) (inner.stmtRule host s)
      (inner'.stmtRule host place s) β m w fun c r β' fs' => c = r.1 ∧
        (c = .normal → Position β' fs' m.current (s.scopesAfter S) r.2) := by
  cases s with
  | expression e =>
    rw [Stmt.occurrences] at hfine
    exact (h.eval hrel hpos.chain hfine).effect_of (s := .expression e) hpos rfl
  | print e =>
    rw [Stmt.occurrences] at hfine
    have hprint : Simulates T P none (LoxLang.Evaluator.stmtSteps.printValue inner.eval e)
        (inner'.eval place.environment e >>= Run.print) β m w Same := by
      refine Simulates.bind (h.eval hrel hpos.chain hfine) ?_
      rintro v _ β' m' w' hlater rfl
      exact print hlater.related v
    -- A statement that declares nothing leaves the position as it was.
    have hexec := hprint.effect_of (s := .print e) hpos rfl
    rw [bind_assoc] at hexec
    exact hexec
  | var name initializer => exact declaration_of (h.var hrel hpos hfine)
  | block body =>
    rw [Stmt.occurrences] at hfine
    exact (h.block hrel hpos.chain hfine).exec_of (s := .block body) hpos rfl none
  | ifThen condition consequence alternative =>
    exact (h.ifThen hrel hpos hfine).exec_of (s := .ifThen condition consequence alternative) hpos
      rfl none
  | whileDo condition body =>
    rw [Stmt.occurrences] at hfine
    exact (h.loop hrel hpos hfine host.iterations).exec_of (s := .whileDo condition body) hpos rfl
      none
  | function f => exact declaration_of (function hrel hpos hfine)
  | returnValue line value =>
    exact (h.returnValue hrel hpos.chain hfine).exec_of (s := .returnValue line value) hpos rfl none
  | classDecl name parent methods statics => exact declaration_of (classDecl hrel hpos hfine)

/-- What is done under a watch that changes nothing is nothing. -/
theorem Simulates.of_quiet {free : Option FrameId} {α' : Type} {look : LoxLang.Run Unit}
    {p : LoxLang.Run α} {q : Run α'} {Q : α → α' → Links → Frames Value → Prop}
    (hlook : look m = .ok () m) (h : Simulates T P free p q β m w Q) :
    Simulates T P free (look >>= fun _ => p) q β m w Q := by
  exact h.congr (LoxLang.Run.bind_of_ok hlook) rfl

theorem Agrees.watched (h : Agrees T P inner inner') {watch : Expr → LoxLang.Run Unit}
    (hquiet : Quiet T P watch) :
    Agrees T P (inner.watchedAround host watch) (inner'.around host) := by
  constructor
  · intro e S ρ β m w hrel hchain hfine
    refine Simulates.of_quiet (hquiet S e hrel hchain fun v hv => ?_)
      (h.exprRule hrel hchain hfine)
    exact ⟨hfine _ (Expr.use_mem_occurrences hv), rfl, rfl⟩
  · intro s S place β m w hrel hpos hfine
    have hstmt := h.stmtRule host hrel hpos hfine
    refine Simulates.of_quiet ?_ hstmt
    unfold LoxLang.Evaluator.watchSuperclass
    split
    · next name use methods statics =>
      rw [Stmt.occurrences] at hfine
      -- The use of the superclass stands in scopes that have the name of the class already.
      refine hquiet (Scope.enter name.text true S) (.«variable» use) hrel hpos.chain fun v hv => ?_
      obtain rfl := Option.some.inj hv
      have hname : IsName name.text := hfine.head.written
      have hsuperclass : Fine T P (superclassOccurrences (Scope.enter name.text true S) name
          (some use)) := hfine.tail.left
      exact ⟨hsuperclass.tail.head,
        (Scope.agreeOn_enter hsuperclass.head.placed true S).symm,
        (Scope.agreeOn_enter hname.1 true S).symm⟩
    · rfl

/-- Evaluation with frames, under a quiet watch, agrees with evaluation by cells at every depth. -/
theorem agrees_evaluator {watch : Expr → LoxLang.Run Unit} (hquiet : Quiet T P watch)
    (host : Host) (depth : Nat) :
    Agrees T P (watchedEvaluator host watch depth) (evaluator host depth) := by
  induction depth with
  | zero => exact ⟨fun hrel _ _ => throw hrel nofun, fun hrel _ _ => throw hrel nofun⟩
  | succ depth ih => exact ih.watched hquiet

theorem Stmt.scopesAfter_nil (s : Stmt) : s.scopesAfter [] = [] := by
  cases s <;> rfl

/-- Programs run alike from the top level, where no declaration opens a scope. -/
theorem Simulates.execute {watch : Expr → LoxLang.Run Unit} (hquiet : Quiet T P watch)
    (host : Host) (depth : Nat) {program : List Stmt} (hrel : Related T P β m w)
    (hcurrent : m.current = Machine.globalFrame)
    (hfine : Fine T P (stmtsOccurrences [] program)) :
    Simulates T P (some m.current) (watchedExecute host watch depth program)
      (Lexical.execute host depth program) β m w Same := by
  unfold watchedExecute Lexical.execute
  induction program generalizing β m w with
  | nil => exact pure () () hrel rfl
  | cons s ss ih =>
    rw [stmtsOccurrences, Stmt.scopesAfter_nil] at hfine
    -- Each statement starts at the top level, in the global frame.
    have hpos : Position β m.frames m.current [] .topLevel := by
      rw [hcurrent]
      exact .topLevel
    have hexec := (agrees_evaluator hquiet host depth).exec hrel hpos hfine.left
    have hstep : Simulates T P (some m.current)
        (do
          let _ ← (watchedEvaluator host watch depth).exec s)
        (do
          let _ ← (evaluator host depth).exec .topLevel s) β m w Same := by
      -- Whether it declares or not, it may change the links of the global frame.
      have hfree : Simulates T P (some m.current) ((watchedEvaluator host watch depth).exec s)
          ((evaluator host depth).exec .topLevel s) β m w fun _ _ _ _ => True := by
        split at hexec
        · exact hexec.mono fun _ _ _ _ _ => trivial
        · exact (hexec.weaken _).mono fun _ _ _ _ _ => trivial
      refine Simulates.bind hfree ?_
      rintro _ _ β' m' w' hlater -
      exact pure () () hlater.related rfl
    refine Simulates.bind hstep ?_
    rintro _ _ β' m' w' hlater -
    rw [← hlater.current]
    exact ih hlater.related (hlater.current.trans hcurrent) hfine.right

end LoxLang.Lexical
