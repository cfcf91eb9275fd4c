import LoxLang.Proofs.Lexical.Objects
import LoxLang.Proofs.Watching

/-!
# Calls with frames and with cells

Two evaluators agree (`Agrees`) if they simulate each other on whatever stands at a place that is
described by scopes, frames and cells. What is built from agreeing evaluators without looking into
trees is simulated too: lists of expressions and statements, and calls.
-/

namespace LoxLang.Lexical

section Agreement

variable (T : Distances) (P : Visit → Prop)

/-- What the text says holds of everything that is met. -/
def Fine (os : List Occurrence) : Prop := ∀ o ∈ os, o.Fine T P

/-- What is done before an expression changes nothing, at whatever place the expression is
evaluated. The scopes `S'` of the expression and those of the place may differ in a name that is not
asked for. -/
def Quiet (watch : Expr → LoxLang.Run Unit) : Prop :=
  ∀ {β : Links} {m : Machine} {w : Store} {S : List Scope} {ρ : Environment} (S' : List Scope)
    (e : Expr), Related T P β m w → Chain β m.frames m.current S ρ →
    (∀ v, e.visit? S' = some v → (Occurrence.use v).Fine T P ∧ Scope.AgreeOn v.name S S' ∧
      Scope.AgreeOn "this" S S') → watch e m = .ok () m

/-- Two evaluators do the same with whatever stands at a place that they both know. -/
structure Agrees (inner : LoxLang.Evaluator) (inner' : Evaluator) : Prop where
  eval : ∀ {e : Expr} {S : List Scope} {ρ : Environment} {β : Links} {m : Machine} {w : Store},
    Related T P β m w → Chain β m.frames m.current S ρ → Fine T P (e.occurrences S) →
    Simulates T P none (inner.eval e) (inner'.eval ρ e) β m w Same
  exec : ∀ {s : Stmt} {S : List Scope} {place : Place} {β : Links} {m : Machine} {w : Store},
    Related T P β m w → Position β m.frames m.current S place → Fine T P (s.occurrences S) →
    Simulates T P (if s.declares then some m.current else none) (inner.exec s)
      (inner'.exec place s) β m w fun c r β' fs' => c = r.1 ∧
        (c = .normal → Position β' fs' m.current (s.scopesAfter S) r.2)

end Agreement

variable {T : Distances} {P : Visit → Prop} {inner : LoxLang.Evaluator} {inner' : Evaluator}
  {β β' : Links} {m m' : Machine} {w w' : Store} {S : List Scope} {ρ : Environment} {place : Place}
  {host : Host} {free : Option FrameId}

/-- To do nothing changes nothing. -/
theorem quiet_pure : Quiet T P fun _ => Pure.pure () := fun _ _ _ _ _ => rfl

/-!
## What holds behind a step

What is fine of a whole is fine of its parts; and a place that scopes, frames and cells describe
alike is so described in every later state.
-/

theorem Fine.left {os os' : List Occurrence} (h : Fine T P (os ++ os')) : Fine T P os :=
  fun o ho => h o (List.mem_append_left os' ho)

theorem Fine.right {os os' : List Occurrence} (h : Fine T P (os ++ os')) : Fine T P os' :=
  fun o ho => h o (List.mem_append_right os ho)

theorem Fine.tail {o : Occurrence} {os : List Occurrence} (h : Fine T P (o :: os)) : Fine T P os :=
  fun o ho => h o (List.mem_cons_of_mem _ ho)

theorem Fine.head {o : Occurrence} {os : List Occurrence} (h : Fine T P (o :: os)) : o.Fine T P :=
  h o List.mem_cons_self

/-- Behind a step, the chain of frames at a place stands for the same environment. -/
theorem Later.chain (h : Later T P free β m β' m' w') (hchain : Chain β m.frames m.current S ρ) :
    Chain β' m'.frames m'.current S ρ := by
  rw [h.current]
  exact h.grows.chain hchain

/-- Behind a step that declares nothing, a position is still described by the same scopes. -/
theorem Later.position (h : Later T P none β m β' m' w')
    (hpos : Position β m.frames m.current S place) :
    Position β' m'.frames m'.current S place := by
  rw [h.current]
  exact h.grows.position hpos

/-!
## Lists

Parts in a row are simulated one after the other, each from the states that the one before has left.
-/

namespace Agrees

open Simulates

/-- Arguments are evaluated alike. The environment is the same for all of them. -/
theorem evalAll (h : Agrees T P inner inner') {es : List Expr} (hrel : Related T P β m w)
    (hchain : Chain β m.frames m.current S ρ) (hfine : Fine T P (exprsOccurrences S es)) :
    Simulates T P none (inner.evalAll es) (ExprSteps.evalAll (inner'.eval ρ) es) β m w Same := by
  induction es generalizing β m w with
  | nil => exact pure [] [] hrel rfl
  | cons e es ih =>
    refine bind (h.eval hrel hchain hfine.left) ?_
    rintro v _ β' m' w' hlater rfl
    refine bind (ih hlater.related (hlater.chain hchain) hfine.right) ?_
    rintro vs _ β'' m'' w'' hlater' rfl
    exact pure _ _ hlater'.related rfl

/-- Statements are executed alike. Each may declare, so scopes and places go on from one to the
next. -/
theorem execAll (h : Agrees T P inner inner') {ss : List Stmt} (hrel : Related T P β m w)
    (hpos : Position β m.frames m.current S place) (hfine : Fine T P (stmtsOccurrences S ss)) :
    Simulates T P (some m.current) (inner.execAll ss) (inner'.execAll place ss) β m w Same := by
  induction ss generalizing β m w S place with
  | nil => exact pure Completion.normal Completion.normal hrel rfl
  | cons s ss ih =>
    -- A declaration may change the links of the frame, all else may not.
    have hexec : Simulates T P (some m.current) (inner.exec s) (inner'.exec place s) β m w
        fun c r β' fs' => c = r.1 ∧
          (c = .normal → Position β' fs' m.current (s.scopesAfter S) r.2) := by
      have hs := h.exec hrel hpos hfine.left
      split at hs
      · exact hs
      · exact hs.weaken _
    refine bind hexec ?_
    rintro c ⟨c', place'⟩ β' m' w' hlater ⟨rfl, hpos'⟩
    cases c with
    | normal =>
      have hpos'' := hpos' rfl
      rw [← hlater.current] at hpos'' ⊢
      exact ih hlater.related hpos'' hfine.right
    | returned v => exact pure _ _ hlater.related rfl

end Agrees

/-!
## Calls

A function with frames and one with cells are related by their texts and surroundings, so their
bodies are executed at places that are described alike.
-/

namespace Simulates

/-- The instance that an initializer gives is in the frame around it, and in the environment of the
other. -/
theorem callResult {c : LoxLang.Closure} {c' : Closure} (h : Related T P β m w)
    (hc : ClosureRelated T P β m.frames [] c c') (completion : Completion) :
    Simulates T P none (LoxLang.Evaluator.callResult c completion)
      (Evaluator.callResult c' completion) β m w Same := by
  unfold LoxLang.Evaluator.callResult Evaluator.callResult
  rw [← hc.isInitializer]
  cases hinit : c.isInitializer with
  | true =>
    obtain ⟨S, hchain, -, hthis⟩ := hc.scopes
    -- An initializer was made in the frame that binds `this`, so its distance there is 0.
    obtain ⟨S', rfl⟩ := hthis rfl hinit
    have hd : Scope.distance? ([("this", true)] :: S') "this" = some 0 := rfl
    obtain ⟨_, v, -, hp, hq⟩ := h.readHidden hchain hd fun hx => hx.1 rfl
    exact of_ok v v hp hq (h.later none) rfl
  | false =>
    cases completion with
    | normal => exact pure Value.nil Value.nil h rfl
    | returned v => exact pure v v h rfl

/-- Both read the clock, and have read it as often before. -/
theorem callNative (h : Related T P β m w) (n : Native) :
    Simulates T P none (LoxLang.Evaluator.callNative host n) (Evaluator.callNative host n) β m w
      Same := by
  cases n with
  | clock =>
    refine bind (countReading h) ?_
    rintro k _ β' m' w' hlater rfl
    exact pure _ _ hlater.related rfl

/-- Levels run out in both at the same moment. -/
theorem guarded {α : Type} {p : LoxLang.Run α} {q : Run α} (place : Location)
    (h : Simulates T P none p q β m w Same) :
    Simulates T P none (LoxLang.Evaluator.guarded place p) (Evaluator.guarded place q) β m w
      Same := by
  have hcopy := h
  unfold Simulates at h
  split at h
  · next a m' a' w' hp hq =>
    refine hcopy.congr ?_ ?_
    · simp only [LoxLang.Evaluator.guarded, hp]
    · simp only [Evaluator.guarded, hq]
  · next e m' e' w' hp hq =>
    obtain ⟨rfl, -, β', hlater⟩ := h
    cases e with
    | tooDeep =>
      -- Running out of levels is a failure of this call.
      refine of_error (e := .failure ⟨place, .stackOverflow⟩) ?_ ?_ nofun hlater
      · simp only [LoxLang.Evaluator.guarded, hp]
        rfl
      · simp only [Evaluator.guarded, hq]
        rfl
    | _ =>
      refine hcopy.congr ?_ ?_
      · simp only [LoxLang.Evaluator.guarded, hp]
      · simp only [Evaluator.guarded, hq]
  · exact h.elim

end Simulates

namespace Agrees

open Simulates

/-- The frame of a call has a cell for each parameter. -/
theorem callClosure (h : Agrees T P inner inner') {c : LoxLang.Closure} {c' : Closure}
    {us : List Value} (hrel : Related T P β m w) (hc : ClosureRelated T P β m.frames [] c c')
    (hlength : us.length = c.params.length) :
    Simulates T P none (inner.callClosure c us) (inner'.callClosure c' us) β m w Same := by
  obtain ⟨S, hchain, hfine, -⟩ := hc.scopes
  unfold LoxLang.Evaluator.callClosure Evaluator.callClosure
  rw [← hc.params, ← hc.body]
  have hfine : Fine T P (bodyOccurrences S c.params c.body) := hfine
  refine bind_made (callFrame hrel hchain hlength hfine.left) ?_
  rintro frame ρ' β' m' w' hlater ⟨hsize, hpos⟩
  refine ⟨frame, hsize, ?_⟩
  have hrel' := hlater.related
  -- The body is executed in the new frame, to which the statements of the body may add names.
  have hrel'' : Related T P β' { m' with current := frame } w' :=
    ⟨hrel'.frames, hrel'.functions, hrel'.classes, hrel'.instances, hrel'.output,
      hrel'.clockReadings, hrel'.distances⟩
  refine bind (inFrame (h.execAll hrel'' hpos hfine.right)) ?_
  rintro completion _ β'' m'' w'' hlater' rfl
  exact (callResult hlater'.related (hlater'.grows.closure (hlater.grows.closure hc))
    completion).weaken _

/-- Both make an instance of the same number, and bind the initializer to it. -/
theorem construct (h : Agrees T P inner inner') {init? : Option LoxLang.Closure}
    {init'? : Option Closure} {us : List Value} {k : ClassId} (hrel : Related T P β m w)
    (hinit : Found (ClosureRelated T P β m.frames thisScope) init? init'?)
    (hlength : us.length = (LoxLang.Callee.constructor k init?).arity) :
    Simulates T P none (inner.construct k init? us) (inner'.construct k init'? us) β m w Same := by
  unfold LoxLang.Evaluator.construct Evaluator.construct
  refine bind (newInstance hrel k) ?_
  rintro i _ β' m' w' hlater rfl
  obtain ⟨rfl, rfl⟩ | ⟨init, init', rfl, rfl, hc⟩ := hinit.cases
  · exact pure _ _ hlater.related rfl
  -- The initializer is bound to the instance on both sides, in a frame here and a cell there.
  · refine bind (bind_method hlater.related (hlater.grows.closure hc) (.object i)) ?_
    rintro c c' β'' m'' w'' hlater' ⟨hc', hsame⟩
    have hlength' : us.length = c.params.length := by
      rw [hsame]
      exact hlength
    refine bind (h.callClosure hlater'.related hc' hlength') ?_
    rintro _ _ β₃ m₃ w₃ hlater'' rfl
    exact pure _ _ hlater''.related rfl

/-- Each kind of callee is simulated by the one of the same kind. -/
theorem invoke (h : Agrees T P inner inner') {c : LoxLang.Callee} {c' : Callee} {us : List Value}
    (hrel : Related T P β m w) (hc : CalleeRelated T P β m.frames c c')
    (hlength : us.length = c.arity) :
    Simulates T P none (inner.invoke host us c) (inner'.invoke host us c') β m w Same := by
  cases hc with
  | native n => exact callNative hrel n
  | closure hc => exact h.callClosure hrel hc hlength
  | constructor k hinit => exact h.construct hrel hinit hlength

/-- The same is called, with as many arguments as it takes, or the same failure is told. -/
theorem call (h : Agrees T P inner inner') {callee : Value} {us : List Value}
    (hrel : Related T P β m w) (spot : Location) :
    Simulates T P none (inner.call host spot callee us) (inner'.call host spot callee us) β m w
      Same := by
  unfold LoxLang.Evaluator.call Evaluator.call
  refine get ?_
  obtain ⟨hnone, hnone'⟩ | ⟨c, c', hc, hc', hrelated⟩ := (hrel.callee? callee).cases
  · rw [hnone, hnone']
    exact fail hrel spot .notCallable
  · rw [hc, hc']
    dsimp only
    rw [← hrelated.arity_eq]
    split
    · next hlength => exact guarded spot (h.invoke hrel hrelated hlength)
    · exact fail hrel spot _

end Agrees

end LoxLang.Lexical
