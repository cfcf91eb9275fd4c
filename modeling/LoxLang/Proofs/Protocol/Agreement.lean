import LoxLang.Proofs.Links.Steps
import LoxLang.Proofs.Protocol
import LoxLang.Proofs.Protocol.Parameters
import LoxLang.Proofs.Receivers.Rules

/-!
# The protocol is followed

Evaluation by the protocol agrees with plain evaluation (`agreement_evaluator`) under the invariant
that states are both genuine and founded, if the watch lets proper moments pass. What is to be shown
of calls is that their moments are proper (`enters_callFrame`, `creates_newInstance`), and that what
plain evaluation looks up once, before an instance is made or after a body has run, is what the
protocol looks up at the other time. All other rules are the plain ones.
-/

namespace LoxLang.Protocol

open Machine (Later Genuine Founded Written Origin)

variable {F : FunctionText → Prop} {m : Machine} {host : Host} {watch : Moment → Run Unit}
  {inner' inner : Evaluator}

/-! ## The invariant -/

/-- States are genuine and founded. -/
def invariant (F : FunctionText → Prop) : Invariant :=
  (Genuine.invariant F).both (Founded.invariant fun p => p.BelongsTo F)

theorem maintained (F : FunctionText → Prop) : (invariant F).Maintained :=
  (maintained_genuine F).both (maintained_founded _)

/-- What belongs to the programs is known twice over. -/
theorem known_of_belongTo {ps : List Part} (h : ∀ p ∈ ps, p.BelongsTo F) :
    ∀ p ∈ ps, (invariant F).known p :=
  fun p hp => ⟨h p hp, h p hp⟩

/-- The classes of a founded state are orderly: each has the methods of a declaration, and one that
is found under the name for it initializes. -/
theorem orderly_of_founded {P : Part → Prop} (hm : m.Founded P) : m.Orderly where
  older := hm.superclasses
  initializers k info method hclass hmethod := by
    obtain ⟨_, _, methods, _, hinfo⟩ := hm.declared k info hclass
    obtain ⟨f, hmethods⟩ := hinfo.methods_get?
    rw [hmethods] at hmethod
    obtain ⟨d, hd, rfl⟩ := Option.map_eq_some_iff.mp hmethod
    exact (List.mem_filter.mp (List.mem_of_getLast? hd)).2

/-!
## Moments that are proper

What the two invariants give at the two moments of a call: where a body is entered, the frame of the
call is as it should be; where an instance has been made, nothing knows of it and its initializer is
the nearest one.
-/

/-- A function that has an origin among functions with different parameters has such, too. -/
theorem distinct_of_origin (hF : ∀ f, F f → (f.params.map (·.text)).Nodup) (hm : m.Genuine F)
    {c : Closure} (hc : m.Origin F c) : (c.params.map (·.text)).Nodup := by
  cases hc with
  | named f hf hc | staticMethod f hf hc | lambda params body hf hc =>
    rw [hc]
    exact hF _ hf
  | bound k info x method i hclass hmethod hc hlink hthis =>
    obtain ⟨⟨f, hf, hmade⟩, -⟩ := hm.methods k info x method hclass hmethod
    rw [hc, hmade]
    exact hF _ hf

/-- The frame of a call binds each parameter to its argument. -/
theorem enters_callFrame (horderly : m.Orderly) {c : Closure} {arguments : List Value}
    (harity : arguments.length = c.params.length) (hdistinct : (c.params.map (·.text)).Nodup)
    (hreceiver : c.isInitializer = true →
      ∃ i, m.frames.local? c.frame "this" = some (.object i)) :
    let values := Bindings.insertMany [] ((c.params.map (·.text)).zip arguments)
    Enters { m with frames := m.frames.push ⟨values, some c.frame⟩, current := m.frames.size } c
      arguments := by
  have hnames : ((c.params.map (·.text)).zip arguments).map (·.1) = c.params.map (·.text) :=
    List.map_fst_zip (by simp [harity])
  -- Each parameter gets a binding of its own, so no argument is lost to a later one.
  have hvalues : Bindings.insertMany [] ((c.params.map (·.text)).zip arguments) =
      [] ++ (c.params.map (·.text)).zip arguments :=
    Bindings.insertMany_of_nodup (by rwa [List.nil_append, hnames])
  refine ⟨harity, hdistinct, ?_, fun hinit => ?_, fun k info method hclass hmethod hc => ?_⟩
  · rw [hvalues, List.nil_append, Frames.frame?_push, if_pos rfl]
  · obtain ⟨i, hthis⟩ := hreceiver hinit
    -- The frame that holds the receiver is older than that of the call.
    have hold : c.frame ≠ m.frames.size := Nat.ne_of_lt (Frames.lt_size_of_local? _ _ hthis)
    exact ⟨i, by rwa [Frames.local?_push, if_neg hold]⟩
  · rw [hc]
    exact horderly.initializers k info method hclass hmethod

/-- The initializer of a class is the same where an instance has been made. -/
theorem initializer?_newInstance (m : Machine) (k : ClassId) (object : Instance) :
    { m with instances := m.instances.push object }.initializer? k = m.initializer? k := by
  have hclasses : { m with instances := m.instances.push object }.classes = m.classes := rfl
  exact Machine.inClasses?_congr hclasses k

/-- Nothing that is there refers to an instance that is made, and its initializer is the nearest. -/
theorem creates_newInstance (hm : m.Genuine F) (horderly : m.Orderly) {k : ClassId}
    (hk : m.Holds (.«class» k)) {arguments : List Value}
    (harity : arguments.length = (Callee.constructor k (m.initializer? k)).arity) :
    Creates { m with instances := m.instances.push ⟨k, []⟩ } k m.instances.size
      (m.initializer? k) arguments := by
  -- The number of the instance was given to none before, so nothing can refer to it.
  have habsent : ¬m.Holds (.object m.instances.size) := Nat.lt_irrefl m.instances.size
  refine ⟨?_, fun f x hx => habsent (hm.held f x _ hx), fun j object x hj hx => ?_, ?_, harity⟩
  · rw [Array.getElem?_push, if_pos rfl]
  · rw [Array.getElem?_push] at hj
    split at hj
    · obtain rfl := Option.some.inj hj
      cases hx
    · exact habsent (hm.fields j object x _ hj hx)
  · have horderly' : Machine.Orderly { m with instances := m.instances.push ⟨k, []⟩ } :=
      horderly.congr rfl
    rw [← initializer?_newInstance]
    exact horderly'.nearest hk

/-!
## Calls

Both evaluators carry out the same call from the same state. They differ in when they look up the
initializer and the instance, and between the two moments neither changes.
-/

section Calls

open Invariant.Agrees

variable (hinner : (invariant F).Agreement inner' inner)
  (hF : ∀ f, F f → (f.params.map (·.text)).Nodup)
  (hwatch : ∀ moment m, moment.Proper m → watch moment m = .ok () m)
include hinner hF hwatch

/-- The body of a function is entered at a proper moment. -/
theorem agrees_body {c : Closure} {arguments : List Value} (hc : (invariant F).function m c)
    (harguments : ∀ v ∈ arguments, (invariant F).value m v)
    (harity : arguments.length = c.params.length) :
    (invariant F).Agrees m (body watch inner' c arguments)
      (do let frame ← Evaluator.callFrame c arguments; Run.inFrame frame (inner.execAll c.body))
      (invariant F).completion := by
  refine given fun hm => ((maintained F).callFrame hc harguments).exactly.bind
    fun f m₁ _ _ hframe => ?_
  obtain ⟨hrun, hf⟩ := hframe
  cases hrun
  -- This is the moment that the watch is asked about.
  have henters := enters_callFrame (orderly_of_founded hm.2) harity
    (distinct_of_origin hF hm.1 hc.1.1) hc.1.1.receiver
  exact (maintained F).inFrame hf
    (behind (hwatch _ _ henters) (hinner.execAll ((maintained F).body hc)))
    fun _ _ g hcompletion => (maintained F).completion_current g hcompletion

theorem agrees_callClosure {c : Closure} {arguments : List Value}
    (hc : (invariant F).function m c) (harguments : ∀ v ∈ arguments, (invariant F).value m v)
    (harity : arguments.length = c.params.length) :
    (invariant F).Agrees m (callClosure watch inner' c arguments)
      (inner.callClosure c arguments) (invariant F).value := by
  have hbody := agrees_body hinner hF hwatch hc harguments harity
  rw [Evaluator.callClosure_eq]
  unfold callClosure
  split
  · next hinit =>
    -- The instance that is found before the body runs is still found behind it.
    obtain ⟨i, hthis⟩ := hc.1.1.receiver hinit
    have hread : Run.readAt 0 c.frame "this" m = .ok (.object i) m := by
      unfold Run.readAt
      rw [Homed.getAt_zero hthis]
      rfl
    refine behind hread (hbody.bind fun completion _ hlater _ hcompletion => ?_)
    exact of_eq (Evaluator.callResult_initializer hthis hinit hlater.1 completion).symm
      ((maintained F).callResult c hcompletion)
  · next hinit =>
    refine hbody.bind fun completion _ _ _ hcompletion => of_eq ?_
      ((maintained F).callResult c hcompletion)
    cases completion <;> simp [Evaluator.callResult, hinit]

omit hinner hF hwatch in
/-- The result of a call is found where `this` is bound, initializer or not. -/
theorem callResult_of_this {m' : Machine} {c : Closure} {i : InstanceId}
    (hthis : m.frames.local? c.frame "this" = some (.object i)) (hlater : Later m m')
    (completion : Completion) : ∃ v, Evaluator.callResult c completion m' = .ok v m' := by
  by_cases hinit : c.isInitializer = true
  · exact ⟨_, Evaluator.callResult_initializer hthis hinit hlater completion⟩
  · unfold Evaluator.callResult
    rw [if_neg hinit]
    cases completion with
    | normal => exact ⟨_, rfl⟩
    | returned v => exact ⟨v, rfl⟩

/-- The initializer of an instance is run on it, and whatever it gives is dropped. -/
theorem agrees_runInitializer {init : Closure} {i : InstanceId} {arguments : List Value}
    (hinit : (invariant F).method m init) (hi : (invariant F).value m (.object i))
    (harguments : ∀ v ∈ arguments, (invariant F).value m v)
    (harity : arguments.length = init.params.length) :
    (invariant F).Agrees m
      (do
        let bound ← Run.bind init (.object i)
        let _ ← body watch inner' bound arguments
        return Value.object i)
      (do
        let bound ← Run.bind init (.object i)
        let _ ← inner.callClosure bound arguments
        return Value.object i) (invariant F).value := by
  refine ((maintained F).bindTo hinit ((maintained F).this hi)).exactly.bind
    fun bound m₁ hlater _ hbound => ?_
  obtain ⟨hrun, hbound⟩ := hbound
  cases hrun
  have hthis : (m.frames.push ⟨[("this", .object i)], some init.frame⟩).local? m.frames.size
      "this" = some (.object i) := by
    rw [Frames.local?_push, if_pos rfl]
    rfl
  rw [Evaluator.callClosure_eq, bind_assoc]
  refine (agrees_body hinner hF hwatch hbound
    ((maintained F).values_later hlater harguments) harity).bind
      fun completion m₂ hlater' _ _ => ?_
  obtain ⟨v, hresult⟩ := callResult_of_this (c := { init with frame := m.frames.size }) hthis
    hlater'.1 completion
  have hobject : (invariant F).value m₂ (.object i) :=
    (maintained F).value_later hlater' ((maintained F).value_later hlater hi)
  -- What the call gives is found without a change of the state, and then it is not asked for.
  intro hm₂
  rw [Run.bind_of_ok hresult]
  exact ⟨rfl, hm₂, (invariant F).refl m₂, hobject⟩

theorem agrees_construct {k : ClassId} {arguments : List Value}
    (hk : (invariant F).value m (.«class» k))
    (harguments : ∀ v ∈ arguments, (invariant F).value m v)
    (harity : arguments.length = (Callee.constructor k (m.initializer? k)).arity) :
    (invariant F).Agrees m (construct watch inner' k arguments)
      (inner.construct k (m.initializer? k) arguments) (invariant F).value := by
  refine given fun hm => ((maintained F).makeInstance hk).exactly.bind
    fun i m₁ hlater _ hmade => ?_
  obtain ⟨hrun, hi⟩ := hmade
  cases hrun
  have hcreates := creates_newInstance hm.1 (orderly_of_founded hm.2) hk.1 harity
  refine behind rfl ?_
  -- The initializer that is found now is the one whose parameters were counted.
  rw [initializer?_newInstance]
  refine behind (hwatch _ _ hcreates) ?_
  cases hinit : m.initializer? k with
  | none => exact pure fun _ => hi
  | some init =>
    rw [hinit] at harity
    have hmethod := (maintained F).method_of_method? hm hinit
    exact agrees_runInitializer hinner hF hwatch ((maintained F).method_later hlater hmethod) hi
      ((maintained F).values_later hlater harguments) harity

theorem agrees_call (place : Location) {callee : Value} {arguments : List Value}
    (hcallee : (invariant F).value m callee)
    (harguments : ∀ v ∈ arguments, (invariant F).value m v) :
    (invariant F).Agrees m (call host watch inner' place callee arguments)
      (inner.call host place callee arguments) (invariant F).value := by
  refine given fun hm => get ?_
  cases htarget : m.callee? callee with
  | none => exact fail place _
  | some target =>
    dsimp only
    split
    -- Only behind the check of the number of arguments is anything called.
    · next harity =>
      refine guarded place ?_
      cases callee with
      -- A native function makes no moment of its own.
      | native n =>
        cases htarget
        exact (maintained F).callNative host n
      | function id =>
        obtain ⟨c, hc, rfl⟩ := Option.map_eq_some_iff.mp htarget
        exact agrees_callClosure hinner hF hwatch ((maintained F).functions hm hc) harguments
          harity
      | «class» k =>
        cases htarget
        exact agrees_construct hinner hF hwatch hcallee harguments harity
      | _ => cases htarget
    · exact fail place _

/-! ## Whole evaluators -/

/-- The rules of the protocol agree with the plain ones around rules that agree. -/
theorem agreement_around :
    (invariant F).Agreement (around host watch inner') (inner.around host) where
  eval {m e} he := by
    cases e with
    | call callee line arguments =>
      obtain ⟨hcallee, harguments⟩ := parts_append (parts_tail he)
      exact (hinner.eval hcallee).bind fun _ _ _ _ hv =>
        ((maintained F).evalAll hinner harguments).bind fun _ _ hlater _ hvs =>
          agrees_call hinner hF hwatch _ ((maintained F).value_later hlater hv) hvs
    | _ => exact (maintained F).otherRule hinner host he nofun
  exec hs := (maintained F).stmtRule hinner hs

end Calls

/-- Evaluation by the protocol agrees with plain evaluation, within every bound of nesting. -/
theorem agreement_evaluator (hF : ∀ f, F f → (f.params.map (·.text)).Nodup)
    (hwatch : ∀ moment m, moment.Proper m → watch moment m = .ok () m) (host : Host)
    (depth : Nat) :
    (invariant F).Agreement (evaluator host watch depth) (LoxLang.evaluator host depth) := by
  induction depth with
  | zero => exact .innermost
  | succ depth ih => exact agreement_around ih hF hwatch

end LoxLang.Protocol
