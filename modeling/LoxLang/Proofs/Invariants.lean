import Mathlib.Data.List.Forall2
import LoxLang.Proofs.Outcomes
import LoxLang.Proofs.Parts

/-!
# Invariants of running programs

A program logic for what holds at every moment of a run. An `Invariant` says what holds of each
state (`good`), what a later state has in common with an earlier one (`later`), and what is known of
the values, frames and functions that a program handles. If each of the few steps that change the
state keeps it (`Invariant.Maintained`), then so does all of evaluation, however it ends.

The logic speaks of two runs at once: from a good state, one run has the outcome of the other, and
that outcome is good again (`Invariant.Agrees`). A run that agrees with itself keeps the invariant.
So an evaluator that goes about some rule in another way is compared with the plain one by the same
lemmas, and only the rule in which they differ needs one of its own.
-/

namespace LoxLang

/-!
## What is found in tables and among classes

Whatever a lookup finds was put there once. To know something of all entries is so enough to know it
of what is found.
-/

/-- What many bindings bind to a name is one of them. -/
theorem Bindings.exists_of_get?_insertMany {α : Type} {bs : Bindings α} {more : List (String × α)}
    {x : String} {a : α} (h : (bs.insertMany more).get? x = some a) :
    bs.get? x = some a ∨ (x, a) ∈ more := by
  induction more generalizing bs with
  | nil => exact .inl h
  | cons b more ih =>
    have hrest : ((bs.insert b.1 b.2).insertMany more).get? x = some a := h
    rcases ih hrest with h | h
    · rw [Bindings.get?_insert] at h
      split at h
      · next hx =>
        obtain rfl := Option.some.inj h
        exact .inr (hx ▸ List.mem_cons_self)
      · exact .inl h
    · exact .inr (List.mem_cons_of_mem _ h)

/-- A table of one binding binds nothing else. -/
theorem Bindings.get?_singleton {α : Type} {x y : String} {a b : α}
    (h : Bindings.get? [(x, a)] y = some b) : x = y ∧ a = b := by
  unfold Bindings.get? at h
  split at h
  · next hx => exact ⟨hx, Option.some.inj h⟩
  · cases h

namespace Machine

/-- What is found among classes is held by one of them. -/
theorem exists_of_inClasses? {α : Type} {m : Machine} {own? : ClassInfo → Option α} {c : ClassId}
    {a : α} (h : m.inClasses? own? c = some a) :
    ∃ (d : ClassId) (info : ClassInfo), m.classes[d]? = some info ∧ own? info = some a := by
  unfold Machine.inClasses? at h
  induction c using Nat.strongRecOn with
  | ind c ih =>
    unfold inLineage? at h
    split at h
    · cases h
    · next info hinfo =>
      split at h
      · next b hb => exact ⟨c, info, hinfo, hb.trans h⟩
      · split at h
        · cases h
        -- The class has none of its own, so it was found further up, in an older class.
        · next d _ =>
          split at h
          · next hlt => exact ih d hlt h
          · cases h

/-- What a value refers to is there. -/
def Holds (m : Machine) : Value → Prop
  | .function id => id < m.functions.size
  | .«class» c => c < m.classes.size
  | .object i => i < m.instances.size
  | .nil | .bool _ | .number _ | .string _ | .native _ => True

end Machine

/-- What a completion carries is there. -/
def Completion.HeldIn (m : Machine) : Completion → Prop
  | .normal => True
  | .returned v => m.Holds v

/-!
## Invariants

An invariant says what holds of states, of values in them, of frames and functions and methods, and
which relation there is between earlier and later states. What has to be shown of it is listed in
`Maintained`, one entry for each step that makes or writes something.
-/

/-- The name that a node of a tree declares or assigns, if it does. -/
def Part.target? : Part → Option Name
  | .expr (.assign _ name _) => some name
  | .stmt (.var name _) => some name
  | .stmt (.function f) => some f.name
  | .stmt (.classDecl name _ _ _) => some name
  | _ => none

/-- What is kept while programs run. Where nothing is to be known, `True` is all that is known. -/
structure Invariant where
  /-- What holds of each state. -/
  good : Machine → Prop := fun _ => True
  /-- What a later state has in common with an earlier one. -/
  later : Machine → Machine → Prop
  refl : ∀ m, later m m
  trans : ∀ {m m' m''}, later m m' → later m' m'' → later m m''
  /-- What is known of the nodes of the programs. -/
  known : Part → Prop := fun _ => True
  /-- What is known of names that are declared or assigned. -/
  name : String → Prop := fun _ => True
  /-- What is known of values that a program handles. -/
  value : Machine → Value → Prop := fun _ _ => True
  /-- What is known of what frames bind. -/
  binding : Machine → String → Value → Prop := fun _ _ _ => True
  /-- What is known of frames in which something is done. -/
  frame : Machine → FrameId → Prop := fun _ _ => True
  /-- What is known of functions that can be called. -/
  function : Machine → Closure → Prop := fun _ _ => True
  /-- What is known of the methods in the tables of classes. -/
  method : Machine → Closure → Prop := fun _ _ => True

namespace Invariant

variable (I : Invariant)

/-- A later state is good. -/
def Step (m m' : Machine) : Prop := I.good m' ∧ I.later m m'

/-- What a run leaves behind is good and later, and if it ended normally, something is known of its
result. -/
def Leads {α : Type} (m : Machine) (r : EStateM.Result Abort Machine α)
    (Q : Machine → α → Prop) : Prop :=
  match r with
  | .ok a m' => I.good m' ∧ I.later m m' ∧ Q m' a
  | .error _ m' => I.good m' ∧ I.later m m'

/-- From a good state, a run leads to a good one that is later. -/
def Keeps {α : Type} (m : Machine) (p : Run α) (Q : Machine → α → Prop) : Prop :=
  I.good m → I.Leads m (p m) Q

/-- From a good state, a run has the outcome of another one, which is good. -/
def Agrees {α : Type} (m : Machine) (p' p : Run α) (Q : Machine → α → Prop) : Prop :=
  I.good m → p' m = p m ∧ I.Leads m (p m) Q

/-- What is known of how a statement ends. -/
def completion (m : Machine) : Completion → Prop
  | .normal => True
  | .returned v => I.value m v

/-- An invariant that each primitive step keeps. What the programs say is known of the functions
they declare; what the state holds is known of what is read from it; and each step that changes the
state leads to a good one, provided that what is put into it is known. -/
structure Maintained : Prop where
  -- What is known of a program is enough for the functions that it makes.
  target : ∀ {p name}, I.known p → p.target? = some name → I.name name.text
  lambda : ∀ {m line params body f}, I.known (.expr (.lambda line params body)) →
    (∀ p ∈ stmtsParts body, I.known p) → I.frame m f → I.function m ⟨none, params, body, f, false⟩
  declared : ∀ {m d f}, I.known (.stmt (.function d)) → (∀ p ∈ stmtsParts d.body, I.known p) →
    I.frame m f → I.function m (Evaluator.closureOf d f false)
  staticMethod : ∀ {m name use? methods statics d f},
    I.known (.stmt (.classDecl name use? methods statics)) → d ∈ statics →
    (∀ p ∈ stmtsParts d.body, I.known p) → I.frame m f →
    I.function m (Evaluator.closureOf d f false)
  /-- A value that refers to nothing is known. -/
  plain : ∀ {v}, (∀ m : Machine, m.Holds v) → ∀ m, I.value m v
  -- What is known stays known, and of the parts of a thing something is known as well.
  this : ∀ {m i}, I.value m (.object i) → I.binding m "this" (.object i)
  super : ∀ {m k}, I.value m (.«class» k) → I.binding m "super" (.«class» k)
  bound : ∀ {m x v}, I.binding m x v → I.value m v
  value_later : ∀ {m m' v}, I.later m m' → I.value m v → I.value m' v
  frame_later : ∀ {m m' f}, I.later m m' → I.frame m f → I.frame m' f
  method_later : ∀ {m m' c}, I.later m m' → I.method m c → I.method m' c
  /-- Values do not depend on the present frame. -/
  value_current : ∀ {m f v}, I.value m v → I.value { m with current := f } v
  body : ∀ {m c}, I.function m c → ∀ p ∈ stmtsParts c.body, I.known p
  frame_of_function : ∀ {m c}, I.function m c → I.frame m c.frame
  frame_of_method : ∀ {m c}, I.method m c → I.frame m c.frame
  parameter : ∀ {m c x v}, I.function m c → x ∈ c.params → I.value m v → I.binding m x.text v
  -- Of all that a good state holds something is known.
  current : ∀ {m}, I.good m → I.frame m m.current
  held : ∀ {m f x v}, I.good m → m.frames.local? f x = some v → I.binding m x v
  field : ∀ {m} {i : InstanceId} {object x v}, I.good m → m.instances[i]? = some object →
    object.fields.get? x = some v → I.value m v
  functions : ∀ {m} {id : FunctionId} {c}, I.good m → m.functions[id]? = some c → I.function m c
  methods : ∀ {m} {k : ClassId} {info x c}, I.good m → m.classes[k]? = some info →
    info.methods.get? x = some c → I.method m c
  statics : ∀ {m} {k : ClassId} {info x id}, I.good m → m.classes[k]? = some info →
    info.staticMethods.get? x = some id → I.value m (.function id)
  /-- Something may be done in another frame for a while. -/
  enter : ∀ {m f}, I.good m → I.frame m f → I.good { m with current := f }
  comeBack : ∀ {m m' f}, I.good m → I.Step { m with current := f } m' →
    I.Step m { m' with current := m.current }
  -- Each kind of step keeps a state good, and of what it makes something is known.
  define : ∀ {m f x v}, I.good m → I.name x → I.value m v →
    I.Step m { m with frames := m.frames.define f x v }
  newFrame : ∀ {m f values}, I.good m → I.frame m f →
    (∀ x v, values.get? x = some v → I.binding m x v) →
    I.Step m { m with frames := m.frames.push ⟨values, some f⟩ } ∧
      I.frame { m with frames := m.frames.push ⟨values, some f⟩ } m.frames.size
  /-- A method becomes a function in a frame that holds the instance it is bound to. -/
  bindMethod : ∀ {m c v}, I.good m → I.method m c → I.binding m "this" v →
    I.function { m with frames := m.frames.push ⟨[("this", v)], some c.frame⟩ }
      { c with frame := m.frames.size }
  newFunction : ∀ {m c}, I.good m → I.function m c →
    I.Step m { m with functions := m.functions.push c } ∧
      I.value { m with functions := m.functions.push c } (.function m.functions.size)
  /-- A class is made with the tables of a declaration. Static methods are functions that have been
  made already. -/
  newClass : ∀ {m name use? parent methods statics f g} {ids : Bindings FunctionId}, I.good m →
    I.known (.stmt (.classDecl name use? methods statics)) →
    (∀ d ∈ methods, ∀ p ∈ stmtsParts d.body, I.known p) → parent.isSome = use?.isSome →
    (∀ k ∈ parent, I.value m (.«class» k)) → I.frame m g →
    List.Forall₂ (fun d b => b.1 = d.name.text ∧
      m.functions[b.2]? = some (Evaluator.closureOf d f false)) statics ids →
    let info : ClassInfo :=
      ⟨name.text, parent, Evaluator.methods g methods, Bindings.insertMany [] ids⟩
    I.Step m { m with classes := m.classes.push info } ∧
      I.value { m with classes := m.classes.push info } (.«class» m.classes.size)
  newInstance : ∀ {m k}, I.good m → I.value m (.«class» k) →
    I.Step m { m with instances := m.instances.push ⟨k, []⟩ } ∧
      I.value { m with instances := m.instances.push ⟨k, []⟩ } (.object m.instances.size)
  setField : ∀ {m i x v}, I.good m → I.value m v → I.Step m { m with
    instances := m.instances.modify i fun object =>
      { object with fields := object.fields.insert x v } }
  print : ∀ {m line}, I.good m → I.Step m { m with output := m.output ++ line }
  countReading : ∀ {m}, I.good m → I.Step m { m with clockReadings := m.clockReadings + 1 }

variable {I} {m : Machine} {α β : Type} {Q : Machine → α → Prop} {R : Machine → β → Prop}

/-!
## Sequences of steps

Two programs are compared that start in one state with the invariant. If they agree step by step, so
that each keeps the invariant, then they agree as wholes.
-/

namespace Agrees

variable {p' p : Run α}

theorem keeps (h : I.Agrees m p' p Q) : I.Keeps m p Q := fun hm => (h hm).2

/-- What is to be shown may depend on what is known of a good state. -/
theorem given (h : I.good m → I.Agrees m p' p Q) : I.Agrees m p' p Q := fun hm => h hm hm

theorem mono {Q' : Machine → α → Prop} (h : I.Agrees m p' p Q)
    (himp : ∀ m' a, I.good m' → Q m' a → Q' m' a) : I.Agrees m p' p Q' := by
  intro hm
  obtain ⟨heq, hlead⟩ := h hm
  refine ⟨heq, ?_⟩
  unfold Leads at hlead ⊢
  split at hlead
  · exact ⟨hlead.1, hlead.2.1, himp _ _ hlead.1 hlead.2.2⟩
  · exact hlead

/-- Of a result it is known that the run has given it. -/
theorem exactly (h : I.Agrees m p' p Q) :
    I.Agrees m p' p fun m' a => p m = .ok a m' ∧ Q m' a := by
  intro hm
  obtain ⟨heq, hlead⟩ := h hm
  refine ⟨heq, ?_⟩
  cases hrun : p m with
  | ok a m' =>
    rw [hrun] at hlead
    exact ⟨hlead.1, hlead.2.1, rfl, hlead.2.2⟩
  | error e m' =>
    rw [hrun] at hlead
    exact hlead

/-- Where one step of a sequence ends, the next one begins. What is known of the state in between is
that it is good, and later than the first. -/
theorem bind {q' q : α → Run β} (h : I.Agrees m p' p Q)
    (hq : ∀ a m₁, I.later m m₁ → I.good m₁ → Q m₁ a → I.Agrees m₁ (q' a) (q a) R) :
    I.Agrees m (p' >>= q') (p >>= q) R := by
  intro hm
  obtain ⟨heq, hlead⟩ := h hm
  show EStateM.bind p' q' m = EStateM.bind p q m ∧ I.Leads m (EStateM.bind p q m) R
  unfold EStateM.bind
  rw [heq]
  cases hrun : p m with
  | error e m₁ =>
    rw [hrun] at hlead
    exact ⟨rfl, hlead⟩
  | ok a m₁ =>
    rw [hrun] at hlead
    obtain ⟨hm₁, hlater, hQ⟩ := hlead
    -- Both runs are the same up to here, so they go on from the same state.
    obtain ⟨heq', hlead'⟩ := hq a m₁ hlater hm₁ hQ hm₁
    refine ⟨heq', ?_⟩
    unfold Leads at hlead' ⊢
    dsimp only
    split at hlead'
    · exact ⟨hlead'.1, I.trans hlater hlead'.2.1, hlead'.2.2⟩
    · exact ⟨hlead'.1, I.trans hlater hlead'.2⟩

/-- A step that changes the state does so in one way. -/
theorem step {a : α} {m' : Machine} (hp : p m = .ok a m') (h : I.good m → I.Step m m' ∧ Q m' a) :
    I.Agrees m p p Q := by
  intro hm
  obtain ⟨hstep, hQ⟩ := h hm
  rw [hp]
  exact ⟨rfl, hstep.1, hstep.2, hQ⟩

/-- A step that only looks leaves a state good. -/
theorem look (hp : OnlyLooks p) (hQ : ∀ a, I.good m → p m = .ok a m → Q m a) :
    I.Agrees m p p Q := by
  intro hm
  have hpm := hp m
  refine ⟨rfl, ?_⟩
  cases hrun : p m with
  | ok a m' =>
    rw [hrun] at hpm
    obtain rfl := hpm
    exact ⟨hm, I.refl m, hQ a hm hrun⟩
  | error e m' =>
    rw [hrun] at hpm
    obtain rfl := hpm
    exact ⟨hm, I.refl m⟩

/-- A step that keeps an invariant may be replaced by one that has its outcome. -/
theorem of_eq (heq : p' m = p m) (h : I.Agrees m p p Q) : I.Agrees m p' p Q :=
  fun hm => ⟨heq, (h hm).2⟩

/-- Behind a step that only looks, the state is the one before it. -/
theorem bind_look {q' q : α → Run β} (hp : OnlyLooks p)
    (hq : ∀ a, p m = .ok a m → I.Agrees m (q' a) (q a) R) :
    I.Agrees m (p >>= q') (p >>= q) R := by
  refine (look (Q := fun m' a => m' = m ∧ p m = .ok a m) hp fun a _ hrun => ⟨rfl, hrun⟩).bind
    fun a m₁ _ _ hsame => ?_
  obtain ⟨rfl, hrun⟩ := hsame
  exact hq a hrun

/-- What is done first, and in one of the runs only, leaves the state as it is. -/
theorem behind {first : Run β} {b : β} {q' : β → Run α} (hfirst : first m = .ok b m)
    (h : I.Agrees m (q' b) p Q) : I.Agrees m (first >>= q') p Q := by
  intro hm
  obtain ⟨heq, hlead⟩ := h hm
  exact ⟨(Run.bind_of_ok hfirst).trans heq, hlead⟩

theorem pure {a : α} (hQ : I.good m → Q m a) : I.Agrees m (pure a) (pure a) Q :=
  step rfl fun hm => ⟨⟨hm, I.refl m⟩, hQ hm⟩

theorem throw (e : Abort) : I.Agrees m (throw e : Run α) (throw e) Q :=
  look (.throw e) fun _ _ h => nomatch h

theorem fail (place : Location) (e : RuntimeError) :
    I.Agrees m (Run.fail place e : Run α) (Run.fail place e) Q :=
  throw _

theorem orFail (place : Location) {r : Except RuntimeError α} (hQ : ∀ a, r = .ok a → Q m a) :
    I.Agrees m (Run.orFail place r) (Run.orFail place r) Q := by
  cases r with
  | ok a => exact pure fun _ => hQ a rfl
  | error e => exact fail place e

theorem get {q' q : Machine → Run β} (h : I.Agrees m (q' m) (q m) R) :
    I.Agrees m (MonadState.get >>= q') (MonadState.get >>= q) R :=
  h

/-- Running out of levels is turned into a failure, in the same state. -/
theorem guarded (place : Location) (h : I.Agrees m p' p Q) :
    I.Agrees m (Evaluator.guarded place p') (Evaluator.guarded place p) Q := by
  intro hm
  obtain ⟨heq, hlead⟩ := h hm
  unfold Evaluator.guarded
  rw [heq]
  refine ⟨rfl, ?_⟩
  cases hrun : p m with
  | ok a m' =>
    rw [hrun] at hlead
    exact hlead
  | error e m' =>
    rw [hrun] at hlead
    cases e <;> exact hlead

/-- A statement that always ends normally carries no value. -/
theorem normally (h : I.Agrees m p' p Q) :
    I.Agrees m (Completion.endings.normally p') (Completion.endings.normally p) I.completion :=
  h.bind fun _ _ _ _ _ => pure fun _ => trivial

end Agrees

/-!
## Steps

The steps that all rules are made of. Reading needs only that the state is good; each step that
writes is one entry of `Maintained`.
-/

namespace Maintained

open Agrees

variable (h : I.Maintained)
include h

/-- Something may be done in another frame, if that is known. -/
theorem inFrame {p' p : Run α} {f : FrameId} (hf : I.frame m f)
    (hp : I.Agrees { m with current := f } p' p Q)
    (hQ : ∀ m' a g, Q m' a → Q { m' with current := g } a) :
    I.Agrees m (Run.inFrame f p') (Run.inFrame f p) Q := by
  intro hm
  obtain ⟨heq, hlead⟩ := hp (h.enter hm hf)
  unfold Run.inFrame
  dsimp only
  rw [heq]
  refine ⟨rfl, ?_⟩
  -- Whichever way it ends, the present frame is the one from before.
  cases hrun : p { m with current := f } with
  | ok a m' =>
    rw [hrun] at hlead
    obtain ⟨hback, hlater⟩ := h.comeBack hm ⟨hlead.1, hlead.2.1⟩
    exact ⟨hback, hlater, hQ _ _ _ hlead.2.2⟩
  | error e m' =>
    rw [hrun] at hlead
    exact h.comeBack hm hlead

theorem currentFrame : I.Agrees m Run.currentFrame Run.currentFrame I.frame :=
  look .currentFrame fun f hm hf => by
    cases hf
    exact h.current hm

theorem defineName {x : String} {v : Value} (hx : I.name x) (hv : I.value m v) :
    I.Agrees m (Run.define x v) (Run.define x v) fun _ _ => True :=
  step rfl fun hm => ⟨h.define hm hx hv, trivial⟩

theorem writeFrom (f : FrameId) {name : Name} {v : Value} (hname : I.name name.text)
    (hv : I.value m v) :
    I.Agrees m (Run.writeFrom f name v) (Run.writeFrom f name v) fun _ _ => True := by
  intro hm
  unfold Run.writeFrom
  refine ⟨rfl, ?_⟩
  cases m.frames.holder? f name.text with
  | none => exact ⟨hm, I.refl m⟩
  | some g =>
    obtain ⟨hgood, hlater⟩ := h.define (f := g) hm hname hv
    exact ⟨hgood, hlater, trivial⟩

theorem writeAt (d : Nat) {x : String} {v : Value} (hx : I.name x) (hv : I.value m v) :
    I.Agrees m (Run.writeAt d x v) (Run.writeAt d x v) fun _ _ => True := by
  intro hm
  unfold Run.writeAt
  refine ⟨rfl, ?_⟩
  cases m.frames.ancestor? d m.current with
  | none => exact ⟨hm, I.refl m⟩
  | some f =>
    obtain ⟨hgood, hlater⟩ := h.define (f := f) hm hx hv
    exact ⟨hgood, hlater, trivial⟩

theorem writeVariable (id : UseId) {name : Name} {v : Value} (hname : I.name name.text)
    (hv : I.value m v) :
    I.Agrees m (Run.writeVariable id name v) (Run.writeVariable id name v) fun _ _ => True := by
  refine bind_look (.distance id) fun d? _ => ?_
  cases d? with
  | none => exact h.writeFrom _ hname hv
  | some d => exact h.writeAt d hname hv

/-- What is read at a distance is bound in some frame. -/
theorem readAt (d : Nat) (f : FrameId) (x : String) :
    I.Agrees m (Run.readAt d f x) (Run.readAt d f x) fun m v => I.binding m x v := by
  refine look (.readAt d f x) fun v hm hrun => ?_
  unfold Run.readAt Frames.getAt at hrun
  -- Only a read that finds something ends normally.
  cases hg : m.frames.ancestor? d f with
  | none =>
    rw [hg] at hrun
    cases hrun
  | some g =>
    rw [hg] at hrun
    dsimp only at hrun
    cases hlocal : m.frames.local? g x with
    | none =>
      rw [hlocal] at hrun
      cases hrun
    | some u =>
      rw [hlocal] at hrun
      cases hrun
      exact h.held hm hlocal

theorem readFrom (f : FrameId) (name : Name) :
    I.Agrees m (Run.readFrom f name) (Run.readFrom f name) I.value := by
  refine look (.readFrom f name) fun v hm hrun => ?_
  unfold Run.readFrom at hrun
  cases hget : m.frames.get? f name.text with
  | none =>
    rw [hget] at hrun
    cases hrun
  | some u =>
    rw [hget] at hrun
    cases hrun
    obtain ⟨g, -, hlocal⟩ := Option.bind_eq_some_iff.mp hget
    exact h.bound (h.held hm hlocal)

theorem readVariable (id : UseId) (name : Name) :
    I.Agrees m (Run.readVariable id name) (Run.readVariable id name) I.value := by
  refine bind_look (.distance id) fun d? _ => ?_
  cases d? with
  | none => exact h.readFrom _ name
  | some d =>
    exact bind_look .currentFrame fun f _ => (h.readAt d f name.text).mono fun _ _ _ => h.bound

theorem makeFrame {f : FrameId} {values : Bindings Value} (hf : I.frame m f)
    (hvalues : ∀ x v, values.get? x = some v → I.binding m x v) :
    I.Agrees m (Run.newFrame f values) (Run.newFrame f values) I.frame :=
  step rfl fun hm => h.newFrame hm hf hvalues

theorem makeFunction {c : Closure} (hc : I.function m c) :
    I.Agrees m (Run.newFunction c) (Run.newFunction c) fun m id => I.value m (.function id) :=
  step rfl fun hm => h.newFunction hm hc

/-- A method is bound in a new frame, inside the one in which it was made. -/
theorem bindTo {c : Closure} {v : Value} (hc : I.method m c) (hv : I.binding m "this" v) :
    I.Agrees m (Run.bind c v) (Run.bind c v) I.function := by
  refine step rfl fun hm => ⟨(h.newFrame hm (h.frame_of_method hc) fun x u hx => ?_).1,
    h.bindMethod hm hc hv⟩
  obtain ⟨rfl, rfl⟩ := Bindings.get?_singleton hx
  exact hv

/-- The method that is found is made into a function. -/
theorem boundMethod {c : Closure} {v : Value} (hc : I.method m c) (hv : I.binding m "this" v) :
    I.Agrees m (do return .function (← Run.newFunction (← Run.bind c v)))
      (do return .function (← Run.newFunction (← Run.bind c v))) I.value :=
  (h.bindTo hc hv).bind fun _ _ _ _ hbound => (h.makeFunction hbound).bind fun _ _ _ _ hid =>
    pure fun _ => hid

theorem method_of_method? {k : ClassId} {x : String} {c : Closure} (hm : I.good m)
    (hfound : m.method? k x = some c) : I.method m c := by
  obtain ⟨k', info, hclass, hx⟩ := Machine.exists_of_inClasses? hfound
  exact h.methods hm hclass hx

theorem property {i : InstanceId} (hi : I.value m (.object i)) (name : Name) :
    I.Agrees m (Run.property i name) (Run.property i name) I.value := by
  refine given fun hm => get ?_
  dsimp only
  cases hobject : m.instances[i]? with
  | none => exact fail name.place _
  | some object =>
    simp only [Option.bind_eq_bind, Option.bind_some]
    cases hfield : object.fields.get? name.text with
    | some v => exact pure fun _ => h.field hm hobject hfield
    | none =>
      dsimp only
      cases hmethod : m.method? object.classId name.text with
      | none => exact fail name.place _
      | some method => exact h.boundMethod (h.method_of_method? hm hmethod) (h.this hi)

/-- A static method is a function that was made with its class. -/
theorem staticProperty (k : ClassId) (name : Name) :
    I.Agrees m (Run.staticProperty k name) (Run.staticProperty k name) I.value := by
  refine look (.staticProperty k name) fun v hm hrun => ?_
  unfold Run.staticProperty at hrun
  cases hfound : m.staticMethod? k name.text with
  | none =>
    rw [hfound] at hrun
    cases hrun
  | some id =>
    rw [hfound] at hrun
    cases hrun
    obtain ⟨k', info, hclass, hx⟩ := Machine.exists_of_inClasses? hfound
    exact h.statics hm hclass hx

theorem makeInstance {k : ClassId} (hk : I.value m (.«class» k)) :
    I.Agrees m (Run.newInstance k) (Run.newInstance k) fun m i => I.value m (.object i) :=
  step rfl fun hm => h.newInstance hm hk

theorem writeField (i : InstanceId) (x : String) {v : Value} (hv : I.value m v) :
    I.Agrees m (Run.setField i x v) (Run.setField i x v) fun _ _ => True :=
  step rfl fun hm => ⟨h.setField hm hv, trivial⟩

theorem printValue (v : Value) : I.Agrees m (Run.print v) (Run.print v) fun _ _ => True :=
  step rfl fun hm => ⟨h.print hm, trivial⟩

theorem readClock : I.Agrees m Run.countReading Run.countReading fun _ _ => True :=
  step rfl fun hm => ⟨h.countReading hm, trivial⟩

end Maintained

/-!
## Two invariants at once

Where an invariant relies on another one, the two are shown together, and either of them can be
taken out again.
-/

/-- What both of two invariants say. -/
def both (I J : Invariant) : Invariant where
  good m := I.good m ∧ J.good m
  later m m' := I.later m m' ∧ J.later m m'
  refl m := ⟨I.refl m, J.refl m⟩
  trans h h' := ⟨I.trans h.1 h'.1, J.trans h.2 h'.2⟩
  known p := I.known p ∧ J.known p
  name x := I.name x ∧ J.name x
  value m v := I.value m v ∧ J.value m v
  binding m x v := I.binding m x v ∧ J.binding m x v
  frame m f := I.frame m f ∧ J.frame m f
  function m c := I.function m c ∧ J.function m c
  method m c := I.method m c ∧ J.method m c

section Both

variable {J : Invariant} {m m' : Machine}

theorem Step.both (h : I.Step m m') (h' : J.Step m m') : (I.both J).Step m m' :=
  ⟨⟨h.1, h'.1⟩, h.2, h'.2⟩

theorem Step.left (h : (I.both J).Step m m') : I.Step m m' := ⟨h.1.1, h.2.1⟩

theorem Step.right (h : (I.both J).Step m m') : J.Step m m' := ⟨h.1.2, h.2.2⟩

theorem known_left {ps : List Part} (h : ∀ p ∈ ps, (I.both J).known p) : ∀ p ∈ ps, I.known p :=
  fun p hp => (h p hp).1

theorem known_right {ps : List Part} (h : ∀ p ∈ ps, (I.both J).known p) : ∀ p ∈ ps, J.known p :=
  fun p hp => (h p hp).2

/-- If each of two invariants is maintained, then both are at once. -/
theorem Maintained.both (h : I.Maintained) (h' : J.Maintained) : (I.both J).Maintained where
  -- Field by field. Where a step makes something, it is known in both ways.
  target hp hx := ⟨h.target hp.1 hx, h'.target hp.2 hx⟩
  lambda hp hbody hf :=
    ⟨h.lambda hp.1 (known_left hbody) hf.1, h'.lambda hp.2 (known_right hbody) hf.2⟩
  declared hp hbody hf :=
    ⟨h.declared hp.1 (known_left hbody) hf.1, h'.declared hp.2 (known_right hbody) hf.2⟩
  staticMethod hp hd hbody hf :=
    ⟨h.staticMethod hp.1 hd (known_left hbody) hf.1,
      h'.staticMethod hp.2 hd (known_right hbody) hf.2⟩
  plain hv m := ⟨h.plain hv m, h'.plain hv m⟩
  this hi := ⟨h.this hi.1, h'.this hi.2⟩
  super hk := ⟨h.super hk.1, h'.super hk.2⟩
  bound hv := ⟨h.bound hv.1, h'.bound hv.2⟩
  value_later hlater hv := ⟨h.value_later hlater.1 hv.1, h'.value_later hlater.2 hv.2⟩
  frame_later hlater hf := ⟨h.frame_later hlater.1 hf.1, h'.frame_later hlater.2 hf.2⟩
  method_later hlater hc := ⟨h.method_later hlater.1 hc.1, h'.method_later hlater.2 hc.2⟩
  value_current hv := ⟨h.value_current hv.1, h'.value_current hv.2⟩
  body hc p hp := ⟨h.body hc.1 p hp, h'.body hc.2 p hp⟩
  frame_of_function hc := ⟨h.frame_of_function hc.1, h'.frame_of_function hc.2⟩
  frame_of_method hc := ⟨h.frame_of_method hc.1, h'.frame_of_method hc.2⟩
  parameter hc hx hv := ⟨h.parameter hc.1 hx hv.1, h'.parameter hc.2 hx hv.2⟩
  current hm := ⟨h.current hm.1, h'.current hm.2⟩
  held hm hv := ⟨h.held hm.1 hv, h'.held hm.2 hv⟩
  field hm hi hx := ⟨h.field hm.1 hi hx, h'.field hm.2 hi hx⟩
  functions hm hc := ⟨h.functions hm.1 hc, h'.functions hm.2 hc⟩
  methods hm hk hx := ⟨h.methods hm.1 hk hx, h'.methods hm.2 hk hx⟩
  statics hm hk hx := ⟨h.statics hm.1 hk hx, h'.statics hm.2 hk hx⟩
  enter hm hf := ⟨h.enter hm.1 hf.1, h'.enter hm.2 hf.2⟩
  comeBack hm hstep := (h.comeBack hm.1 hstep.left).both (h'.comeBack hm.2 hstep.right)
  define hm hx hv := (h.define hm.1 hx.1 hv.1).both (h'.define hm.2 hx.2 hv.2)
  newFrame hm hf hvalues := by
    obtain ⟨hstep, hframe⟩ := h.newFrame hm.1 hf.1 fun x v hx => (hvalues x v hx).1
    obtain ⟨hstep', hframe'⟩ := h'.newFrame hm.2 hf.2 fun x v hx => (hvalues x v hx).2
    exact ⟨hstep.both hstep', hframe, hframe'⟩
  bindMethod hm hc hv := ⟨h.bindMethod hm.1 hc.1 hv.1, h'.bindMethod hm.2 hc.2 hv.2⟩
  newFunction hm hc := by
    obtain ⟨hstep, hid⟩ := h.newFunction hm.1 hc.1
    obtain ⟨hstep', hid'⟩ := h'.newFunction hm.2 hc.2
    exact ⟨hstep.both hstep', hid, hid'⟩
  newClass hm hp hmethods hsome hparent hg hmade := by
    obtain ⟨hstep, hk⟩ := h.newClass hm.1 hp.1 (fun d hd => known_left (hmethods d hd)) hsome
      (fun k hk => (hparent k hk).1) hg.1 hmade
    obtain ⟨hstep', hk'⟩ := h'.newClass hm.2 hp.2 (fun d hd => known_right (hmethods d hd)) hsome
      (fun k hk => (hparent k hk).2) hg.2 hmade
    exact ⟨hstep.both hstep', hk, hk'⟩
  newInstance hm hk := by
    obtain ⟨hstep, hi⟩ := h.newInstance hm.1 hk.1
    obtain ⟨hstep', hi'⟩ := h'.newInstance hm.2 hk.2
    exact ⟨hstep.both hstep', hi, hi'⟩
  setField hm hv := (h.setField hm.1 hv.1).both (h'.setField hm.2 hv.2)
  print hm := (h.print hm.1).both (h'.print hm.2)
  countReading hm := (h.countReading hm.1).both (h'.countReading hm.2)

end Both

end Invariant

end LoxLang
