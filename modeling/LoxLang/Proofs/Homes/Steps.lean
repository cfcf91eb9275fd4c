import LoxLang.Proofs.Homes.Places

/-!
# Steps with homes

A step of evaluation with homes does what the plain one does (`Tracks`): the homes are carried
along, and frames, functions and classes stay settled. What a step needs to know of frames it may
ask of an earlier state, since frames only grow. Calls and blocks go on in a frame that is made
(`Tracks.newFrame`); from there on, its place is known as well.

At a place whose frames hold its home, `super` and `this` give what the home says (`At.fixed`).
-/

namespace LoxLang.Homed

open Lexical (Fine)

variable {T : Distances} {P : Visit → Prop} {fs : Frames Value} {f g : FrameId} {S : List Scope}
  {home : Option Home} {α β : Type}

/-- From states that come into a frame after the frames were those, two steps do the same. -/
abbrev Tracks (T : Distances) (P : Visit → Prop) (fs : Frames Value) (f : FrameId) (p : Run α)
    (q : LoxLang.Run α) : Prop :=
  Mirrors (At T P fs f) Eq Eq p q

namespace Tracks

/-!
## Steps

A plain step can be taken alongside if it leaves functions as they are.
-/

theorem pure (a : α) : Tracks T P fs f (Pure.pure a) (Pure.pure a) := Mirrors.pure rfl

theorem throw (e : Abort) : Tracks T P fs f (throw e : Run α) (throw e) := Mirrors.throw rfl

theorem bind {p : Run α} {q : LoxLang.Run α} {k : α → Run β} {k' : α → LoxLang.Run β}
    (hp : Tracks T P fs f p q) (hk : ∀ a, Tracks T P fs f (k a) (k' a)) :
    Tracks T P fs f (p >>= k) (q >>= k') :=
  Mirrors.bind_same hp hk

theorem plain {q : LoxLang.Run α} (hq : Evolves Still q) : Tracks T P fs f (Run.plain q) q := by
  intro s m h
  have hm := hq m
  unfold Run.plain
  rw [h.machine]
  cases hresult : q m with
  | ok a m' =>
    rw [hresult] at hm
    exact .ok rfl (hm.at_step h)
  | error e m' =>
    rw [hresult] at hm
    exact .error rfl (hm.at_step h)

theorem look {q : LoxLang.Run α} (hq : OnlyLooks q) : Tracks T P fs f (Run.plain q) q :=
  plain (Still.look hq)

theorem fail (place : Location) (e : RuntimeError) :
    Tracks T P fs f (Run.plain (LoxLang.Run.fail place e : LoxLang.Run α))
      (LoxLang.Run.fail place e) :=
  look (.fail place e)

/-- What goes on after a look at the state. -/
theorem get {k : State → Run α} {k' : Machine → LoxLang.Run α}
    (h : ∀ s, Settled T P s → Tracks T P s.machine.frames f (k s) (k' s.machine)) :
    Tracks T P fs f (MonadState.get >>= k) (MonadState.get >>= k') := by
  intro s m hat
  obtain rfl := hat.machine
  exact (h s hat.settled _ _ hat.anew).imp fun _ _ hlater => hlater.since hat.grown

theorem currentFrame {k : FrameId → Run α} {k' : FrameId → LoxLang.Run α}
    (h : Tracks T P fs f (k f) (k' f)) :
    Tracks T P fs f (Run.plain LoxLang.Run.currentFrame >>= k)
      (LoxLang.Run.currentFrame >>= k') := by
  intro s m hat
  obtain rfl := hat.machine
  obtain rfl := hat.current
  exact h s _ hat

/-- What goes on in a frame that is made. -/
theorem newFrame {values : Bindings Value} {k : FrameId → Run α} {k' : FrameId → LoxLang.Run α}
    (h : ∀ fs' f', Extends fs fs' → fs'.enclosing? f' = some g →
      (∀ x, fs'.local? f' x = values.get? x) → Tracks T P fs' f (k f') (k' f')) :
    Tracks T P fs f (Run.plain (LoxLang.Run.newFrame g values) >>= k)
      (LoxLang.Run.newFrame g values >>= k') := by
  intro s m hat
  obtain rfl := hat.machine
  let fs' := s.machine.frames.push ⟨values, some g⟩
  have hext : Extends fs fs' := hat.grown.trans (.push _ _)
  have hlink : fs'.enclosing? s.machine.frames.size = some g := by
    rw [Frames.enclosing?_push, if_pos rfl]
  have hlocal : ∀ x, fs'.local? s.machine.frames.size x = values.get? x := fun x => by
    rw [Frames.local?_push, if_pos rfl]
  have hstill : Still s.machine { s.machine with frames := fs' } := .of_frames (.push _ _)
  -- What goes on may ask of the frames with the new one; to what was before, they have only grown.
  have hends := h fs' _ hext hlink hlocal _ _ (hstill.at_step hat).anew
  exact hends.imp fun _ _ hlater => hlater.since hext

theorem inFrame {p : Run α} {q : LoxLang.Run α} (h : Tracks T P fs g p q) :
    Tracks T P fs f (Run.inFrame g p) (LoxLang.Run.inFrame g q) := by
  intro s m hat
  obtain rfl := hat.machine
  -- Only the present frame changes on the way in, and it is changed back on the way out.
  have hin : At T P fs g { s with machine := { s.machine with current := g } }
      { s.machine with current := g } :=
    ⟨rfl, hat.settled.moved g, rfl, hat.grown⟩
  have hends := h _ _ hin
  unfold Run.inFrame LoxLang.Run.inFrame
  dsimp only
  generalize p _ = r at hends
  generalize q _ = r' at hends
  cases hends with
  | ok ha hlater =>
    obtain rfl := hlater.machine
    exact .ok ha ⟨rfl, hlater.settled.moved _, hat.current, hlater.grown⟩
  | error he hlater =>
    obtain rfl := hlater.machine
    exact .error he ⟨rfl, hlater.settled.moved _, hat.current, hlater.grown⟩

/-!
## Functions and methods

A function and its home are made together, so the two lists stay of one length.
-/

theorem newFunction {c : Closure} (hc : ClosureAt T P fs c home) :
    Tracks T P fs f (Run.newFunction home c) (LoxLang.Run.newFunction c) := by
  intro s m hat
  obtain rfl := hat.machine
  refine .ok rfl ⟨rfl, ⟨?_, hat.settled.methods, hat.settled.distances⟩, hat.current, hat.grown⟩
  exact hat.settled.functions.push (hat.grown.closureAt hc)

/-- What goes on once a function is made at the present place. -/
theorem functionHere (name? : Option String) {params : List Name} {body : List Stmt}
    {k : FunctionId → Run α} {k' : FunctionId → LoxLang.Run α}
    (hplace : Place fs f (layers S) home) (hfine : Fine T P (bodyOccurrences S params body))
    (hk : ∀ id, Tracks T P fs f (k id) (k' id)) :
    Tracks T P fs f (Evaluator.functionHere home name? params body >>= k)
      (LoxLang.Run.currentFrame >>= fun frame =>
        LoxLang.Run.newFunction ⟨name?, params, body, frame, false⟩ >>= k') := by
  have hmade : Tracks T P fs f (Evaluator.functionHere home name? params body)
      (LoxLang.Run.currentFrame >>= fun frame =>
        LoxLang.Run.newFunction ⟨name?, params, body, frame, false⟩) := by
    refine currentFrame (newFunction ?_)
    exact ⟨S, hplace, hfine⟩
  have hboth := hmade.bind hk
  rw [bind_assoc] at hboth
  exact hboth

/-- What goes on once a method is bound. -/
theorem bindMethod {method : Method} {i : InstanceId} {k : Closure → Run α}
    {k' : Closure → LoxLang.Run α}
    (hmethod : MethodAt T P fs method.superclass method.closure)
    (h : ∀ fs' c, ClosureAt T P fs' c (some ⟨method.superclass, i⟩) →
      Tracks T P fs' f (k c) (k' c)) :
    Tracks T P fs f (Run.plain (LoxLang.Run.bind method.closure (.object i)) >>= k)
      (LoxLang.Run.bind method.closure (.object i) >>= k') := by
  obtain ⟨S, hplace, hfine⟩ := hmethod
  have hmade : Tracks T P fs f
      (Run.plain (LoxLang.Run.newFrame method.closure.frame [("this", .object i)]) >>=
        fun f' => k { method.closure with frame := f' })
      (LoxLang.Run.newFrame method.closure.frame [("this", .object i)] >>=
        fun f' => k' { method.closure with frame := f' }) := by
    refine newFrame fun fs' f' hext hlink hlocal => h fs' _ ⟨[("this", true)] :: S, ?_, hfine⟩
    exact (hext.methodPlace hplace).bind hlink (hlocal "this")
  exact hmade

/-- A method is bound to an instance and becomes a function with that home. -/
theorem boundMethod {method : Method} (i : InstanceId)
    (hmethod : MethodAt T P fs method.superclass method.closure) :
    Tracks T P fs f (Run.boundMethod method i)
      (do
        return .function (← LoxLang.Run.newFunction
          (← LoxLang.Run.bind method.closure (.object i)))) :=
  bindMethod hmethod fun _ _ hc => (newFunction hc).bind fun id => pure (Value.function id)

end Tracks

/-!
## Methods of classes

The search that also gives the superclass finds the same method, since it asks the same classes.
-/

theorem inClasses?_map (m : Machine) (own? : ClassInfo → Option α) (k : α → β) (c : ClassId) :
    m.inClasses? (fun info => (own? info).map k) c = (m.inClasses? own? c).map k := by
  have hfound : Found (fun b a => b = k a) (m.inClasses? (fun info => (own? info).map k) c)
      (m.inClasses? own? c) := by
    refine (Alike.of_self (R := Eq) fun _ _ _ => rfl).inLineage? (fun _ _ h => h ▸ rfl) ?_ c
    rintro info _ rfl
    cases own? info with
    | none => trivial
    | some a => exact rfl
  obtain ⟨hnone, hnone'⟩ | ⟨b, a, hb, ha, rfl⟩ := hfound.cases
  · rw [hnone, hnone', Option.map_none]
  · rw [hb, ha, Option.map_some]

/-- The method that is found is the plain one. -/
theorem method?_closure (m : Machine) (c : ClassId) (x : String) :
    (method? m c x).map (·.closure) = m.method? c x := by
  unfold method? Machine.method?
  rw [← inClasses?_map]
  congr 1
  funext info
  rw [Option.map_map]
  exact Option.map_id'

theorem Settled.methodAt {s : State} (h : Settled T P s) {c : ClassId} {x : String}
    {method : Method} (hmethod : method? s.machine c x = some method) :
    MethodAt T P s.machine.frames method.superclass method.closure := by
  obtain ⟨d, info, hinfo, hown⟩ := Machine.exists_of_inClasses? hmethod
  obtain ⟨closure, hx, rfl⟩ := Option.map_eq_some_iff.mp hown
  exact h.methods d info x closure hinfo hx

/-- The property of an instance. -/
theorem Tracks.property (i : InstanceId) (name : Name) :
    Tracks T P fs f (Run.property i name) (LoxLang.Run.property i name) := by
  refine get fun s hs => ?_
  dsimp only
  cases s.machine.instances[i]? with
  | none => exact fail name.place _
  | some object =>
    simp only [Option.bind_eq_bind, Option.bind_some]
    cases object.fields.get? name.text with
    | some v => exact pure v
    | none =>
      rw [← method?_closure]
      cases hfound : method? s.machine object.classId name.text with
      | none => exact fail name.place _
      | some method => exact boundMethod i (hs.methodAt hfound)

/-!
## Super and this

The frames around a place in a method hold `this` and `super` at the distances that resolving has
counted, and they hold what the home says.
-/

/-- Where `super` stands, the frames hold the home that the place has. -/
theorem At.superFixed {s : State} {m : Machine} {e : Expr} (h : At T P fs f s m)
    (hplace : Place fs f (layers S) home) (hfine : Fine T P (e.occurrences S)) :
    SuperFixed home e s.machine := by
  rintro id line method rfl
  obtain rfl := h.machine
  rw [Expr.occurrences] at hfine
  obtain ⟨hT, -⟩ := hfine.head.settled _ rfl
  obtain ⟨k, hsuper, hthis⟩ : (Visit.mk .super "super" line id S).Placed := hfine.head.placed
  have hT' : s.machine.distances[id]? = some (k + 1) := h.settled.distances ▸ hT.trans hsuper
  unfold Visit.distance? at hsuper
  rw [distance?_super] at hsuper
  rw [distance?_this] at hthis
  -- The distances counted from the scopes lead to the frames that hold the home.
  obtain ⟨c, i, rfl, hclass, hreceiver⟩ := (h.grown.place hplace).home_found hsuper hthis
  refine ⟨c, i, rfl, ?_⟩
  rw [← h.current] at hclass hreceiver
  have hreadClass : LoxLang.Run.readAt (k + 1) s.machine.current "super" s.machine =
      .ok (.«class» c) s.machine := by
    unfold LoxLang.Run.readAt
    rw [hclass]
    rfl
  have hreadReceiver : LoxLang.Run.readAt k s.machine.current "this" s.machine =
      .ok (.object i) s.machine := by
    unfold LoxLang.Run.readAt
    rw [hreceiver]
    rfl
  unfold LoxLang.Evaluator.superExpr
  simp only [bind, EStateM.bind, LoxLang.Run.distance?, hT', LoxLang.Run.currentFrame,
    hreadClass, Nat.add_sub_cancel, hreadReceiver]
  rfl

/-- Where `this` stands, the frames hold the instance of the home. -/
theorem At.thisFixed {s : State} {m : Machine} {e : Expr} (h : At T P fs f s m)
    (hplace : Place fs f (layers S) home) (hfine : Fine T P (e.occurrences S)) :
    ThisFixed home e s.machine := by
  rintro id line rfl
  obtain rfl := h.machine
  rw [Expr.occurrences] at hfine
  obtain ⟨hT, -⟩ := hfine.head.settled _ rfl
  obtain ⟨k, hthis⟩ : (Visit.mk .this "this" line id S).Placed := hfine.head.placed
  have hT' : s.machine.distances[id]? = some k := h.settled.distances ▸ hT.trans hthis
  unfold Visit.distance? at hthis
  rw [distance?_this] at hthis
  -- So many frames outwards is the one that holds the receiver of the home.
  obtain ⟨c?, i, rfl, hreceiver⟩ := (h.grown.place hplace).receiver_found hthis
  refine ⟨c?, i, rfl, ?_⟩
  rw [← h.current] at hreceiver
  have hread : LoxLang.Run.readAt k s.machine.current "this" s.machine =
      .ok (.object i) s.machine := by
    unfold LoxLang.Run.readAt
    rw [hreceiver]
    rfl
  unfold LoxLang.Run.readVariable
  simp only [bind, EStateM.bind, LoxLang.Run.distance?, hT', LoxLang.Run.currentFrame, hread]

theorem Tracks.boundFrom (c : ClassId) (i : InstanceId) (method : Name) :
    Tracks T P fs f (Evaluator.superExpr (some ⟨some c, i⟩) method)
      (Homed.boundFrom c i method) := by
  refine get fun s hs => ?_
  rw [← method?_closure]
  cases hfound : method? s.machine c method.text with
  | none => exact fail method.place _
  | some found => exact boundMethod i (hs.methodAt hfound)

theorem At.fixed {s : State} {m : Machine} {e : Expr} (h : At T P fs f s m)
    (hplace : Place fs f (layers S) home) (hfine : Fine T P (e.occurrences S)) :
    Fixed home e s.machine :=
  ⟨h.superFixed hplace hfine, h.thisFixed hplace hfine⟩

theorem Tracks.superExpr {id : UseId} {line : Nat} (method : Name)
    (hplace : Place fs f (layers S) home)
    (hfine : Fine T P ((Expr.super id line method).occurrences S)) :
    Tracks T P fs f (Evaluator.superExpr home method) (LoxLang.Evaluator.superExpr id method) := by
  intro s m hat
  obtain ⟨c, i, rfl, hsuper⟩ := hat.superFixed hplace hfine id line method rfl
  rw [hat.machine] at hsuper
  rw [hsuper]
  exact boundFrom c i method s m hat

end LoxLang.Homed
