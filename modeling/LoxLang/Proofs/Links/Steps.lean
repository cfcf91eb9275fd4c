import LoxLang.Proofs.Invariants.Rules
import LoxLang.Proofs.Lexical.Lookups
import LoxLang.Proofs.Links

/-!
# Steps that keep links well-founded

Founded states are an invariant (`Machine.Founded.invariant`): each step that changes the state
leads from a founded state to one that is founded and in which links and tables have lasted.
Objects are made here, and nowhere else: each step that makes one asks that what it is linked to be
there, so its links lead to older objects.
-/

namespace LoxLang

open Machine (Lasting Founded Rooted DeclaredBy)
open Lexical (Harmless)

/-! ## Arrays of objects -/

section Arrays

variable {α : Type} {xs : Array α} {a b : α} {i : Nat}

/-- What is there stays there when something is added. -/
theorem getElem?_push_of_some (h : xs[i]? = some a) : (xs.push b)[i]? = some a := by
  have hlt := (Array.getElem?_eq_some_iff.mp h).1
  rw [Array.getElem?_push, if_neg (Nat.ne_of_lt hlt)]
  exact h

/-- What is there has been there or was added. -/
theorem getElem?_push_cases (h : (xs.push b)[i]? = some a) :
    xs[i]? = some a ∨ i = xs.size ∧ a = b := by
  rw [Array.getElem?_push] at h
  split at h
  · next hi => exact .inr ⟨hi, (Option.some.inj h).symm⟩
  · exact .inl h

end Arrays

/-! ## Tables of static methods -/

section Tables

variable {m : Machine}

theorem forall₂_filter_ids {m : Machine} {g : FrameId} {fs : List FunctionDecl}
    {ids : Bindings FunctionId} (hids : List.Forall₂ (fun f b => b.1 = f.name.text ∧
      m.functions[b.2]? = some (Evaluator.closureOf f g false)) fs ids) (x : String) :
    List.Forall₂ (fun f b => m.functions[b.2]? = some (Evaluator.closureOf f g false))
      (fs.filter (·.name.text = x)) (ids.filter (·.1 = x)) := by
  induction hids with
  | nil => exact .nil
  | @cons f b fs ids hb _ ih =>
    -- Both lists keep the pair or drop it, since a binding has the name of its function.
    by_cases hx : f.name.text = x
    · rw [List.filter_cons_of_pos (by simpa using hx),
        List.filter_cons_of_pos (by simpa using hb.1.trans hx)]
      exact .cons hb.2 ih
    · rw [List.filter_cons_of_neg (by simpa using hx),
        List.filter_cons_of_neg (by simpa using fun h => hx (hb.1.symm.trans h))]
      exact ih

/-- Of static methods of one name the last one counts. -/
theorem get?_insertMany_ids {g : FrameId} {fs : List FunctionDecl} {ids : Bindings FunctionId}
    {m : Machine} (hids : List.Forall₂ (fun f b => b.1 = f.name.text ∧
      m.functions[b.2]? = some (Evaluator.closureOf f g false)) fs ids) (x : String) :
    Option.Rel (fun f id => m.functions[id]? = some (Evaluator.closureOf f g false))
      (lastNamed? fs x) ((Bindings.insertMany [] ids).get? x) := by
  rw [Bindings.get?_insertMany]
  show Option.Rel _ (fs.filter (·.name.text = x)).getLast? _
  have hfiltered := forall₂_filter_ids hids x
  generalize fs.filter (·.name.text = x) = gs, ids.filter (·.1 = x) = bs at hfiltered ⊢
  -- Both lists have a last element, or neither has one.
  rw [← List.head?_reverse, ← List.head?_reverse]
  have hreverse := List.forall₂_reverse_iff.mpr hfiltered
  generalize gs.reverse = gs', bs.reverse = bs' at hreverse ⊢
  cases hreverse with
  | nil => exact .none
  | cons hb _ => exact .some hb

end Tables

/-!
## Steps

One lemma for each change of the state. Each says both that the state behind it is founded and that
all links and tables from before have lasted.
-/

namespace Machine.Founded

variable {P : Part → Prop} {m : Machine} (hm : m.Founded P)
include hm

/-- Where a run comes back to the frame from before, that frame is still there. -/
theorem comeBack {m' : Machine} {f : FrameId} (hm' : m'.Founded P)
    (hstep : Lasting { m with current := f } m') :
    { m' with current := m.current }.Founded P ∧ Lasting m { m' with current := m.current } := by
  have hin : Lasting m { m with current := f } := .of_eq rfl rfl rfl rfl
  have hout : Lasting m' { m' with current := m.current } := .of_eq rfl rfl rfl rfl
  have hlt : m.current < m'.frames.size := (hin.trans hstep).lt_frames hm.current
  exact ⟨hm'.congr _ hlt rfl rfl rfl rfl, hin.trans (hstep.trans hout)⟩

/-- A name is bound to a value that is there. -/
theorem define (f : FrameId) (x : String) {v : Value} (hv : m.Holds v) :
    { m with frames := m.frames.define f x v }.Founded P ∧
      Lasting m { m with frames := m.frames.define f x v } := by
  have hlasting : Lasting m { m with frames := m.frames.define f x v } :=
    ⟨Nat.le_of_eq (by simp), fun g _ => Frames.enclosing?_define .., fun _ _ h => h,
      fun _ _ h => h, fun _ _ h => ⟨_, h⟩⟩
  refine ⟨hm.frames hlasting (hm.links.define f x v) ?_ ?_ ?_, hlasting⟩
  · intro g hg hlink
    rw [Frames.size_define] at hg
    rw [Frames.enclosing?_define] at hlink
    exact hm.outermost g hg hlink
  · rw [Frames.size_define]
    exact hm.current
  · intro g y u hu
    by_cases hf : f < m.frames.size
    · rw [Frames.local?_define _ _ _ _ _ _ hf] at hu
      split at hu
      · obtain rfl := Option.some.inj hu
        exact .inr hv
      · exact .inl hu
    · -- There is no such frame, so nothing is written.
      have hne : f ≠ g := fun h => by
        have hlt := Frames.lt_size_of_local? _ y hu
        rw [Frames.size_define] at hlt
        exact hf (h ▸ hlt)
      unfold Frames.local? at hu ⊢
      rw [Frames.frame?_define, if_neg hne] at hu
      exact .inl hu

/-- A frame is made inside one that is there, with values that are there. So its link leads to an
older frame. -/
theorem newFrame {g : FrameId} (hg : g < m.frames.size) {values : Bindings Value}
    (hvalues : ∀ x v, values.get? x = some v → m.Holds v) :
    { m with frames := m.frames.push ⟨values, some g⟩ }.Founded P ∧
      Lasting m { m with frames := m.frames.push ⟨values, some g⟩ } := by
  have hstep : Lasting m { m with frames := m.frames.push ⟨values, some g⟩ } := by
    refine ⟨by simp, fun f hf => ?_, fun _ _ h => h, fun _ _ h => h, fun _ _ h => ⟨_, h⟩⟩
    -- The new frame is behind all that were there, and its link goes to one of these.
    rw [Frames.enclosing?_push, if_neg (Nat.ne_of_lt hf)]
  refine ⟨hm.frames hstep ?_ ?_ ?_ ?_, hstep⟩
  · exact hm.links.push fun g' hg' => Option.some.inj hg' ▸ hg
  · intro f hf hlink
    rw [Frames.enclosing?_push] at hlink
    split at hlink
    · cases hlink
    · next hne =>
      rw [Frames.size_push] at hf
      exact hm.outermost f (Nat.lt_of_le_of_ne (Nat.le_of_lt_succ hf) hne) hlink
  · rw [Frames.size_push]
    exact Nat.lt_succ_of_lt hm.current
  · intro f x v hv
    rw [Frames.local?_push] at hv
    split at hv
    · exact .inr (hvalues x v hv)
    · exact .inl hv

/-- A function is made in a frame that is there. -/
theorem newFunction {c : Closure} (hc : m.Rooted P c) :
    { m with functions := m.functions.push c }.Founded P ∧
      Lasting m { m with functions := m.functions.push c } := by
  have hstep : Lasting m { m with functions := m.functions.push c } :=
    ⟨Nat.le_refl _, fun _ _ => rfl, fun _ _ h => getElem?_push_of_some h, fun _ _ h => h,
      fun _ _ h => ⟨_, h⟩⟩
  refine ⟨hm.lasting hstep hm.links hm.outermost hm.current (fun _ _ hk => .inl hk)
    (fun _ _ _ hv => .inl hv) (fun i object hi => hm.instances_lasting hstep hi)
    fun id d hd => ?_, hstep⟩
  rcases getElem?_push_cases hd with hold | ⟨-, rfl⟩
  · exact .inl hold
  · exact .inr (hstep.rooted hc)

/-- A class is made below one that is there. -/
theorem newClass {info : ClassInfo} {name : Name} {parent : Option VariableUse}
    {methods statics : List FunctionDecl}
    (hsuper : ∀ d, info.superclass = some d → m.Holds (.«class» d))
    (hinfo : m.DeclaredBy P info name parent methods statics)
    (hmethods : ∀ x c, info.methods.get? x = some c → m.Rooted P c) :
    { m with classes := m.classes.push info }.Founded P ∧
      Lasting m { m with classes := m.classes.push info } := by
  have hstep : Lasting m { m with classes := m.classes.push info } :=
    ⟨Nat.le_refl _, fun _ _ => rfl, fun _ _ h => h, fun _ _ h => getElem?_push_of_some h,
      fun _ _ h => ⟨_, h⟩⟩
  refine ⟨hm.lasting hstep hm.links hm.outermost hm.current (fun k info' hk => ?_)
    (fun _ _ _ hv => .inl hv) (fun i object hi => hm.instances_lasting hstep hi)
    fun _ _ hc => .inl hc, hstep⟩
  -- Either an older class or the new one.
  rcases getElem?_push_cases hk with hold | ⟨hsize, rfl⟩
  · exact .inl hold
  · refine .inr ⟨fun d hd => ?_, ?_, fun x c hx => ?_⟩
    · -- The superclass was there before.
      have hlt : d < m.classes.size := hsuper d hd
      exact hsize ▸ hlt
    · exact ⟨name, parent, methods, statics, hstep.declaredBy hinfo⟩
    · exact hstep.rooted (hmethods x c hx)

/-- An instance is made of a class that is there. -/
theorem newInstance {k : ClassId} (hk : m.Holds (.«class» k)) :
    { m with instances := m.instances.push ⟨k, []⟩ }.Founded P ∧
      Lasting m { m with instances := m.instances.push ⟨k, []⟩ } := by
  have hstep : Lasting m { m with instances := m.instances.push ⟨k, []⟩ } :=
    ⟨Nat.le_refl _, fun _ _ => rfl, fun _ _ h => h, fun _ _ h => h,
      fun _ object h => ⟨object.fields, getElem?_push_of_some h⟩⟩
  refine ⟨hm.lasting hstep hm.links hm.outermost hm.current (fun _ _ hk => .inl hk)
    (fun _ _ _ hv => .inl hv) (fun i object hi => ?_) fun _ _ hc => .inl hc, hstep⟩
  rcases getElem?_push_cases hi with hold | ⟨-, rfl⟩
  · exact hm.instances_lasting hstep hold
  · -- A new instance has no fields.
    exact ⟨hk, fun x v hx => by cases hx⟩

/-- A field is set to a value that is there. -/
theorem setField (i : InstanceId) (x : String) {v : Value} (hv : m.Holds v) :
    { m with instances := m.instances.modify i fun object =>
        { object with fields := object.fields.insert x v } }.Founded P ∧
      Lasting m { m with instances := m.instances.modify i fun object =>
        { object with fields := object.fields.insert x v } } := by
  -- Only the one instance changes, and of it only the field.
  have hmodify : ∀ j, (m.instances.modify i fun object =>
      { object with fields := object.fields.insert x v })[j]? =
        if i = j then m.instances[j]?.map fun object =>
          { object with fields := object.fields.insert x v } else m.instances[j]? :=
    fun j => Array.getElem?_modify
  have hstep : Lasting m { m with
      instances := m.instances.modify i fun object =>
        { object with fields := object.fields.insert x v } } := by
    refine ⟨Nat.le_refl _, fun _ _ => rfl, fun _ _ h => h, fun _ _ h => h, fun j object hj => ?_⟩
    show ∃ fields, (m.instances.modify i _)[j]? = some ⟨object.classId, fields⟩
    rw [hmodify, hj]
    split
    · exact ⟨_, rfl⟩
    · exact ⟨object.fields, rfl⟩
  refine ⟨hm.lasting hstep hm.links hm.outermost hm.current (fun _ _ hk => .inl hk)
    (fun _ _ _ hv => .inl hv) (fun j object hj => ?_) fun _ _ hc => .inl hc, hstep⟩
  have hj' : (m.instances.modify i fun object =>
      { object with fields := object.fields.insert x v })[j]? = some object := hj
  rw [hmodify] at hj'
  split at hj'
  · obtain ⟨before, hbefore, rfl⟩ := Option.map_eq_some_iff.mp hj'
    obtain ⟨hclass, hfields⟩ := hm.instances_lasting hstep hbefore
    refine ⟨hclass, fun y u hy => ?_⟩
    rw [Bindings.get?_insert] at hy
    split at hy
    · obtain rfl := Option.some.inj hy
      exact hstep.holds hv
    · exact hfields y u hy
  · exact hm.instances_lasting hstep hj'

/-- Nothing that links are made of changes. -/
theorem same (m' : Machine) (hcurrent : m'.current = m.current) (hframes : m'.frames = m.frames)
    (hfunctions : m'.functions = m.functions) (hclasses : m'.classes = m.classes)
    (hinstances : m'.instances = m.instances) : m'.Founded P ∧ Lasting m m' :=
  ⟨hm.congr m' (hcurrent ▸ hm.current) hframes hfunctions hclasses hinstances,
    .of_eq hframes hfunctions hclasses hinstances⟩

/-- A class is made with the tables of its declaration. -/
theorem newClass_declared {name : Name} {use? : Option VariableUse} {parent : Option ClassId}
    {methods statics : List FunctionDecl} {f g : FrameId} {ids : Bindings FunctionId}
    (hknown : P (.stmt (.classDecl name use? methods statics)))
    (hmethods : ∀ d ∈ methods, ∀ p ∈ stmtsParts d.body, P p)
    (hsome : parent.isSome = use?.isSome) (hparent : ∀ k ∈ parent, m.Holds (.«class» k))
    (hg : g < m.frames.size) (hmade : List.Forall₂ (fun d b => b.1 = d.name.text ∧
      m.functions[b.2]? = some (Evaluator.closureOf d f false)) statics ids) :
    let info : ClassInfo :=
      ⟨name.text, parent, Evaluator.methods g methods, Bindings.insertMany [] ids⟩
    { m with classes := m.classes.push info }.Founded P ∧
      Lasting m { m with classes := m.classes.push info } := by
  refine hm.newClass (fun d hd => hparent d hd) ⟨hknown, rfl, hsome,
    ⟨g, fun x => Evaluator.get?_methods g methods x⟩, ⟨f, get?_insertMany_ids hmade⟩⟩
    fun x c hx => ?_
  -- What a table holds has been inserted for a method of the declaration.
  rcases Bindings.exists_of_get?_insertMany hx with hnone | hmem
  · cases hnone
  · obtain ⟨d, hd, heq⟩ := List.mem_map.mp hmem
    obtain rfl := (Prod.mk.inj heq).2
    exact ⟨hg, hmethods d hd⟩

/-- A static method is a function that was made with its class. -/
theorem holds_static {k : ClassId} {info : ClassInfo} {x : String} {id : FunctionId}
    (hclass : m.classes[k]? = some info) (hx : info.staticMethods.get? x = some id) :
    m.Holds (.function id) := by
  obtain ⟨_, _, _, statics, hinfo⟩ := hm.declared k info hclass
  obtain ⟨frame, hstatics⟩ := hinfo.staticMethods_get?
  have hrel := hstatics x
  rw [hx] at hrel
  generalize lastNamed? statics x = f? at hrel
  cases hrel with
  | some hid => exact (Array.getElem?_eq_some_iff.mp hid).1

end Machine.Founded

/-!
## The invariant

The steps in terms of the invariant logic. What is asked of a value or a frame is just that it is
there, and of a function that its frame is, so links lead to something older.
-/

/-- States are founded, and links and tables last. -/
def Machine.Founded.invariant (P : Part → Prop) : Invariant where
  good m := m.Founded P
  later := Lasting
  refl := .refl
  trans := .trans
  known := P
  value := Machine.Holds
  binding m _ v := m.Holds v
  frame m f := f < m.frames.size
  function m := m.Rooted P
  method m := m.Rooted P

/-- Each primitive step keeps states founded. -/
theorem maintained_founded (P : Part → Prop) : (Machine.Founded.invariant P).Maintained where
  target _ _ := trivial
  lambda _ hbody hf := ⟨hf, hbody⟩
  declared _ hbody hf := ⟨hf, hbody⟩
  staticMethod _ _ hbody hf := ⟨hf, hbody⟩
  plain h m := h m
  this hi := hi
  super hk := hk
  bound hv := hv
  value_later hlasting hv := hlasting.holds hv
  frame_later hlasting hf := hlasting.lt_frames hf
  method_later hlasting hc := hlasting.rooted hc
  -- Whether something is there does not depend on the present frame.
  value_current {_ _ v} hv := by cases v <;> exact hv
  body hc := hc.2
  frame_of_function hc := hc.1
  frame_of_method hc := hc.1
  parameter _ _ hv := hv
  current hm := hm.current
  held hm hv := hm.held _ _ _ hv
  field hm hi hx := hm.fields _ _ _ _ hi hx
  functions hm hc := hm.functions _ _ hc
  methods hm hk hx := hm.methods _ _ _ _ hk hx
  statics hm hk hx := hm.holds_static hk hx
  enter {m f} hm hf := hm.congr { m with current := f } hf rfl rfl rfl rfl
  comeBack hm hstep := hm.comeBack hstep.1 hstep.2
  define hm _ hv := hm.define _ _ hv
  newFrame hm hf hvalues := ⟨hm.newFrame hf hvalues, by
    show _ < (Frames.push _ _).size
    simp⟩
  bindMethod hm hc _ := ⟨by
    show _ < (Frames.push _ _).size
    simp, hc.2⟩
  newFunction hm hc := ⟨hm.newFunction hc, by
    show _ < (Array.push _ _).size
    simp⟩
  newClass hm hknown hmethods hsome hparent hg hmade :=
    ⟨hm.newClass_declared hknown hmethods hsome hparent hg hmade, by
      show _ < (Array.push _ _).size
      simp⟩
  newInstance hm hk := ⟨hm.newInstance hk, by
    show _ < (Array.push _ _).size
    simp⟩
  setField hm hv := hm.setField _ _ hv
  print {m line} hm := hm.same { m with output := m.output ++ line } rfl rfl rfl rfl rfl
  countReading {m} hm :=
    hm.same { m with clockReadings := m.clockReadings + 1 } rfl rfl rfl rfl rfl

/-! ## Whole evaluators -/

/-- What an evaluator is used on keeps states founded, if it belongs to the programs. -/
structure Evaluator.Founds (P : Part → Prop) (inner : Evaluator) : Prop where
  eval : ∀ {m e}, (∀ p ∈ e.parts, P p) →
    (Founded.invariant P).Keeps m (inner.eval e) fun m v => m.Holds v
  exec : ∀ {m s}, (∀ p ∈ s.parts, P p) →
    (Founded.invariant P).Keeps m (inner.exec s) fun m c => c.HeldIn m

/-- Evaluation keeps states founded, at whatever moment it is ended. -/
theorem founds_watchedEvaluator (P : Part → Prop) {watch : Expr → Run Unit}
    (hwatch : Harmless watch) (host : Host) (depth : Nat) :
    (watchedEvaluator host watch depth).Founds P := by
  have hrules := (maintained_founded P).watchedEvaluator (hwatch.agrees _) host depth
  refine ⟨fun {m e} he => (hrules.eval he).keeps, fun {m s} hs => ?_⟩
  refine ((hrules.exec hs).mono fun m' c _ hc => ?_).keeps
  cases c <;> exact hc

end LoxLang
