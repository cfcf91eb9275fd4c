import LoxLang.Proofs.Forest
import LoxLang.Proofs.Parts
import LoxLang.Proofs.Receivers

/-!
# Links between objects

Frames are linked to the frames around them, and classes to their superclasses. Both links are made
together with the object that they start from, to an object that is there already. So they lead to
older objects, and following them comes to an end: for frames in the global frame
(`Frames.Outward`), for classes in one without a superclass (`Machine.Lineage`).

Lookups follow these links. Where links lead to older objects a lookup gives what is found first on
the way, be it a variable (`Outward.get?_eq`), a method or a static method
(`Lineage.inClasses?_eq`).

`Machine.Founded` is the invariant of states that makes it so. `Machine.Lasting` says what a later
state has in common with an earlier one: links and the tables of methods never change.
-/

namespace LoxLang

/-! ## Functions by name -/

/-- The last of some functions that has a name. -/
def lastNamed? (fs : List FunctionDecl) (name : String) : Option FunctionDecl :=
  (fs.filter (·.name.text = name)).getLast?

namespace Bindings

variable {α : Type}

/-- Of many bindings of one name the last one counts. -/
theorem get?_insertMany (bs : Bindings α) (more : List (String × α)) (name : String) :
    (bs.insertMany more).get? name =
      ((more.filter (·.1 = name)).getLast?.map (·.2)).or (bs.get? name) := by
  induction more generalizing bs with
  | nil => rfl
  | cons b more ih =>
    obtain ⟨key, a⟩ := b
    have hrest : (insertMany bs ((key, a) :: more)).get? name =
        ((more.filter (·.1 = name)).getLast?.map (·.2)).or ((bs.insert key a).get? name) :=
      ih (bs.insert key a)
    rw [hrest, get?_insert]
    by_cases hkey : key = name
    · -- What follows under the name hides this binding, and this one hides what was there.
      rw [if_pos hkey, List.filter_cons_of_pos (by simpa using hkey), List.getLast?_cons]
      cases (more.filter (·.1 = name)).getLast? <;> rfl
    · rw [if_neg hkey, List.filter_cons_of_neg (by simpa using hkey)]

end Bindings

/-- The last method of a name counts. -/
theorem Evaluator.get?_methods (frame : FrameId) (fs : List FunctionDecl) (name : String) :
    (methods frame fs).get? name = (lastNamed? fs name).map fun f =>
      closureOf f frame (f.name.text = initializerName) := by
  unfold methods lastNamed?
  rw [Bindings.get?_insertMany, List.filter_map, List.getLast?_map, Option.map_map]
  exact Option.or_none

/-!
## From a frame outwards

The links from a frame make a list of frames that ends in the outermost one. A search for a name is
a search in this list.
-/

namespace Frames

variable {α : Type} {fs : Frames α}

/-- The frames from one on outwards, along all links. -/
inductive Outward (fs : Frames α) : FrameId → List FrameId → Prop
  | last {f : FrameId} (hlink : fs.enclosing? f = none) : Outward fs f [f]
  | next {f g : FrameId} {line : List FrameId} (hlink : fs.enclosing? f = some g)
      (h : Outward fs g line) : Outward fs f (f :: line)

/-- Where links lead to older frames, they come to an end. -/
theorem Linked.exists_outward (h : fs.Linked) (f : FrameId) : ∃ line, fs.Outward f line := by
  induction f using Nat.strongRecOn with
  | ind f ih =>
  cases hlink : fs.enclosing? f with
  | none => exact ⟨[f], .last hlink⟩
  | some g =>
    obtain ⟨line, hline⟩ := ih g (h f g hlink)
    exact ⟨f :: line, .next hlink hline⟩

/-- Where links lead to older frames, what a frame does not hold is looked up in the next one. -/
theorem Linked.get?_eq (h : fs.Linked) (f : FrameId) (name : String) :
    fs.get? f name = (fs.local? f name).or ((fs.enclosing? f).bind (fs.get? · name)) := by
  unfold get?
  rw [h.holder?_eq]
  cases hlocal : fs.local? f name with
  | some a => simp [hlocal]
  | none => cases fs.enclosing? f <;> simp

namespace Outward

variable {f : FrameId} {line : List FrameId}

/-- The walk to the nearest holder of a name goes along the line. -/
theorem holder?_eq (h : fs.Outward f line) (hfs : fs.Linked) (name : String) :
    fs.holder? f name = line.find? fun g => (fs.local? g name).isSome := by
  induction h with
  | last hlink =>
    rw [holder?_of_outermost _ name hlink, List.find?_cons, List.find?_nil]
    split <;> simp_all
  | next hlink _ ih =>
    rw [hfs.holder?_eq, hlink, Option.bind_some, ih, List.find?_cons]
    split <;> simp_all

theorem get?_eq (h : fs.Outward f line) (hfs : fs.Linked) (name : String) :
    fs.get? f name = line.findSome? (fs.local? · name) := by
  induction h with
  | @last f hlink =>
    rw [get?_of_outermost _ name hlink, List.findSome?_cons, List.findSome?_nil]
    cases fs.local? f name <;> rfl
  | @next f g line hlink _ ih =>
    rw [hfs.get?_eq, hlink, Option.bind_some, ih, List.findSome?_cons]
    cases fs.local? f name <;> rfl

end Outward

end Frames

/-!
## From a class upwards

The same for a class and its superclasses, if these are older.
-/

namespace Machine

variable {m : Machine} {α : Type}

/-- The classes from one on upwards, along all superclass links. -/
inductive Lineage (m : Machine) : ClassId → List ClassId → Prop
  | root {k : ClassId} {info : ClassInfo} (hclass : m.classes[k]? = some info)
      (hsuper : info.superclass = none) : Lineage m k [k]
  | under {k d : ClassId} {info : ClassInfo} {line : List ClassId}
      (hclass : m.classes[k]? = some info) (hsuper : info.superclass = some d)
      (h : Lineage m d line) : Lineage m k (k :: line)

/-- What a class itself holds. -/
def ownIn? (m : Machine) (own? : ClassInfo → Option α) (k : ClassId) : Option α :=
  m.classes[k]?.bind own?

/-- Superclasses are older than their subclasses. -/
def SuperclassesOlder (m : Machine) : Prop :=
  ∀ (k : ClassId) info d, m.classes[k]? = some info → info.superclass = some d → d < k

theorem SuperclassesOlder.exists_lineage (h : m.SuperclassesOlder) {k : ClassId}
    (hk : k < m.classes.size) : ∃ line, m.Lineage k line := by
  induction k using Nat.strongRecOn with
  | ind k ih =>
  have hclass : m.classes[k]? = some m.classes[k] := Array.getElem?_eq_getElem hk
  cases hsuper : m.classes[k].superclass with
  | none => exact ⟨[k], .root hclass hsuper⟩
  | some d =>
    have hd : d < k := h k _ d hclass hsuper
    obtain ⟨line, hline⟩ := ih d hd (Nat.lt_trans hd hk)
    exact ⟨k :: line, .under hclass hsuper hline⟩

/-- Looking through a class and its superclasses finds what is held first on the way up. -/
theorem Lineage.inClasses?_eq {k : ClassId} {line : List ClassId} (hline : m.Lineage k line)
    (h : m.SuperclassesOlder) (own? : ClassInfo → Option α) :
    m.inClasses? own? k = line.findSome? (m.ownIn? own?) := by
  induction hline with
  | @root k info hclass hsuper =>
    rw [inClasses?, inLineage?]
    simp only [hclass, hsuper, List.findSome?_cons, List.findSome?_nil, ownIn?, Option.bind_some]
    cases own? info <;> rfl
  | @under k d info line hclass hsuper _ ih =>
    -- The lookup goes on in the superclass, since that is older.
    have hd : d < k := h k info d hclass hsuper
    rw [inClasses?] at ih ⊢
    rw [inLineage?]
    simp only [hclass, hsuper, List.findSome?_cons, ownIn?, Option.bind_some, hd, if_true, ih]
    cases own? info <;> rfl

/-!
## States

What holds of every state: each link points to an older frame or class, and what is named anywhere
is there. States that follow one another keep links, functions, and the tables of classes.
-/

variable (P : Part → Prop) (m)

/-- A class declaration of the programs has made a class. Its tables are those of the methods that
are declared in it, each made in a frame; where a name is declared twice, the last one counts. -/
structure DeclaredBy (info : ClassInfo) (name : Name) (parent : Option VariableUse)
    (methods statics : List FunctionDecl) : Prop where
  known : P (.stmt (.classDecl name parent methods statics))
  name_eq : info.name = name.text
  superclass_isSome : info.superclass.isSome = parent.isSome
  methods_get? : ∃ frame, ∀ x, info.methods.get? x = (lastNamed? methods x).map fun f =>
    Evaluator.closureOf f frame (f.name.text = initializerName)
  staticMethods_get? : ∃ frame, ∀ x, Option.Rel
    (fun f id => m.functions[id]? = some (Evaluator.closureOf f frame false))
    (lastNamed? statics x) (info.staticMethods.get? x)

/-- A function is made in a frame that is there, and its body belongs to the programs. -/
def Rooted (c : Closure) : Prop := c.frame < m.frames.size ∧ ∀ p ∈ stmtsParts c.body, P p

/-- What holds of the links of a state. All of them lead to older objects, and only the global frame
has none; and each class has been made by a class declaration. For this to stay so, what is held in
variables and fields is there, and so are the frames of functions. -/
structure Founded : Prop where
  links : m.frames.Linked
  outermost : ∀ f < m.frames.size, m.frames.enclosing? f = none → f = globalFrame
  current : m.current < m.frames.size
  superclasses : m.SuperclassesOlder
  declared : ∀ (k : ClassId) info, m.classes[k]? = some info →
    ∃ name parent methods statics, m.DeclaredBy P info name parent methods statics
  held : ∀ f x v, m.frames.local? f x = some v → m.Holds v
  fields : ∀ (i : InstanceId) object x v, m.instances[i]? = some object →
    object.fields.get? x = some v → m.Holds v
  instances : ∀ (i : InstanceId) object, m.instances[i]? = some object →
    object.classId < m.classes.size
  functions : ∀ (id : FunctionId) c, m.functions[id]? = some c → m.Rooted P c
  methods : ∀ (k : ClassId) info x c, m.classes[k]? = some info →
    info.methods.get? x = some c → m.Rooted P c

/-- A later state: no frame, function, class or instance has vanished, and none has changed its
links or its tables of methods. What frames and instances hold may have changed. -/
structure Lasting (m m' : Machine) : Prop where
  frames : m.frames.size ≤ m'.frames.size
  links : ∀ f < m.frames.size, m'.frames.enclosing? f = m.frames.enclosing? f
  functions : ∀ (id : FunctionId) c, m.functions[id]? = some c → m'.functions[id]? = some c
  classes : ∀ (k : ClassId) info, m.classes[k]? = some info → m'.classes[k]? = some info
  instances : ∀ (i : InstanceId) object, m.instances[i]? = some object →
    ∃ fields, m'.instances[i]? = some ⟨object.classId, fields⟩

variable {P m} {m' m'' : Machine}

namespace Lasting

theorem refl (m : Machine) : Lasting m m :=
  ⟨Nat.le_refl _, fun _ _ => rfl, fun _ _ h => h, fun _ _ h => h, fun _ _ h => ⟨_, h⟩⟩

theorem trans (h : Lasting m m') (h' : Lasting m' m'') : Lasting m m'' where
  frames := Nat.le_trans h.frames h'.frames
  links f hf := (h'.links f (Nat.lt_of_lt_of_le hf h.frames)).trans (h.links f hf)
  functions id c hc := h'.functions id c (h.functions id c hc)
  classes k info hk := h'.classes k info (h.classes k info hk)
  instances i object hi := by
    obtain ⟨fields, hi'⟩ := h.instances i object hi
    exact h'.instances i ⟨object.classId, fields⟩ hi'

/-- Only the frame of the present place, the distances, the output or the clock are others. -/
theorem of_eq (hframes : m'.frames = m.frames) (hfunctions : m'.functions = m.functions)
    (hclasses : m'.classes = m.classes) (hinstances : m'.instances = m.instances) :
    Lasting m m' where
  frames := Nat.le_of_eq (by rw [hframes])
  links f _ := by rw [hframes]
  functions id c hc := by rwa [hfunctions]
  classes k info hk := by rwa [hclasses]
  instances i object hi := ⟨object.fields, by rwa [hinstances]⟩

theorem lt_frames (h : Lasting m m') {f : FrameId} (hf : f < m.frames.size) :
    f < m'.frames.size :=
  Nat.lt_of_lt_of_le hf h.frames

theorem holds (h : Lasting m m') {v : Value} (hv : m.Holds v) : m'.Holds v := by
  cases v with
  | function id =>
    exact (Array.getElem?_eq_some_iff.mp (h.functions id _ (Array.getElem?_eq_getElem hv))).1
  | «class» k =>
    exact (Array.getElem?_eq_some_iff.mp (h.classes k _ (Array.getElem?_eq_getElem hv))).1
  | object i =>
    obtain ⟨fields, hi⟩ := h.instances i _ (Array.getElem?_eq_getElem hv)
    exact (Array.getElem?_eq_some_iff.mp hi).1
  | _ => trivial

theorem rooted (h : Lasting m m') {c : Closure} (hc : m.Rooted P c) : m'.Rooted P c :=
  ⟨h.lt_frames hc.1, hc.2⟩

theorem declaredBy (h : Lasting m m') {info : ClassInfo} {name : Name}
    {parent : Option VariableUse} {methods statics : List FunctionDecl}
    (hinfo : m.DeclaredBy P info name parent methods statics) :
    m'.DeclaredBy P info name parent methods statics where
  known := hinfo.known
  name_eq := hinfo.name_eq
  superclass_isSome := hinfo.superclass_isSome
  methods_get? := hinfo.methods_get?
  staticMethods_get? := by
    obtain ⟨frame, hstatics⟩ := hinfo.staticMethods_get?
    refine ⟨frame, fun x => ?_⟩
    have hx := hstatics x
    -- Functions are never changed, so what an entry names is still the same.
    generalize lastNamed? statics x = f?, info.staticMethods.get? x = id? at hx ⊢
    cases hx with
    | some hid => exact .some (h.functions _ _ hid)
    | none => exact .none

end Lasting

theorem DeclaredBy.mono {P' : Part → Prop} (hP : ∀ p, P p → P' p) {info : ClassInfo} {name : Name}
    {parent : Option VariableUse} {methods statics : List FunctionDecl}
    (h : m.DeclaredBy P info name parent methods statics) :
    m.DeclaredBy P' info name parent methods statics :=
  ⟨hP _ h.known, h.name_eq, h.superclass_isSome, h.methods_get?, h.staticMethods_get?⟩

theorem Rooted.mono {P' : Part → Prop} (hP : ∀ p, P p → P' p) {c : Closure}
    (h : m.Rooted P c) : m.Rooted P' c :=
  ⟨h.1, fun p hp => hP p (h.2 p hp)⟩

namespace Founded

theorem mono {P' : Part → Prop} (h : m.Founded P) (hP : ∀ p, P p → P' p) : m.Founded P' where
  links := h.links
  outermost := h.outermost
  current := h.current
  superclasses := h.superclasses
  declared k info hk := by
    obtain ⟨name, parent, methods, statics, hinfo⟩ := h.declared k info hk
    exact ⟨name, parent, methods, statics, hinfo.mono hP⟩
  held := h.held
  fields := h.fields
  instances := h.instances
  functions id c hc := (h.functions id c hc).mono hP
  methods k info x c hk hx := (h.methods k info x c hk hx).mono hP

/-- A lasting state is founded if what is new in it is. -/
theorem lasting (h : m.Founded P) (hlasting : Lasting m m') (hlinks : m'.frames.Linked)
    (houtermost : ∀ f < m'.frames.size, m'.frames.enclosing? f = none → f = globalFrame)
    (hcurrent : m'.current < m'.frames.size)
    (hclasses : ∀ (k : ClassId) info, m'.classes[k]? = some info → m.classes[k]? = some info ∨
      (∀ d, info.superclass = some d → d < k) ∧
        (∃ name parent methods statics, m'.DeclaredBy P info name parent methods statics) ∧
        ∀ x c, info.methods.get? x = some c → m'.Rooted P c)
    (hheld : ∀ f x v, m'.frames.local? f x = some v →
      m.frames.local? f x = some v ∨ m'.Holds v)
    (hinstances : ∀ (i : InstanceId) object, m'.instances[i]? = some object →
      object.classId < m'.classes.size ∧
        ∀ x v, object.fields.get? x = some v → m'.Holds v)
    (hfunctions : ∀ (id : FunctionId) c, m'.functions[id]? = some c →
      m.functions[id]? = some c ∨ m'.Rooted P c) : m'.Founded P where
  links := hlinks
  outermost := houtermost
  current := hcurrent
  superclasses k info d hk hsuper :=
    (hclasses k info hk).elim (fun hk => h.superclasses k info d hk hsuper) fun hk => hk.1 d hsuper
  declared k info hk := by
    -- What was there before has all that it refers to still; what is new brings it along.
    rcases hclasses k info hk with hk | hk
    · obtain ⟨name, parent, methods, statics, hinfo⟩ := h.declared k info hk
      exact ⟨name, parent, methods, statics, hlasting.declaredBy hinfo⟩
    · exact hk.2.1
  held f x v hv := (hheld f x v hv).elim (fun hv => hlasting.holds (h.held f x v hv)) id
  fields i object x v hi hx := (hinstances i object hi).2 x v hx
  instances i object hi := (hinstances i object hi).1
  functions id c hc := (hfunctions id c hc).elim (fun hc => hlasting.rooted (h.functions id c hc))
    fun hc => hc
  methods k info x c hk hx := by
    rcases hclasses k info hk with hk | hk
    · exact hlasting.rooted (h.methods k info x c hk hx)
    · exact hk.2.2 x c hx

/-- The instances of an earlier state are founded in a later one. -/
theorem instances_lasting (h : m.Founded P) (hlasting : Lasting m m') {i : InstanceId}
    {object : Instance} (hi : m.instances[i]? = some object) :
    object.classId < m'.classes.size ∧ ∀ x v, object.fields.get? x = some v → m'.Holds v := by
  have hclass : m.Holds (.«class» object.classId) := h.instances i object hi
  exact ⟨hlasting.holds hclass, fun x v hx => hlasting.holds (h.fields i object x v hi hx)⟩

/-- Only frames are new. -/
theorem frames (h : m.Founded P) {fs : Frames Value}
    (hlasting : Lasting m { m with frames := fs }) (hlinks : fs.Linked)
    (houtermost : ∀ f < fs.size, fs.enclosing? f = none → f = globalFrame)
    (hcurrent : m.current < fs.size)
    (hheld : ∀ f x v, fs.local? f x = some v → m.frames.local? f x = some v ∨ m.Holds v) :
    { m with frames := fs }.Founded P := by
  refine h.lasting hlasting hlinks houtermost hcurrent (fun k info hk => .inl hk)
    (fun f x v hv => ?_) (fun i object hi => h.instances_lasting hlasting hi) fun id c hc => .inl hc
  exact (hheld f x v hv).imp_right hlasting.holds

/-- The same frames, functions, classes and instances. -/
theorem congr (h : m.Founded P) (m' : Machine) (hcurrent : m'.current < m.frames.size)
    (hframes : m'.frames = m.frames) (hfunctions : m'.functions = m.functions)
    (hclasses : m'.classes = m.classes) (hinstances : m'.instances = m.instances) :
    m'.Founded P := by
  have hlasting : Lasting m m' := .of_eq hframes hfunctions hclasses hinstances
  refine h.lasting hlasting (hframes ▸ h.links) (hframes ▸ h.outermost) (hframes ▸ hcurrent)
    (fun k info hk => .inl (hclasses ▸ hk)) (fun f x v hv => .inl (hframes ▸ hv))
    (fun i object hi => h.instances_lasting hlasting (hinstances ▸ hi))
    fun id c hc => .inl (hfunctions ▸ hc)

theorem initial : Machine.initial.Founded P where
  -- The only frame is the global one, which is inside of none.
  links := by
    intro f g hg
    unfold Machine.initial at hg
    rw [Frames.enclosing?_push] at hg
    split at hg
    · cases hg
    · cases hg
  outermost f hf _ := Nat.lt_one_iff.mp hf
  current := Nat.zero_lt_one
  superclasses _ _ _ hk := by cases hk
  declared _ _ hk := by cases hk
  held f x v hv := by
    obtain ⟨-, rfl⟩ := local?_initial hv
    trivial
  fields _ _ _ _ hi := by cases hi
  instances _ _ hi := by cases hi
  functions _ _ hc := by cases hc
  methods _ _ _ _ hk := by cases hk

end Founded

/-!
## What lookups find

With the lists of frames and of classes, every lookup of the machine is a search for the first one
that has the name.
-/

/-- The state in which a method of an instance has been bound freshly, in a new frame, and made into
a new function. -/
def binding (m : Machine) (method : Closure) (i : InstanceId) : Machine :=
  { m with
    frames := m.frames.push ⟨[("this", .object i)], some method.frame⟩
    functions := m.functions.push { method with frame := m.frames.size } }

/-- Lookups in a state find what comes first on the way along the links. Instances have fields and
methods, and classes have static methods, and neither have those of the other. -/
structure FindsNearest (m : Machine) : Prop where
  chains : ∀ f < m.frames.size, ∃ line, m.frames.Outward f line ∧
    line.getLast? = some globalFrame ∧ ∀ name : Name,
      (∀ v, line.findSome? (m.frames.local? · name.text) = some v →
        Run.readFrom f name m = .ok v m) ∧
      (line.findSome? (m.frames.local? · name.text) = none →
        Run.readFrom f name m = Run.fail name.place (.undefinedVariable name.text) m) ∧
      ∀ v,
        (∀ g, line.find? (fun g => (m.frames.local? g name.text).isSome) = some g →
          Run.writeFrom f name v m = .ok () { m with frames := m.frames.define g name.text v }) ∧
        (line.find? (fun g => (m.frames.local? g name.text).isSome) = none →
          Run.writeFrom f name v m = Run.fail name.place (.undefinedVariable name.text) m)
  methods : ∀ k < m.classes.size, ∃ line, m.Lineage k line ∧ ∀ x,
    m.method? k x = line.findSome? (m.ownIn? (·.methods.get? x)) ∧
    m.staticMethod? k x = line.findSome? (m.ownIn? (·.staticMethods.get? x))
  ofInstance : ∀ (i : InstanceId) object line (name : Name), m.instances[i]? = some object →
    m.Lineage object.classId line →
    (∀ v, object.fields.get? name.text = some v → Run.property i name m = .ok v m) ∧
    (object.fields.get? name.text = none →
      (∀ method, line.findSome? (m.ownIn? (·.methods.get? name.text)) = some method →
        Run.property i name m = .ok (.function m.functions.size) (m.binding method i)) ∧
      (line.findSome? (m.ownIn? (·.methods.get? name.text)) = none →
        Run.property i name m = Run.fail name.place (.undefinedProperty name.text) m))
  ofClass : ∀ (k : ClassId) line (name : Name), m.Lineage k line →
    (∀ id, line.findSome? (m.ownIn? (·.staticMethods.get? name.text)) = some id →
      Run.staticProperty k name m = .ok (.function id) m) ∧
    (line.findSome? (m.ownIn? (·.staticMethods.get? name.text)) = none →
      Run.staticProperty k name m = Run.fail name.place (.undefinedStaticMethod name.text) m)

theorem get_bind_apply {α : Type} (k : Machine → Run α) (m : Machine) : (get >>= k) m = k m m :=
  rfl

namespace Founded

/-- Every line of frames ends in the global frame. -/
theorem getLast?_outward (h : m.Founded P) {f : FrameId} {line : List FrameId}
    (hline : m.frames.Outward f line) (hf : f < m.frames.size) :
    line.getLast? = some globalFrame := by
  induction hline with
  | @last f hlink =>
    rw [h.outermost f hf hlink]
    rfl
  | @next f g line hlink _ ih =>
    have hg : g < f := h.links f g hlink
    rw [List.getLast?_cons, ih (Nat.lt_trans hg hf)]
    rfl

theorem ofInstance (h : m.Founded P) {i : InstanceId} {object : Instance} {line : List ClassId}
    (name : Name) (hobject : m.instances[i]? = some object)
    (hline : m.Lineage object.classId line) :
    (∀ v, object.fields.get? name.text = some v → Run.property i name m = .ok v m) ∧
    (object.fields.get? name.text = none →
      (∀ method, line.findSome? (m.ownIn? (·.methods.get? name.text)) = some method →
        Run.property i name m = .ok (.function m.functions.size) (m.binding method i)) ∧
      (line.findSome? (m.ownIn? (·.methods.get? name.text)) = none →
        Run.property i name m = Run.fail name.place (.undefinedProperty name.text) m)) := by
  -- Fields are asked first, and then the classes along the line.
  rw [← hline.inClasses?_eq h.superclasses]
  refine ⟨fun v hv => ?_, fun hnone => ⟨fun method hmethod => ?_, fun hmissing => ?_⟩⟩
  · simp only [Run.property, get_bind_apply, hobject, Option.bind_eq_bind, Option.bind_some, hv]
    rfl
  · have hfound : m.method? object.classId name.text = some method := hmethod
    simp only [Run.property, get_bind_apply, hobject, Option.bind_eq_bind, Option.bind_some, hnone,
      hfound]
    rfl
  · have hfound : m.method? object.classId name.text = none := hmissing
    simp only [Run.property, get_bind_apply, hobject, Option.bind_eq_bind, Option.bind_some, hnone,
      hfound, Option.bind_none]

/-- In a founded state all lookups come to an end, with what is nearest. -/
theorem findsNearest (h : m.Founded P) : m.FindsNearest where
  chains f hf := by
    -- A lookup goes along the line of frames, and stops at the first that binds the name.
    obtain ⟨line, hline⟩ := h.links.exists_outward f
    refine ⟨line, hline, h.getLast?_outward hline hf, fun name =>
      ⟨fun v hv => ?_, fun hnone => ?_, fun v => ⟨fun g hg => ?_, fun hnone => ?_⟩⟩⟩
    · unfold Run.readFrom
      rw [hline.get?_eq h.links, hv]
    · unfold Run.readFrom
      rw [hline.get?_eq h.links, hnone]
    · unfold Run.writeFrom
      rw [hline.holder?_eq h.links, hg]
    · unfold Run.writeFrom
      rw [hline.holder?_eq h.links, hnone]
  methods k hk := by
    obtain ⟨line, hline⟩ := h.superclasses.exists_lineage hk
    exact ⟨line, hline, fun x => ⟨hline.inClasses?_eq h.superclasses _,
      hline.inClasses?_eq h.superclasses _⟩⟩
  ofInstance i object line name hobject hline := h.ofInstance name hobject hline
  ofClass k line name hline := by
    rw [← hline.inClasses?_eq h.superclasses]
    refine ⟨fun id hid => ?_, fun hnone => ?_⟩
    · unfold Run.staticProperty staticMethod?
      rw [hid]
    · unfold Run.staticProperty staticMethod?
      rw [hnone]

end Founded

end Machine

end LoxLang
