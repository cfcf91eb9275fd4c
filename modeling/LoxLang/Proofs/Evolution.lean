import LoxLang.Proofs.Invariants.Rules

/-!
# What every run does to the state

A relation between an earlier state and a later one that each primitive step keeps (`Evolution`) is
kept by every evaluation, however it ends (`Evolution.evaluator`, `Evolution.execute`). Nothing is
asked of the tree that is evaluated: such a relation is an invariant of which nothing else is known
(`Evolution.invariant`), so the rules have been dealt with already.

The first uses: frames never lose a name (`KeepsNames`), and an evaluation that ends is in the frame
in which it began (`ComesBack`).
-/

namespace LoxLang

/-!
## Steps that change the state

A relation is kept by all of evaluation if it is kept by a handful of steps: those that enter a
frame, make an object, bind a name, set a field, print, or read the clock.
-/

/-- A relation between an earlier and a later state that every primitive step keeps. -/
structure Evolution (R : Machine → Machine → Prop) : Prop where
  refl : ∀ m, R m m
  trans : ∀ {m m' m''}, R m m' → R m' m'' → R m m''
  /-- The frame of the present place may be another one for a while. -/
  inFrame : ∀ {m m'} (f : FrameId), R { m with current := f } m' →
    R m { m' with current := m.current }
  newFrame : ∀ m f values, R m { m with frames := m.frames.push ⟨values, some f⟩ }
  define : ∀ m f x v, R m { m with frames := m.frames.define f x v }
  newFunction : ∀ m c, R m { m with functions := m.functions.push c }
  newClass : ∀ m info, R m { m with classes := m.classes.push info }
  newInstance : ∀ m c, R m { m with instances := m.instances.push ⟨c, []⟩ }
  setField : ∀ m i x v, R m { m with
    instances := m.instances.modify i fun object =>
      { object with fields := object.fields.insert x v } }
  print : ∀ m line, R m { m with output := m.output ++ line }
  countReading : ∀ m, R m { m with clockReadings := m.clockReadings + 1 }

/-- What evaluators do to the state, whatever they evaluate. -/
structure Evaluator.Evolves (R : Machine → Machine → Prop) (inner : Evaluator) : Prop where
  eval : ∀ e, LoxLang.Evolves R (inner.eval e)
  exec : ∀ s, LoxLang.Evolves R (inner.exec s)

namespace Evolution

variable {R : Machine → Machine → Prop} {α : Type} {inner : Evaluator} {host : Host} {p : Run α}

/-- The invariant that states are in the relation to those before them. -/
def invariant (h : Evolution R) : Invariant where
  later := R
  refl := h.refl
  trans := h.trans

theorem maintained (h : Evolution R) : h.invariant.Maintained where
  target _ _ := trivial
  lambda _ _ _ := trivial
  declared _ _ _ := trivial
  staticMethod _ _ _ _ := trivial
  plain _ _ := trivial
  this _ := trivial
  super _ := trivial
  bound _ := trivial
  -- Nothing is said of values, names and trees, only of the states before and behind a step.
  value_later _ _ := trivial
  frame_later _ _ := trivial
  method_later _ _ := trivial
  value_current _ := trivial
  body _ _ _ := trivial
  frame_of_function _ := trivial
  frame_of_method _ := trivial
  parameter _ _ _ := trivial
  current _ := trivial
  held _ _ := trivial
  field _ _ _ := trivial
  functions _ _ := trivial
  methods _ _ _ := trivial
  statics _ _ _ := trivial
  enter _ _ := trivial
  comeBack _ hstep := ⟨trivial, h.inFrame _ hstep.2⟩
  define _ _ _ := ⟨trivial, h.define _ _ _ _⟩
  newFrame _ _ _ := ⟨⟨trivial, h.newFrame _ _ _⟩, trivial⟩
  bindMethod _ _ _ := trivial
  newFunction _ _ := ⟨⟨trivial, h.newFunction _ _⟩, trivial⟩
  newClass _ _ _ _ _ _ _ := ⟨⟨trivial, h.newClass _ _⟩, trivial⟩
  newInstance _ _ := ⟨⟨trivial, h.newInstance _ _⟩, trivial⟩
  setField _ _ := ⟨trivial, h.setField _ _ _ _⟩
  print _ := ⟨trivial, h.print _ _⟩
  countReading _ := ⟨trivial, h.countReading _⟩

/-- A run that keeps the invariant from every state keeps the relation. -/
theorem evolves (h : Evolution R) {Q : Machine → Machine → α → Prop}
    (hp : ∀ m, h.invariant.Agrees m p p (Q m)) : Evolves R p := by
  intro m
  have hm := (hp m trivial).2
  cases hrun : p m with
  | ok a m' =>
    rw [hrun] at hm
    exact hm.2.1
  | error e m' =>
    rw [hrun] at hm
    exact hm.2

/-- And of a run that keeps the relation nothing else is to be known. -/
theorem agrees (h : Evolution R) (hp : Evolves R p) (m : Machine) :
    h.invariant.Agrees m p p fun _ _ => True := by
  refine fun _ => ⟨rfl, ?_⟩
  have hm := hp m
  cases hrun : p m with
  | ok a m' =>
    rw [hrun] at hm
    exact ⟨trivial, hm, trivial⟩
  | error e m' =>
    rw [hrun] at hm
    exact ⟨trivial, hm⟩

theorem agreement (h : Evolution R) (hinner : inner.Evolves R) :
    h.invariant.Agreement inner inner where
  eval _ := (h.agrees (hinner.eval _) _).mono fun _ _ _ _ => trivial
  exec _ := (h.agrees (hinner.exec _) _).mono fun _ c _ _ => by cases c <;> trivial

theorem ofAgreement (h : Evolution R) (hinner : h.invariant.Agreement inner inner) :
    inner.Evolves R :=
  ⟨fun _ => h.evolves fun _ => hinner.eval fun _ _ => trivial,
    fun _ => h.evolves fun _ => hinner.exec fun _ _ => trivial⟩

/-- Looking keeps a relation that is reflexive. -/
theorem look (h : Evolution R) (hp : OnlyLooks p) : Evolves R p := hp.evolves h.refl

/-! ## Rules -/

theorem call (h : Evolution R) (hinner : inner.Evolves R) (place : Location) (callee : Value)
    (arguments : List Value) : Evolves R (inner.call host place callee arguments) :=
  h.evolves fun _ => h.maintained.call (h.agreement hinner) place trivial fun _ _ => trivial

theorem block (h : Evolution R) (hinner : inner.Evolves R) (body : List Stmt) :
    Evolves R (inner.block body) :=
  h.evolves fun _ => h.maintained.block (h.agreement hinner) fun _ _ => trivial

theorem classDecl (h : Evolution R) (name : Name) (parent : Option VariableUse)
    (methods statics : List FunctionDecl) :
    Evolves R (Evaluator.classDecl name parent methods statics) :=
  h.evolves fun _ => h.maintained.classDecl fun _ _ => trivial

/-! ## Whole evaluators -/

/-- Every evaluation keeps the relation, under any watch that keeps it. -/
theorem watchedEvaluator (h : Evolution R) {watch : Expr → Run Unit}
    (hwatch : ∀ e, Evolves R (watch e)) (host : Host) (depth : Nat) :
    (watchedEvaluator host watch depth).Evolves R :=
  h.ofAgreement (h.maintained.watchedEvaluator (fun e m => h.agrees (hwatch e) m) host depth)

theorem evaluator (h : Evolution R) (host : Host) (depth : Nat) :
    (evaluator host depth).Evolves R :=
  h.ofAgreement (h.maintained.evaluator host depth)

theorem execute (h : Evolution R) (host : Host) (depth : Nat) (program : List Stmt) :
    Evolves R (execute host depth program) :=
  h.evolves fun _ => (h.maintained.evaluator host depth).executeAll fun _ _ => trivial

end Evolution

/-- From the state in which a program begins to the one behind it. -/
theorem Evolution.executeProgram {R : Machine → Machine → Prop} (h : Evolution R) (host : Host)
    (depth endLine : Nat) (program : List Stmt) (uses : List Resolved) (m : Machine) :
    R { m with output := "", distances := m.distances.insertAll uses }
      (Session.executeProgram host depth endLine program uses m).2 := by
  have hexecute := (h.execute host depth program).stateAfter
    { m with output := "", distances := m.distances.insertAll uses }
  unfold Run.stateAfter at hexecute
  unfold Session.executeProgram
  dsimp only
  generalize LoxLang.execute host depth program _ = r at hexecute
  cases r with
  | ok _ m' => exact hexecute
  | error e m' => exact hexecute

/-!
## Names stay

Two relations that every step keeps: no frame ever loses a name, and whatever has ended has come
back to the frame that it started in.
-/

/-- A frame that holds a name goes on to hold it. -/
def KeepsNames (m m' : Machine) : Prop :=
  ∀ f x, (m.frames.local? f x).isSome → (m'.frames.local? f x).isSome

/-- No step takes a name out of a frame. -/
theorem evolution_keepsNames : Evolution KeepsNames where
  refl _ _ _ h := h
  trans h h' f x hx := h' f x (h f x hx)
  inFrame _ h := h
  -- A frame that holds a name exists, so it is none of the new ones.
  newFrame m f values g x hx := by
    obtain ⟨v, hv⟩ := Option.isSome_iff_exists.mp hx
    have hlt := m.frames.lt_size_of_local? x hv
    rw [Frames.local?_push, if_neg (Nat.ne_of_lt hlt)]
    exact hx
  define m f x v g y hy := by
    obtain ⟨u, hu⟩ := Option.isSome_iff_exists.mp hy
    by_cases hf : f < m.frames.size
    · rw [Frames.local?_define _ _ _ _ _ _ hf]
      split
      · rfl
      · exact hy
    · -- There is no such frame, so nothing is written.
      have hne : f ≠ g := fun h => hf (h ▸ m.frames.lt_size_of_local? y hu)
      unfold Frames.local?
      rw [Frames.frame?_define, if_neg hne]
      exact hy
  newFunction _ _ _ _ h := h
  newClass _ _ _ _ h := h
  newInstance _ _ _ _ h := h
  setField _ _ _ _ _ _ h := h
  print _ _ _ _ h := h
  countReading _ _ _ h := h

/-- The frame of the present place is the same again, and no frame has vanished. -/
def ComesBack (m m' : Machine) : Prop :=
  m'.current = m.current ∧ m.frames.size ≤ m'.frames.size

/-- Frames are entered and left again, and none is removed. -/
theorem evolution_comesBack : Evolution ComesBack where
  refl _ := ⟨rfl, Nat.le_refl _⟩
  trans h h' := ⟨h'.1.trans h.1, Nat.le_trans h.2 h'.2⟩
  inFrame _ h := ⟨rfl, h.2⟩
  newFrame m f values := ⟨rfl, by simp⟩
  define m f x v := ⟨rfl, by simp⟩
  newFunction _ _ := ⟨rfl, Nat.le_refl _⟩
  newClass _ _ := ⟨rfl, Nat.le_refl _⟩
  newInstance _ _ := ⟨rfl, Nat.le_refl _⟩
  setField _ _ _ _ := ⟨rfl, Nat.le_refl _⟩
  print _ _ := ⟨rfl, Nat.le_refl _⟩
  countReading _ := ⟨rfl, Nat.le_refl _⟩

end LoxLang
