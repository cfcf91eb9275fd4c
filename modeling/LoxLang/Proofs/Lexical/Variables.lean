import LoxLang.Proofs.Lexical.Simulation

/-!
# Variables in frames and in cells

What the two evaluators do with variables is the same: reading and writing the variable that a use
means, reading `this` and `super`, declaring and defining a name, and binding names in a new frame.
-/

namespace LoxLang.Lexical

variable {T : Distances} {P : Visit → Prop} {α α' : Type} {free : Option FrameId}
  {p p' : LoxLang.Run α} {q q' : Run α'} {β : Links} {m : Machine} {w : Store}
  {Q : α → α' → Links → Frames Value → Prop} {S : List Scope} {ρ : Environment} {v : Visit}
  {d : Nat} {x : String}

theorem Simulates.congr (h : Simulates T P free p q β m w Q) (hp : p' m = p m) (hq : q' w = q w) :
    Simulates T P free p' q' β m w Q := by
  unfold Simulates at h ⊢
  rwa [hp, hq]

/-!
## Global variables

The frame of the globals has no links. It holds the same entries as the table of globals.
-/

theorem Related.get?_globalFrame (h : Related T P β m w) (x : String) :
    m.frames.get? Machine.globalFrame x = w.globals.get? x := by
  rw [Frames.get?_of_outermost _ _ h.frames.enclosing?_globalFrame, h.frames.local?_globalFrame]

theorem Simulates.readGlobal (h : Related T P β m w) (name : Name) :
    Simulates T P none (LoxLang.Run.readFrom Machine.globalFrame name) (Run.readGlobal name) β m w
      Same := by
  have hget := h.get?_globalFrame name.text
  -- The global frame and the globals of the store have the same entries.
  cases hglobal : w.globals.get? name.text with
  | some v =>
    rw [hglobal] at hget
    refine (Simulates.pure v v h rfl).congr ?_ ?_
    · simp only [LoxLang.Run.readFrom, hget]
      rfl
    · simp only [Run.readGlobal, hglobal]
      rfl
  | none =>
    rw [hglobal] at hget
    refine (Simulates.fail h name.place (.undefinedVariable name.text)).congr ?_ ?_
    · simp only [LoxLang.Run.readFrom, hget]
    · simp only [Run.readGlobal, hglobal]

/-- Binding a global name, from any frame. -/
theorem Related.setGlobal (h : Related T P β m w) {v : Value} (hv : Fitting x v) :
    Later T P none β m β
      { m with frames := m.frames.define Machine.globalFrame x v }
      { w with globals := w.globals.insert x v } := by
  have hgrow : Grows none β m.frames β (m.frames.define Machine.globalFrame x v) :=
    Grows.define h.frames.globalFrame_lt
  exact ⟨rfl, hgrow, h.grow hgrow (h.frames.setGlobal hv)⟩

theorem Simulates.writeGlobal (h : Related T P β m w) (name : Name) (hname : IsName name.text)
    (v : Value) :
    Simulates T P none (LoxLang.Run.writeFrom Machine.globalFrame name v) (Run.writeGlobal name v)
      β m w Same := by
  -- The global frame is the outermost, so the search begins and ends there.
  have hholder := Frames.holder?_of_outermost Machine.globalFrame name.text
    h.frames.enclosing?_globalFrame
  rw [h.frames.local?_globalFrame] at hholder
  cases hglobal : w.globals.get? name.text with
  | some u =>
    rw [hglobal] at hholder
    refine Simulates.of_ok () () ?_ ?_ (h.setGlobal (.of_isName (v := v) hname)) rfl
    · simp only [LoxLang.Run.writeFrom, hholder]
      rfl
    · simp only [Run.writeGlobal, hglobal]
      rfl
  | none =>
    rw [hglobal] at hholder
    refine (Simulates.fail h name.place (.undefinedVariable name.text)).congr ?_ ?_
    · simp only [LoxLang.Run.writeFrom, hholder]
      rfl
    · simp only [Run.writeGlobal, hglobal]

/-!
## Local variables

A local variable has a value on both sides, or on neither. The second is the case only while its own
initializer is evaluated.
-/

/-- What reading a name at its distance gives is what its cell has. -/
theorem Related.readAt {f : FrameId} (h : Related T P β m w) (hchain : Chain β m.frames f S ρ)
    (hd : Scope.distance? S x = some d) :
    ∃ g c scope ready content, ρ.get? x = some c ∧ S[d]? = some scope ∧
      scope.get? x = some ready ∧ m.frames.local? g x = content ∧
      (ready = true ∨ ¬IsName x → content.isSome) ∧
      LoxLang.Run.readAt d f x m =
        (match content with
          | some v => .ok v m
          | none => .error (.frame (.missing x)) m) ∧
      Run.readCell c x w =
        (match content with
          | some v => .ok v w
          | none => .error (.frame (.missing x)) w) := by
  -- So many frames outwards is the one whose name is linked to the innermost cell.
  obtain ⟨g, c, scope, ready, hg, -, hget, hc, hscope, hready, hsome⟩ := hchain.find hd
  refine ⟨g, c, scope, ready, m.frames.local? g x, hget, hscope, hready, rfl, hsome, ?_, ?_⟩
  · unfold LoxLang.Run.readAt Frames.getAt
    rw [hg]
    dsimp only
    cases m.frames.local? g x <;> rfl
  · unfold Run.readCell
    rw [h.frames.cell g x c hc]
    cases m.frames.local? g x <;> rfl

/-- Names that stand for `this` and `super` always have a value. -/
theorem Related.readHidden {f : FrameId} (h : Related T P β m w)
    (hchain : Chain β m.frames f S ρ) (hd : Scope.distance? S x = some d) (hx : ¬IsName x) :
    ∃ g v, m.frames.local? g x = some v ∧
      LoxLang.Run.readAt d f x m = .ok v m ∧ Run.readHidden ρ x w = .ok v w := by
  obtain ⟨g, c, scope, ready, content, hget, -, -, hlocal, hsome, hp, hq⟩ := h.readAt hchain hd
  obtain ⟨v, rfl⟩ := Option.isSome_iff_exists.mp (hsome (.inr hx))
  refine ⟨g, v, hlocal, hp, ?_⟩
  unfold Run.readHidden
  rw [hget]
  exact hq

/-- If a variable has no value where the text has a scope for it, then its initializer is not over,
and the use stands further in than the declaration. -/
theorem Visit.pending_of_not_ready {scope : Scope} {ready : Bool} (hplaced : v.Placed)
    (hkind : v.kind = .«variable») (hd : v.distance? = some d) (hscope : v.scopes[d]? = some scope)
    (hready : scope.get? v.name = some ready) (hnot : ready ≠ true) : v.Pending := by
  obtain rfl : ready = false := by simpa using hnot
  cases d with
  | succ d => exact ⟨d, scope, hd, hscope, hready⟩
  | zero =>
    unfold Visit.Placed at hplaced
    rw [hkind] at hplaced
    have hhead : v.scopes.head? = some scope := by rw [List.head?_eq_getElem?, hscope]
    exact absurd hready (hplaced scope hhead)

theorem readVariable_apply (id : UseId) (name : Name) (m : Machine) :
    LoxLang.Run.readVariable id name m =
      match m.distances[id]? with
      | some d => LoxLang.Run.readAt d m.current name.text m
      | none => LoxLang.Run.readFrom Machine.globalFrame name m := by
  unfold LoxLang.Run.readVariable
  simp only [bind, EStateM.bind, LoxLang.Run.distance?]
  cases m.distances[id]? <;> rfl

theorem writeVariable_apply (id : UseId) (name : Name) (u : Value) (m : Machine) :
    LoxLang.Run.writeVariable id name u m =
      match m.distances[id]? with
      | some d => LoxLang.Run.writeAt d name.text u m
      | none => LoxLang.Run.writeFrom Machine.globalFrame name u m := by
  unfold LoxLang.Run.writeVariable
  simp only [bind, EStateM.bind, LoxLang.Run.distance?]
  cases m.distances[id]? <;> rfl

theorem Simulates.readVariable (line : Nat) (h : Related T P β m w)
    (hchain : Chain β m.frames m.current S ρ) (hfine : (Occurrence.use v).Fine T P)
    (hagree : Scope.AgreeOn v.name S v.scopes)
    (hkind : v.kind = .«variable» ∨ v.kind = .this ∧ v.name = "this") :
    Simulates T P none (LoxLang.Run.readVariable v.id ⟨v.name, line⟩)
      (Run.readVariable ρ ⟨v.name, line⟩) β m w Same := by
  obtain ⟨hT, hP⟩ := hfine.settled v rfl
  have hp := readVariable_apply v.id ⟨v.name, line⟩ m
  rw [h.distances, hT] at hp
  have hdistance : Scope.distance? S v.name = v.distance? := hagree.distance?_eq
  -- Without a distance the name is global on both sides, with one it is a cell.
  cases hd : v.distance? with
  | none =>
    rw [hd] at hp hdistance
    refine (readGlobal h ⟨v.name, line⟩).congr hp ?_
    unfold Run.readVariable
    rw [hchain.get?_eq_none hdistance]
  | some d =>
    rw [hd] at hp hdistance
    obtain ⟨g, c, scope, ready, content, hget, hscope, hready, -, hsome, hp', hq⟩ :=
      h.readAt hchain hdistance
    have hq' : Run.readVariable ρ ⟨v.name, line⟩ w = Run.readCell c v.name w := by
      unfold Run.readVariable
      rw [hget]
    cases content with
    | some u => exact .of_ok u u (hp.trans hp') (hq'.trans hq) (h.later none) rfl
    | none =>
      refine .of_error (hp.trans hp') (hq'.trans hq) ?_ (h.later none)
      rcases hkind with hkind | ⟨-, hthis⟩
      · -- The scope in the text says the same of the name as the scope of the place.
        have hagree' := hagree.getElem? d
        rw [hscope, Option.map_some, hready] at hagree'
        obtain ⟨scope', hscope', hready'⟩ := Option.map_eq_some_iff.mp hagree'.symm
        have hnot : ready ≠ true := fun heq => by cases hsome (.inl heq)
        have hpending := Visit.pending_of_not_ready hfine.placed hkind hd hscope' hready' hnot
        rintro e' ⟨⟩
        exact ⟨v, hP, hkind, hpending, rfl⟩
      -- No program can declare `this`, so the frame that holds it was made with it.
      · have hnot : ¬IsName v.name := fun hname => hname.1 hthis
        cases hsome (.inr hnot)

/-- Writing a linked name, which grows nothing but values. -/
theorem Related.fill {f : FrameId} {c : CellId} {u : Value} (h : Related T P β m w)
    (hc : β f x = some c) (hu : Fitting x u) :
    Later T P none β m β { m with frames := m.frames.define f x u }
      { w with cells := w.cells.setIfInBounds c (some u) } := by
  have hgrow : Grows none β m.frames β (m.frames.define f x u) :=
    Grows.define (h.frames.made f x c hc)
  exact ⟨rfl, hgrow, h.grow hgrow (h.frames.fill hc hu)⟩

theorem Simulates.writeVariable (line : Nat) (h : Related T P β m w)
    (hchain : Chain β m.frames m.current S ρ) (hfine : (Occurrence.use v).Fine T P)
    (hscopes : v.scopes = S) (hkind : v.kind = .assignment) (u : Value) :
    Simulates T P none (LoxLang.Run.writeVariable v.id ⟨v.name, line⟩ u)
      (Run.writeVariable ρ ⟨v.name, line⟩ u) β m w Same := by
  subst hscopes
  obtain ⟨hT, -⟩ := hfine.settled v rfl
  have hname : IsName v.name := hfine.written (.inr hkind)
  have hp := writeVariable_apply v.id ⟨v.name, line⟩ u m
  rw [h.distances, hT] at hp
  -- To write fills the frame and the cell, also where nothing was written before.
  cases hd : v.distance? with
  | none =>
    rw [hd] at hp
    refine (writeGlobal h ⟨v.name, line⟩ hname u).congr hp ?_
    unfold Run.writeVariable
    rw [hchain.get?_eq_none hd]
  | some d =>
    rw [hd] at hp
    obtain ⟨g, c, _, _, hg, -, hget, hc, -⟩ := hchain.find hd
    refine .of_ok () () (hp.trans ?_) ?_ (h.fill hc (.of_isName (v := u) hname)) rfl
    · simp only [LoxLang.Run.writeAt, hg]
    · unfold Run.writeVariable
      rw [hget]
      rfl

/-!
## Declarations

At top level a global is set. Elsewhere a cell is made, or the one that was made before is filled.
-/

/-- A local name that is declared gets a cell, and nothing changes in the frames. -/
theorem Simulates.declare {place : Place} (h : Related T P β m w)
    (hpos : Position β m.frames m.current S place) (hx : IsName x)
    (hplaced : ∀ scope ∈ S.head?, scope.contains x = false) :
    Simulates T P (some m.current) (Pure.pure ()) (Run.declare place x) β m w
      fun _ place' β' fs' => Position β' fs' m.current (Scope.enter x false S) place' := by
  cases S with
  | nil =>
    obtain ⟨-, rfl⟩ := hpos.eq_topLevel
    exact Simulates.pure _ _ h hpos
  | cons scope S =>
    obtain ⟨ρ, rfl⟩ := hpos.exists_inside
    have hcontains : scope.contains x = false := hplaced scope rfl
    -- The new cell is empty, and the frame does not bind the name yet.
    have hnone := h.frames.linked _ x hpos.ne_globalFrame (hpos.unlinked hcontains)
    have hset := Frames.setAt_self hnone
    have hgrow := hpos.grows_link hcontains hset (fun _ => hnone) w.cells.size
    have hlinked := h.frames.link hpos hcontains hset nofun
    refine .of_ok () _ rfl rfl ⟨rfl, hgrow, h.grow hgrow hlinked⟩
      (hpos.link hcontains hset (fun _ => hnone) ?_ _)
    rintro (hr | hr)
    · cases hr
    · exact absurd hx hr

/-- A declared name is given a value. -/
theorem Simulates.define {place : Place} {ready : Bool} {u : Value} (h : Related T P β m w)
    (hpos : Position β m.frames m.current (Scope.enter x ready S) place) (hx : IsName x) :
    Simulates T P none (LoxLang.Run.define x u) (Run.define place x u) β m w
      fun _ _ β' fs' => Position β' fs' m.current (Scope.enter x true S) place ∧
        (fs'.local? m.current x).isSome := by
  cases S with
  | nil =>
    obtain ⟨hcurrent, rfl⟩ := hpos.eq_topLevel
    refine .of_ok () () ?_ rfl (h.setGlobal (x := x) (v := u) (.of_isName hx)) ?_
    · unfold LoxLang.Run.define
      rw [hcurrent]
    · have hset := Frames.setAt_define (x := x) h.frames.globalFrame_lt u
      rw [hcurrent]
      exact ⟨.topLevel, by simp [hset.locals]⟩
  | cons scope S =>
    obtain ⟨ρ, rfl⟩ := hpos.exists_inside
    have hscope : (scope.insert x ready).get? x = some ready := by
      rw [Bindings.get?_insert, if_pos rfl]
    -- The cell has been there since the declaration.
    obtain ⟨c, hget, hc⟩ := hpos.find hscope
    have hset := Frames.setAt_define (x := x) hpos.lt_size u
    refine .of_ok () () rfl ?_ (h.fill hc (.of_isName (v := u) hx))
      ⟨hpos.ready hpos.lt_size, by simp [hset.locals]⟩
    unfold Run.define
    dsimp only
    rw [hget]
    rfl

/-!
## Binding names in a new frame

Parameters are bound one by one in the frame of a call, `this` and `super` alone in a frame of their
own. Each of these names gets a cell when it gets its entry, so no name of such a frame waits for
its value.
-/

/-- A value is bound to a new name of a frame. -/
theorem Related.bindName {f : FrameId} {u : Value} {scope : Scope} (h : Related T P β m w)
    (hpos : Position β m.frames f (scope :: S) (.inside ρ)) (hcontains : scope.contains x = false)
    (hu : Fitting x u) :
    Later T P (some f) β m (β.link f x w.cells.size)
        { m with frames := m.frames.define f x u } { w with cells := w.cells.push (some u) } ∧
      Position (β.link f x w.cells.size) (m.frames.define f x u) f
        (Scope.enter x true (scope :: S)) (.inside ((x, w.cells.size) :: ρ)) := by
  have hset := Frames.setAt_define (x := x) hpos.lt_size u
  have hgrow := hpos.grows_link hcontains hset nofun w.cells.size
  have hlinked := h.frames.link hpos hcontains hset fun v hv => by
    obtain rfl := Option.some.inj hv
    exact hu
  exact ⟨⟨rfl, hgrow, h.grow hgrow hlinked⟩,
    hpos.link hcontains hset nofun (fun _ => rfl) w.cells.size⟩

/-- Making a frame around which a place is already described. -/
theorem Related.newFrame {f : FrameId} (h : Related T P β m w)
    (hchain : Chain β m.frames f S ρ) :
    Later T P none β m β { m with frames := m.frames.push ⟨[], some f⟩ } w ∧
      Position β (m.frames.push ⟨[], some f⟩) m.frames.size ([] :: S) (.inside ρ) :=
  ⟨⟨rfl, .newFrame f, h.grow (.newFrame f) (h.frames.newFrame f)⟩,
    h.frames.position_newFrame hchain⟩

/-- Parameters are bound one by one. -/
theorem Related.bindAll {f : FrameId} {xs : List Name} {us : List Value} {scope : Scope}
    (h : Related T P β m w) (hpos : Position β m.frames f (scope :: S) (.inside ρ))
    (hlength : us.length = xs.length)
    (hfine : ∀ o ∈ parameterOccurrences (scope :: S) xs, o.Fine T P) :
    ∃ β' w' ρ', Run.bindAll ρ ((xs.map (·.text)).zip us) w = .ok ρ' w' ∧
      Later T P (some f) β m β'
        { m with frames := m.frames.defineAll f ((xs.map (·.text)).zip us) } w' ∧
      Position β' (m.frames.defineAll f ((xs.map (·.text)).zip us)) f
        (Scope.enterAll (scope :: S) xs) (.inside ρ') := by
  -- One parameter after the other, each in the scope that the ones before have extended.
  induction xs generalizing us scope ρ β m w with
  | nil => exact ⟨β, w, ρ, rfl, h.later _, hpos⟩
  | cons x xs ih =>
    cases us with
    | nil => cases hlength
    | cons u us =>
      have hx := hfine _ List.mem_cons_self
      have hname : IsName x.text := hx.written
      obtain ⟨hlater, hpos'⟩ := h.bindName hpos (hx.placed scope rfl) (.of_isName (v := u) hname)
      obtain ⟨β', w', ρ', hq, hlater', hpos''⟩ := ih hlater.related hpos'
        (Nat.succ.inj hlength) fun o ho => hfine o (List.mem_cons_of_mem _ ho)
      exact ⟨β', w', ρ', hq, ⟨rfl, hlater.grows.trans hlater'.grows, hlater'.related⟩, hpos''⟩

/-- The frame of a call. -/
theorem Simulates.callFrame {c : LoxLang.Closure} {us : List Value} (h : Related T P β m w)
    (hchain : Chain β m.frames c.frame S ρ) (hlength : us.length = c.params.length)
    (hfine : ∀ o ∈ parameterOccurrences ([] :: S) c.params, o.Fine T P) :
    Simulates T P none (LoxLang.Evaluator.callFrame c us)
      (Run.bindAll ρ ((c.params.map (·.text)).zip us)) β m w
      fun f ρ' β' fs' => m.frames.size ≤ f ∧
        Position β' fs' f (Scope.enterAll ([] :: S) c.params) (.inside ρ') := by
  obtain ⟨hlater, hpos⟩ := h.newFrame hchain
  obtain ⟨β', w', ρ', hq, hlater', hpos'⟩ := hlater.related.bindAll hpos hlength hfine
  have hpush := m.frames.push_insertMany ((c.params.map (·.text)).zip us) [] (some c.frame)
  rw [← hpush] at hlater' hpos'
  exact .of_ok _ _ rfl hq ⟨rfl, hlater.grows.trans_made hlater'.grows (Nat.le_refl _),
    hlater'.related⟩ ⟨Nat.le_refl _, hpos'⟩

/-- A frame that holds `this` or `super` only. -/
theorem Related.hiddenFrame {f : FrameId} {u : Value} (h : Related T P β m w)
    (hchain : Chain β m.frames f S ρ) (hu : Fitting x u) :
    Later T P none β m (β.link m.frames.size x w.cells.size)
        { m with frames := m.frames.push ⟨[(x, u)], some f⟩ }
        { w with cells := w.cells.push (some u) } ∧
      Chain (β.link m.frames.size x w.cells.size) (m.frames.push ⟨[(x, u)], some f⟩) m.frames.size
        ([(x, true)] :: S) ((x, w.cells.size) :: ρ) := by
  obtain ⟨hlater, hpos⟩ := h.newFrame hchain
  obtain ⟨hlater', hpos'⟩ := hlater.related.bindName hpos rfl hu
  have hpush := m.frames.define_push [] (some f) x u
  rw [hpush] at hlater' hpos'
  exact ⟨⟨rfl, hlater.grows.trans_made hlater'.grows (Nat.le_refl _), hlater'.related⟩,
    hpos'.chain⟩

end LoxLang.Lexical
