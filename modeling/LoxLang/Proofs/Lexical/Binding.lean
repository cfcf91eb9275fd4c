import LoxLang.Proofs.Lexical.Relation
import LoxLang.Proofs.Scoping.Walk

/-!
# Finding and binding names

What is done to variables, once with frames and once with cells: a name is found, a value is written
to it, a frame is made, and a name is declared in the innermost frame. Each keeps frames and cells
linked.
-/

namespace LoxLang

namespace Frames

variable {α : Type}

/-- Frames differ at most in what one of them binds to one name. -/
structure SetAt (fs fs' : Frames α) (f : FrameId) (x : String) (a? : Option α) : Prop where
  size : fs'.size = fs.size
  enclosing : ∀ g, fs'.enclosing? g = fs.enclosing? g
  locals : ∀ g y, fs'.local? g y = if g = f ∧ y = x then a? else fs.local? g y
  others : ∀ g, g ≠ f → fs'.frame? g = fs.frame? g

variable {fs : Frames α} {f : FrameId} {x : String}

theorem setAt_define (h : f < fs.size) (a : α) : SetAt fs (fs.define f x a) f x (some a) := by
  refine ⟨fs.size_define f x a, fun g => fs.enclosing?_define f g x a, fun g y => ?_, ?_⟩
  · rw [fs.local?_define f g x y a h]
    simp only [eq_comm]
  · intro g hg
    rw [fs.frame?_define, if_neg (Ne.symm hg)]

theorem setAt_self {a? : Option α} (h : fs.local? f x = a?) : SetAt fs fs f x a? := by
  refine ⟨rfl, fun _ => rfl, fun g y => ?_, fun _ _ => rfl⟩
  split
  · next hgy => rw [hgy.1, hgy.2, h]
  · rfl

theorem define_push (fs : Frames α) (bs : Bindings α) (e : Option FrameId) (x : String) (a : α) :
    (fs.push ⟨bs, e⟩).define fs.size x a = fs.push ⟨bs.insert x a, e⟩ := by
  refine congrArg Frames.mk (Array.ext_getElem? fun f => ?_)
  have hframe := (fs.push ⟨bs, e⟩).frame?_define fs.size f x a
  rw [fs.frame?_push] at hframe
  refine hframe.trans ?_
  have hpush := fs.frame?_push f ⟨bs.insert x a, e⟩
  refine Eq.trans ?_ hpush.symm
  by_cases hf : f = fs.size
  · simp [hf]
  · simp [hf, Ne.symm hf]

/-- Binds names in a frame one by one. -/
def defineAll (fs : Frames α) (f : FrameId) (more : List (String × α)) : Frames α :=
  more.foldl (fun fs b => fs.define f b.1 b.2) fs

theorem push_insertMany (fs : Frames α) (more : List (String × α)) (bs : Bindings α)
    (e : Option FrameId) :
    fs.push ⟨bs.insertMany more, e⟩ = (fs.push ⟨bs, e⟩).defineAll fs.size more := by
  induction more generalizing bs with
  | nil => rfl
  | cons b more ih =>
    unfold defineAll
    rw [List.foldl_cons, define_push]
    exact ih _

end Frames

namespace Lexical

/-!
## Finding a name

The layers of an environment are the frames that have links, one layer each. So a search in the
environment and a search along frames stop at the same name.
-/

section Finding

variable {β : Links} {fs : Frames Value} {f : FrameId} {S : List Scope} {ρ : Environment}
  {x : String} {d : Nat}

/-- No scope of a place holds a name exactly if no part of the environment does. -/
theorem Chain.get?_eq_none (h : Chain β fs f S ρ) (hd : Scope.distance? S x = none) :
    ρ.get? x = none := by
  induction h with
  | globals => rfl
  | @frame f g scope S own ρ _ _ hown _ ih =>
    rw [Scope.distance?_cons] at hd
    have hx := hown x
    cases hscope : scope.get? x with
    | none =>
      simp only [hscope] at hx
      have hrest : Scope.distance? S x = none := by simpa [Bindings.contains, hscope] using hd
      rw [Bindings.get?_append, hx, ih hrest]
      rfl
    | some ready => simp [Bindings.contains, hscope] at hd

/-- A name at a distance is in the frame at that distance, which is not that of the globals, and the
innermost cell of the name stands for it there. -/
theorem Chain.find (h : Chain β fs f S ρ) (hd : Scope.distance? S x = some d) :
    ∃ g c scope ready, fs.ancestor? d f = some g ∧ g ≠ Machine.globalFrame ∧
      ρ.get? x = some c ∧ β g x = some c ∧ S[d]? = some scope ∧ scope.get? x = some ready ∧
        (ready = true ∨ ¬IsName x → (fs.local? g x).isSome) := by
  induction h generalizing d with
  | globals => cases hd
  | @frame f g scope S own ρ hlink hlocal hown _ ih =>
    rw [Scope.distance?_cons] at hd
    have hx := hown x
    cases hscope : scope.get? x with
    | some ready =>
      simp only [hscope] at hx
      obtain ⟨c, hget, hc, hready⟩ := hx
      have hd : d = 0 := by simpa [Bindings.contains, hscope, eq_comm] using hd
      subst hd
      refine ⟨f, c, scope, ready, rfl, hlocal, ?_, hc, rfl, hscope, hready⟩
      rw [Bindings.get?_append, hget]
      rfl
    | none =>
      simp only [hscope] at hx
      obtain ⟨d, hrest, rfl⟩ : ∃ d', Scope.distance? S x = some d' ∧ d' + 1 = d := by
        simpa [Bindings.contains, hscope] using hd
      -- The name is found from the next frame on, which is one link away.
      obtain ⟨g', c, scope', ready, hg, hne, hget, hrest⟩ := ih hrest
      refine ⟨g', c, scope', ready, ?_, hne, ?_, hrest⟩
      · show (fs.enclosing? f).bind (fs.ancestor? d) = some g'
        rw [hlink]
        exact hg
      · rw [Bindings.get?_append, hx]
        exact hget

end Finding

/-!
## Writing to a name

A name of a frame and its cell are written together. No other name has this cell.
-/

section Writing

variable {β : Links} {fs : Frames Value} {cells : Array (Option Value)} {globals : Bindings Value}
  {f : FrameId} {x : String} {c : CellId} {v : Value}

theorem Linked.globalFrame_lt (h : Linked β fs cells globals) : Machine.globalFrame < fs.size := by
  refine Nat.lt_of_not_le fun hle => ?_
  have hglobals := h.globals
  rw [(fs.frame?_eq_none_iff _).mpr hle] at hglobals
  cases hglobals

theorem Linked.enclosing?_globalFrame (h : Linked β fs cells globals) :
    fs.enclosing? Machine.globalFrame = none := by
  unfold Frames.enclosing?
  rw [h.globals]
  rfl

theorem Linked.local?_globalFrame (h : Linked β fs cells globals) (x : String) :
    fs.local? Machine.globalFrame x = globals.get? x := by
  unfold Frames.local?
  rw [h.globals]
  rfl

theorem Linked.ne_globalFrame (h : Linked β fs cells globals) (hc : β f x = some c) :
    f ≠ Machine.globalFrame := by
  rintro rfl
  rw [h.unlinked] at hc
  cases hc

/-- Binding a name adds to what frames hold and touches no links. -/
theorem Grows.define (hf : f < fs.size) : Grows none β fs β (fs.define f x v) := by
  have hset := Frames.setAt_define (x := x) hf v
  refine ⟨Nat.le_of_eq hset.size.symm, fun _ _ _ h => h, fun _ _ _ _ => rfl, ?_, ?_⟩
  · intro g g' h
    rw [hset.enclosing, h]
  · intro g y h
    rw [hset.locals]
    split
    · rfl
    · exact h

/-- A value that is called `super` is a class. -/
def Fitting (x : String) (v : Value) : Prop := x = "super" → ∃ c, v = .«class» c

theorem Fitting.of_isName (hx : IsName x) : Fitting x v := fun h => absurd h hx.2

theorem Linked.supers_define (h : Linked β fs cells globals) (hf : f < fs.size)
    (hv : Fitting x v) :
    ∀ g u, (fs.define f x v).local? g "super" = some u → ∃ c, u = .«class» c := by
  intro g u hu
  rw [(Frames.setAt_define hf v).locals] at hu
  split at hu
  · next hgx =>
    obtain rfl := Option.some.inj hu
    exact hv hgx.2.symm
  · exact h.supers g u hu

/-- Writing to a linked name is filling its cell. -/
theorem Linked.fill (h : Linked β fs cells globals) (hc : β f x = some c) (hv : Fitting x v) :
    Linked β (fs.define f x v) (cells.setIfInBounds c (some v)) globals := by
  have hf := h.made f x c hc
  have hset := Frames.setAt_define (x := x) hf v
  refine ⟨?_, h.unlinked, ?_, h.injective, ?_, ?_, h.supers_define hf hv⟩
  · rw [hset.others _ (Ne.symm (h.ne_globalFrame hc)), h.globals]
  · intro g y c' hc'
    rw [Array.getElem?_setIfInBounds, hset.locals]
    by_cases hgy : g = f ∧ y = x
    · obtain ⟨rfl, rfl⟩ := hgy
      obtain rfl := Option.some.inj (hc.symm.trans hc')
      have hlt : c < cells.size := (Array.getElem?_eq_some_iff.mp (h.cell _ _ _ hc)).1
      simp [hlt]
    · -- Another name has another cell.
      have hne : c ≠ c' := fun heq => by
        obtain ⟨rfl, rfl⟩ := h.injective _ _ _ _ _ hc (heq ▸ hc')
        exact hgy ⟨rfl, rfl⟩
      rw [if_neg hne, if_neg hgy]
      exact h.cell g y c' hc'
  · intro g y hg hnone
    rw [hset.locals, if_neg]
    · exact h.linked g y hg hnone
    · rintro ⟨rfl, rfl⟩
      rw [hc] at hnone
      cases hnone
  · intro g y c' hc'
    rw [hset.size]
    exact h.made g y c' hc'

/-- Binding a global name. -/
theorem Linked.setGlobal (h : Linked β fs cells globals) (hv : Fitting x v) :
    Linked β (fs.define Machine.globalFrame x v) cells (globals.insert x v) := by
  have hset := Frames.setAt_define (x := x) h.globalFrame_lt v
  -- Globals have no cells, so no cell has to change.
  refine ⟨?_, h.unlinked, ?_, h.injective, ?_, ?_, h.supers_define h.globalFrame_lt hv⟩
  · rw [fs.frame?_define, if_pos rfl, h.globals]
    rfl
  · intro g y c hc
    rw [hset.locals, if_neg fun hgy => h.ne_globalFrame hc hgy.1]
    exact h.cell g y c hc
  · intro g y hg hnone
    rw [hset.locals, if_neg fun hgy => hg hgy.1]
    exact h.linked g y hg hnone
  · intro g y c hc
    rw [hset.size]
    exact h.made g y c hc

/-- A written name of the innermost scope is ready. -/
theorem Position.ready {S : List Scope} {place : Place} {ready : Bool} (hf : f < fs.size)
    (h : Position β fs f (Scope.enter x ready S) place) :
    Position β (fs.define f x v) f (Scope.enter x true S) place := by
  cases S with
  | nil => exact Grows.position (Grows.define hf) h
  | cons scope S =>
    have hset := Frames.setAt_define (x := x) hf v
    cases h with
    -- Only the innermost scope changes, and in it only whether this name has a value.
    | inside hchain hexact =>
      cases hchain with
      | frame hlink hlocal hown hrest =>
        refine .inside (.frame ?_ hlocal ?_ (Grows.chain (Grows.define hf) hrest)) ?_
        · rw [hset.enclosing, hlink]
        · intro y
          have hy := (Grows.define (x := x) (v := v) hf).owned hown y
          rw [Bindings.get?_insert] at hy ⊢
          by_cases hxy : x = y
          · subst hxy
            simp only [if_true] at hy ⊢
            obtain ⟨c, hget, hc, -⟩ := hy
            refine ⟨c, hget, hc, fun _ => ?_⟩
            rw [hset.locals, if_pos ⟨rfl, rfl⟩]
            rfl
          · rw [if_neg hxy] at hy ⊢
            exact hy
        · intro y c hc
          have hy := hexact y c hc
          rw [Scope.contains_insert] at hy ⊢
          exact hy

end Writing

/-!
## Making a frame

A frame that was just made has no links yet. They come with the names that are declared in it.
-/

section Making

variable {β : Links} {fs : Frames Value} {cells : Array (Option Value)} {globals : Bindings Value}
  {f : FrameId} {S : List Scope} {ρ : Environment}

theorem Linked.newFrame (h : Linked β fs cells globals) (f : FrameId) :
    Linked β (fs.push ⟨[], some f⟩) cells globals := by
  -- The new frame is empty, so all frames bind what they did.
  have hlocal : ∀ g x, (fs.push ⟨[], some f⟩).local? g x = fs.local? g x := by
    intro g x
    rw [fs.local?_push]
    split
    · next hg =>
      subst hg
      rw [fs.local?_of_size_le x (Nat.le_refl _)]
      rfl
    · rfl
  refine ⟨?_, h.unlinked, ?_, h.injective, ?_, ?_, ?_⟩
  · rw [fs.frame?_push, if_neg (Nat.ne_of_lt h.globalFrame_lt), h.globals]
  · intro g x c hc
    rw [hlocal]
    exact h.cell g x c hc
  · intro g x hg hnone
    rw [hlocal]
    exact h.linked g x hg hnone
  · intro g x c hc
    rw [fs.size_push]
    exact Nat.lt_succ_of_lt (h.made g x c hc)
  · intro g v hv
    rw [hlocal] at hv
    exact h.supers g v hv

theorem Grows.newFrame (f : FrameId) : Grows none β fs β (fs.push ⟨[], some f⟩) := by
  refine ⟨?_, fun _ _ _ h => h, fun _ _ _ _ => rfl, ?_, ?_⟩
  · rw [fs.size_push]
    exact Nat.le_succ _
  · intro g g' hg
    rw [fs.enclosing?_push, if_neg (Nat.ne_of_lt (fs.lt_size_of_enclosing? hg)), hg]
  · intro g x hx
    obtain ⟨v, hv⟩ := Option.isSome_iff_exists.mp hx
    rw [fs.local?_push, if_neg (Nat.ne_of_lt (fs.lt_size_of_local? x hv))]
    exact hx

/-- A new frame is the place of an empty scope. -/
theorem Linked.position_newFrame (h : Linked β fs cells globals) (hchain : Chain β fs f S ρ) :
    Position β (fs.push ⟨[], some f⟩) fs.size ([] :: S) (.inside ρ) := by
  have hframe : Chain β (fs.push ⟨[], some f⟩) fs.size ([] :: S) ([] ++ ρ) := by
    refine .frame ?_ (Nat.ne_of_gt h.globalFrame_lt) (fun _ => rfl)
      ((Grows.newFrame f).chain hchain)
    rw [fs.enclosing?_push, if_pos rfl]
  refine .inside hframe fun x c hc => ?_
  exact absurd (h.made fs.size x c hc) (Nat.lt_irrefl _)

end Making

/-!
## Declaring a name

A declaration makes a cell and links the name of the present frame to it. A second declaration in
one scope does not occur, as it is reported.
-/

section Declaring

variable {β : Links} {fs fs' : Frames Value} {cells : Array (Option Value)}
  {globals : Bindings Value} {f : FrameId} {S : List Scope} {scope : Scope} {ρ : Environment}
  {x : String} {content : Option Value}

/-- A name that is not in the innermost scope is not linked. -/
theorem Position.unlinked (h : Position β fs f (scope :: S) (.inside ρ))
    (hx : scope.contains x = false) : β f x = none := by
  cases h with
  | inside _ hexact =>
    refine Option.eq_none_iff_forall_not_mem.mpr fun c hc => ?_
    rw [hexact x c hc] at hx
    cases hx

theorem Position.ne_globalFrame (h : Position β fs f (scope :: S) (.inside ρ)) :
    f ≠ Machine.globalFrame := by
  cases h with
  | inside hchain _ =>
    cases hchain with
    | frame _ hlocal _ _ => exact hlocal

/-- A name of the innermost scope has a cell. -/
theorem Position.find (h : Position β fs f (scope :: S) (.inside ρ)) {ready : Bool}
    (hx : scope.get? x = some ready) : ∃ c, ρ.get? x = some c ∧ β f x = some c := by
  cases h with
  | inside hchain _ =>
    cases hchain with
    | frame _ _ hown _ =>
      have hx' := hown x
      rw [hx] at hx'
      obtain ⟨c, hget, hc, -⟩ := hx'
      refine ⟨c, ?_, hc⟩
      rw [Bindings.get?_append, hget]
      rfl

theorem Position.lt_size (h : Position β fs f (scope :: S) (.inside ρ)) : f < fs.size := by
  cases h with
  | inside hchain _ =>
    cases hchain with
    | frame hlink _ _ _ => exact fs.lt_size_of_enclosing? hlink

/-- A new cell for a new name, with the content that the frame has for it. -/
theorem Linked.link (h : Linked β fs cells globals)
    (hpos : Position β fs f (scope :: S) (.inside ρ)) (hx : scope.contains x = false)
    (hset : Frames.SetAt fs fs' f x content)
    (hv : ∀ v, content = some v → Fitting x v) :
    Linked (β.link f x cells.size) fs' (cells.push content) globals := by
  have hnone := hpos.unlinked hx
  -- The new cell is behind all cells that are linked, so no other name has it.
  have hold : ∀ g y c, β g y = some c → c < cells.size := fun g y c hc =>
    (Array.getElem?_eq_some_iff.mp (h.cell g y c hc)).1
  refine ⟨?_, ?_, ?_, ?_, ?_, ?_, ?_⟩
  · rw [hset.others _ (Ne.symm hpos.ne_globalFrame), h.globals]
  · intro y
    unfold Links.link
    rw [if_neg fun hgy => hpos.ne_globalFrame hgy.1.symm, h.unlinked]
  · intro g y c hc
    unfold Links.link at hc
    rw [hset.locals, Array.getElem?_push]
    split at hc
    · next hgy =>
      obtain rfl := Option.some.inj hc
      rw [if_pos rfl, if_pos hgy]
    · next hgy =>
      rw [if_neg (Nat.ne_of_lt (hold g y c hc)), if_neg hgy]
      exact h.cell g y c hc
  · intro g y g' y' c hc hc'
    unfold Links.link at hc hc'
    split at hc <;> split at hc'
    · next hgy hgy' => exact ⟨hgy.1.trans hgy'.1.symm, hgy.2.trans hgy'.2.symm⟩
    · obtain rfl := Option.some.inj hc
      exact absurd (hold g' y' _ hc') (Nat.lt_irrefl _)
    · obtain rfl := Option.some.inj hc'
      exact absurd (hold g y _ hc) (Nat.lt_irrefl _)
    · exact h.injective g y g' y' c hc hc'
  · intro g y hg hgy
    unfold Links.link at hgy
    split at hgy
    · cases hgy
    · next hne =>
      rw [hset.locals, if_neg hne]
      exact h.linked g y hg hgy
  · intro g y c hc
    unfold Links.link at hc
    rw [hset.size]
    split at hc
    · next hgy =>
      rw [hgy.1]
      exact hpos.lt_size
    · exact h.made g y c hc
  · intro g v hlocal
    rw [hset.locals] at hlocal
    split at hlocal
    · next hgy => exact hv v hlocal hgy.2.symm
    · exact h.supers g v hlocal

/-- Linking a new name changes the links of one frame only. -/
theorem Position.grows_link (hpos : Position β fs f (scope :: S) (.inside ρ))
    (hx : scope.contains x = false) (hset : Frames.SetAt fs fs' f x content)
    (hcontent : content = none → fs.local? f x = none) (c : CellId) :
    Grows (some f) β fs (β.link f x c) fs' := by
  -- The name is new in its scope, so no link is lost.
  have hnone := hpos.unlinked hx
  refine ⟨Nat.le_of_eq hset.size.symm, ?_, ?_, ?_, ?_⟩
  · intro g y c' hc'
    unfold Links.link
    rw [if_neg]
    · exact hc'
    · rintro ⟨rfl, rfl⟩
      rw [hnone] at hc'
      cases hc'
  · intro g y _ hfree
    unfold Links.link
    rw [if_neg fun hgy => hfree (congrArg some hgy.1.symm)]
  · intro g g' hg
    rw [hset.enclosing, hg]
  · intro g y hy
    rw [hset.locals]
    split
    · next hgy =>
      cases content with
      | some v => rfl
      | none =>
        rw [hgy.1, hgy.2, hcontent rfl] at hy
        cases hy
    · exact hy

/-- Behind the new name. It is ready if it has a value. -/
theorem Position.link (hpos : Position β fs f (scope :: S) (.inside ρ))
    (hx : scope.contains x = false) (hset : Frames.SetAt fs fs' f x content)
    (hcontent : content = none → fs.local? f x = none) {ready : Bool}
    (hready : ready = true ∨ ¬IsName x → content.isSome) (c : CellId) :
    Position (β.link f x c) fs' f (Scope.enter x ready (scope :: S)) (.inside ((x, c) :: ρ)) := by
  have hgrow := hpos.grows_link hx hset hcontent c
  cases hpos with
  | inside hchain hexact =>
    cases hchain with
    | @frame _ g _ _ own ρ hlink hlocal hown hrest =>
      -- The name now belongs to the scope and has a cell; what is bound under other names stays.
      have hown' : Owned (β.link f x c) fs' f (scope.insert x ready) ((x, c) :: own) := by
        intro y
        have hy := hgrow.owned hown y
        rw [Bindings.get?_insert]
        by_cases hxy : x = y
        · subst hxy
          rw [if_pos rfl]
          refine ⟨c, by simp [Bindings.get?], by simp [Links.link], fun hr => ?_⟩
          rw [hset.locals, if_pos ⟨rfl, rfl⟩]
          exact hready hr
        · rw [if_neg hxy]
          simpa [Bindings.get?, hxy] using hy
      refine .inside (.frame (hgrow.enclosing _ _ hlink) hlocal hown' (hgrow.chain hrest)) ?_
      intro y c' hc'
      rw [Scope.contains_insert]
      unfold Links.link at hc'
      split at hc'
      · next hy => simp [hy.2]
      · simp [hexact y c' hc']

end Declaring

end Lexical

end LoxLang
