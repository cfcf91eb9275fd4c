import Mathlib.Data.List.Nodup
import LoxLang.Proofs.ComingBack
import LoxLang.Proofs.Lexical.Sessions

/-!
# Looking up by distance is sound

What holds each time that a use of a name is evaluated (`Visit.Sound`): the chain of frames has one
frame for each scope that the text opens around the use, and then that of the globals, so counting
the distance ends in a local frame; and that frame holds the name.

Exceptions are uses that stand in the initializer of the very variable they mean, while the variable
has not got its value. There are two of them. A lambda in the initializer may read the variable:
then a name is missing, and the run ends there. And any assignment in the initializer may come
early: nothing is missing then, since assigning makes the entry.

That the above holds each time is said by watching (`lookups_sound`): a watch that lets sound uses
pass is never noticed. Were the second exception left out, it would be
(`lookups_sound_early_assignment`).
-/

namespace LoxLang

/-!
## Sound uses

What is said of a use has the exceptions as an argument, so that it can be said with fewer of them.
-/

/-- A variable may be read before it has a value: in a lambda in its own initializer. -/
def Visit.EarlyRead (programs : List (List Stmt)) (v : Visit) : Prop :=
  v.kind = .«variable» ∧ ∃ p ∈ programs, v ∈ usesIn p ∧ v.InOwnLambda p

/-- A use may come before the variable that it means has a value: it stands in the variable's own
initializer, and there in a lambda if the variable is read. -/
def Visit.Early (programs : List (List Stmt)) (v : Visit) : Prop :=
  v.EarlyRead programs ∨ v.kind = .assignment ∧ ∃ p ∈ programs, v ∈ usesIn p ∧ v.InOwnInitializer p

/-- What holds where a use of a name is evaluated, but for some that may come early. -/
structure Visit.Sound (early : Visit → Prop) (v : Visit) (m : Machine) : Prop where
  /-- The table has the distance of the use, or nothing if the name is global. -/
  entry : m.distances[v.id]? = v.distance?
  /-- There is a local frame for each open scope. -/
  inner : ∀ k < v.scopes.length, ∃ f, m.frames.ancestor? k m.current = some f ∧
    f ≠ Machine.globalFrame
  /-- Behind them comes the frame of the globals, and none behind that. -/
  outer : m.frames.ancestor? v.scopes.length m.current = some Machine.globalFrame
  outermost : m.frames.enclosing? Machine.globalFrame = none
  within : ∀ d, v.distance? = some d → d < v.scopes.length
  held : ∀ d f, v.distance? = some d → m.frames.ancestor? d m.current = some f →
    (m.frames.local? f v.name).isSome ∨ early v
  /-- `this` and `super` are always local, and `this` lies just inside `super`. -/
  hidden : v.kind = .this ∨ v.kind = .super → v.distance?.isSome
  receiver : v.kind = .super → ∀ d, v.distance? = some d → ∃ k f, d = k + 1 ∧
    m.frames.ancestor? k m.current = some f ∧ (m.frames.local? f "this").isSome

/-- If an expression is a use of a name, then it is a known one, its number is that of no other, and
what it needs holds in a state. -/
def Expr.SoundIn (early : List (List Stmt) → Visit → Prop) (programs : List (List Stmt)) (e : Expr)
    (m : Machine) : Prop :=
  (e.visit? []).isSome → ∃ v ∈ programs.flatMap usesIn, e.visit? v.scopes = some v ∧
    (∀ u ∈ programs.flatMap usesIn, u.id = v.id → u = v) ∧ v.Sound (early programs) m

/-- A distance leads to one of the open scopes. -/
theorem Scope.lt_length_of_distance? {S : List Scope} {x : String} {d : Nat}
    (h : distance? S x = some d) : d < S.length :=
  (List.findIdx?_eq_some_iff_getElem.mp h).1

/-- Whether an expression is a use does not depend on the scopes. -/
theorem Expr.exists_visit? {e : Expr} (h : (e.visit? []).isSome) (S : List Scope) :
    ∃ v, e.visit? S = some v := by
  cases e <;> first | exact ⟨_, rfl⟩ | cases h

/-- Only variables have names that are not keywords. -/
theorem Expr.kind_of_visit? {S : List Scope} {e : Expr} {v : Visit} (h : e.visit? S = some v)
    (hname : IsName v.name) : v.kind = .«variable» ∨ v.kind = .assignment := by
  cases e with
  | «variable» use => cases h; exact .inl rfl
  | assign id name value => cases h; exact .inr rfl
  | this id line => cases h; exact absurd rfl hname.1
  | super id line method => cases h; exact absurd rfl hname.2
  | _ => cases h

/-- A use that finds its name not ready stands in the initializer of the name, and reads it from
inside a lambda, since it would not have been let pass otherwise. -/
theorem Visit.early_of_unready {programs : List (List Stmt)} {program : List Stmt} {v : Visit}
    {d : Nat} (hprogram : program ∈ programs) (hv : v ∈ usesIn program) (hd : v.distance? = some d)
    (hx : Unready v.scopes d v.name) (hplaced : v.Placed)
    (hkind : v.kind = .«variable» ∨ v.kind = .assignment) : v.Early programs := by
  have hown := inOwnInitializer_of_unready (mem_usesIn.mp hv) hd hx
  rcases hkind with hkind | hkind
  · refine .inl ⟨hkind, program, hprogram, hv, ?_⟩
    -- With scopes in between there is a lambda; without, the resolver has told an error.
    cases d with
    | succ d => exact hown.inOwnLambda hd
    | zero =>
      obtain ⟨scope, hscope, hfalse⟩ := hx
      have hready : ∀ scope ∈ v.scopes.head?, scope.get? v.name ≠ some false := by
        unfold Placed at hplaced
        rwa [hkind] at hplaced
      rw [← List.head?_eq_getElem?] at hscope
      exact absurd hfalse (hready scope hscope)
  · exact .inr ⟨hkind, program, hprogram, hv, hown⟩

namespace Lexical

variable {T : Distances} {β : Links} {fs : Frames Value} {f : FrameId} {S : List Scope}
  {ρ : Environment} {m : Machine} {w : Store}

/-!
## Chains

The frames of a chain are as many as the scopes that it stands for, and that of the globals comes
behind them.
-/

/-- Behind all scopes come the globals. -/
theorem Chain.ancestor?_length (h : Chain β fs f S ρ) :
    fs.ancestor? S.length f = some Machine.globalFrame := by
  induction h with
  | globals => rfl
  | @frame f g scope S own ρ hlink _ _ _ ih =>
    show (fs.enclosing? f).bind (fs.ancestor? S.length) = _
    rw [hlink]
    exact ih

/-- Each scope has its frame, and it is not that of the globals. -/
theorem Chain.exists_ancestor? (h : Chain β fs f S ρ) {k : Nat} (hk : k < S.length) :
    ∃ g, fs.ancestor? k f = some g ∧ g ≠ Machine.globalFrame := by
  induction h generalizing k with
  | globals => cases hk
  | @frame f g scope S own ρ hlink hlocal _ _ ih =>
    cases k with
    | zero => exact ⟨f, rfl, hlocal⟩
    | succ k =>
      obtain ⟨g', hg', hne⟩ := ih (Nat.lt_of_succ_lt_succ hk)
      refine ⟨g', ?_, hne⟩
      show (fs.enclosing? f).bind (fs.ancestor? k) = _
      rw [hlink]
      exact hg'

/-!
## Uses

The relation between frames and cells says what scopes and frames have in common. All parts of
soundness follow from it at each use.
-/

/-- At a place that scopes and frames describe alike, each use of an accepted program is sound. -/
theorem Related.sound {programs : List (List Stmt)} {e : Expr} {v : Visit}
    (hvisit : e.visit? v.scopes = some v)
    (hrel : Related T (· ∈ programs.flatMap usesIn) β m w)
    (hchain : Chain β m.frames m.current S ρ)
    (hfine : (Occurrence.use v).Fine T (· ∈ programs.flatMap usesIn))
    (hname : Scope.AgreeOn v.name S v.scopes) (hthis : Scope.AgreeOn "this" S v.scopes) :
    v.Sound (Visit.Early programs) m := by
  obtain ⟨hentry, hknown⟩ := hfine.settled v rfl
  obtain ⟨program, hprogram, hv⟩ := List.mem_flatMap.mp hknown
  have hplaced : v.Placed := hfine.placed
  have hlength := hname.length_eq
  refine ⟨hrel.distances ▸ hentry, fun k hk => hchain.exists_ancestor? (hlength ▸ hk),
    hlength ▸ hchain.ancestor?_length, hrel.frames.enclosing?_globalFrame,
    fun d hd => Scope.lt_length_of_distance? hd, ?_, ?_, ?_⟩
  · intro d f hd hf
    have hdS : Scope.distance? S v.name = some d := hname.distance?_eq.trans hd
    obtain ⟨g, c, scope, ready, hg, -, -, -, hscope, hready, hheld⟩ := hchain.find hdS
    obtain rfl : g = f := Option.some.inj (hg.symm.trans hf)
    by_cases hr : ready = true ∨ ¬IsName v.name
    · exact .inl (hheld hr)
    · obtain ⟨hready', hisName⟩ := not_or.mp hr
      -- The scope says the same where the use was met, so the use stands in the initializer.
      have hagree := hname.getElem? d
      rw [hscope, Option.map_some, hready, Bool.eq_false_iff.mpr hready'] at hagree
      have hunready : Unready v.scopes d v.name := by
        obtain ⟨scope', hscope', hfalse⟩ := Option.map_eq_some_iff.mp hagree.symm
        exact ⟨scope', hscope', hfalse⟩
      exact .inr (Visit.early_of_unready hprogram hv hd hunready hplaced
        (Expr.kind_of_visit? hvisit (Classical.not_not.mp hisName)))
  · unfold Visit.Placed at hplaced
    rintro (hkind | hkind) <;> rw [hkind] at hplaced
    · obtain ⟨k, hk⟩ := hplaced
      exact Option.isSome_of_eq_some hk
    · obtain ⟨k, hk, -⟩ := hplaced
      exact Option.isSome_of_eq_some hk
  · intro hkind d hd
    unfold Visit.Placed at hplaced
    rw [hkind] at hplaced
    obtain ⟨k, hk, hinner⟩ := hplaced
    obtain rfl : k + 1 = d := Option.some.inj (hk.symm.trans hd)
    obtain ⟨g, c, scope, ready, hg, -, -, -, -, -, hheld⟩ :=
      hchain.find (hthis.distance?_eq.trans hinner)
    exact ⟨k, g, rfl, hg, hheld (.inr fun hthis => hthis.1 rfl)⟩

/-- A watch that lets sound uses pass is quiet wherever it is used. -/
theorem unobtrusive_of_sound {watch : List (List Stmt) → Expr → LoxLang.Run Unit}
    (hwatch : ∀ programs e m, e.SoundIn Visit.Early programs m → watch programs e m = .ok () m) :
    Unobtrusive watch := by
  intro T programs hnodup β m w S ρ S' e hrel hchain huse
  refine hwatch programs e m fun hsome => ?_
  obtain ⟨v, hv⟩ := Expr.exists_visit? hsome S'
  obtain ⟨hfine, hname, hthis⟩ := huse v hv
  have hscopes := Expr.scopes_of_visit? hv
  rw [← hscopes] at hv hname hthis
  have hknown := (hfine.settled v rfl).2
  refine ⟨v, hknown, hv, fun u hu hid => ?_, hrel.sound hv hchain hfine hname hthis⟩
  exact List.inj_on_of_nodup_map hnodup hu hknown hid

/-!
## Variables that have their values

A declaration that ends normally puts its variable into the frame, and nothing takes it out again.
This is said of the evaluator itself, at any point of it: a watch may end a run anywhere.
-/

/-- A watch that may end a run but does not touch its state. -/
def Harmless (watch : Expr → LoxLang.Run Unit) : Prop := ∀ e m, (watch e).stateAfter m = m

/-- So a harmless watch does nothing but look. -/
theorem Harmless.onlyLooks {watch : Expr → LoxLang.Run Unit} (h : Harmless watch) (e : Expr) :
    OnlyLooks (watch e) := by
  intro m
  have hm := h e m
  unfold LoxLang.Run.stateAfter at hm
  cases hresult : watch e m with
  | ok a m' | error e m' =>
    rw [hresult] at hm
    exact hm.symm

/-- Where a relation between states has room for no change, a harmless watch keeps to it. -/
theorem Harmless.evolves {watch : Expr → LoxLang.Run Unit} (h : Harmless watch)
    {R : Machine → Machine → Prop} (hR : Evolution R) (e : Expr) : Evolves R (watch e) :=
  hR.look (h.onlyLooks e)

/-- A harmless watch keeps every invariant. -/
theorem Harmless.agrees {watch : Expr → LoxLang.Run Unit} (h : Harmless watch) (I : Invariant)
    (e : Expr) (m : Machine) : I.Agrees m (watch e) (watch e) fun _ _ => True :=
  .look (h.onlyLooks e) fun _ _ _ => trivial

/-- A variable whose declaration has ended normally is in its frame. -/
theorem local?_of_exec_var {host : Host} {depth : Nat} {name : Name} {initializer : Option Expr}
    {c : Completion} {m' : Machine} (hcurrent : m.current < m.frames.size)
    (h : (LoxLang.evaluator host depth).exec (.var name initializer) m = .ok c m') :
    (m'.frames.local? m.current name.text).isSome := by
  cases depth with
  | zero => cases h
  | succ depth =>
    have hrule : (LoxLang.evaluator host depth).stmtRule host (.var name initializer) m =
        .ok c m' := h
    obtain ⟨x, v, hdeclared, hlocal⟩ := LoxLang.Evaluator.stmtRule_declared rfl
      (evolution_comesBack.evaluator host depth) hcurrent hrule
    cases hdeclared <;> exact Option.isSome_of_eq_some hlocal

/-!
## Sessions

That each use is sound has been shown for related states, and all states of a session are related to
one with cells.
-/

/-- A use that is pending is one that comes early. -/
theorem Visit.inOwnLambda_of_pending {program : List Stmt} {v : Visit} (hv : v ∈ usesIn program)
    (h : v.Pending) : v.InOwnLambda program := by
  obtain ⟨d, scope, hd, hscope, hfalse⟩ := h
  have hown := inOwnInitializer_of_unready (mem_usesIn.mp hv) hd ⟨scope, hscope, hfalse⟩
  exact hown.inOwnLambda hd

/-- **Looking up by distance is sound.** A watch that lets sound uses pass is not noticed in any
session, so each use that is evaluated is sound. If a name is missing where a use leads, then the
use reads a variable in a lambda in that variable's own initializer; so if no program that is
executed has such a use, then no name is ever missing. And that variable has not got its value in
that frame: a declaration that ended normally has put its variable into the frame, and whatever is
evaluated from then on, up to any point, leaves it there. -/
theorem lookups_sound (host : Host) (depth : Nat) (steps : List SessionStep)
    (watch : List (List Stmt) → Expr → LoxLang.Run Unit)
    (hwatch : ∀ programs e m, e.SoundIn Visit.Early programs m → watch programs e m = .ok () m) :
    let watched := WatchedSession.initial.play host watch depth steps
    let plain := LoxLang.Session.initial.play host depth steps
    watched.1 = plain.1 ∧
    (∀ t ∈ plain.1, ∀ e, t.ending = .lost e → ∃ p ∈ watched.2.programs, ∃ v ∈ usesIn p,
      v.kind = .«variable» ∧ v.InOwnLambda p ∧ e = .missing v.name) ∧
    ((∀ p ∈ watched.2.programs, ∀ v ∈ usesIn p, v.kind = .«variable» → ¬v.InOwnLambda p) →
      ∀ t ∈ plain.1, ∀ e, t.ending ≠ .lost e) ∧
    (∀ name initializer c m m', m.current < m.frames.size →
      (LoxLang.evaluator host depth).exec (.var name initializer) m = .ok c m' →
      (m'.frames.local? m.current name.text).isSome) ∧
    ∀ stop, Harmless stop → ∀ s m,
      KeepsNames m (((watchedEvaluator host stop depth).exec s).stateAfter m) := by
  -- Wherever the simulation stands, evaluation is sound. So the watch passes there.
  have hunobtrusive := unobtrusive_of_sound hwatch
  obtain ⟨hwatched, -, -, hlost⟩ := follows_initial.play host depth steps hunobtrusive
  obtain ⟨hpure, -⟩ := follows_initial.play host depth steps unobtrusive_pure
  rw [(WatchedSession.play_pure host depth steps .initial).1] at hpure
  have hsame : (WatchedSession.initial.play host watch depth steps).1 =
      (LoxLang.Session.initial.play host depth steps).1 := hwatched.trans hpure.symm
  -- The simulation says which use is to blame for a lookup that finds nothing.
  have hblame : ∀ t ∈ (LoxLang.Session.initial.play host depth steps).1, ∀ e,
      t.ending = .lost e → ∃ p ∈ (WatchedSession.initial.play host watch depth steps).2.programs,
        ∃ v ∈ usesIn p, v.kind = .«variable» ∧ v.InOwnLambda p ∧ e = .missing v.name := by
    intro t ht e he
    rw [← hsame] at ht
    obtain ⟨v, hv, hkind, hpending, hname⟩ := hlost t ht e he
    obtain ⟨p, hp, hvp⟩ := List.mem_flatMap.mp hv
    exact ⟨p, hp, v, hvp, hkind, Visit.inOwnLambda_of_pending hvp hpending, hname⟩
  refine ⟨hsame, hblame, fun hnone t ht e he => ?_, fun name initializer c m m' hcurrent hexec =>
    local?_of_exec_var hcurrent hexec, fun stop hstop s m => ?_⟩
  · obtain ⟨p, hp, v, hv, hkind, hown, -⟩ := hblame t ht e he
    exact hnone p hp v hv hkind hown
  · have hkeeps :=
      evolution_keepsNames.watchedEvaluator (hstop.evolves evolution_keepsNames) host depth
    exact (hkeeps.exec s).stateAfter m

/-- The frame that an assignment to a local variable leads to holds the variable. -/
def holdsTarget (m : Machine) : Expr → Bool
  | .assign id name _ =>
    (m.distances[id]?.bind (m.frames.ancestor? · m.current)).all
      fun f => (m.frames.local? f name.text).isSome
  | _ => true

/-- Ends the run at an assignment to a local variable that the frame does not hold. -/
def assertTarget (_ : List (List Stmt)) (e : Expr) : LoxLang.Run Unit :=
  fun m => if holdsTarget m e then .ok () m else .error (.frame .pastOutermost) m

/-- If reading is the only exception, then an assignment finds its variable. -/
theorem holdsTarget_of_soundIn {programs : List (List Stmt)} {e : Expr}
    (h : e.SoundIn Visit.EarlyRead programs m) : holdsTarget m e = true := by
  cases e with
  | assign id name value =>
    obtain ⟨v, -, hvisit, -, hsound⟩ := h rfl
    obtain ⟨hkind, hname, hid⟩ : v.kind = .assignment ∧ v.name = name.text ∧ v.id = id := by
      have heq : ⟨.assignment, name.text, name.line, id, v.scopes⟩ = v := Option.some.inj hvisit
      rw [← heq]
      exact ⟨rfl, rfl, rfl⟩
    simp only [holdsTarget, Option.all_eq_true]
    intro f hf
    obtain ⟨d, hd, hancestor⟩ := Option.bind_eq_some_iff.mp hf
    rw [← hid, hsound.entry] at hd
    -- The exception is for uses that read, and an assignment is none.
    rcases hsound.held d f hd hancestor with hheld | ⟨hread, -⟩
    · exact hname ▸ hheld
    · rw [hkind] at hread
      cases hread
  | _ => rfl

/-- An assignment may come early too. With reading as the only exception, a watch that lets sound
uses pass is noticed: this program is accepted and ends well, and where its assignment is evaluated,
the frame does not hold the variable. -/
theorem lookups_sound_early_assignment :
    let host : Host := ⟨fun _ => 0, 9⟩
    let steps : List SessionStep := [.run "\x7b var a = a = 1; print a; \x7d"]
    (LoxLang.Session.initial.play host 40 steps).1 = [⟨"1\n", [], .finished⟩] ∧
      ¬∀ watch : List (List Stmt) → Expr → LoxLang.Run Unit,
        (∀ programs e m, e.SoundIn Visit.EarlyRead programs m →
          watch programs e m = .ok () m) →
        (WatchedSession.initial.play host watch 40 steps).1 =
          (LoxLang.Session.initial.play host 40 steps).1 := by
  intro host steps
  have hplain : (LoxLang.Session.initial.play host 40 steps).1 = [⟨"1\n", [], .finished⟩] := by
    decide +kernel
  -- The assertion fails at the assignment: its frame does not hold the name yet.
  have hwatched : (WatchedSession.initial.play host assertTarget 40 steps).1 =
      [⟨"", [], .lost .pastOutermost⟩] := by decide +kernel
  refine ⟨hplain, fun h => ?_⟩
  have hsame := h assertTarget fun _ _ _ hsound => if_pos (holdsTarget_of_soundIn hsound)
  rw [hplain, hwatched] at hsame
  exact absurd hsame (by decide)

open Classical in
/-- Ends the run at a use that is not sound. -/
noncomputable def assertSound (programs : List (List Stmt)) (e : Expr) : LoxLang.Run Unit :=
  fun m => if e.SoundIn Visit.Early programs m then .ok () m else .error (.frame .pastOutermost) m

/-- A function that reads variables of two scopes, called in a later run than that which declares
it, with an assertion at each use. Behind it come the two exceptions: an assignment in its own
variable's initializer, which ends well, and a lambda that reads its own variable, to which the
missing name is traced. -/
theorem lookups_sound_later_run :
    let host : Host := ⟨fun _ => 0, 9⟩
    let steps : List SessionStep :=
      [.run "fun f(a) \x7b \x7b var b = a; print b; \x7d \x7d", .reset, .run "f(nil);",
        .run "\x7b var a = a = 1; print a; \x7d",
        .run "\x7b var g = fun () \x7b return g; \x7d(); \x7d"]
    let watched := WatchedSession.initial.play host assertSound 40 steps
    (∀ programs e m, e.SoundIn Visit.Early programs m → assertSound programs e m = .ok () m) ∧
      watched.1 = [⟨"", [], .finished⟩, ⟨"nil\n", [], .finished⟩, ⟨"1\n", [], .finished⟩,
        ⟨"", [], .lost (.missing "g")⟩] ∧
      ∃ p ∈ watched.2.programs, ∃ v ∈ usesIn p,
        v.kind = .«variable» ∧ v.InOwnLambda p ∧ v.name = "g" := by
  intro host steps watched
  have hassert : ∀ (programs : List (List Stmt)) (e : Expr) (m : Machine),
      e.SoundIn Visit.Early programs m → assertSound programs e m = .ok () m :=
    fun _ _ _ h => if_pos h
  obtain ⟨hsame, hblame, -⟩ := lookups_sound host 40 steps assertSound hassert
  have hplain : (LoxLang.Session.initial.play host 40 steps).1 =
      [⟨"", [], .finished⟩, ⟨"nil\n", [], .finished⟩, ⟨"1\n", [], .finished⟩,
        ⟨"", [], .lost (.missing "g")⟩] := by decide +kernel
  refine ⟨hassert, hsame.trans hplain, ?_⟩
  -- The frame error of the last run is blamed on the variable in its own initializer.
  rw [hplain] at hblame
  obtain ⟨p, hp, v, hv, hkind, hown, hname⟩ :=
    hblame ⟨"", [], .lost (.missing "g")⟩ (by simp) (.missing "g") rfl
  exact ⟨p, hp, v, hv, hkind, hown, (FrameError.missing.inj hname).symm⟩

end Lexical

end LoxLang
