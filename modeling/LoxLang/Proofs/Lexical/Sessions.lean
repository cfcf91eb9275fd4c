import LoxLang.Proofs.Grammar.Numbering
import LoxLang.Proofs.Lexical.Declarations
import LoxLang.Proofs.Sessions

/-!
# Sessions with frames and with cells

Over a session, programs follow one another, and the table of distances grows. Numbers of uses are
never given twice, so what earlier programs have left behind keeps its distances (`Related.extend`),
and an accepted program finds its own (`fine_of_accepted`). Hence the two kinds of evaluation agree
over whole sessions, whatever is run in them.
-/

namespace LoxLang

/-!
## Accepted programs

Of an accepted program the table has the distance of each use, counted in the scopes that the use
stands in.
-/

/-- In the table that an accepted program was entered into, everything in the program is fine. -/
theorem fine_of_accepted {depth endLine firstUse : Nat} {source : String} {table : Distances}
    {P : Visit → Prop}
    (hparse : (parse depth firstUse (lex source)).reports = [])
    (hresolve : (resolve depth endLine (parse depth firstUse (lex source)).statements).reports = [])
    (hnew : ∀ i : Nat, firstUse ≤ i → table[i]? = none)
    (hP : ∀ v ∈ usesIn (parse depth firstUse (lex source)).statements, P v) :
    Lexical.Fine
      (table.insertAll
        (resolve depth endLine (parse depth firstUse (lex source)).statements).uses) P
      (stmtsOccurrences [] (parse depth firstUse (lex source)).statements) := by
  have hstretch := stretch_of_parse hparse []
  obtain ⟨huses, hplaced⟩ := resolve_of_reports_eq_nil hstretch.written hresolve
  intro o ho
  refine ⟨hstretch.written o ho, hplaced o ho, ?_⟩
  rintro v rfl
  -- The table has the distance of the use, since its number is a new one.
  rw [huses]
  exact ⟨hstretch.getElem?_insertAll hnew ho, hP v (mem_usesIn.mpr ho)⟩

theorem ids_usesIn (program : List Stmt) :
    (usesIn program).map (·.id) = (stmtsOccurrences [] program).filterMap Occurrence.id? := by
  unfold usesIn
  rw [List.map_filterMap]
  congr 1
  funext o
  cases o <;> rfl

/-- The table of distances and the uses of names in a session have numbers below that of the next
use, and the uses have different ones. -/
structure Tabled (n : UseId) (table : Distances) (uses : List Visit) : Prop where
  fresh : ∀ i : Nat, n ≤ i → table[i]? = none
  below : ∀ v ∈ uses, (v.id : Nat) < n
  nodup : (uses.map (·.id)).Nodup

theorem Tabled.mono {n n' : UseId} {table : Distances} {uses : List Visit}
    (h : Tabled n table uses) (hle : (n : Nat) ≤ n') : Tabled n' table uses :=
  ⟨fun i hi => h.fresh i (Nat.le_trans hle hi), fun v hv => Nat.lt_of_lt_of_le (h.below v hv) hle,
    h.nodup⟩

/-- Entering an accepted program keeps the distances of the uses before it. -/
theorem Tabled.accepted {depth endLine firstUse : Nat} {source : String} {table : Distances}
    {uses : List Visit} (h : Tabled firstUse table uses)
    (hparse : (parse depth firstUse (lex source)).reports = [])
    (hresolve :
      (resolve depth endLine (parse depth firstUse (lex source)).statements).reports = []) :
    Tabled (parse depth firstUse (lex source)).nextUse
        (table.insertAll
          (resolve depth endLine (parse depth firstUse (lex source)).statements).uses)
        (uses ++ usesIn (parse depth firstUse (lex source)).statements) ∧
      ∀ v ∈ uses, (table.insertAll
        (resolve depth endLine (parse depth firstUse (lex source)).statements).uses)[v.id]? =
          table[v.id]? := by
  have hstretch := stretch_of_parse hparse []
  rw [(resolve_of_reports_eq_nil hstretch.written hresolve).1]
  have hids := ids_usesIn (parse depth firstUse (lex source)).statements
  have hnew : ∀ v ∈ usesIn (parse depth firstUse (lex source)).statements,
      firstUse ≤ (v.id : Nat) ∧ (v.id : Nat) < (parse depth firstUse (lex source)).nextUse := by
    intro v hv
    refine hstretch.range v.id ?_
    rw [← hids]
    exact List.mem_map_of_mem hv
  refine ⟨⟨fun i hi => ?_, fun v hv => ?_, ?_⟩, fun v hv => ?_⟩
  · rw [hstretch.getElem?_insertAll_of_lt (.inr hi)]
    exact h.fresh i (Nat.le_trans hstretch.le hi)
  · rcases List.mem_append.mp hv with hv | hv
    · exact Nat.lt_of_lt_of_le (h.below v hv) hstretch.le
    · exact (hnew v hv).2
  · rw [List.map_append, List.nodup_append]
    refine ⟨h.nodup, hids ▸ hstretch.nodup, ?_⟩
    -- Old numbers are smaller than new ones.
    rintro i hi _ hj rfl
    obtain ⟨v, hv, hvi⟩ := List.mem_map.mp hi
    obtain ⟨u, hu, rfl⟩ := List.mem_map.mp hj
    have hlt : (v.id : Nat) < firstUse := h.below v hv
    rw [hvi] at hlt
    exact Nat.not_lt.mpr (hnew u hu).1 hlt
  · exact hstretch.getElem?_insertAll_of_lt (.inl (h.below v hv))

namespace Lexical

variable {T T' : Distances} {P P' : Visit → Prop} {β : Links} (host : Host) (depth : Nat)

/-! ## Growing tables -/

/-- What is fine stays so in a table that has the same distances for the uses that were known. -/
theorem Fine.extend {os : List Occurrence} (h : Fine T P os)
    (hTP : ∀ v, P v → P' v ∧ T'[v.id]? = T[v.id]?) : Fine T' P' os := by
  refine fun o ho => ⟨(h o ho).written, (h o ho).placed, fun v hv => ?_⟩
  obtain ⟨hT, hP⟩ := (h o ho).settled v hv
  exact ⟨(hTP v hP).2.trans hT, (hTP v hP).1⟩

theorem Related.extend {m : Machine} {w : Store} (h : Related T P β m w)
    (hTP : ∀ v, P v → P' v ∧ T'[v.id]? = T[v.id]?) :
    Related T' P' β { m with distances := T', output := "" } { w with output := "" } := by
  have hclosure : ∀ {hidden : List Scope} {c : LoxLang.Closure} {c' : Closure},
      ClosureRelated T P β m.frames hidden c c' → ClosureRelated T' P' β m.frames hidden c c' := by
    intro hidden c c' hc
    obtain ⟨S, hchain, hbody, hthis⟩ := hc.scopes
    exact ⟨hc.name, hc.params, hc.body, hc.isInitializer, S, hchain, Fine.extend hbody hTP, hthis⟩
  have hclass : ∀ {info : LoxLang.ClassInfo} {info' : ClassInfo},
      ClassRelated T P β m.frames info info' → ClassRelated T' P' β m.frames info info' := by
    intro info info' hc
    exact ⟨hc.name, hc.superclass, hc.staticMethods,
      fun x => (hc.methods x).imp fun _ _ => hclosure⟩
  exact ⟨h.frames, h.functions.mono fun _ _ => hclosure, h.classes.mono fun _ _ => hclass,
    h.instances, rfl, h.clockReadings, rfl⟩

/-!
## Sessions

Uses of later programs have new numbers, so what is said of the uses of earlier ones stays true when
the table grows.
-/

/-- A session with frames, under watch, and a session with cells have come to the same point. -/
structure Follows (β : Links) (s : WatchedSession) (s' : Session) : Prop where
  nextUse : s.session.nextUse = s'.nextUse
  hadError : s.session.hadError = s'.hadError
  hadRuntimeError : s.session.hadRuntimeError = s'.hadRuntimeError
  current : s.session.machine.current = Machine.globalFrame
  related : Related s.session.machine.distances (· ∈ s.uses) β s.session.machine s'.store
  tabled : Tabled s.session.nextUse s.session.machine.distances s.uses

theorem follows_initial : Follows (fun _ _ => none) .initial .initial := by
  have hlocal : ∀ (f : FrameId) (x : String), f ≠ Machine.globalFrame →
      Machine.initial.frames.local? f x = none := by
    intro f x hf
    have hempty : (Frames.empty : Frames Value).local? f x = none :=
      Frames.local?_of_size_le _ x (Nat.zero_le f)
    unfold Machine.initial
    rw [Frames.local?_push, hempty]
    exact if_neg hf
  -- Nothing is linked: there are only globals, which both sides hold by their names.
  have hlinked : Linked (fun _ _ => none) Machine.initial.frames Store.initial.cells
      Store.initial.globals := by
    refine ⟨rfl, fun _ => rfl, nofun, nofun, fun f x hf _ => hlocal f x hf, nofun, ?_⟩
    intro f v hv
    by_cases hf : f = Machine.globalFrame
    · subst hf
      cases hv
    · rw [hlocal f "super" hf] at hv
      cases hv
  refine ⟨rfl, rfl, rfl, rfl, ⟨hlinked, ⟨rfl, ?_⟩, ⟨rfl, ?_⟩, rfl, rfl, rfl, rfl⟩, ?_, nofun,
    List.nodup_nil⟩
  · intro i c c' hc
    cases hc
  · intro i info info' hinfo
    cases hinfo
  · intro i _
    exact Std.TreeMap.getElem?_emptyc

/-- A watch changes nothing wherever it is used in a session. -/
def Unobtrusive (watch : List (List Stmt) → Expr → LoxLang.Run Unit) : Prop :=
  ∀ (T : Distances) (programs : List (List Stmt)),
    ((programs.flatMap usesIn).map (·.id)).Nodup →
      Quiet T (· ∈ programs.flatMap usesIn) (watch programs)

/-- To watch without doing anything is not noticed. -/
theorem unobtrusive_pure : Unobtrusive fun _ _ => Pure.pure () :=
  fun _ _ _ => @quiet_pure _ _

/-- What comes of a source text under a watch and with cells. -/
structure Parallel (s : WatchedSession) (r : Transcript × WatchedSession)
    (r' : Transcript × Session) : Prop where
  transcript : r.1 = r'.1
  follows : ∃ β, Follows β r.2 r'.2
  programs : s.programs ⊆ r.2.programs
  lost : ∀ e, r.1.ending = .lost e →
    ∃ v ∈ r.2.uses, v.kind = .«variable» ∧ v.Pending ∧ e = .missing v.name

/-- A text that is refused changes only the numbers and the flags. -/
theorem Follows.refused {s : WatchedSession} {s' : Session} (h : Follows β s s') {n : UseId}
    (hn : (s'.nextUse : Nat) ≤ n) (hadError : Bool) (reports : List Report) :
    Parallel s
      (⟨"", reports, .refused⟩, ⟨{ s.session with nextUse := n, hadError }, s.programs⟩)
      (⟨"", reports, .refused⟩, { s' with nextUse := n, hadError }) := by
  have hle : (s.session.nextUse : Nat) ≤ n := by
    rw [h.nextUse]
    exact hn
  exact ⟨rfl, ⟨β, rfl, rfl, h.hadRuntimeError, h.current, h.related, h.tabled.mono hle⟩,
    List.Subset.refl _, nofun⟩

/-- A program ends in the same way with frames and with cells. -/
theorem execute_agree {watch : Expr → LoxLang.Run Unit} {m : Machine} {w : Store}
    {program : List Stmt} {uses : List Resolved} {endLine : Nat} (hquiet : Quiet T P watch)
    (hrel : Related T P β
      { m with distances := m.distances.insertAll uses, output := "" } { w with output := "" })
    (hcurrent : m.current = Machine.globalFrame)
    (hfine : Fine T P (stmtsOccurrences [] program)) :
    ∃ ending m' w' β',
      LoxLang.Session.watchedExecuteProgram host watch depth endLine program uses m = (ending, m') ∧
      Session.executeProgram host depth endLine program w = (ending, w') ∧
      m'.current = Machine.globalFrame ∧ Related T P β' m' w' ∧ ending ≠ .refused ∧
      ∀ e, ending = .lost e →
        ∃ v, P v ∧ v.kind = .«variable» ∧ v.Pending ∧ e = .missing v.name := by
  have hsim := Simulates.execute hquiet host depth hrel hcurrent hfine
  unfold LoxLang.Session.watchedExecuteProgram Session.executeProgram
  -- Runs that end alike have the same ending, and if a lookup fails a pending use is to blame.
  unfold Simulates at hsim
  dsimp only
  split at hsim
  · next m' _ w' hp hq =>
    obtain ⟨β', hlater, -⟩ := hsim
    rw [hp, hq]
    exact ⟨.finished, m', w', β', rfl, rfl, hlater.current.trans hcurrent, hlater.related, nofun,
      nofun⟩
  · next e m' e' w' hp hq =>
    obtain ⟨rfl, hblamed, β', hlater⟩ := hsim
    rw [hp, hq]
    refine ⟨.ofAbort endLine e, m', w', β', rfl, rfl, hlater.current.trans hcurrent,
      hlater.related, ?_, fun e' he' => hblamed e' ?_⟩
    · cases e <;> nofun
    · cases e <;> cases he'
      rfl
  · exact hsim.elim

/-- Running a source text, whatever it is, under a watch that is quiet. -/
theorem Follows.run {watch : List (List Stmt) → Expr → LoxLang.Run Unit} {s : WatchedSession}
    {s' : Session} (h : Follows β s s') (source : String) (hwatch : Unobtrusive watch) :
    Parallel s (s.run host watch depth source) (s'.run host depth source) := by
  have hle := le_nextUse_parse depth s'.nextUse (lex source)
  have htabled := h.tabled
  -- Both read and resolve the same text with the same numbers, so they refuse it together.
  unfold WatchedSession.run LoxLang.Session.watchedRun Session.run
  rw [h.nextUse] at htabled ⊢
  rw [h.hadError]
  dsimp only
  split
  · exact h.refused hle _ _
  · split
    · exact h.refused hle _ _
    · next hread hresolved =>
      have hreports : (parse depth s'.nextUse (lex source)).reports = [] := by
        simp at hread
        exact hread.2.2
      have hresolve : (resolve depth (lex source).endLine
          (parse depth s'.nextUse (lex source)).statements).reports = [] := by
        simpa using hresolved
      -- The text is accepted, so its program finds its distances in the table.
      obtain ⟨htabled', hsame⟩ := htabled.accepted hreports hresolve
      unfold WatchedSession.uses at htabled' hsame
      rw [← usesIn_append] at htabled'
      have huses := usesIn_append s.programs (parse depth s'.nextUse (lex source)).statements
      have hold : ∀ v ∈ s.uses, v ∈ (s.programs ++
          [(parse depth s'.nextUse (lex source)).statements]).flatMap usesIn := fun v hv =>
        huses ▸ List.mem_append_left _ hv
      have hrel := h.related.extend fun v hv => ⟨hold v hv, hsame v hv⟩
      have hfine := fine_of_accepted hreports hresolve htabled.fresh
        fun v hv => huses ▸ List.mem_append_right (s.programs.flatMap usesIn) hv
      obtain ⟨ending, m', w', β', hp, hq, hcurrent, hrel', hending, hlost⟩ :=
        execute_agree host depth (hwatch _ _ htabled'.nodup) hrel h.current hfine
      rw [hp, hq]
      dsimp only
      rw [if_neg hending, h.hadRuntimeError, ← hrel'.output]
      refine ⟨rfl, ⟨β', rfl, rfl, rfl, hcurrent, ?_, ?_⟩, List.subset_append_left _ _, hlost⟩
      · rw [← hrel'.distances] at hrel'
        exact hrel'
      · rw [← hrel'.distances] at htabled'
        exact htabled'

/-- Leads a session with cells through steps. -/
def Session.play (host : Host) (depth : Nat) :
    Session → List SessionStep → List Transcript × Session :=
  playSteps (Session.run host depth) Session.reset

/-- What the steps of a session show and leave behind, under a watch that is quiet. -/
theorem Follows.play {watch : List (List Stmt) → Expr → LoxLang.Run Unit} {s : WatchedSession}
    {s' : Session} (h : Follows β s s') (steps : List SessionStep) (hwatch : Unobtrusive watch) :
    (s.play host watch depth steps).1 = (s'.play host depth steps).1 ∧
      (∃ β', Follows β' (s.play host watch depth steps).2 (s'.play host depth steps).2) ∧
      s.programs ⊆ (s.play host watch depth steps).2.programs ∧
      ∀ t ∈ (s.play host watch depth steps).1, ∀ e, t.ending = .lost e →
        ∃ v ∈ (s.play host watch depth steps).2.uses,
          v.kind = .«variable» ∧ v.Pending ∧ e = .missing v.name := by
  unfold WatchedSession.play Session.play
  induction steps generalizing β s s' with
  | nil => exact ⟨rfl, ⟨β, h⟩, List.Subset.refl _, nofun⟩
  | cons step steps ih =>
    cases step with
    | reset =>
      have hreset : Follows β s.reset s'.reset :=
        ⟨h.nextUse, rfl, rfl, h.current, h.related, h.tabled⟩
      exact ih hreset
    | run source =>
      have hrun := h.run host depth source hwatch
      obtain ⟨β', hfollows⟩ := hrun.follows
      obtain ⟨htranscripts, hfollows', hsubset, hlost⟩ := ih hfollows
      refine ⟨?_, hfollows', fun _ hp => hsubset (hrun.programs hp), ?_⟩
      · exact (congrArg (· :: _) hrun.transcript).trans (congrArg (_ :: ·) htranscripts)
      -- The programs only grow, so a use that is at fault early on is one of the whole session.
      · intro t ht e he
        rcases List.mem_cons.mp ht with rfl | ht
        · obtain ⟨v, hv, hblame⟩ := hrun.lost e he
          obtain ⟨program, hprogram, hv⟩ := List.mem_flatMap.mp hv
          exact ⟨v, List.mem_flatMap.mpr ⟨program, hsubset hprogram, hv⟩, hblame⟩
        · exact hlost t ht e he

/-- **Distances implement lexical scoping.** Whatever is run in a session, in any order and with any
resets in between, frames and distances show the same as cells and environments: the same output,
the same reports, and the same way to end, be it a failure or a name that is missing. They leave the
same globals. -/
theorem distances_scope_lexically (host : Host) (depth : Nat) (steps : List SessionStep) :
    let plain := LoxLang.Session.initial.play host depth steps
    let lexical := Session.initial.play host depth steps
    plain.1 = lexical.1 ∧ plain.2.globals = lexical.2.globals ∧
      plain.2.machine.globals = lexical.2.store.globals.sorted ∧
      plain.2.hadError = lexical.2.hadError ∧
      plain.2.hadRuntimeError = lexical.2.hadRuntimeError := by
  obtain ⟨htranscripts, ⟨β, hfollows⟩, -, -⟩ :=
    follows_initial.play host depth steps unobtrusive_pure
  -- Without a watch, the session under watch is the plain one.
  obtain ⟨hplain, hplain'⟩ := WatchedSession.play_pure host depth steps .initial
  have hinitial : WatchedSession.initial.session = LoxLang.Session.initial := rfl
  rw [hinitial] at hplain hplain'
  obtain ⟨-, herror, hfailure, -, hrelated, -⟩ := hfollows
  rw [hplain] at htranscripts
  rw [hplain'] at herror hfailure hrelated
  have hglobals : (LoxLang.Session.initial.play host depth steps).2.machine.globals =
      (Session.initial.play host depth steps).2.store.globals.sorted := by
    unfold Machine.globals
    rw [hrelated.frames.globals]
  refine ⟨htranscripts, ?_, hglobals, herror, hfailure⟩
  unfold LoxLang.Session.globals Session.globals
  rw [hglobals]
  refine List.map_congr_left fun ⟨x, v⟩ _ => ?_
  dsimp only
  rw [hrelated.text]

end Lexical

end LoxLang
