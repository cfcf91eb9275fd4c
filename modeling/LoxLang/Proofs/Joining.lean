import LoxLang.Proofs.Correspondence.Sessions
import LoxLang.Proofs.Lines
import LoxLang.Proofs.Sessions

/-!
# Running texts in pieces

Two source texts that are run one after the other do what they do when run as one, with a line break
in between (`run_join`). The two ways differ in the lines of the second text only: with as many line
breaks in front of it as the first has lines, there is no difference left. In the one way, the
distances of both texts are in the table when the first begins; in the other, those of the second
are added to those that functions from the first still use.
-/

namespace LoxLang

/-!
## Lines

A run tells lines of functions that were there before, and lines of the text itself. Behind another
text the former stay and the latter are raised. What is shown of the two ways is shown for any
correspondence of lines that allows for this.
-/

/-- All lines in the functions and methods of a state are among some. -/
def Machine.HasLines (m : Machine) (old : Nat → Prop) : Prop :=
  m.Corresponds ⟨fun l l' => l = l' ∧ old l, Eq⟩ "" m

/-- Old lines stay, and those up to a last one become later by some lines. Numbers stay. -/
def Correspondence.joining (old : Nat → Prop) (last k : Nat) : Correspondence :=
  ⟨fun l l' => l = l' ∧ old l ∨ l ≤ last ∧ l' = l + k, Eq⟩

theorem Correspondence.joining_shifts (old : Nat → Prop) (last k : Nat) :
    (joining old last k).Shifts k last := fun _ hl => .inr ⟨hl, rfl⟩

/-- A text is made up of two texts, as far as tokens go: of those of the first, and behind them such
as correspond to those of the second. -/
def Joins (κ : Correspondence) (first second whole : String) : Prop :=
  ∃ shifted : Lexed, (lex second).Corresponds κ shifted ∧
    lex whole = (lex first).followedBy shifted

theorem Lexed.corresponds_later {κ : Correspondence} {k : Nat} {source : String}
    (h : κ.Shifts k (lex source).endLine) : (lex source).Corresponds κ ((lex source).later k) := by
  have hpieces := Lexed.ofPieces_corresponds 1 (pieces source.toList) h
  rwa [Lexed.ofPieces_later] at hpieces

/-- A text without reports has no unterminated string. -/
theorem not_unterminated_of_reports_eq_nil {source : String} (h : (lex source).reports = [])
    (body : List Char) : .unterminated body ∉ pieces source.toList :=
  unterminated_not_mem (fun _ hmem => List.not_mem_nil (h ▸ hmem)) body

/-- Two texts with a line break in between are made up of the two, the second on later lines. -/
theorem joins_of_shifts {κ : Correspondence} {first second : String} (h : (lex first).reports = [])
    (hκ : κ.Shifts (lex first).endLine (lex second).endLine) :
    Joins κ first second (first ++ "\n" ++ second) :=
  ⟨_, Lexed.corresponds_later hκ, lex_join (not_unterminated_of_reports_eq_nil h) second⟩

/-- If the second text begins later by the lines of the first, then no line is changed. -/
theorem joins_sourceLater {first : String} (h : (lex first).reports = []) (second : String) :
    Joins .same first (sourceLater (lex first).endLine second) (first ++ "\n" ++ second) := by
  refine ⟨_, Lexed.corresponds_self (fun _ => rfl) _, ?_⟩
  rw [lex_sourceLater]
  exact lex_join (not_unterminated_of_reports_eq_nil h) second

/-!
## Acceptance

Whether a text is without fault is a matter of its tokens. Behind a text without fault it is read as
if it were alone, with the numbers of its uses counted on.
-/

namespace Session

variable {depth : Nat} {s s' : Session} {source source' first second whole : String}

/-- Whether a text is accepted depends neither on its lines nor on what was run before. -/
theorem Accepts.of_clear {κ : Correspondence} (h : s.Accepts depth source)
    (hclear : s'.hadError = false)
    (hlex : (lex source).Corresponds ⟨κ.line, fun _ _ => True⟩ (lex source')) :
    s'.Accepts depth source' := by
  have hparse : (parse depth s.nextUse (lex source)).Corresponds ⟨κ.line, fun _ _ => True⟩
      (parse depth s'.nextUse (lex source')) := parse_corresponds depth hlex fun _ => trivial
  have hresolve := resolve_corresponds depth hlex.endLine hparse.statements
  have hlexed := hlex.reports
  have hparsed := hparse.reports
  have hresolved := hresolve.reports
  rw [h.lexed, List.forall₂_nil_left_iff] at hlexed
  rw [h.parsed, List.forall₂_nil_left_iff] at hparsed
  rw [h.resolved, List.forall₂_nil_left_iff] at hresolved
  exact ⟨hclear, hlexed, hparsed, hresolved⟩

/-- How two texts are read as one: as the first, and behind it a program that corresponds to the
second, with its uses. -/
structure ReadsJoined (κ : Correspondence) (depth firstUse : Nat) (first second whole : String)
    (ss : List Stmt) (uses : List Resolved) : Prop where
  lexed : (lex whole).reports = []
  endLine : κ.line (lex second).endLine (lex whole).endLine
  parsed : parse depth firstUse (lex whole) =
    ⟨(parse depth firstUse (lex first)).statements ++ ss, [],
      (parse depth (parse depth firstUse (lex first)).nextUse (lex second)).nextUse⟩
  resolved : resolve depth (lex whole).endLine
      ((parse depth firstUse (lex first)).statements ++ ss) =
    ⟨(resolve depth (lex first).endLine (parse depth firstUse (lex first)).statements).uses ++ uses,
      []⟩
  statements : List.Forall₂ (Stmt.Corresponds κ)
    (parse depth (parse depth firstUse (lex first)).nextUse (lex second)).statements ss
  uses : List.Forall₂ (Resolved.Corresponds κ) (resolve depth (lex second).endLine
    (parse depth (parse depth firstUse (lex first)).nextUse (lex second)).statements).uses uses

/-- **Two texts are read as one as they are read in turn**, if each is without fault. -/
theorem readsJoined {κ : Correspondence} (huse : κ.use = Eq) (hfirst : s.Accepts depth first)
    (hsecond : s'.Accepts depth second)
    (hnext : s'.nextUse = (parse depth s.nextUse (lex first)).nextUse)
    (hjoins : Joins κ first second whole) :
    ∃ ss uses, ReadsJoined κ depth s.nextUse first second whole ss uses := by
  obtain ⟨shifted, hshifted, hlex⟩ := hjoins
  have hparsed := hsecond.parsed
  have hresolved := hsecond.resolved
  rw [hnext] at hparsed hresolved
  -- The second text is parsed at other lines, but its uses get the numbers that they get alone.
  have hparse : (parse depth (parse depth s.nextUse (lex first)).nextUse (lex second)).Corresponds κ
      (parse depth (parse depth s.nextUse (lex first)).nextUse shifted) :=
    parse_corresponds depth hshifted fun _ => huse ▸ rfl
  have hnextUse := hparse.nextUse 0
  rw [huse] at hnextUse
  have hreports := hparse.reports
  rw [hparsed, List.forall₂_nil_left_iff] at hreports
  have hwritten := (stretch_of_parse hfirst.parsed []).written
  -- The first program has come back to the top level, so the second is resolved as if alone.
  obtain ⟨uses, huses, hresolve⟩ := resolve_append (lex whole).endLine hwritten
    hfirst.resolved hparse.statements hresolved
  refine ⟨_, uses, ?_, ?_, ?_, hresolve, hparse.statements, huses⟩
  · have hnone := hshifted.reports
    rw [hsecond.lexed, List.forall₂_nil_left_iff] at hnone
    rw [hlex, Lexed.followedBy, hfirst.lexed, hnone]
    rfl
  · rw [hlex]
    exact hshifted.endLine
  · rw [hlex, parse_followedBy hfirst.parsed hreports]
    exact congrArg _ hnextUse.symm

/-!
## Execution

The whole is executed with a table that has the distances of the second text from the start. The
first program does not see them, since no function that it can reach has uses of those numbers.
-/

/-- Entries for uses that are not in a program, and not in the functions from before, do not matter
to it. -/
theorem execute_of_agree (host : Host) {n : UseId} {ss : List Stmt} {m m' : Machine}
    {table : Distances} (hself : m.Corresponds (.below n) "" m)
    (hss : List.Forall₂ (Stmt.Corresponds (.below n)) ss ss)
    (htable : ∀ i : UseId, i < n → m.distances[i]? = table[i]?)
    (h : execute host depth ss m = .ok () m') :
    execute host depth ss { m with distances := table } =
      .ok () { m' with distances := table } := by
  -- The tables agree on all uses that the program and its functions contain.
  have hstart : m.Corresponds (.below n) "" { m with distances := table } :=
    { hself with distances := fun i j hi => hi.1 ▸ htable i hi.2 }
  have hends := execute_corresponds host depth hss m { m with distances := table } hstart
  -- Execution does not touch the table, so behind it they differ as before.
  have hkept := (evolution_keepsDistances.execute host depth ss).stateAfter
    { m with distances := table }
  unfold Run.stateAfter at hkept
  rw [h] at hends
  generalize execute host depth ss { m with distances := table } = r at hends hkept ⊢
  cases hends with
  | @ok _ _ _ s' _ hs =>
    have hs' := hs.eq_of_within (Correspondence.below_within_same n)
    dsimp only at hkept
    rw [hs', hkept, String.empty_append]

/-- What a program does behind another is what it does alone, in the state that the other has left
behind. -/
theorem execute_append_corresponds (host : Host) {κ : Correspondence} (huse : κ.use = Eq)
    {n : UseId} {ss₁ ss₂ ss' : List Stmt} {uses₁ uses₂ uses' : List Resolved} {m m₁ : Machine}
    (hself : m.Corresponds (.below n) "" m)
    (hss₁ : List.Forall₂ (Stmt.Corresponds (.below n)) ss₁ ss₁)
    (hrun : execute host depth ss₁
      { m with output := "", distances := m.distances.insertAll uses₁ } = .ok () m₁)
    (hold : m₁.Corresponds κ "" m₁) (hss : List.Forall₂ (Stmt.Corresponds κ) ss₂ ss')
    (huses : List.Forall₂ (Resolved.Corresponds κ) uses₂ uses')
    (hnew : ∀ (table : Distances) (i : Nat), i < n → (table.insertAll uses₂)[i]? = table[i]?) :
    EndsAlike (Machine.Corresponds κ m₁.output) (Abort.Corresponds κ) Eq
      (execute host depth ss₂
        { m₁ with output := "", distances := m₁.distances.insertAll uses₂ })
      (execute host depth (ss₁ ++ ss')
        { m with output := "", distances := m.distances.insertAll (uses₁ ++ uses') }) := by
  obtain ⟨line, use⟩ := κ
  dsimp only at huse
  subst huse
  have hone : (Correspondence.mk line Eq).OneToOne := by
    rintro i _ j _ rfl rfl
    exact Iff.rfl
  have hsame {table table' : Distances} (h : ∀ i : UseId, table[i]? = table'[i]?) (i : UseId) :
      (table.insertAll uses₂)[i]? = (table'.insertAll uses')[i]? :=
    Distances.insertAll_corresponds hone huses (fun i _ hi => hi ▸ h i) i i rfl
  have htable : m.distances.insertAll (uses₁ ++ uses') =
      (m.distances.insertAll uses₁).insertAll uses' := List.foldl_append
  have hkept : m₁.distances = m.distances.insertAll uses₁ :=
    (evolution_keepsDistances.execute host depth ss₁).of_eq_ok hrun
  -- The first program does not see the uses of the second, which are numbered later.
  have hagree : ∀ i : UseId, i < n → (m.distances.insertAll uses₁)[i]? =
      (m.distances.insertAll (uses₁ ++ uses'))[i]? := fun i hi => by
    rw [htable, ← hsame fun _ => rfl, hnew _ i hi]
  have hfirst := execute_of_agree host (hself.restart fun i j hi => hi.1 ▸ rfl) hss₁ hagree hrun
  unfold execute at hfirst ⊢
  rw [forM_append_of_ok hfirst]
  refine execute_corresponds host depth hss _ _ { hold with distances := ?_, output := ?_ }
  · rintro i _ rfl
    dsimp only
    rw [htable, hkept]
    exact hsame (fun _ => rfl) i
  · exact String.append_empty.symm

/-- The first of two texts, run to its end. -/
theorem Accepts.execute_of_finished {host : Host} (h : s.Accepts depth source)
    (hfinished : (s.run host depth source).1.ending = .finished) :
    execute host depth (parse depth s.nextUse (lex source)).statements
        { s.machine with
          output := ""
          distances := s.machine.distances.insertAll (resolve depth (lex source).endLine
            (parse depth s.nextUse (lex source)).statements).uses } =
      .ok () (s.run host depth source).2.machine := by
  rw [run_of_accepts host h] at hfinished ⊢
  dsimp only [executeProgram] at hfinished ⊢
  split at hfinished
  · next hrun => rw [hrun]
  · next abort _ _ => cases abort <;> cases hfinished

end Session

/-- Numbers stay below that of the next use over a session. -/
theorem Session.Numbered.play (host : Host) (depth : Nat) (steps : List SessionStep) {s : Session}
    (h : s.Numbered) : (s.play host depth steps).2.Numbered :=
  playSteps_keeps (fun _ h => h.reset) (fun _ source h => h.run host depth source) h steps

attribute [ext] Session

namespace Session

variable {depth : Nat} {s : Session} {first second whole : String} {κ : Correspondence}

/-- The second text has numbers of uses that are not those of the functions from before. -/
theorem Accepts.distances_insertAll (h : s.Accepts depth second) (table : Distances) {i : Nat}
    (hi : i < s.nextUse) :
    (table.insertAll (resolve depth (lex second).endLine
      (parse depth s.nextUse (lex second)).statements).uses)[i]? = table[i]? := by
  have hstretch := stretch_of_parse h.parsed []
  rw [(resolve_of_reports_eq_nil hstretch.written h.resolved).1]
  exact hstretch.getElem?_insertAll_of_lt (.inl hi)

theorem Numbered.hasLines (h : s.Numbered) : s.machine.HasLines fun _ => True := by
  have hwithin : (Correspondence.below s.nextUse).Within ⟨fun l l' => l = l' ∧ True, Eq⟩ :=
    ⟨fun hl => ⟨hl, trivial⟩, fun hi => hi.1⟩
  exact Machine.Corresponds.mono hwithin h.machine fun _ _ hi => hi ▸ rfl

theorem Numbered.corresponds_self (h : s.Numbered) : s.machine.Corresponds .same "" s.machine :=
  h.machine.mono (Correspondence.below_within_same _) fun _ _ hi => hi ▸ rfl

/-- The second of two texts, run after the first, and a text that is made up of both. -/
structure RunsJoined (κ : Correspondence) (host : Host) (depth : Nat) (s : Session)
    (first second whole : String) : Prop where
  accepts : s.Accepts depth whole
  ending : ((s.run host depth first).2.run host depth second).1.ending.Corresponds κ
    (s.run host depth whole).1.ending
  machine : ((s.run host depth first).2.run host depth second).2.machine.Corresponds κ
    (s.run host depth first).1.output (s.run host depth whole).2.machine
  nextUse : ((s.run host depth first).2.run host depth second).2.nextUse =
    (s.run host depth whole).2.nextUse
  distances : ∃ uses, List.Forall₂ (Resolved.Corresponds κ)
      (resolve depth (lex second).endLine
        (parse depth (s.run host depth first).2.nextUse (lex second)).statements).uses uses ∧
    (s.run host depth whole).2.machine.distances =
      (s.run host depth first).2.machine.distances.insertAll uses

/-- **A text that is made up of two runs as the two do**, at lines that go together. -/
theorem runsJoined (host : Host) (huse : κ.use = Eq) (hs : s.Numbered)
    (hfirst : s.Accepts depth first) (hsecond : (s.run host depth first).2.Accepts depth second)
    (hfinished : (s.run host depth first).1.ending = .finished)
    (hkept : (s.run host depth first).2.machine.Corresponds κ ""
      (s.run host depth first).2.machine) (hjoins : Joins κ first second whole) :
    RunsJoined κ host depth s first second whole := by
  have hexecute := hfirst.execute_of_finished hfinished
  have hnext : (s.run host depth first).2.nextUse =
      (parse depth s.nextUse (lex first)).nextUse := by
    rw [run_of_accepts host hfirst]
  have houtput : (s.run host depth first).1.output = (s.run host depth first).2.machine.output := by
    rw [run_of_accepts host hfirst]
  have htable : (s.run host depth first).2.machine.distances = s.machine.distances.insertAll
      (resolve depth (lex first).endLine
        (parse depth s.nextUse (lex first)).statements).uses := by
    rw [run_of_accepts host hfirst]
    exact distances_executeProgram ..
  obtain ⟨ss, uses, hreads⟩ := readsJoined huse hfirst hsecond hnext hjoins
  have haccepts : s.Accepts depth whole := by
    refine ⟨hfirst.clear, hreads.lexed, ?_, ?_⟩
    · rw [hreads.parsed]
    · rw [hreads.parsed, hreads.resolved]
  -- What a text finds goes together with itself: its numbers are smaller than those of the text.
  have hself := hs.machine.mono (Correspondence.below_within (le_nextUse_parse depth s.nextUse
    (lex first))) fun _ _ hi => hi.1 ▸ rfl
  have hnew (table : Distances) (i : Nat) (hi : i < (s.run host depth first).2.nextUse) :=
    hsecond.distances_insertAll table hi
  rw [hnext] at hnew
  have hends := execute_append_corresponds host huse hself hfirst.corresponds_self hexecute hkept
    hreads.statements hreads.uses hnew
  obtain ⟨hending, hmachine⟩ := executeProgram_endsAlike hreads.endLine hends
  rw [← houtput] at hmachine
  have hrun := run_of_accepts host haccepts
  simp only [hreads.parsed, hreads.resolved] at hrun
  have hrun₂ := run_of_accepts host hsecond
  simp only [hnext] at hrun₂
  refine ⟨haccepts, ?_, ?_, ?_, uses, ?_, ?_⟩
  · rw [hrun, hrun₂]
    exact hending
  · rw [hrun, hrun₂]
    exact hmachine
  · rw [hrun, hrun₂]
  · rw [hnext]
    exact hreads.uses
  · rw [hrun, htable]
    exact (distances_executeProgram ..).trans List.foldl_append

/-- The flags behind two runs, the first of which ended well. -/
theorem Accepts.flags_run (host : Host) (h : s.Accepts depth first)
    (hfinished : (s.run host depth first).1.ending = .finished) :
    (s.run host depth first).2.hadError = s.hadError ∧
      (s.run host depth first).2.hadRuntimeError = s.hadRuntimeError := by
  rw [run_of_accepts host h] at hfinished ⊢
  dsimp only at hfinished ⊢
  rw [hfinished]
  exact ⟨rfl, Bool.or_false _⟩

/-!
## What a whole shows

Output, flags and number of the next use follow from the correspondence alone, whatever lines it
allows for. With a correspondence that allows for no change of lines, all else is equal too.
-/

namespace RunsJoined

variable {host : Host} (h : RunsJoined κ host depth s first second whole)
  (hfirst : s.Accepts depth first) (hsecond : (s.run host depth first).2.Accepts depth second)
  (hfinished : (s.run host depth first).1.ending = .finished)
include h hsecond

/-- The whole prints what the two print. -/
theorem output : (s.run host depth whole).1.output = (s.run host depth first).1.output ++
    ((s.run host depth first).2.run host depth second).1.output := by
  have houtput := h.machine.output
  rw [run_of_accepts host h.accepts] at houtput ⊢
  rw [run_of_accepts host hsecond] at houtput ⊢
  exact houtput

include hfirst hfinished

/-- The whole sets the flags that the two set. -/
theorem flags :
    (s.run host depth whole).2.hadError =
        ((s.run host depth first).2.run host depth second).2.hadError ∧
      (s.run host depth whole).2.hadRuntimeError =
        ((s.run host depth first).2.run host depth second).2.hadRuntimeError := by
  obtain ⟨herror, hruntime⟩ := hfirst.flags_run host hfinished
  have hfailure := h.ending.isFailure_eq
  rw [run_of_accepts host h.accepts] at hfailure ⊢
  rw [run_of_accepts host hsecond] at hfailure ⊢
  dsimp only at hfailure ⊢
  rw [hruntime, hfailure]
  exact ⟨herror.symm, rfl⟩

/-- Where lines and numbers are the same, so is everything but that the whole has printed what both
have. -/
theorem eq_of_same (hκ : κ = .same) :
    let r₁ := s.run host depth first
    let r₂ := r₁.2.run host depth second
    s.run host depth whole =
      ({ r₂.1 with output := r₁.1.output ++ r₂.1.output },
        { r₂.2 with
          machine := { r₂.2.machine with output := r₁.1.output ++ r₂.2.machine.output } }) := by
  subst hκ
  obtain ⟨uses, huses, htable⟩ := h.distances
  obtain rfl := Resolved.Corresponds.list_eq huses
  -- Where lines are the same, what corresponds is equal.
  have htranscript : (s.run host depth whole).1 =
      { ((s.run host depth first).2.run host depth second).1 with
        output := (s.run host depth first).1.output ++
          ((s.run host depth first).2.run host depth second).1.output } := by
    rw [← h.output hsecond]
    have hending := h.ending.eq fun _ _ => id
    rw [run_of_accepts host h.accepts] at hending ⊢
    rw [run_of_accepts host hsecond] at hending ⊢
    exact congrArg (Transcript.mk _ []) hending.symm
  have hmachine : (s.run host depth whole).2.machine =
      { ((s.run host depth first).2.run host depth second).2.machine with
        output := (s.run host depth first).1.output ++
          ((s.run host depth first).2.run host depth second).2.machine.output } := by
    have hdistances : ((s.run host depth first).2.run host depth second).2.machine.distances =
        (s.run host depth whole).2.machine.distances := by
      rw [htable, run_of_accepts host hsecond]
      exact distances_executeProgram ..
    have hsame := h.machine.eq_of_within ⟨id, id⟩
    rwa [← hdistances] at hsame
  obtain ⟨herror, hruntime⟩ := h.flags hfirst hsecond hfinished
  exact Prod.ext htranscript (Session.ext hmachine h.nextUse.symm herror hruntime)

end RunsJoined

end Session

/-- **A program can be run in pieces.** In a session, let each of two texts be without fault, and
let the first run to its end. Then both joined by a line break are without fault as well, and the
run of the whole prints what the two runs print, and leaves the same globals, flags and number of
the next use behind. What the second run adds to the table changes no distance that was there
before.

Only lines differ, and by where they come from. Let the second text begin later by as many lines as
the first has, so that its tokens are the same, but on the lines that they have in the whole. Then
its run after the first is the run of the whole itself: the same end at the same line, and the same
session with the same machine, but for the text that the first has printed. The run of the second
text as it is corresponds to it: the same message or missing name, the same frames, instances,
functions and classes at the same positions, and the same distances, where a line is paired with
itself if it is among those of functions from before, or with one that is later by the lines of the
first.

The nesting that is allowed for is the same throughout, and is exceeded in both ways or in none. -/
theorem run_join (host : Host) (depth : Nat) (steps : List SessionStep) (s : Session)
    (hs : s = (Session.initial.play host depth steps).2) (first second : String)
    (hfirst : s.Accepts depth first) (hsecond : s.Accepts depth second)
    (hfinished : (s.run host depth first).1.ending = .finished) :
    let r₁ := s.run host depth first
    let r₂ := r₁.2.run host depth second
    let r := s.run host depth (first ++ "\n" ++ second)
    let later := r₁.2.run host depth (sourceLater (lex first).endLine second)
    (s.Accepts depth (first ++ "\n" ++ second) ∧ r₁.2.Accepts depth second) ∧
    r.1.output = r₁.1.output ++ r₂.1.output ∧
    r.2.globals = r₂.2.globals ∧
    r.2.nextUse = r₂.2.nextUse ∧
    r.2.hadError = r₂.2.hadError ∧
    r.2.hadRuntimeError = r₂.2.hadRuntimeError ∧
    (∀ i : Nat, i < r₁.2.nextUse →
      r₂.2.machine.distances[i]? = r₁.2.machine.distances[i]?) ∧
    (lex (sourceLater (lex first).endLine second) = (lex second).later (lex first).endLine ∧
      (lex first).endLine = 1 + first.toList.count '\n') ∧
    (r.1 = { later.1 with output := r₁.1.output ++ later.1.output } ∧
      r.2 = { later.2 with
        machine := { later.2.machine with
          output := r₁.1.output ++ later.2.machine.output } }) ∧
    r₁.2.machine.HasLines (fun _ => True) ∧
    ∀ old, r₁.2.machine.HasLines old →
      let κ := Correspondence.joining old (lex second).endLine (lex first).endLine
      r₂.1.ending.Corresponds κ r.1.ending ∧
      r₂.2.machine.Corresponds κ r₁.1.output r.2.machine := by
  have hnumbered : s.Numbered := hs ▸ Session.numbered_initial.play host depth steps
  have hclear : (s.run host depth first).2.hadError = false :=
    (hfirst.flags_run host hfinished).1.trans hfirst.clear
  have haccepts : (s.run host depth first).2.Accepts depth second :=
    hsecond.of_clear (κ := .same) hclear (Lexed.corresponds_self (fun _ => rfl) _)
  have haccepts_later : (s.run host depth first).2.Accepts depth
      (sourceLater (lex first).endLine second) := by
    refine hsecond.of_clear (κ := ⟨fun _ _ => True, Eq⟩) hclear ?_
    rw [lex_sourceLater]
    exact Lexed.corresponds_later fun _ _ => trivial
  have hbehind := hnumbered.run host depth first
  have hlines := hbehind.hasLines
  -- The lines do not matter for what is claimed of the whole, so any lines will do at first.
  have hjoined (old : Nat → Prop) (hold : (s.run host depth first).2.machine.HasLines old) :
      Session.RunsJoined (.joining old (lex second).endLine (lex first).endLine) host depth s
        first second (first ++ "\n" ++ second) := by
    have hwithin : (⟨fun l l' => l = l' ∧ old l, Eq⟩ : Correspondence).Within
        (.joining old (lex second).endLine (lex first).endLine) := ⟨.inl, id⟩
    exact Session.runsJoined host rfl hnumbered hfirst haccepts hfinished
      (hold.mono hwithin fun _ _ hi => hi ▸ rfl)
      (joins_of_shifts hfirst.lexed (Correspondence.joining_shifts old _ _))
  have hwhole := hjoined _ hlines
  have hsame : Session.RunsJoined .same host depth s first
      (sourceLater (lex first).endLine second) (first ++ "\n" ++ second) :=
    Session.runsJoined host rfl hnumbered hfirst haccepts_later hfinished hbehind.corresponds_self
      (joins_sourceLater hfirst.lexed second)
  obtain ⟨herror, hruntime⟩ := hwhole.flags hfirst haccepts hfinished
  have heq := hsame.eq_of_same hfirst haccepts_later hfinished rfl
  refine ⟨⟨hwhole.accepts, haccepts⟩, hwhole.output haccepts, hwhole.machine.globals_eq.symm,
    hwhole.nextUse.symm, herror, hruntime, fun i hi => ?_,
    ⟨lex_sourceLater _ second, endLine_lex first⟩,
    ⟨congrArg Prod.fst heq, congrArg Prod.snd heq⟩, hlines,
    fun old hold => ⟨(hjoined old hold).ending, (hjoined old hold).machine⟩⟩
  rw [Session.run_of_accepts host haccepts]
  dsimp only
  rw [Session.distances_executeProgram]
  exact haccepts.distances_insertAll _ hi

/-- A function from the first text counts on in a second text, and then something fails: a call of
the second text, which is on its line 2 and on line 5 of the whole; or a function from the first
text, which is on line 3 either way. -/
theorem run_join_failing :
    let host : Host := ⟨fun _ => 0, 9⟩
    let s := (Session.initial.play host 40 [.run "var a = 1;"]).2
    let first :=
      "var f; \x7b var x = a; fun g() \x7b x = x + 1; print x; \x7d f = g; \x7d\nf();\n" ++
        "fun fails() \x7b nil(); \x7d"
    let calling := "f();\nnil();"
    let failing := "f();\n\n\n\nfails();"
    let failed (line : Nat) : Ending :=
      .failed ⟨.token ⟨.mark .rightParen, line⟩, .notCallable⟩
    s.Accepts 40 first ∧ s.Accepts 40 calling ∧ s.Accepts 40 failing ∧
      (s.run host 40 first).1 = ⟨"2\n", [], .finished⟩ ∧
      ((s.run host 40 first).2.run host 40 calling).1 = ⟨"3\n", [], failed 2⟩ ∧
      (s.run host 40 (first ++ "\n" ++ calling)).1 = ⟨"2\n3\n", [], failed 5⟩ ∧
      ((s.run host 40 first).2.run host 40 failing).1 = ⟨"3\n", [], failed 3⟩ ∧
      (s.run host 40 (first ++ "\n" ++ failing)).1 = ⟨"2\n3\n", [], failed 3⟩ := by
  intro host s first calling failing failed
  have hfirst : s.Accepts 40 first := by
    constructor <;> decide +kernel
  have hcalling : s.Accepts 40 calling := by
    constructor <;> decide +kernel
  have hfailing : s.Accepts 40 failing := by
    constructor <;> decide +kernel
  have hrun : (s.run host 40 first).1 = ⟨"2\n", [], .finished⟩ := by decide +kernel
  have hfinished : (s.run host 40 first).1.ending = .finished := by rw [hrun]
  obtain ⟨-, -, -, -, -, -, -, -, ⟨hwhole, -⟩, -⟩ :=
    run_join host 40 [.run "var a = 1;"] s rfl first calling hfirst hcalling hfinished
  obtain ⟨-, -, -, -, -, -, -, -, ⟨hwhole', -⟩, -⟩ :=
    run_join host 40 [.run "var a = 1;"] s rfl first failing hfirst hfailing hfinished
  -- Three lines later, the second texts run as they do behind the first.
  have hlater : ((s.run host 40 first).2.run host 40 (sourceLater (lex first).endLine calling)).1 =
      ⟨"3\n", [], failed 5⟩ := by decide +kernel
  have hlater' : ((s.run host 40 first).2.run host 40 (sourceLater (lex first).endLine failing)).1 =
      ⟨"3\n", [], failed 3⟩ := by decide +kernel
  rw [hlater, hrun] at hwhole
  rw [hlater', hrun] at hwhole'
  exact ⟨hfirst, hcalling, hfailing, hrun, by decide +kernel, hwhole, by decide +kernel, hwhole'⟩

end LoxLang
