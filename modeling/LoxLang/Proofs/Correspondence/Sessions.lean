import LoxLang.Proofs.Acceptance
import LoxLang.Proofs.Correspondence.Evaluation
import LoxLang.Proofs.Correspondence.Parsing
import LoxLang.Proofs.Correspondence.Resolving
import LoxLang.Proofs.Evolution
import LoxLang.Proofs.Grammar.Numbering
import LoxLang.Proofs.Scoping.Distances

/-!
# Sessions that correspond

Sessions that differ in the numbers of uses only show the same and go on to differ in these only
(`Session.Corresponds.run`). Numbers below that of the next use are all that a session refers to
(`Session.Numbered`), so later numbers may be others.
-/

namespace LoxLang

variable {κ : Correspondence} {before : String} {m m' : Machine}

/-!
## Tables

Entries go together if their uses do. To look one up in both tables, no number may go together with
two others.
-/

/-- No number goes together with two others. -/
def Correspondence.OneToOne (κ : Correspondence) : Prop :=
  ∀ i i' j j', κ.use i i' → κ.use j j' → (i = j ↔ i' = j')

/-- Entering the uses of programs that correspond keeps tables in correspondence. -/
theorem Distances.insertAll_corresponds (hone : κ.OneToOne) {uses uses' : List Resolved}
    (huses : List.Forall₂ (Resolved.Corresponds κ) uses uses') {T T' : Distances}
    (hT : ∀ i i', κ.use i i' → T[i]? = T'[i']?) :
    ∀ i i', κ.use i i' → (T.insertAll uses)[i]? = (T'.insertAll uses')[i']? := by
  induction huses generalizing T T' with
  | nil => exact hT
  | @cons u u' uses uses' hu _ ih =>
    refine ih fun i i' hi => ?_
    rw [getElem?_insert, getElem?_insert, hu.distance]
    have heq := hone _ _ _ _ hu.id hi
    by_cases h : u.id = i
    · rw [if_pos h, if_pos (heq.mp h)]
    · rw [if_neg h, if_neg (mt heq.mpr h), hT i i' hi]

/-!
## Programs

Programs that correspond end in ways that do. What one has printed the other has printed, too.
-/

/-- The same end of a run, with places that go together. -/
inductive Ending.Corresponds (κ : Correspondence) : Ending → Ending → Prop
  | refused : Corresponds κ .refused .refused
  | finished : Corresponds κ .finished .finished
  | failed {p p' : Location} (hp : p.Corresponds κ p') (e : RuntimeError) :
      Corresponds κ (.failed ⟨p, e⟩) (.failed ⟨p', e⟩)
  | lost (e : FrameError) : Corresponds κ (.lost e) (.lost e)
  | endless : Corresponds κ .endless .endless

/-- Both fail, or neither does. -/
theorem Ending.Corresponds.isFailure_eq {e e' : Ending} (h : e.Corresponds κ e') :
    e.isFailure = e'.isFailure := by
  cases h <;> rfl

/-- Runs that showed the same, with places that go together. -/
structure Transcript.Corresponds (κ : Correspondence) (t t' : Transcript) : Prop where
  output : t.output = t'.output
  reports : List.Forall₂ (Report.Corresponds κ) t.reports t'.reports
  ending : t.ending.Corresponds κ t'.ending

/-- Runs that are broken off for the same reason end in the same way. -/
theorem Abort.Corresponds.ending {a a' : Abort} (h : a.Corresponds κ a') {l l' : Nat}
    (hl : κ.line l l') : (Ending.ofAbort l a).Corresponds κ (Ending.ofAbort l' a') := by
  cases h with
  | failure hp e => exact .failed hp e
  | frame e => exact .lost e
  | tooDeep => exact .failed (.endOfSource hl) _
  | endless => exact .endless

/-- Before a program, the text printed so far is forgotten and the table is another one. -/
theorem Machine.Corresponds.restart (h : m.Corresponds κ before m') {T T' : Distances}
    (hT : ∀ i i', κ.use i i' → T[i]? = T'[i']?) :
    ({ m with output := "", distances := T } : Machine).Corresponds κ ""
      { m' with output := "", distances := T' } :=
  { h with distances := hT, output := rfl }

/-- How a program ends is told by how the run of its statements does. -/
theorem executeProgram_endsAlike {host : Host} {depth l l' : Nat} (hl : κ.line l l')
    {ss ss' : List Stmt} {uses uses' : List Resolved}
    (h : EndsAlike (Machine.Corresponds κ before) (Abort.Corresponds κ) Eq
      (execute host depth ss { m with output := "", distances := m.distances.insertAll uses })
      (execute host depth ss' { m' with
        output := "", distances := m'.distances.insertAll uses' })) :
    let r := Session.executeProgram host depth l ss uses m
    let r' := Session.executeProgram host depth l' ss' uses' m'
    r.1.Corresponds κ r'.1 ∧ r.2.Corresponds κ before r'.2 := by
  unfold Session.executeProgram
  dsimp only
  generalize execute host depth ss _ = r at h
  generalize execute host depth ss' _ = r' at h
  cases h with
  | ok _ hs => exact ⟨.finished, hs⟩
  | error he hs => exact ⟨he.ending hl, hs⟩

/-- What is executed goes together, and so does what comes of it. -/
theorem executeProgram_corresponds (host : Host) (depth : Nat) (hone : κ.OneToOne)
    (h : m.Corresponds κ before m') {l l' : Nat} (hl : κ.line l l') {ss ss' : List Stmt}
    (hss : List.Forall₂ (Stmt.Corresponds κ) ss ss') {uses uses' : List Resolved}
    (huses : List.Forall₂ (Resolved.Corresponds κ) uses uses') :
    let r := Session.executeProgram host depth l ss uses m
    let r' := Session.executeProgram host depth l' ss' uses' m'
    r.1.Corresponds κ r'.1 ∧ r.2.Corresponds κ "" r'.2 :=
  executeProgram_endsAlike hl (execute_corresponds host depth hss _ _
    (h.restart (Distances.insertAll_corresponds hone huses h.distances)))

/-!
## The same lines

If lines go together with themselves only, nothing that is shown differs.
-/

/-- A text goes together with itself. -/
theorem Lexed.corresponds_self (hline : ∀ l, κ.line l l) (l : Lexed) : l.Corresponds κ l := by
  have htoken (t : Token) : t.Corresponds κ t := ⟨rfl, hline t.line⟩
  refine ⟨List.forall₂_same.mpr fun t _ => htoken t, List.forall₂_same.mpr fun r _ => ?_,
    hline l.endLine⟩
  match r with
  | .lexical l e => exact .lexical (hline l) e
  | .located (.token t) e => exact .located (.token (htoken t)) e
  | .located (.endOfSource l) e => exact .located (.endOfSource (hline l)) e

section SameLines

variable (hline : ∀ l l', κ.line l l' → l = l')
include hline

/-- Places are told by lines. -/
theorem Location.Corresponds.eq {p p' : Location} (h : p.Corresponds κ p') : p = p' := by
  cases h with
  | @token t t' ht =>
    obtain ⟨kind, l⟩ := t
    obtain ⟨kind', l'⟩ := t'
    have hkind : kind = kind' := ht.kind
    have hl : l = l' := hline _ _ ht.line
    rw [hkind, hl]
  | endOfSource hl => rw [hline _ _ hl]

/-- Reports show lines, and no numbers of uses. -/
theorem reports_eq {rs rs' : List Report} (h : List.Forall₂ (Report.Corresponds κ) rs rs') :
    rs = rs' := by
  rw [← List.forall₂_eq_eq_eq]
  refine h.imp fun r r' h => ?_
  cases h with
  | lexical hl e => rw [hline _ _ hl]
  | located hp e => rw [hp.eq hline]

/-- So do failures. -/
theorem Ending.Corresponds.eq {e e' : Ending} (h : e.Corresponds κ e') : e = e' := by
  cases h with
  | failed hp e => rw [hp.eq hline]
  | _ => rfl

/-- So all that a run shows is the same. -/
theorem Transcript.Corresponds.eq {t t' : Transcript} (h : t.Corresponds κ t') : t = t' := by
  obtain ⟨output, reports, ending⟩ := t
  obtain ⟨houtput, hreports, hending⟩ := h
  cases houtput
  cases reports_eq hline hreports
  cases hending.eq hline
  rfl

end SameLines

/-!
## Sessions

A step of one session is followed by a step of the other one, and they correspond again.
-/

/-- Sessions that hold the same but for numbers of uses. All numbers that they will give go
together. -/
structure Session.Corresponds (κ : Correspondence) (s s' : Session) : Prop where
  machine : s.machine.Corresponds κ "" s'.machine
  nextUse : ∀ k, κ.use (s.nextUse + k) (s'.nextUse + k)
  hadError : s.hadError = s'.hadError
  hadRuntimeError : s.hadRuntimeError = s'.hadRuntimeError

/-- The texts of values show no lines and no numbers of uses. -/
theorem Machine.Corresponds.globals_eq {s s' : Session}
    (h : s.machine.Corresponds κ before s'.machine) : s.globals = s'.globals := by
  have hglobals : s.machine.globals = s'.machine.globals := by
    unfold Machine.globals
    rw [h.frames]
  unfold Session.globals
  rw [hglobals]
  exact List.map_congr_left fun b _ => Prod.ext rfl (h.text b.2)

/-- What differs in numbers only. -/
structure Correspondence.Renumbers (κ : Correspondence) : Prop where
  line : κ.line = Eq
  oneToOne : κ.OneToOne

/-- What is forgotten is forgotten in both. -/
theorem Session.Corresponds.reset {s s' : Session} (h : s.Corresponds κ s') :
    s.reset.Corresponds κ s'.reset := ⟨h.machine, h.nextUse, rfl, rfl⟩

/-- Something is reported in both, or in neither. -/
theorem isEmpty_eq_of_corresponds {rs rs' : List Report}
    (h : List.Forall₂ (Report.Corresponds κ) rs rs') : rs.isEmpty = rs'.isEmpty := by
  cases h <;> rfl

/-- **Sources of the same tokens run alike.** Whatever lines their tokens are on, what is shown is
the same at places that go together, and so is what is left behind. -/
theorem Session.Corresponds.run_of_lexed (host : Host) (depth : Nat) (hone : κ.OneToOne)
    {s s' : Session} (h : s.Corresponds κ s') {source source' : String}
    (hlexed : (lex source).Corresponds κ (lex source')) :
    (s.run host depth source).1.Corresponds κ (s'.run host depth source').1 ∧
      (s.run host depth source).2.Corresponds κ (s'.run host depth source').2 := by
  have hparse := parse_corresponds depth hlexed h.nextUse
  have hresolve := resolve_corresponds depth hlexed.endLine hparse.statements
  have hreports := List.rel_append hlexed.reports hparse.reports
  unfold Session.run
  dsimp only
  rw [← h.hadError, ← h.hadRuntimeError, ← isEmpty_eq_of_corresponds hreports,
    ← isEmpty_eq_of_corresponds hresolve.reports]
  -- The three outcomes of a run: refused by the reader, refused by the resolver, executed.
  split
  · exact ⟨⟨rfl, hreports, .refused⟩, h.machine, hparse.nextUse, rfl, rfl⟩
  · split
    · exact ⟨⟨rfl, hresolve.reports, .refused⟩, h.machine, hparse.nextUse, rfl, rfl⟩
    · obtain ⟨hending, hmachine⟩ := executeProgram_corresponds host depth hone h.machine
        hlexed.endLine hparse.statements hresolve.uses
      rw [← hending.isFailure_eq]
      refine ⟨⟨?_, .nil, hending⟩, hmachine, hparse.nextUse, rfl, rfl⟩
      rw [hmachine.output, String.empty_append]

/-- **Numbers of uses do not show.** What a source text shows does not depend on the numbers from
which its uses are counted, and what it leaves behind depends on them in no other way. -/
theorem Session.Corresponds.run (host : Host) (depth : Nat) (hκ : κ.Renumbers) {s s' : Session}
    (h : s.Corresponds κ s') (source : String) :
    (s.run host depth source).1 = (s'.run host depth source).1 ∧
      (s.run host depth source).2.Corresponds κ (s'.run host depth source).2 := by
  have hlines (l : Nat) : κ.line l l := hκ.line ▸ rfl
  obtain ⟨htranscript, hbehind⟩ := h.run_of_lexed host depth hκ.oneToOne
    ((lex source).corresponds_self hlines)
  exact ⟨htranscript.eq fun _ _ hl => hκ.line ▸ hl, hbehind⟩

/-!
## Numbers that a session refers to

Numbers below that of the next use. Numbers from there on can be exchanged in the programs to come.
-/

/-- The same lines, and the same numbers below a bound. -/
def Correspondence.below (n : UseId) : Correspondence := ⟨Eq, fun i j => i = j ∧ i < n⟩

/-- The more numbers have been given, the more go together. -/
theorem Correspondence.below_within {n n' : UseId} (h : n ≤ n') :
    (below n).Within (below n') :=
  ⟨id, fun hi => ⟨hi.1, Nat.lt_of_lt_of_le hi.2 h⟩⟩

theorem Correspondence.below_within_same (n : UseId) : (below n).Within same :=
  ⟨id, fun hi => hi.1⟩

/-- Each goes together with itself. -/
theorem Correspondence.below_oneToOne (n : UseId) : (below n).OneToOne := by
  rintro i _ j _ ⟨rfl, -⟩ ⟨rfl, -⟩
  exact Iff.rfl

/-- Functions that go together still do where more goes together. -/
theorem Closure.Corresponds.mono {κ' : Correspondence} (hκ : κ.Within κ') {c c' : Closure}
    (h : c.Corresponds κ c') : c.Corresponds κ' c' :=
  ⟨h.name, h.params.imp fun _ _ hx => hx.mono hκ, stmts_corresponds_mono hκ h.body, h.frame,
    h.isInitializer⟩

/-- And so do classes. -/
theorem ClassInfo.Corresponds.mono {κ' : Correspondence} (hκ : κ.Within κ') {info info' : ClassInfo}
    (h : info.Corresponds κ info') : info.Corresponds κ' info' :=
  ⟨h.name, h.superclass, h.methods.imp fun _ _ hm => ⟨hm.1, hm.2.mono hκ⟩, h.staticMethods⟩

/-- A correspondence of states can be widened where their tables agree. -/
theorem Machine.Corresponds.mono {κ' : Correspondence} (hκ : κ.Within κ')
    (h : m.Corresponds κ before m')
    (hT : ∀ i i', κ'.use i i' → m.distances[i]? = m'.distances[i']?) :
    m.Corresponds κ' before m' :=
  { h with
    functions := h.functions.mono fun _ _ hc => hc.mono hκ
    classes := h.classes.mono fun _ _ hc => hc.mono hκ
    distances := hT }

/-- Where only the same goes together, functions are the same. -/
theorem Closure.Corresponds.eq {c c' : Closure} (h : c.Corresponds .same c') : c = c' := by
  obtain ⟨hname, hparams, hbody, hframe, hinit⟩ := h
  obtain ⟨name?, params, body, frame, isInitializer⟩ := c
  cases hname
  cases names_eq hparams
  cases stmts_eq hbody
  cases hframe
  cases hinit
  rfl

/-- So are methods. -/
theorem MethodsCorrespond.eq {bs bs' : Bindings Closure} (h : MethodsCorrespond .same bs bs') :
    bs = bs' := by
  rw [← List.forall₂_eq_eq_eq]
  exact h.imp fun _ _ hb => Prod.ext hb.1 hb.2.eq

/-- So are classes. -/
theorem ClassInfo.Corresponds.eq {info info' : ClassInfo} (h : info.Corresponds .same info') :
    info = info' := by
  obtain ⟨hname, hsuperclass, hmethods, hstatics⟩ := h
  obtain ⟨name, superclass, methods, staticMethods⟩ := info
  cases hname
  cases hsuperclass
  cases hmethods.eq
  cases hstatics
  rfl

/-- Where no two lines and no two numbers go together, states that correspond differ in their tables
and in what was printed before. -/
theorem Machine.Corresponds.eq_of_within (hκ : κ.Within .same) (h : m.Corresponds κ before m') :
    m' = { m with distances := m'.distances, output := before ++ m.output } := by
  obtain ⟨hframes, hfunctions, hclasses, hinstances, hcurrent, -, houtput, hclock⟩ := h
  have hfunctions := (hfunctions.mono fun _ _ hc => (hc.mono hκ).eq).eq
  have hclasses := (hclasses.mono fun _ _ hc => (hc.mono hκ).eq).eq
  obtain ⟨frames, functions, classes, instances, current, distances, output, clockReadings⟩ := m'
  dsimp only at *
  rw [hframes, hfunctions, hclasses, hinstances, hcurrent, houtput, hclock]

/-- The numbers of the uses in a session, in its functions and in its table, are below that of the
next use. -/
structure Session.Numbered (s : Session) : Prop where
  machine : s.machine.Corresponds (.below s.nextUse) "" s.machine
  fresh : ∀ i : Nat, s.nextUse ≤ i → s.machine.distances[i]? = none

/-- No number has been given, and none is referred to. -/
theorem Session.numbered_initial : Session.initial.Numbered := by
  refine ⟨⟨rfl, ⟨rfl, ?_⟩, ⟨rfl, ?_⟩, rfl, rfl, fun i _ h => h.1 ▸ rfl, rfl, rfl⟩,
    fun i _ => Std.TreeMap.getElem?_emptyc⟩
  · intro i c c' hc
    cases hc
  · intro i info info' hinfo
    cases hinfo

/-- Numbers stay when errors are forgotten. -/
theorem Session.Numbered.reset {s : Session} (h : s.Numbered) : s.reset.Numbered :=
  ⟨h.machine, h.fresh⟩

/-- Evaluation leaves the table of distances alone. -/
theorem evolution_keepsDistances : Evolution fun m m' => m'.distances = m.distances where
  refl _ := rfl
  trans h h' := h'.trans h
  inFrame _ h := h
  newFrame _ _ _ := rfl
  define _ _ _ _ := rfl
  newFunction _ _ := rfl
  newClass _ _ := rfl
  newInstance _ _ := rfl
  setField _ _ _ _ := rfl
  print _ _ := rfl
  countReading _ := rfl

/-- Of all steps only the first one, which enters the uses of the program, changes the table. -/
theorem Session.distances_executeProgram (host : Host) (depth endLine : Nat)
    (program : List Stmt) (uses : List Resolved) (m : Machine) :
    (executeProgram host depth endLine program uses m).2.distances =
      m.distances.insertAll uses :=
  evolution_keepsDistances.executeProgram host depth endLine program uses m

/-- An accepted program refers to numbers below that of the next use only. -/
theorem Session.Accepts.corresponds_self {depth : Nat} {s : Session} {source : String}
    (h : s.Accepts depth source) :
    List.Forall₂ (Stmt.Corresponds (.below (parse depth s.nextUse (lex source)).nextUse))
      (parse depth s.nextUse (lex source)).statements
      (parse depth s.nextUse (lex source)).statements := by
  have hstretch := stretch_of_parse h.parsed []
  exact stmts_corresponds_self _ ⟨fun _ => rfl, fun v hv =>
    ⟨rfl, (hstretch.range v.id (Stretch.id_mem hv)).2⟩⟩

/-- What a program refers to has been numbered when it was parsed. -/
theorem Session.Numbered.run (host : Host) (depth : Nat) {s : Session} (h : s.Numbered)
    (source : String) :
    (s.run host depth source).2.Numbered := by
  have hle := le_nextUse_parse depth s.nextUse (lex source)
  have hmachine := h.machine.mono (Correspondence.below_within hle) fun _ _ hi => hi.1 ▸ rfl
  -- A session corresponds to itself with numbers below the next one, and a run uses new numbers
  -- only.
  by_cases ha : s.Accepts depth source
  · have hprogram := ha.corresponds_self
    have huses := (resolve_corresponds depth (l := (lex source).endLine) rfl hprogram).uses
    obtain ⟨-, hbehind⟩ := executeProgram_corresponds host depth
      (Correspondence.below_oneToOne _) hmachine (l := (lex source).endLine) rfl hprogram huses
    rw [run_of_accepts host ha]
    refine ⟨hbehind, fun i hi => ?_⟩
    dsimp only at hi ⊢
    rw [distances_executeProgram, Distances.getElem?_insertAll_of_ne]
    · exact h.fresh i (Nat.le_trans hle hi)
    · rintro u hu rfl
      exact Nat.not_lt.mpr hi (List.forall₂_same.mp huses u hu).id.2
  · obtain ⟨reports, hrun, -⟩ := run_of_not_accepts host ha
    rw [hrun]
    exact ⟨hmachine, fun i hi => h.fresh i (Nat.le_trans hle hi)⟩

end LoxLang
