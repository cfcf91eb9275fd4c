import LoxLang.Proofs.Grammar.Exactness
import LoxLang.Proofs.Munching
import LoxLang.Proofs.Scoping

/-!
# Trees read from a source text

What holds of each tree that the grammar derives from the tokens of a text, whatever scopes it is
looked at in (`Stretch`): names are no keywords, what a condition governs declares nothing, and no
two uses have the same number. `Derives.numbered` is the induction over derivations.
-/

namespace LoxLang

/-! ## Words -/

/-- A token that is an identifier is no keyword. -/
def Token.Named (t : Token) : Prop := ∀ x, t.kind = .identifier x → IsName x

theorem isName_of_ofText? {x : String} (h : Keyword.ofText? x = none) : IsName x := by
  constructor <;> rintro rfl <;> exact absurd h (by decide)

/-- Each token comes from a piece. -/
theorem mem_of_mem_ofPieces {line : Nat} {ps : List Piece} {t : Token}
    (h : t ∈ (Lexed.ofPieces line ps).tokens) : .token t.kind ∈ ps := by
  induction ps generalizing line with
  | nil => cases h
  | cons p ps ih =>
    cases p with
    | token kind =>
      rcases List.mem_cons.mp h with rfl | h
      · exact List.mem_cons_self
      · exact List.mem_cons_of_mem _ (ih h)
    | _ => exact List.mem_cons_of_mem _ (ih h)

theorem named_of_mem_lex {source : String} {t : Token} (h : t ∈ (lex source).tokens) : t.Named := by
  intro x hx
  have hmem := mem_of_mem_ofPieces h
  rw [hx] at hmem
  exact isName_of_ofText? (ofText?_of_mem_pieces hmem)

/-!
## Stretches of occurrences

Numbers of uses are counted while a text is read, so a part of the text has a range of them. The
walk may meet the uses in another order, so what is said of the range does not depend on the order.
-/

/-- The number of a use. -/
def Occurrence.id? : Occurrence → Option UseId
  | use v => some v.id
  | _ => none

/-- Occurrences that are read from a text, whose uses have different numbers from `n` up to before
`m`. -/
structure Stretch (n m : Nat) (os : List Occurrence) : Prop where
  le : n ≤ m
  written : ∀ o ∈ os, o.Written
  nodup : (os.filterMap Occurrence.id?).Nodup
  range : ∀ i : Nat, i ∈ os.filterMap Occurrence.id? → n ≤ i ∧ i < m

namespace Stretch

variable {n m k : Nat} {os os' : List Occurrence}

theorem nil (n : Nat) : Stretch n n [] := ⟨Nat.le_refl n, by simp, by simp, by simp⟩

theorem perm (h : Stretch n m os) (hp : os.Perm os') : Stretch n m os' := by
  have hids := hp.filterMap Occurrence.id?
  exact ⟨h.le, fun o ho => h.written o (hp.mem_iff.mpr ho), hids.nodup_iff.mp h.nodup,
    fun i hi => h.range i (hids.mem_iff.mpr hi)⟩

theorem append (h : Stretch n m os) (h' : Stretch m k os') : Stretch n k (os ++ os') := by
  refine ⟨Nat.le_trans h.le h'.le, ?_, ?_, ?_⟩
  · intro o ho
    rcases List.mem_append.mp ho with ho | ho
    · exact h.written o ho
    · exact h'.written o ho
  · rw [List.filterMap_append, List.nodup_append]
    refine ⟨h.nodup, h'.nodup, ?_⟩
    -- A number of both stretches would be below `m` and not below it.
    rintro i hi _ hj rfl
    have := h.range i hi
    have := h'.range i hj
    omega
  · intro i hi
    rw [List.filterMap_append] at hi
    have := h.le
    have := h'.le
    rcases List.mem_append.mp hi with hi | hi
    · have := h.range i hi
      omega
    · have := h'.range i hi
      omega

/-- What is read first may be met last. -/
theorem append_swap (h : Stretch n m os) (h' : Stretch m k os') : Stretch n k (os' ++ os) :=
  (h.append h').perm List.perm_append_comm

theorem weaken (h : Stretch (n + 1) m os) : Stretch n m os :=
  ⟨Nat.le_of_succ_le h.le, h.written, h.nodup, fun i hi =>
    ⟨Nat.le_of_succ_le (h.range i hi).1, (h.range i hi).2⟩⟩

/-- An occurrence that is no use takes no number. -/
theorem cons {o : Occurrence} (h : Stretch n m os) (ho : o.Written) (hid : o.id? = none) :
    Stretch n m (o :: os) := by
  refine ⟨h.le, List.forall_mem_cons.mpr ⟨ho, h.written⟩, ?_, ?_⟩
  · rw [List.filterMap_cons_none hid]
    exact h.nodup
  · rw [List.filterMap_cons_none hid]
    exact h.range

theorem declaration {name : String} {scopes : List Scope} (h : Stretch n m os)
    (hname : IsName name) : Stretch n m (.declaration name scopes :: os) :=
  h.cons hname rfl

theorem body {s : Stmt} (h : Stretch n m os) (hs : s.declares = false) :
    Stretch n m (.body s :: os) :=
  h.cons hs rfl

theorem use {v : Visit} (hid : v.id = n)
    (hname : v.kind = .«variable» ∨ v.kind = .assignment → IsName v.name) :
    Stretch n (n + 1) [.use v] := by
  refine ⟨Nat.le_succ n, ?_, ?_, ?_⟩
  · exact List.forall_mem_singleton.mpr hname
  · simp [Occurrence.id?]
  · simp [Occurrence.id?, hid]

end Stretch

/-!
## Phrases

For each kind of phrase, that its trees make a stretch in whatever scopes they are looked at.
Parameters take no numbers. A `for` loop is made from parts that were read in another order.
-/

/-- What holds of a phrase whose uses have numbers from `n` up to before `m`. -/
def Phrase.Numbered (n m : Nat) : Phrase → Prop
  | .primary e | .call e | .unary e | .chain _ e | .expression e =>
    ∀ S, Stretch n m (e.occurrences S)
  | .arguments es | .moreArguments es => ∀ S, Stretch n m (exprsOccurrences S es)
  | .parameters xs | .moreParameters xs => n = m ∧ ∀ x ∈ xs, IsName x.text
  | .«variable» s | .declaration s => ∀ S, Stretch n m (s.occurrences S)
  | .statement _ s => s.declares = false ∧ ∀ S, Stretch n m (s.occurrences S)
  | .initializer s => ∀ S, Stretch n m (s.elim [] (Stmt.occurrences S))
  | .clause e => ∀ S, Stretch n m (e.elim [] (Expr.occurrences S))
  | .declarations ss => ∀ S, Stretch n m (stmtsOccurrences S ss)
  | .function f => IsName f.name.text ∧ ∀ S, Stretch n m (f.occurrences S)
  | .members fs gs => ∀ S S', Stretch n m (functionsOccurrences S gs ++ functionsOccurrences S' fs)

theorem Phrase.numbered_operand {n m : Nat} {l : Level} {e : Expr} :
    (l.operand e).Numbered n m ↔ ∀ S, Stretch n m (e.occurrences S) := by
  cases l <;> rfl

theorem stretch_parameters {n m : Nat} {xs : List Name} {os : List Occurrence}
    (hxs : ∀ x ∈ xs, IsName x.text) (h : Stretch n m os) (scopes : List Scope) :
    Stretch n m (parameterOccurrences scopes xs ++ os) := by
  induction xs generalizing scopes with
  | nil => exact h
  | cons x xs ih =>
    exact (ih (fun y hy => hxs y (List.mem_cons_of_mem _ hy)) _).declaration
      (hxs x List.mem_cons_self)

theorem stretch_loopTree {n m k j i : Nat} {first : Option Stmt} {condition last : Option Expr}
    {s : Stmt} (hfirst : (Phrase.initializer first).Numbered n m)
    (hcondition : (Phrase.clause condition).Numbered m k)
    (hlast : (Phrase.clause last).Numbered k j) (hbody : s.declares = false)
    (hs : ∀ S, Stretch j i (s.occurrences S)) (S : List Scope) :
    Stretch n i ((loopTree first condition last s).occurrences S) := by
  -- The last clause is read before the body, and met behind it.
  have hround (S : List Scope) : Stretch k i (.body
      (last.elim s fun e => .block [s, .expression e]) ::
        (last.elim s fun e => .block [s, .expression e]).occurrences S) := by
    cases last with
    | none => exact ((hlast S).append (hs S)).body hbody
    | some e =>
      have hround := (hlast (s.scopesAfter ([] :: S))).append_swap (hs ([] :: S))
      refine Stretch.body ?_ rfl
      simpa [Stmt.occurrences, stmtsOccurrences] using hround
  have hloop (S : List Scope) : Stretch m i ((Stmt.whileDo
      (condition.getD (.literal (.bool true)))
        (last.elim s fun e => .block [s, .expression e])).occurrences S) := by
    cases condition with
    | none => exact (hcondition S).append (hround S)
    | some e => exact (hcondition S).append (hround S)
  cases first with
  | none =>
    have h := (hfirst S).append (hloop S)
    cases last <;> exact h
  | some st =>
    have h := (hfirst ([] :: S)).append (hloop (st.scopesAfter ([] :: S)))
    cases last <;> simpa [loopTree, Stmt.occurrences, stmtsOccurrences] using h

/-- **What is read from a text.** Induction on the derivation. Uses are numbered as they are read,
so the parts of a phrase have numbers from ranges that follow each other. -/
theorem Derives.numbered {d n m : Nat} {ph : Phrase} {ts : List Token} (h : Derives d ph n ts m)
    (hts : ∀ t ∈ ts, t.Named) : ph.Numbered n m := by
  -- A name of the tree is a token of the text, and no token of a text is a hidden name.
  have hname {x : Name} {ts : List Token} (hts : ∀ t ∈ ts, t.Named) (hx : x.token ∈ ts) :
      IsName x.text := hts _ hx _ rfl
  induction h with
  | literal => exact fun _ => .nil _
  | «variable» => exact fun _ => .use rfl fun _ => hname hts (by simp)
  | grouping _ ih => exact ih fun t ht => hts t (by simp [ht])
  | lambda _ _ _ ihxs ih =>
    have hxs := ihxs fun t ht => hts t (by simp [ht])
    have hbody := ih fun t ht => hts t (by simp [ht])
    exact fun S => stretch_parameters hxs.2 (hbody _) _
  | this => exact fun _ => .use rfl (by simp)
  | super => exact fun _ => .use rfl (by simp)
  | primary _ ih => exact ih hts
  | call _ _ _ ih ihes =>
    exact fun S => (ih (fun t ht => hts t (by simp [ht])) S).append
      (ihes (fun t ht => hts t (by simp [ht])) S)
  | get _ ih => exact ih fun t ht => hts t (by simp [ht])
  | noArguments => exact fun _ => .nil _
  | arguments _ _ ih ihes =>
    exact fun S => (ih (fun t ht => hts t (by simp [ht])) S).append
      (ihes (fun t ht => hts t (by simp [ht])) S)
  | noMoreArguments => exact fun _ => .nil _
  | moreArguments _ _ ih ihes =>
    exact fun S => (ih (fun t ht => hts t (by simp [ht])) S).append
      (ihes (fun t ht => hts t (by simp [ht])) S)
  | suffixed _ ih => exact ih hts
  | unary _ ih => exact ih fun t ht => hts t (by simp [ht])
  | operand _ ih => exact Phrase.numbered_operand.mp (ih hts)
  | joined _ hop _ ih ih' =>
    intro S
    have hboth := (ih (fun t ht => hts t (by simp [ht])) S).append
      (Phrase.numbered_operand.mp (ih' fun t ht => hts t (by simp [ht])) S)
    rcases Level.join_of_mem_operators hop with ⟨op, rfl⟩ | ⟨op, rfl⟩ <;> exact hboth
  | value _ ih => exact ih hts
  | assign _ ih =>
    exact fun S => ((ih (fun t ht => hts t (by simp [ht])) S).append
      (.use rfl fun _ => hname hts (by simp))).weaken
  | set _ _ ih ih' =>
    exact fun S => (ih (fun t ht => hts t (by simp [ht])) S).append_swap
      (ih' (fun t ht => hts t (by simp [ht])) S)
  | noParameters => exact ⟨rfl, by simp⟩
  | parameters _ ih =>
    have hxs := ih fun t ht => hts t (by simp [ht])
    exact ⟨rfl, List.forall_mem_cons.mpr ⟨hname hts (by simp), hxs.2⟩⟩
  | noMoreParameters => exact ⟨rfl, by simp⟩
  | moreParameters _ ih =>
    have hxs := ih fun t ht => hts t (by simp [ht])
    exact ⟨rfl, List.forall_mem_cons.mpr ⟨hname hts (by simp), hxs.2⟩⟩
  | effect _ ih => exact ⟨rfl, ih fun t ht => hts t (by simp [ht])⟩
  | print _ ih => exact ⟨rfl, ih fun t ht => hts t (by simp [ht])⟩
  | block _ ih => exact ⟨rfl, fun S => ih (fun t ht => hts t (by simp [ht])) _⟩
  | @returnValue _ _ _ _ _ _ e _ ih =>
    have he := ih fun t ht => hts t (by simp [ht])
    refine ⟨rfl, fun S => ?_⟩
    cases e <;> exact he S
  | whileDo _ _ ih ih' =>
    obtain ⟨hbody, hs⟩ := ih' fun t ht => hts t (by simp [ht])
    exact ⟨rfl, fun S => (ih (fun t ht => hts t (by simp [ht])) S).append ((hs S).body hbody)⟩
  | ifThen _ _ ih ih' =>
    obtain ⟨hbody, hs⟩ := ih' fun t ht => hts t (by simp [ht])
    exact ⟨rfl, fun S => (ih (fun t ht => hts t (by simp [ht])) S).append ((hs S).body hbody)⟩
  | ifElse _ _ _ ih ih' ih'' =>
    obtain ⟨hbody, hs⟩ := ih' fun t ht => hts t (by simp [ht])
    obtain ⟨hbody', hs'⟩ := ih'' fun t ht => hts t (by simp [ht])
    exact ⟨rfl, fun S => (ih (fun t ht => hts t (by simp [ht])) S).append
      (((hs S).append ((hs' S).body hbody')).body hbody)⟩
  | @forLoop _ _ _ _ _ _ _ _ _ _ _ _ _ _ _ first _ last _ _ _ _ _ ih ih' ih'' ihs =>
    obtain ⟨hbody, hs⟩ := ihs fun t ht => hts t (by simp [ht])
    refine ⟨?_, stretch_loopTree (ih fun t ht => hts t (by simp [ht]))
      (ih' fun t ht => hts t (by simp [ht])) (ih'' fun t ht => hts t (by simp [ht])) hbody hs⟩
    cases first <;> cases last <;> rfl
  | noInitializer => exact fun _ => .nil _
  | variableInitializer _ ih => exact ih fun t ht => hts t (by simp [ht])
  | effectInitializer _ ih => exact ih fun t ht => hts t (by simp [ht])
  | noClause => exact fun _ => .nil _
  | clause _ ih => exact ih hts
  | variableNil => exact fun _ => (Stretch.nil _).declaration (hname hts (by simp))
  | @variableValue _ _ _ _ _ _ x _ _ ih =>
    intro S
    have he := ih (fun t ht => hts t (by simp [ht])) (Scope.enter x.text false S)
    exact Stretch.declaration (he.cons trivial rfl) (hname hts (by simp))
  | function _ _ _ ihxs ih =>
    have hxs := ihxs fun t ht => hts t (by simp [ht])
    have hbody := ih fun t ht => hts t (by simp [ht])
    exact ⟨hname hts (by simp), fun S => stretch_parameters hxs.2 (hbody _) _⟩
  | noMembers => exact fun _ _ => .nil _
  | method _ _ ih ih' =>
    intro S S'
    have hf := (ih fun t ht => hts t (by simp [ht])).2 S'
    have hrest := ih' (fun t ht => hts t (by simp [ht])) S S'
    refine (hf.append hrest).perm ?_
    rw [functionsOccurrences]
    exact List.perm_append_comm_assoc _ _ _
  | staticMethod _ _ ih ih' =>
    intro S S'
    rw [functionsOccurrences, List.append_assoc]
    exact ((ih fun t ht => hts t (by simp [ht])).2 S).append
      (ih' (fun t ht => hts t (by simp [ht])) S S')
  | statement _ ih => exact (ih hts).2
  | variableDecl _ ih => exact ih fun t ht => hts t (by simp [ht])
  | functionDecl _ ih =>
    obtain ⟨hf, hbody⟩ := ih fun t ht => hts t (by simp [ht])
    exact fun S => (hbody _).declaration hf
  | classDecl _ ih =>
    exact fun S => (ih (fun t ht => hts t (by simp [ht])) _ _).declaration (hname hts (by simp))
  | @subclassDecl _ n _ _ _ _ _ _ x y _ _ _ ih =>
    have hx : IsName x.text := hname hts (by simp)
    have hy : IsName y.text := hname hts (by simp)
    intro S
    have hread : Stretch n (n + 1)
        [.use ⟨.«variable», y.text, y.line, n, Scope.enter x.text true S⟩] := .use rfl fun _ => hy
    have huse : Stretch n (n + 1) (superclassOccurrences (Scope.enter x.text true S) x
        (some ⟨n, y⟩)) := hread.cons trivial rfl
    exact (huse.append (ih (fun t ht => hts t (by simp [ht])) _ _)).declaration hx
  | noDeclarations => exact fun _ => .nil _
  | declarations _ _ ih ih' =>
    exact fun S => (ih (fun t ht => hts t (by simp [ht])) S).append
      (ih' (fun t ht => hts t (by simp [ht])) _)

/-- What holds of a program that is parsed from a text without a report. -/
theorem stretch_of_parse {depth firstUse : Nat} {source : String}
    (h : (parse depth firstUse (lex source)).reports = []) (S : List Scope) :
    Stretch firstUse (parse depth firstUse (lex source)).nextUse
      (stmtsOccurrences S (parse depth firstUse (lex source)).statements) :=
  (derives_of_reports_eq_nil h).numbered (fun _ ht => named_of_mem_lex ht) S

end LoxLang
