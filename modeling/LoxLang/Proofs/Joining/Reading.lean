import LoxLang.Proofs.Correspondence.Parsing
import LoxLang.Proofs.Correspondence.Resolving
import LoxLang.Proofs.Grammar.Exactness
import LoxLang.Proofs.Munching
import LoxLang.Proofs.Scoping.Walk

/-!
# Texts joined by a line break

How two source texts are read that are written one behind the other, with a line break in between.
No piece runs over the break unless a quotation mark has no partner, so that the tokens are those of
the one text followed by those of the other, on later lines (`lex_followedBy`). The parser has
nothing left over at the end of the first text (`parse_followedBy`), and resolving has no scope open
there and remembers no name (`resolve_append`).
-/

namespace LoxLang

/-- Steps for a list, the first of which are known to end with a result. -/
theorem forM_append_of_ok {ε σ α : Type} {f : α → EStateM ε σ Unit} {xs : List α} {s s' : σ}
    (h : xs.forM f s = .ok () s') (ys : List α) : (xs ++ ys).forM f s = ys.forM f s' := by
  have hbind : (xs ++ ys).forM f = xs.forM f >>= fun _ => ys.forM f := List.forM_append
  rw [hbind]
  show EStateM.bind (xs.forM f) (fun _ => ys.forM f) s = _
  rw [EStateM.bind, h]

/-!
## Pieces

Behind a line break the scanner starts anew. What a token needs to look at ends at the break at the
latest, unless it is a string that is still open.
-/

theorem takeWhile_append_stop {p : Char → Bool} {d : Char} (hd : p d = false)
    (cs more : List Char) : (cs ++ d :: more).takeWhile p = cs.takeWhile p := by
  rw [List.takeWhile_append]
  split
  · next hall =>
    rw [List.takeWhile_cons_of_neg (by simp [hd]), List.append_nil]
    exact ((List.takeWhile_prefix p).eq_of_length hall).symm
  · rfl

theorem dropWhile_append_stop {p : Char → Bool} {d : Char} (hd : p d = false)
    (cs more : List Char) : (cs ++ d :: more).dropWhile p = cs.dropWhile p ++ d :: more := by
  rw [List.dropWhile_append]
  split
  · next hnone =>
    rw [List.isEmpty_iff.mp hnone, List.dropWhile_cons_of_neg (by simp [hd]), List.nil_append]
  · rfl

section Ahead

variable (rest more : List Char)

theorem markBeforeEqual_append (short long : Mark) :
    markBeforeEqual short long (rest ++ '\n' :: more) =
      ((markBeforeEqual short long rest).1,
        (markBeforeEqual short long rest).2 ++ '\n' :: more) := by
  unfold markBeforeEqual
  cases rest with
  | nil => rfl
  | cons d rest =>
    by_cases hd : d = '='
    · subst hd
      rfl
    · simp [hd]

theorem afterSlash_append :
    afterSlash (rest ++ '\n' :: more) =
      ((afterSlash rest).1, (afterSlash rest).2 ++ '\n' :: more) := by
  unfold afterSlash
  cases rest with
  | nil => rfl
  | cons d rest =>
    by_cases hd : d = '/'
    · subst hd
      simp only [List.cons_append]
      rw [takeWhile_append_stop rfl, dropWhile_append_stop rfl]
    · simp [hd]

theorem afterQuote_append (h : ∀ body, (afterQuote rest).1 ≠ .unterminated body) :
    afterQuote (rest ++ '\n' :: more) =
      ((afterQuote rest).1, (afterQuote rest).2 ++ '\n' :: more) := by
  have hparts := List.takeWhile_append_dropWhile (p := (· ≠ '"')) (l := rest)
  unfold afterQuote at h ⊢
  dsimp only at h ⊢
  cases hdrop : rest.dropWhile (· ≠ '"') with
  | nil =>
    rw [hdrop] at h
    exact absurd rfl (h _)
  | cons d rest' =>
    obtain rfl := head_dropWhile_eq_quote hdrop
    -- The partner is before the line break.
    rw [hdrop] at hparts
    have hcontent : ∀ e ∈ rest.takeWhile (· ≠ '"'), (e ≠ '"' : Bool) = true := all_takeWhile _ _
    have hwhole : rest ++ '\n' :: more =
        rest.takeWhile (· ≠ '"') ++ '"' :: (rest' ++ '\n' :: more) := by
      conv_lhs => rw [← hparts]
      simp
    rw [hwhole, List.takeWhile_append_of_pos hcontent, List.dropWhile_append_of_pos hcontent]
    simp

theorem afterDigit_append (c : Char) :
    afterDigit c (rest ++ '\n' :: more) =
      ((afterDigit c rest).1, (afterDigit c rest).2 ++ '\n' :: more) := by
  unfold afterDigit
  dsimp only
  rw [takeWhile_append_stop rfl, dropWhile_append_stop rfl]
  generalize rest.dropWhile isDigit = ahead
  match ahead with
  | [] => rfl
  | [d] =>
    -- A point before the line break has no digit behind it.
    by_cases hd : d = '.'
    · subst hd
      rfl
    · simp [hd]
  | d :: e :: ahead =>
    by_cases hd : d = '.'
    · subst hd
      simp only [List.cons_append]
      split
      · rw [takeWhile_append_stop rfl, dropWhile_append_stop rfl]
      · rfl
    · simp [hd]

theorem afterNameStart_append (c : Char) :
    afterNameStart c (rest ++ '\n' :: more) =
      ((afterNameStart c rest).1, (afterNameStart c rest).2 ++ '\n' :: more) := by
  unfold afterNameStart
  rw [takeWhile_append_stop rfl, dropWhile_append_stop rfl]

/-- Whatever follows behind a line break, the same piece is taken before it. -/
theorem nextPiece_append (c : Char) (h : ∀ body, (nextPiece c rest).1 ≠ .unterminated body) :
    nextPiece c (rest ++ '\n' :: more) =
      ((nextPiece c rest).1, (nextPiece c rest).2 ++ '\n' :: more) := by
  -- A line break ends every piece that could go on, except for an unterminated string.
  unfold nextPiece
  split
  · rfl
  split
  · exact markBeforeEqual_append rest more _ _
  split
  · exact afterSlash_append rest more
  split
  · rfl
  split
  · next hquote =>
    subst hquote
    exact afterQuote_append rest more h
  split
  · exact afterDigit_append rest more c
  split
  · exact afterNameStart_append rest more c
  · rfl

end Ahead

/-- What stands before a line break and what stands behind it are cut each on its own. -/
theorem pieces_append {cs : List Char} (h : ∀ body, .unterminated body ∉ pieces cs)
    (more : List Char) : pieces (cs ++ '\n' :: more) = pieces cs ++ .blank '\n' :: pieces more := by
  fun_induction pieces cs with
  | case1 =>
    rw [List.nil_append, pieces]
    rfl
  | case2 c rest ih =>
    simp only [List.mem_cons, not_or] at h
    rw [List.cons_append, pieces, nextPiece_append rest more c fun body => (h body).1 ∘ Eq.symm,
      ih fun body => (h body).2, List.cons_append]

/-!
## Tokens

The tokens of both texts one after the other, those of the second with their lines shifted by the
lines of the first.
-/

/-- Tokens and reports of one stretch of pieces, and of another behind it. -/
def Lexed.followedBy (l l' : Lexed) : Lexed :=
  ⟨l.tokens ++ l'.tokens, l'.endLine, l.reports ++ l'.reports⟩

theorem Lexed.cons_followedBy (p : Piece) (line : Nat) (l l' : Lexed) :
    (Lexed.cons p line l).followedBy l' = Lexed.cons p line (l.followedBy l') := by
  cases p <;> rfl

theorem Lexed.endLine_cons (p : Piece) (line : Nat) (l : Lexed) :
    (Lexed.cons p line l).endLine = l.endLine := by
  cases p <;> rfl

theorem Lexed.ofPieces_append (line : Nat) (ps qs : List Piece) :
    ofPieces line (ps ++ qs) =
      (ofPieces line ps).followedBy (ofPieces (ofPieces line ps).endLine qs) := by
  induction ps generalizing line with
  | nil => rfl
  | cons p ps ih =>
    rw [List.cons_append, ofPieces, ofPieces, ih, cons_followedBy, endLine_cons]

theorem Lexed.le_endLine_ofPieces (line : Nat) (ps : List Piece) :
    line ≤ (ofPieces line ps).endLine := by
  induction ps generalizing line with
  | nil => exact Nat.le_refl _
  | cons p ps ih =>
    rw [ofPieces, endLine_cons]
    exact Nat.le_trans (Nat.le_add_right _ _) (ih _)

variable {κ : Correspondence} {k : Nat}

/-- Lines of a source go together with those that are later by a number of lines. -/
def Correspondence.Shifts (κ : Correspondence) (k last : Nat) : Prop :=
  ∀ l ≤ last, κ.line l (l + k)

/-- The same pieces some lines later. -/
theorem Lexed.ofPieces_corresponds (line : Nat) (ps : List Piece)
    (h : κ.Shifts k (ofPieces line ps).endLine) :
    (ofPieces line ps).Corresponds κ (ofPieces (line + k) ps) := by
  induction ps generalizing line with
  | nil => exact ⟨.nil, .nil, h line (Nat.le_refl _)⟩
  | cons p ps ih =>
    rw [ofPieces, endLine_cons] at h
    have hline := h _ (le_endLine_ofPieces _ ps)
    have hrest := ih (line + p.lineBreaks) h
    rw [ofPieces, ofPieces, Nat.add_right_comm]
    cases p with
    | token kind => exact { hrest with tokens := .cons ⟨rfl, hline⟩ hrest.tokens }
    | comment body => exact hrest
    | blank c => exact hrest
    | unexpected c => exact { hrest with reports := .cons (.lexical hline _) hrest.reports }
    | unterminated body => exact { hrest with reports := .cons (.lexical hline _) hrest.reports }

/-- A text without an unterminated string is cut to its end, and what stands behind a line break is
cut from the line after. -/
theorem lex_followedBy {first : String} (h : ∀ body, .unterminated body ∉ pieces first.toList)
    (second : String) :
    lex (first ++ "\n" ++ second) =
      (lex first).followedBy (.ofPieces ((lex first).endLine + 1) (pieces second.toList)) := by
  have hpieces : pieces (first ++ "\n" ++ second).toList =
      pieces first.toList ++ .blank '\n' :: pieces second.toList := by
    rw [String.toList_append, String.toList_append, List.append_assoc]
    exact pieces_append h second.toList
  rw [lex, hpieces, Lexed.ofPieces_append]
  rfl

/-! ## Trees -/

/-- What is declared first and what is declared then. -/
theorem Derives.append {d n m k : Nat} {ts ts' : List Token} {ss ss' : List Stmt}
    (h : Derives d (.declarations ss) n ts m) (h' : Derives d (.declarations ss') m ts' k) :
    Derives d (.declarations (ss ++ ss')) n (ts ++ ts') k := by
  induction ss generalizing n ts with
  | nil =>
    cases h
    exact h'
  | cons s ss ih =>
    cases h with
    | declarations hs hss =>
      rw [List.cons_append, List.append_assoc]
      exact .declarations hs (ih hss)

/-- **A text that is read without fault is read to its end** before what follows is looked at. -/
theorem parse_followedBy {depth firstUse : Nat} {l l' : Lexed}
    (h : (parse depth firstUse l).reports = [])
    (h' : (parse depth (parse depth firstUse l).nextUse l').reports = []) :
    parse depth firstUse (l.followedBy l') =
      ⟨(parse depth firstUse l).statements ++
          (parse depth (parse depth firstUse l).nextUse l').statements, [],
        (parse depth (parse depth firstUse l).nextUse l').nextUse⟩ :=
  parse_eq_iff_derives.mpr ((derives_of_reports_eq_nil h).append (derives_of_reports_eq_nil h'))

/-!
## Distances

Between two programs no scope is open, so the distances in each are what they are alone.
-/

/-- Behind a program without fault no scope is open, and no initializer is being looked at. -/
theorem walk_of_reports_eq_nil {depth endLine : Nat} {program : List Stmt}
    (hwritten : ∀ o ∈ stmtsOccurrences [] program, o.Written)
    (h : (resolve depth endLine program).reports = []) :
    (program.forM ((scopeWalk depth).stmt ⟨.none, .none⟩) : Resolver Unit) ⟨[], [], [], []⟩ =
      .ok () ⟨[], [], (resolve depth endLine program).uses.reverse, []⟩ := by
  have hwalks := walks_stmts (walks_scopeWalk depth) ⟨.none, .none⟩ program ⟨[], [], [], []⟩
  unfold resolve at h ⊢
  split at hwalks
  · next s' hrun =>
    simp only [hrun] at h ⊢
    have hmet := hwalks.2 h trivial hwritten
    -- All scopes that were opened are closed, and all initializers are over.
    have hscopes : s'.scopes = [] := hmet.scopes.trans (foldl_scopesAfter_nil program)
    have hinitializing : s'.initializing = [] :=
      List.eq_nil_iff_forall_not_mem.mpr fun x hx => List.not_mem_nil (hmet.initializing x hx)
    obtain ⟨scopes, initializing, uses, reports⟩ := s'
    dsimp only at h hscopes hinitializing ⊢
    rw [hscopes, hinitializing, h, List.reverse_reverse]
  · next s' hrun =>
    simp [hrun] at h

/-- **Nothing is remembered at the end of a program** that could change how what follows is
resolved. -/
theorem resolve_append {depth : Nat} {program ss ss' : List Stmt} {l l' : Nat} (endLine : Nat)
    (hwritten : ∀ o ∈ stmtsOccurrences [] program, o.Written)
    (h : (resolve depth l program).reports = []) (hss : List.Forall₂ (Stmt.Corresponds κ) ss ss')
    (h' : (resolve depth l' ss).reports = []) :
    ∃ uses, List.Forall₂ (Resolved.Corresponds κ) (resolve depth l' ss).uses uses ∧
      resolve depth endLine (program ++ ss') = ⟨(resolve depth l program).uses ++ uses, []⟩ := by
  have hwalk : Resolver.Mirror κ (resolve depth l program).uses.reverse
      (ss.forM ((scopeWalk depth).stmt ⟨.none, .none⟩))
      (ss'.forM ((scopeWalk depth).stmt ⟨.none, .none⟩)) :=
    .forM hss fun _ _ hs => (mirror_scopeWalk depth).stmt _ hs
  -- The second program is walked from no scopes in both, and in the whole behind other uses.
  have hends := hwalk ⟨[], [], [], []⟩ ⟨[], [], (resolve depth l program).uses.reverse, []⟩
    ⟨rfl, rfl, ⟨[], .nil, rfl⟩, .nil⟩
  have hwhole := forM_append_of_ok (walk_of_reports_eq_nil hwritten h) ss'
  unfold resolve at h' ⊢
  rw [hwhole]
  generalize (ss.forM _ : Resolver Unit) _ = r at h' hends ⊢
  generalize (ss'.forM _ : Resolver Unit) _ = r' at hends ⊢
  cases hends with
  | ok _ hs =>
    obtain ⟨us, hus, huses⟩ := hs.uses
    have hreports := hs.reports
    dsimp only at h' ⊢
    rw [h', List.forall₂_nil_left_iff] at hreports
    refine ⟨us.reverse, List.rel_reverse hus, ?_⟩
    rw [huses, hreports, List.reverse_append, List.reverse_reverse]
    rfl
  | @error e _ _ _ he hs =>
    cases e
    simp at h'

end LoxLang
