import LoxLang.Proofs.Grammar.Completeness
import LoxLang.Proofs.Grammar.Soundness

/-!
# The parser accepts exactly the grammar

Soundness and completeness for whole programs. With a bound on nesting, parsing without a report is
the same as a derivation within the bound, of the same tree and over all tokens
(`parse_eq_iff_derives`). Where the bound is not what parsing stopped at, derivations of any depth
count (`parse_accepts_exactly`), so a program has one tree at most: the grammar is unambiguous.
-/

namespace LoxLang

open LoxLang.Parser Nested

variable {depth firstUse : Nat} {lexed : Lexed}

/-- Parsing did not stop at the bound of nesting. -/
def Parsed.WithinDepth (p : Parsed) : Prop := ∀ place, .located place .nesting ∉ p.reports

/-!
## The loop of a program

The loop reads declarations one by one up to the end. It reports nothing if and only if none of them
does.
-/

/-- Whatever is wrong with its statements, a program is read to some end. -/
theorem program_eq_ok (rules : Nested) (fuel : Nat) (s : ParserState) :
    ∃ xs s', program rules fuel s = .ok xs s' := by
  induction fuel generalizing s with
  | zero => exact ⟨[], s, rfl⟩
  | succ fuel ih =>
    unfold program
    split
    · exact ⟨[], s, rfl⟩
    · split
      · next x s₁ hfirst =>
        obtain ⟨xs, s', hmore⟩ := ih s₁
        exact ⟨_, s', by rw [hmore]⟩
      · next s₁ hfirst =>
        obtain ⟨rest, endLine, reports, nextUse, bound⟩ := s₁
        cases rest <;> exact ⟨[], _, rfl⟩

/-- A program that is derived is read to its end. Below the depth of its derivation, parsing may
stop instead, and then reports so. -/
theorem program_of_derives {d n m : Nat} {ts : List Token} {xs : List Stmt}
    (h : Derives d (.declarations xs) n ts m) (k fuel : Nat) (s : ParserState)
    (hfuel : ts.length < fuel) (hbound : ts.length < s.bound) :
    program (grammar k) fuel (s.place ts n) = .ok xs (s.place [] m) ∨
      k < d ∧ ∃ ys s' place, program (grammar k) fuel (s.place ts n) = .ok ys s' ∧
        .located place .nesting ∈ s'.reports := by
  -- Declaration by declaration. Each is read, or found to be nested too deeply, which ends all.
  induction xs generalizing n ts fuel with
  | nil =>
    cases h
    cases fuel <;> exact .inl rfl
  | cons x xs ih =>
    obtain ⟨fuel, rfl⟩ : ∃ fuel', fuel = fuel' + 1 := ⟨fuel - 1, by omega⟩
    cases h with
    | @declarations d _ j _ ts ts' _ _ hx hxs =>
      have hlen := List.length_pos_iff.mpr hx.declaration_ne_nil
      have hne : ¬(s.place (ts ++ ts') n).rest.isEmpty := by
        simp [ParserState.place, hx.declaration_ne_nil]
      simp only [List.length_append] at hfuel hbound
      -- No declaration begins with `else`, so none is taken into the one before.
      have helse : NotNext (.keyword .«else») ts' := by
        have hnil : NotNext (.keyword .«else») [] := fun _ _ h => by cases h
        have hend := hxs.notNext_else hnil
        rwa [List.append_nil] at hend
      unfold program
      rw [if_neg hne]
      rcases nestedDeclaration hx.accepted k s ts' helse (by simpa using hbound) with
        hfirst | ⟨hdeep, s', hfirst⟩
      · rw [hfirst]
        rcases ih hxs fuel (by omega) (by omega) with hmore | ⟨hdeep, ys, s', place, hmore, hmem⟩
        · exact .inl (by simp only [hmore, Option.toList, List.cons_append, List.nil_append])
        · exact .inr ⟨hdeep, x :: ys, s', place, by simp only [hmore]; rfl, hmem⟩
      · rw [hfirst]
        refine .inr ⟨hdeep, [], ?_⟩
        obtain ⟨rest, endLine, reports, nextUse, bound⟩ := s'
        cases rest with
        | nil => exact ⟨_, _, rfl, List.mem_append_right _ (List.mem_singleton.mpr rfl)⟩
        | cons t rest => exact ⟨_, _, rfl, List.mem_append_right _ (List.mem_singleton.mpr rfl)⟩

/-!
## Programs

With soundness and completeness, to be accepted is to be derived, and there is one derivation at
most.
-/

/-- What parsing accepts without a report is derived within the bound of nesting. -/
theorem derives_of_reports_eq_nil (h : (parse depth firstUse lexed).reports = []) :
    Derives depth (.declarations (parse depth firstUse lexed).statements) firstUse lexed.tokens
      (parse depth firstUse lexed).nextUse := by
  have hreads := reads_program depth (lexed.tokens.length + 1)
    ⟨lexed.tokens, lexed.endLine, [], firstUse, lexed.tokens.length + 1⟩
  obtain ⟨xs, s', hrun⟩ := program_eq_ok (grammar depth) (lexed.tokens.length + 1)
    ⟨lexed.tokens, lexed.endLine, [], firstUse, lexed.tokens.length + 1⟩
  unfold parse at h ⊢
  simp only [hrun] at h hreads ⊢
  obtain ⟨hnil, ts, hts, hxs⟩ := hreads.2 h (Nat.lt_succ_self _)
  rw [hnil, List.append_nil] at hts
  rwa [← hts] at hxs

/-- What is derived is parsed without a report to the tree that was derived, unless parsing stops
at the bound of nesting above it. -/
theorem parse_of_derives {d m : Nat} {xs : List Stmt}
    (h : Derives d (.declarations xs) firstUse lexed.tokens m) :
    parse depth firstUse lexed = ⟨xs, [], m⟩ ∨
      depth < d ∧ ¬(parse depth firstUse lexed).WithinDepth := by
  have hrun := program_of_derives h depth (lexed.tokens.length + 1)
    ⟨lexed.tokens, lexed.endLine, [], firstUse, lexed.tokens.length + 1⟩ (Nat.lt_succ_self _)
      (Nat.lt_succ_self _)
  simp only [ParserState.place] at hrun
  unfold parse
  rcases hrun with hrun | ⟨hdeep, ys, s', place, hrun, hmem⟩
  · simp only [hrun, true_or]
  · simp only [hrun]
    exact .inr ⟨hdeep, fun h => h place hmem⟩

/-- **Parsing accepts what the grammar derives within the bound of nesting**, and gives the tree of
the derivation. -/
theorem parse_eq_iff_derives {xs : List Stmt} {next : UseId} :
    parse depth firstUse lexed = ⟨xs, [], next⟩ ↔
      Derives depth (.declarations xs) firstUse lexed.tokens next := by
  constructor
  · intro h
    have hreports : (parse depth firstUse lexed).reports = [] := by rw [h]
    have hderives := derives_of_reports_eq_nil hreports
    rwa [h] at hderives
  · intro h
    rcases parse_of_derives h with hparse | ⟨hlt, -⟩
    · exact hparse
    · exact absurd hlt (Nat.lt_irrefl depth)

/-- **The parser accepts exactly its grammar.** Where parsing does not stop at the bound of nesting,
it reports nothing if and only if the tokens are derived by the grammar, with whatever nesting; and
then it gives the tree of the derivation, which accounts for each token once and in order. -/
theorem parse_accepts_exactly (depth firstUse : Nat) (lexed : Lexed)
    (hdepth : (parse depth firstUse lexed).WithinDepth) :
    ((parse depth firstUse lexed).reports = [] ↔
      ∃ levels xs next, Derives levels (.declarations xs) firstUse lexed.tokens next) ∧
    ∀ levels xs next, Derives levels (.declarations xs) firstUse lexed.tokens next →
      parse depth firstUse lexed = ⟨xs, [], next⟩ := by
  have htree {levels xs next} (h : Derives levels (.declarations xs) firstUse lexed.tokens next) :
      parse depth firstUse lexed = ⟨xs, [], next⟩ :=
    (parse_of_derives h).resolve_right fun ⟨_, hstop⟩ => hstop hdepth
  refine ⟨⟨fun h => ⟨depth, _, _, derives_of_reports_eq_nil h⟩, ?_⟩, fun _ _ _ => htree⟩
  rintro ⟨levels, xs, next, h⟩
  rw [htree h]

/-- The tokens of `if (a) if (b) c; else d = e.f(g);`. -/
def danglingElse : List Token :=
  [Keyword.«if».token 1, Mark.leftParen.token 1, Name.token ⟨"a", 1⟩, Mark.rightParen.token 1,
    Keyword.«if».token 1, Mark.leftParen.token 1, Name.token ⟨"b", 1⟩, Mark.rightParen.token 1,
    Name.token ⟨"c", 1⟩, Mark.semicolon.token 1, Keyword.«else».token 1, Name.token ⟨"d", 1⟩,
    Mark.equal.token 1, Name.token ⟨"e", 1⟩, Mark.dot.token 1, Name.token ⟨"f", 1⟩,
    Mark.leftParen.token 1, Name.token ⟨"g", 1⟩, Mark.rightParen.token 1, Mark.semicolon.token 1]

/-- A program with two `if` and one `else` is derived, since it is parsed without a report. -/
theorem danglingElse_derives :
    (parse 5 0 ⟨danglingElse, 1, []⟩).reports = [] ∧
      ∃ levels xs next, Derives levels (.declarations xs) 0 danglingElse next := by
  have hreports : (parse 5 0 ⟨danglingElse, 1, []⟩).reports = [] := by decide +kernel
  have hdepth : (parse 5 0 ⟨danglingElse, 1, []⟩).WithinDepth := by
    intro place
    rw [hreports]
    exact List.not_mem_nil
  exact ⟨hreports, (parse_accepts_exactly 5 0 ⟨danglingElse, 1, []⟩ hdepth).1.mp hreports⟩

end LoxLang
