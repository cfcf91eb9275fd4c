import LoxLang.Proofs.Appending.Programs

/-!
# Parsing comes to its end

Any tokens can be parsed, however ill-formed. `parse_total` says that a tree comes out and that no
loop is stopped by the number of times that it may be entered, that no rule of the grammar leaves
the tokens or goes back in them, that each declaration takes a token, and that all tokens have been
looked at in the end unless something is nested too deeply.
-/

namespace LoxLang

open LoxLang.Parser Nested

variable {α : Type} {s s' : ParserState} {tokens : List Token} {i : Nat}

/-!
## Positions

The place of a parser in a text is a number. Parsers go forward, so the number never falls, and it
is never beyond the end of the text.
-/

/-- A parser stands at a token of a text, counted from the first one, or at the end of the text. -/
structure ParserState.At (s : ParserState) (tokens : List Token) (i : Nat) : Prop where
  le : i ≤ tokens.length
  rest : s.rest = tokens.drop i

/-- However a parser ends that is started in a text, it stands in the text, and not further in front
than before. -/
def Parser.Forward (tokens : List Token) (p : Parser α) : Prop :=
  ∀ s i, s.At tokens i → ∃ j, i ≤ j ∧ (stateOf (p s)).At tokens j

/-- The rules of the grammar do not go back. -/
structure Nested.Forward (tokens : List Token) (rules : Nested) : Prop where
  declaration : rules.declaration.Forward tokens
  statement : rules.statement.Forward tokens
  expression : rules.expression.Forward tokens
  unary : rules.unary.Forward tokens

/-- What a parser can look at: the tokens, and behind the last one the end of the source. -/
def Lexed.places (lexed : Lexed) : List Location :=
  lexed.tokens.map .token ++ [.endOfSource lexed.endLine]

theorem ParserState.At.length_rest (h : s.At tokens i) : s.rest.length = tokens.length - i := by
  rw [h.rest, List.length_drop]

theorem ParserState.At.advance (h : s.At tokens i) (hadvance : Advance False s s') :
    s'.At tokens (tokens.length - s'.rest.length) ∧ i ≤ tokens.length - s'.rest.length := by
  have hsuffix : s'.rest <:+ tokens :=
    hadvance.rest.trans (h.rest ▸ List.drop_suffix i tokens)
  have hlength := hadvance.length_le
  rw [h.length_rest] at hlength
  have hle := h.le
  refine ⟨⟨Nat.sub_le _ _, List.suffix_iff_eq_drop.mp hsuffix⟩, ?_⟩
  omega

theorem Parser.Advances.forward {calm : Prop} {p : Parser α} (h : p.Advances calm)
    (tokens : List Token) : p.Forward tokens := by
  intro s i hs
  obtain ⟨hat, hle⟩ := hs.advance (h s).advance
  exact ⟨_, hle, hat⟩

theorem forward_grammar (tokens : List Token) (depth : Nat) : (grammar depth).Forward tokens := by
  have htracks := tracking_grammar ⟨[], []⟩ depth
  exact ⟨(htracks.declaration 0 0).advances.forward tokens,
    (htracks.statement 0 0).advances.forward tokens,
    (htracks.expression 0 0).advances.forward tokens, (htracks.unary 0 0).advances.forward tokens⟩

/-- At each position there is something to look at. -/
theorem getElem?_places {lexed : Lexed} (h : s.At lexed.tokens i)
    (hline : s.endLine = lexed.endLine) : lexed.places[i]? = some s.location := by
  unfold Lexed.places ParserState.location
  rw [h.rest]
  rcases Nat.lt_or_eq_of_le h.le with hlt | rfl
  · rw [List.getElem?_append_left (by simpa using hlt), List.drop_eq_getElem_cons hlt]
    simp [hlt]
  · simp [hline]

/-- What takes a token at most goes to the next position at most. -/
theorem accept?_at (f : TokenKind → Option α) (h : s.At tokens i) :
    ∃ j, i ≤ j ∧ j ≤ i + 1 ∧ (stateOf (accept? f s)).At tokens j := by
  rcases accept?_cases f s with ⟨t, rest, a, hrest, -, hrun⟩ | ⟨hrun, -⟩
  · rw [hrun]
    have hlength := h.length_rest
    rw [hrest, List.length_cons] at hlength
    refine ⟨i + 1, Nat.le_succ i, Nat.le_refl _, by omega, ?_⟩
    have hdrop := h.rest
    rw [hrest] at hdrop
    show rest = tokens.drop (i + 1)
    rw [List.drop_add_one_eq_tail_drop, ← hdrop]
    rfl
  · rw [hrun]
    exact ⟨i, Nat.le_refl i, Nat.le_succ i, h⟩

/-- A declaration that is begun at a token takes one, also if it has a mistake. -/
theorem declaration_forward (depth : Nat) (hs : s.At tokens i) (hi : i < tokens.length) :
    (∃ found s' j, (grammar depth).declaration s = .ok found s' ∧ i < j ∧ s'.At tokens j) ∨
      ∃ s', (grammar depth).declaration s = .error .tooDeep s' := by
  rcases declaration_cases depth s with ⟨found, s', hrun⟩ | hdeep
  · left
    have htracks := tracking_grammar ⟨[], []⟩ depth
    have hadvance : Advance False s s' := by
      have hends := (htracks.declaration 0 0).advances s
      rw [hrun] at hends
      exact hends.advance
    have hlength := hs.length_rest
    -- Tokens are left, and a declaration takes one at least.
    have hne : s.rest ≠ [] := by
      apply List.ne_nil_of_length_pos
      omega
    have htakes := htracks.takes s found s' hrun hne
    refine ⟨found, s', tokens.length - s'.rest.length, hrun, ?_, (hs.advance hadvance).1⟩
    omega
  · exact .inr hdeep

/-!
## Programs

Each declaration takes a token, so as much fuel as there are tokens is never used up, and more of it
changes nothing.
-/

/-- With enough rounds, a program has one and the same result. -/
theorem program_result (depth firstUse : Nat) (lexed : Lexed) :
    ∃ ss, ∃ s : ParserState, s.Exhausted ∧
      ∀ n b, lexed.tokens.length < n → lexed.tokens.length < b →
        program (grammar depth) n ⟨lexed.tokens, lexed.endLine, [], firstUse, b⟩ =
          .ok ss { s with bound := b } := by
  -- The result with one bound serves for all others, since the bound is only handed on.
  obtain ⟨m, hm⟩ : ∃ m, lexed.tokens.length < m := ⟨_, Nat.lt_succ_self _⟩
  obtain ⟨ss, s, hrun, hend⟩ := program_total
    (s := ⟨lexed.tokens, lexed.endLine, [], firstUse, m⟩) depth hm
  refine ⟨ss, s, hend, fun n b hn hb => ?_⟩
  have hs : ParserState.Extends ⟨[], []⟩ ⟨lexed.tokens, lexed.endLine, [], firstUse, m⟩
      ⟨lexed.tokens, lexed.endLine, [], firstUse, b⟩ :=
    ⟨(List.append_nil _).symm, fun _ => rfl, rfl, rfl, hm, hb⟩
  have hends := program_same depth rfl hs hm hn
  have hadvance := advance_program depth n ⟨lexed.tokens, lexed.endLine, [], firstUse, b⟩
  rw [hrun] at hends
  generalize program (grammar depth) n _ = r at hends hadvance ⊢
  cases hends with
  | @ok _ ss' _ s' hss hs' =>
    have hbound : s'.bound = b := hadvance.bound
    have hrest : s'.rest = s.rest := hs'.rest.trans (List.append_nil _)
    have hstate : s' = { s with bound := b } := by
      rw [← hbound, ← hrest, ← hs'.endLine rfl, ← hs'.nextUse, ← List.nil_append s.reports,
        ← hs'.reports]
    rw [hss, hstate]

/-- **Any tokens can be parsed.** However ill-formed they are, parsing comes to an end with a list
of statements, and this does not depend on how often the loops may be entered if it is more often
than there are tokens. All tokens have been looked at then, or the last report is that something is
nested too deeply. No rule goes back in the tokens or leaves them, so that there is a token or the
end of the source wherever a parser looks, and behind a token as well. Each declaration that is
begun at a token takes one at least, with or without a mistake, unless it is nested too deeply. -/
theorem parse_total (depth firstUse : Nat) (lexed : Lexed) :
    (∃ ss, ∃ s : ParserState, (∀ n b, lexed.tokens.length < n → lexed.tokens.length < b →
        program (grammar depth) n ⟨lexed.tokens, lexed.endLine, [], firstUse, b⟩ =
          .ok ss { s with bound := b }) ∧
      parse depth firstUse lexed = ⟨ss, s.reports, s.nextUse⟩ ∧ s.Exhausted) ∧
    (∀ d, (grammar d).Forward lexed.tokens ∧
      ∀ n, (program (grammar d) n).Forward lexed.tokens) ∧
    (∀ s i, s.At lexed.tokens i → s.endLine = lexed.endLine →
      here s = .ok s.location s ∧ lexed.places[i]? = some s.location ∧
      (i < lexed.tokens.length → ∃ next, lexed.places[i + 1]? = some next) ∧
      ∀ (α : Type) (f : TokenKind → Option α),
        ∃ j, i ≤ j ∧ j ≤ i + 1 ∧ (stateOf (accept? f s)).At lexed.tokens j) ∧
    ∀ d s i, s.At lexed.tokens i → i < lexed.tokens.length →
      (∃ found s' j, (grammar d).declaration s = .ok found s' ∧ i < j ∧ s'.At lexed.tokens j) ∨
        ∃ s', (grammar d).declaration s = .error .tooDeep s' := by
  refine ⟨?_, fun d => ⟨forward_grammar lexed.tokens d, fun n s i hs => ?_⟩,
    fun s i hs hline => ⟨here_eq s, getElem?_places hs hline, fun hi => ?_, fun α f =>
      accept?_at f hs⟩, fun d s i hs hi => declaration_forward d hs hi⟩
  -- Any fuel above the number of tokens gives the result that `parse` takes with the least.
  · obtain ⟨ss, s, hend, hrun⟩ := program_result depth firstUse lexed
    refine ⟨ss, s, hrun, ?_, hend⟩
    unfold parse
    dsimp only
    rw [hrun _ _ (Nat.lt_succ_self _) (Nat.lt_succ_self _)]
  · obtain ⟨hat, hle⟩ := hs.advance (advance_program d n s)
    exact ⟨_, hle, hat⟩
  · have hlt : i + 1 < lexed.places.length := by simpa [Lexed.places] using hi
    exact ⟨_, List.getElem?_eq_getElem hlt⟩

end LoxLang
