import LoxLang.Proofs.Reporting
import LoxLang.Tree.Parsing

/-!
# Parsers that read on

The logic of `Unreported` for parsers. `Reads p Q` says what holds of the states before and behind
`p` and of its result whenever `p` gives a result and reports nothing. Each of the basic parsers has
a rule here, so a rule of the grammar is verified by reading off its steps.
-/

namespace LoxLang.Parser

variable {α β : Type}

/-- What holds of a parser that reads on. A mistake is always reported, nesting beyond the bound is
not. -/
abbrev Reads (p : Parser α) (Q : ParserState → α → ParserState → Prop) : Prop :=
  Unreported ParserState.reports (· = .mistake) p Q

/-- The state has moved past some tokens, and no use was numbered. -/
def Passes (ts : List Token) (s s' : ParserState) : Prop :=
  s.rest = ts ++ s'.rest ∧ s'.nextUse = s.nextUse

/-- Nothing holds behind a parser that gives up for depth. -/
theorem Reads.tooDeep {Q : ParserState → α → ParserState → Prop} :
    Reads (throw .tooDeep : Parser α) Q :=
  Unreported.throw (by nofun)

/-! ## Looking ahead -/

theorem reads_here : Reads here fun s _ s' => s' = s := by
  intro s
  unfold here
  cases s.rest <;> exact ⟨List.prefix_refl _, fun _ => rfl⟩

theorem reads_bound : Reads bound fun s _ s' => s' = s :=
  fun _ => ⟨List.prefix_refl _, fun _ => rfl⟩

theorem reads_isNext (kind : TokenKind) :
    Reads (isNext kind) fun s b s' =>
      s' = s ∧ (b = true ↔ ∃ t rest, s.rest = t :: rest ∧ t.kind = kind) := by
  intro s
  refine ⟨List.prefix_refl _, fun _ => ⟨rfl, ?_⟩⟩
  cases s.rest <;> simp [beq_iff_eq]

theorem reads_atEnd : Reads atEnd fun s b s' => s' = s ∧ (b = true ↔ s.rest = []) :=
  fun _ => ⟨List.prefix_refl _, fun _ => ⟨rfl, List.isEmpty_iff⟩⟩

/-!
## Taking tokens

To take a token is to remove it from the rest. Whether it is taken depends on this one token alone.
-/

/-- The rule for what follows a look at the next token. -/
theorem Reads.accept? {f : TokenKind → Option α} {g : Option (α × Nat) → Parser β}
    {P : TokenKind → Nat → ParserState → β → ParserState → Prop}
    {Q : ParserState → β → ParserState → Prop}
    (hsome : ∀ kind a line, f kind = some a → Reads (g (some (a, line))) (P kind line))
    (hnone : Reads (g none) Q) :
    Reads (accept? f >>= g) fun s b s' =>
      (∃ kind line s₁, Passes [⟨kind, line⟩] s s₁ ∧ P kind line s₁ b s') ∨
        ((∀ t rest, s.rest = t :: rest → f t.kind = none) ∧ Q s b s') := by
  rintro ⟨rest, endLine, reports, nextUse, bound⟩
  cases rest with
  | nil =>
    have hrun : (Parser.accept? f >>= g) ⟨[], endLine, reports, nextUse, bound⟩ =
        g none ⟨[], endLine, reports, nextUse, bound⟩ := rfl
    have h := hnone ⟨[], endLine, reports, nextUse, bound⟩
    rw [hrun]
    split at h
    · exact ⟨h.1, fun hr => .inr ⟨by nofun, h.2 hr⟩⟩
    · exact h
  | cons t rest =>
    -- With a token ahead the function decides; at the end there is nothing to take.
    cases hf : f t.kind with
    | none =>
      have hrun : (Parser.accept? f >>= g) ⟨t :: rest, endLine, reports, nextUse, bound⟩ =
          g none ⟨t :: rest, endLine, reports, nextUse, bound⟩ := by
        show EStateM.bind (Parser.accept? f) g _ = _
        simp only [EStateM.bind, Parser.accept?, hf]
      have h := hnone ⟨t :: rest, endLine, reports, nextUse, bound⟩
      rw [hrun]
      split at h
      · refine ⟨h.1, fun hr => .inr ⟨?_, h.2 hr⟩⟩
        rintro t' rest' ht
        obtain ⟨rfl, rfl⟩ := List.cons.inj ht
        exact hf
      · exact h
    | some a =>
      have hrun : (Parser.accept? f >>= g) ⟨t :: rest, endLine, reports, nextUse, bound⟩ =
          g (some (a, t.line)) ⟨rest, endLine, reports, nextUse, bound⟩ := by
        show EStateM.bind (Parser.accept? f) g _ = _
        simp only [EStateM.bind, Parser.accept?, hf]
      have h := hsome t.kind a t.line hf ⟨rest, endLine, reports, nextUse, bound⟩
      rw [hrun]
      split at h
      · exact ⟨h.1, fun hr =>
          .inl ⟨t.kind, t.line, ⟨rest, endLine, reports, nextUse, bound⟩, ⟨rfl, rfl⟩, h.2 hr⟩⟩
      · exact h

/-- The rule for what follows a look for one kind of token. -/
theorem Reads.acceptKind? {kind : TokenKind} {g : Option Nat → Parser β}
    {P : Nat → ParserState → β → ParserState → Prop} {Q : ParserState → β → ParserState → Prop}
    (hsome : ∀ line, Reads (g (some line)) (P line)) (hnone : Reads (g none) Q) :
    Reads (acceptKind? kind >>= g) fun s b s' =>
      (∃ line s₁, Passes [⟨kind, line⟩] s s₁ ∧ P line s₁ b s') ∨
        ((∀ t rest, s.rest = t :: rest → t.kind ≠ kind) ∧ Q s b s') := by
  -- Taking a kind is taking what a function accepts, its result left aside.
  have hassoc : Parser.acceptKind? kind >>= g =
      (Parser.accept? fun k => if k = kind then some () else none) >>=
        fun r => g (r.map (·.2)) := by
    rw [Parser.acceptKind?, bind_assoc]
    simp only [pure_bind]
  rw [hassoc]
  refine Unreported.mono (Reads.accept? (P := fun k line s b s' => k = kind ∧ P line s b s')
    (fun k a line hk => ?_) hnone) ?_
  · by_cases heq : k = kind
    · exact (hsome line).mono fun _ _ _ h => ⟨heq, h⟩
    · simp [heq] at hk
  · rintro s b s' (⟨k, line, s₁, hpass, rfl, h⟩ | ⟨hne, h⟩)
    · exact .inl ⟨line, s₁, hpass, h⟩
    · exact .inr ⟨fun t rest ht => by simpa using hne t rest ht, h⟩

/-!
## Reports

A parser that reports something is of no interest here, so whatever holds behind a report may be
claimed of it.
-/

/-- What is reported is never nothing. -/
theorem reads_report (place : Location) (e : StaticError) :
    Reads (report place e) fun _ _ _ => False := by
  intro s
  refine ⟨List.prefix_append _ _, fun h => ?_⟩
  simp at h

theorem reads_fail (e : GrammarError) {Q : ParserState → α → ParserState → Prop} :
    Reads (fail e : Parser α) Q := by
  rintro ⟨rest, endLine, reports, nextUse, bound⟩
  cases rest <;> exact ⟨List.prefix_append _ _, fun _ h => by simp at h⟩

theorem reads_expectMark (m : Mark) (place : MarkPlace) :
    Reads (expectMark m place) fun s line s' => Passes [⟨.mark m, line⟩] s s' := by
  refine Unreported.mono (Reads.acceptKind? (fun line => Unreported.pure line)
    (reads_fail (Q := fun _ _ _ => False) _)) ?_
  rintro s line s' (⟨_, s₁, h, rfl, rfl⟩ | ⟨-, hfalse⟩)
  · exact h
  · exact hfalse.elim

theorem identifier?_eq_some {kind : TokenKind} {x : String} (h : identifier? kind = some x) :
    kind = .identifier x := by
  cases kind <;> simp_all [identifier?]

theorem reads_expectName (role : NameRole) :
    Reads (expectName role) fun s x s' => Passes [⟨.identifier x.text, x.line⟩] s s' := by
  refine Unreported.mono (Reads.accept? (P := fun kind line s x s' =>
    kind = .identifier x.text ∧ line = x.line ∧ s' = s) (fun kind text line h => ?_)
    (reads_fail (Q := fun _ _ _ => False) _)) ?_
  · refine (Unreported.pure _).mono ?_
    rintro s x s' ⟨rfl, rfl⟩
    exact ⟨identifier?_eq_some h, rfl, rfl⟩
  · rintro s x s' (⟨kind, line, s₁, h, rfl, rfl, rfl⟩ | ⟨-, hfalse⟩)
    · exact h
    · exact hfalse.elim

theorem reads_freshUse :
    Reads freshUse fun s id s' =>
      id = s.nextUse ∧ s'.rest = s.rest ∧ s'.nextUse = s.nextUse + 1 :=
  fun _ => ⟨List.prefix_refl _, fun _ => ⟨rfl, rfl, rfl⟩⟩

end LoxLang.Parser
