import LoxLang.Proofs.Scoping.Source

/-!
# Trees of all texts

A text with mistakes has a tree too, of the statements that could be read. What holds of a tree that
is read without a report (`Phrase.Numbered`) holds of this one as well: names are no keywords, what
a condition governs declares nothing, and no two uses have the same number. The numbers in
statements that were given up are left out.

`Yields` says what holds of the result of a parser in whatever way it was reached. There is a rule
for each way of putting parsers together and a lemma for each rule of the grammar, up to
`stretch_statements`.
-/

namespace LoxLang

open LoxLang.Parser Nested

variable {α β : Type} {n : Nat}

/-- In the next steps, all tokens ahead come from a text. -/
def ParserState.Named (s : ParserState) : Prop := ∀ t ∈ s.rest, t.Named

namespace Parser

/-- Started with the number `n` for the next use, a parser goes on to a number that is as large at
least; and if it gives a result, a postcondition holds of the result and this number. -/
def Yields (n : Nat) (p : Parser α) (Q : α → Nat → Prop) : Prop :=
  ∀ s, s.Named → s.nextUse = n →
    match p s with
    | .ok a s' => s'.Named ∧ n ≤ s'.nextUse ∧ Q a s'.nextUse
    | .error _ s' => s'.Named ∧ n ≤ s'.nextUse

/-- A parser that numbers no use. -/
def Quiet (p : Parser α) : Prop := ∀ n, Yields n p fun _ m => m = n

namespace Yields

variable {p q : Parser α} {f : α → Parser β} {Q R : α → Nat → Prop} {P : β → Nat → Prop}

/-- More may be known of a result than is asked for. -/
theorem mono (h : Yields n p Q) (himp : ∀ a m, n ≤ m → Q a m → R a m) : Yields n p R := by
  intro s hs hn
  specialize h s hs hn
  split at h
  · exact ⟨h.1, h.2.1, himp _ _ h.2.1 h.2.2⟩
  · exact h

/-- To give a result numbers no use. -/
theorem pure {a : α} (h : Q a n) : Yields n (pure a) Q :=
  fun _ hs hn => ⟨hs, Nat.le_of_eq hn.symm, hn ▸ h⟩

/-- Whatever is asked of a result, none is given. -/
theorem throw (e : ParserStop) : Yields n (throw e) Q := fun _ hs hn => ⟨hs, Nat.le_of_eq hn.symm⟩

/-- What was numbered before may be counted in. -/
theorem later {m : Nat} (h : Yields m p Q) (hle : n ≤ m) {s : ParserState} (hs : s.Named)
    (hm : s.nextUse = m) :
    match p s with
    | .ok a s' => s'.Named ∧ n ≤ s'.nextUse ∧ Q a s'.nextUse
    | .error _ s' => s'.Named ∧ n ≤ s'.nextUse := by
  specialize h s hs hm
  split at h
  · exact ⟨h.1, Nat.le_trans hle h.2.1, h.2.2⟩
  · exact ⟨h.1, Nat.le_trans hle h.2⟩

/-- Uses are numbered by the first parser, and then on by the second. -/
theorem bind (hp : Yields n p Q) (hf : ∀ a m, n ≤ m → Q a m → Yields m (f a) P) :
    Yields n (p >>= f) P := by
  intro s hs hn
  specialize hp s hs hn
  show match EStateM.bind p f s with
    | .ok b s' => _
    | .error e s' => _
  unfold EStateM.bind
  cases hrun : p s with
  | error e s' =>
    rw [hrun] at hp
    exact hp
  | ok a s' =>
    rw [hrun] at hp
    obtain ⟨hs', hle, hQ⟩ := hp
    exact (hf a s'.nextUse hle hQ).later hle hs' rfl

/-- A result may be changed behind a parser. -/
theorem map {g : α → β} (hp : Yields n p Q) (h : ∀ a m, n ≤ m → Q a m → P (g a) m) :
    Yields n (g <$> p) P :=
  hp.bind fun a m hle hQ => pure (h a m hle hQ)

/-- Whichever of two parsers it is. -/
theorem ite {c : Prop} [Decidable c] (hp : c → Yields n p Q) (hq : ¬c → Yields n q Q) :
    Yields n (if c then p else q) Q := by
  split
  · next h => exact hp h
  · next h => exact hq h

end Yields

/-- A parser that numbers no use may be left out of account. -/
theorem Quiet.andThen {p : Parser α} {f : α → Parser β} {P : β → Nat → Prop} (hp : Quiet p)
    (hf : ∀ a, Yields n (f a) P) : Yields n (p >>= f) P := by
  refine (hp n).bind fun a m _ hm => ?_
  rw [hm]
  exact hf a

/-!
## Single steps

Only one step gives numbers (`yields_freshUse`). Tokens are taken from those ahead, so names stay
what they are.
-/

/-- To look where the parser stands. -/
theorem quiet_here : Quiet here := by
  intro n s hs hn
  unfold here
  cases s.rest <;> exact ⟨hs, Nat.le_of_eq hn.symm, hn⟩

theorem quiet_bound : Quiet bound := fun _ _ hs hn => ⟨hs, Nat.le_of_eq hn.symm, hn⟩

/-- To look at the next token. -/
theorem quiet_isNext (kind : TokenKind) : Quiet (isNext kind) :=
  fun _ _ hs hn => ⟨hs, Nat.le_of_eq hn.symm, hn⟩

theorem quiet_atEnd : Quiet atEnd := fun _ _ hs hn => ⟨hs, Nat.le_of_eq hn.symm, hn⟩

/-- To report a mistake. -/
theorem quiet_report (place : Location) (e : StaticError) : Quiet (report place e) :=
  fun _ _ hs hn => ⟨hs, Nat.le_of_eq hn.symm, hn⟩

/-- What is taken is a token of the text. -/
theorem yields_accept? (f : TokenKind → Option α) :
    Yields n (accept? f) fun found m => m = n ∧
      ∀ a line, found = some (a, line) → ∃ t : Token, t.Named ∧ f t.kind = some a := by
  rintro ⟨rest, endLine, reports, nextUse, bound⟩ hs rfl
  cases rest with
  | nil => exact ⟨hs, Nat.le_refl _, rfl, nofun⟩
  | cons t rest =>
    have ht : t.Named := hs t List.mem_cons_self
    have hrest : ∀ t ∈ rest, t.Named := fun t' ht' => hs t' (List.mem_cons_of_mem _ ht')
    unfold accept?
    cases hf : f t.kind with
    | none =>
      simp only [hf]
      exact ⟨hs, Nat.le_refl _, trivial, nofun⟩
    | some a =>
      simp only [hf]
      refine ⟨hrest, Nat.le_refl _, trivial, fun a' line h => ⟨t, ht, ?_⟩⟩
      rw [hf]
      exact congrArg (Option.map Prod.fst) h

/-- To take a token if it is one that is wanted. -/
theorem quiet_accept? (f : TokenKind → Option α) : Quiet (accept? f) :=
  fun _ => (yields_accept? f).mono fun _ _ _ h => h.1

/-- To take a token if it is of some kind. -/
theorem quiet_acceptKind? (kind : TokenKind) : Quiet (acceptKind? kind) :=
  fun _ => (quiet_accept? _).andThen fun _ => .pure rfl

/-- To report a mistake and give up. -/
theorem yields_fail (e : GrammarError) {Q : α → Nat → Prop} : Yields n (fail e) Q :=
  quiet_here.andThen fun _ => (quiet_report _ _).andThen fun _ => .throw _

/-- To take a punctuation mark that has to stand there. -/
theorem quiet_expectMark (m : Mark) (place : MarkPlace) : Quiet (expectMark m place) := by
  refine fun n => (quiet_acceptKind? _).andThen fun found => ?_
  cases found with
  | none => exact yields_fail _
  | some line => exact .pure rfl

/-- A name that is taken is no keyword, since the token is not. -/
theorem yields_expectName (role : NameRole) :
    Yields n (expectName role) fun x m => m = n ∧ IsName x.text := by
  refine (yields_accept? _).bind fun found m _ hfound => ?_
  obtain ⟨rfl, hfound⟩ := hfound
  cases found with
  | none => exact yields_fail _
  | some found =>
    obtain ⟨text, line⟩ := found
    obtain ⟨t, ht, htext⟩ := hfound text line rfl
    refine .pure ⟨rfl, ht text ?_⟩
    cases hkind : t.kind <;> simp_all [identifier?]

/-- A use gets the next number, and that number goes up by one. -/
theorem yields_freshUse : Yields n freshUse fun id m => id = n ∧ m = n + 1 := by
  rintro s hs rfl
  exact ⟨hs, Nat.le_succ _, rfl, rfl⟩

/-- To take the keyword of a function declaration. -/
theorem quiet_acceptFunction : Quiet acceptFunction := by
  rintro n s hs rfl
  have hrun : ∃ b rest, acceptFunction s = .ok b { s with rest } ∧ ∀ t ∈ rest, t ∈ s.rest := by
    unfold acceptFunction
    split
    · next h => exact ⟨true, _, rfl, fun t ht => h ▸ List.mem_cons_of_mem _ ht⟩
    · exact ⟨false, s.rest, rfl, fun _ ht => ht⟩
  obtain ⟨b, rest, hrun, hrest⟩ := hrun
  rw [hrun]
  exact ⟨fun t ht => hs t (hrest t ht), Nat.le_refl _, rfl⟩

end Parser

/-!
## Stretches

What is read from some tokens uses a range of numbers, each at most once. Ranges that follow each
other make one.
-/

/-- What has no use in it fits any range. -/
theorem Stretch.none {n m : Nat} (h : n ≤ m) : Stretch n m [] := ⟨h, by simp, by simp, by simp⟩

/-- Numbers may be left out at both ends. -/
theorem Stretch.widen {n n' m m' : Nat} {os : List Occurrence} (h : Stretch n m os) (hn : n' ≤ n)
    (hm : m ≤ m') : Stretch n' m' os :=
  ⟨by have := h.le; omega, h.written, h.nodup, fun i hi => by have := h.range i hi; omega⟩

/-!
## Lists

The ranges of the items in a list follow each other.
-/

/-- The rules of the grammar one level further in yield what is written. -/
structure Nested.Yielding (inner : Nested) : Prop where
  declaration : ∀ n, Yields n inner.declaration fun d m => (Phrase.initializer d).Numbered n m
  statement : ∀ n, Yields n inner.statement fun s m => (Phrase.statement false s).Numbered n m
  expression : ∀ n, Yields n inner.expression fun e m => (Phrase.expression e).Numbered n m
  unary : ∀ n, Yields n inner.unary fun e m => (Phrase.unary e).Numbered n m

section Lists

variable {item : Parser α} {Q : Nat → α → Nat → Prop} {P : Nat → List α → Nat → Prop}

/-- Each item has the range behind the one before. -/
theorem yields_moreItems (hitem : ∀ n, Yields n item (Q n)) (hnil : ∀ n, P n [] n)
    (hcons : ∀ n x m xs k, Q n x m → P m xs k → P n (x :: xs) k) (tooMany : GrammarError)
    (fuel count n : Nat) : Yields n (moreItems item tooMany fuel count) (P n) := by
  induction fuel generalizing count n with
  | zero => exact .pure (hnil n)
  | succ fuel ih =>
    refine (quiet_acceptKind? _).andThen fun found => ?_
    cases found with
    | none => exact .pure (hnil n)
    | some line =>
      have hrest := (hitem n).bind fun x m _ hx => (ih (count + 1) m).bind fun xs k _ hxs =>
        Yields.pure (hcons n x m xs k hx hxs)
      exact .ite (fun _ => quiet_here.andThen fun _ => (quiet_report _ _).andThen fun _ => hrest)
        fun _ => hrest

/-- The first item, and more behind commas. -/
theorem yields_items (hitem : ∀ n, Yields n item (Q n)) (hnil : ∀ n, P n [] n)
    (hcons : ∀ n x m xs k, Q n x m → P m xs k → P n (x :: xs) k) (tooMany : GrammarError)
    (n : Nat) : Yields n (items item tooMany) (P n) := by
  refine (quiet_isNext _).andThen fun _ => .ite (fun _ => .pure (hnil n)) fun _ => ?_
  exact (hitem n).bind fun x m _ hx => quiet_bound.andThen fun _ =>
    (yields_moreItems hitem hnil hcons tooMany _ 1 m).bind fun xs k _ hxs =>
      .pure (hcons n x m xs k hx hxs)

end Lists

/-- Parameters are names and have no numbers. -/
theorem yields_parameters (n : Nat) :
    Yields n parameters fun xs m => (Phrase.parameters xs).Numbered n m := by
  refine (yields_items (P := fun n xs m => (Phrase.parameters xs).Numbered n m)
    (fun n => yields_expectName .parameter) (fun _ => ⟨rfl, by simp⟩) ?_ .tooManyParameters n).bind
      fun xs m _ hxs => (quiet_expectMark _ _).andThen fun _ => .pure hxs
  rintro n x m xs k ⟨rfl, hx⟩ ⟨rfl, hxs⟩
  exact ⟨rfl, List.forall_mem_cons.mpr ⟨hx, hxs⟩⟩

section Expressions

variable {inner : Nested} (h : inner.Yielding)
include h

omit h in
/-- A declaration, or one that was left out, in front of others. -/
theorem numbered_declarations {first : Option Stmt} {others : List Stmt} {n m k : Nat}
    (hfirst : (Phrase.initializer first).Numbered n m)
    (hothers : (Phrase.declarations others).Numbered m k) :
    (Phrase.declarations (first.toList ++ others)).Numbered n k := by
  intro S
  cases first with
  | none => exact (hfirst S).append (hothers S)
  | some st => exact (hfirst S).append (hothers _)

/-- A statement that had a mistake in it is left out, and its numbers with it. -/
theorem yields_statements (fuel n : Nat) :
    Yields n (inner.statements fuel) fun ss m => (Phrase.declarations ss).Numbered n m := by
  induction fuel generalizing n with
  | zero => exact .pure fun _ => .nil n
  | succ fuel ih =>
    refine (quiet_isNext _).andThen fun _ => .ite (fun _ => .pure fun _ => .nil n) fun _ => ?_
    refine quiet_atEnd.andThen fun _ => .ite (fun _ => .pure fun _ => .nil n) fun _ => ?_
    exact (h.declaration n).bind fun first m _ hfirst => (ih m).bind fun others k _ hothers =>
      .pure (numbered_declarations hfirst hothers)

/-- The statements between braces. -/
theorem yields_block (n : Nat) :
    Yields n inner.block fun ss m => (Phrase.declarations ss).Numbered n m :=
  quiet_bound.andThen fun _ => (yields_statements h _ n).bind fun _ _ _ hss =>
    (quiet_expectMark _ _).andThen fun _ => .pure hss

/-!
## Expressions

Parts are read in the order of their ranges. An assignment gets its number behind its value, since
the target is known only then.
-/

/-- The numbers are those of the body. -/
theorem yields_lambda (line n : Nat) :
    Yields n (inner.lambda line) fun e m => (Phrase.expression e).Numbered n m := by
  refine (quiet_expectMark _ _).andThen fun _ => (yields_parameters n).bind fun xs m _ hxs =>
    (quiet_expectMark _ _).andThen fun _ => (yields_block h m).bind fun body k _ hbody => ?_
  obtain ⟨rfl, hxs⟩ := hxs
  exact .pure fun S => stretch_parameters hxs (hbody _) _

/-- Each first token begins an expression of its own kind. -/
theorem yields_afterStart (line n : Nat) {start : PrimaryStart} {t : Token} (ht : t.Named)
    (hstart : PrimaryStart.ofKind? t.kind = some start) :
    Yields n (inner.afterStart line start) fun e m => (Phrase.expression e).Numbered n m := by
  cases start with
  | literal value => exact .pure fun _ => .nil n
  -- Only here the token itself gives a name, which is one because the token is.
  | name text =>
    have htext : t.kind = .identifier text := by
      unfold PrimaryStart.ofKind? at hstart
      split at hstart <;> simp_all
    refine yields_freshUse.bind fun id m _ hid => ?_
    obtain ⟨rfl, rfl⟩ := hid
    exact .pure fun S => .use rfl fun _ => ht text htext
  | parenthesis =>
    exact (h.expression n).bind fun _ _ _ he => (quiet_expectMark _ _).andThen fun _ => .pure he
  | lambda => exact yields_lambda h line n
  | this =>
    refine yields_freshUse.bind fun id m _ hid => ?_
    obtain ⟨rfl, rfl⟩ := hid
    exact .pure fun S => .use rfl (by simp)
  | super =>
    refine (quiet_expectMark _ _).andThen fun _ => ?_
    refine (yields_expectName _).bind fun method m _ hm => ?_
    obtain ⟨rfl, -⟩ := hm
    refine yields_freshUse.bind fun id m _ hid => ?_
    obtain ⟨rfl, rfl⟩ := hid
    exact .pure fun S => .use rfl (by simp)

/-- An expression without operators. -/
theorem yields_primary (n : Nat) :
    Yields n inner.primary fun e m => (Phrase.expression e).Numbered n m := by
  refine (yields_accept? _).bind fun found m _ hfound => ?_
  obtain ⟨rfl, hfound⟩ := hfound
  cases found with
  | none => exact yields_fail _
  | some found =>
    obtain ⟨t, ht, hstart⟩ := hfound found.1 found.2 rfl
    exact yields_afterStart h found.2 _ ht hstart

/-- Arguments are numbered behind what is called. -/
theorem yields_suffixes (fuel : Nat) {e : Expr} {n m : Nat}
    (he : (Phrase.expression e).Numbered n m) :
    Yields m (inner.suffixes fuel e) fun e k => (Phrase.expression e).Numbered n k := by
  induction fuel generalizing e m with
  | zero => exact .pure he
  | succ fuel ih =>
    -- The numbers in the arguments follow those in what is called.
    have harguments : Yields m (inner.arguments e) fun e k =>
        (Phrase.expression e).Numbered n k := by
      refine (yields_items (P := fun n es m => (Phrase.arguments es).Numbered n m) h.expression
        (fun n _ => .nil n) (fun n x m xs k hx hxs S => (hx S).append (hxs S)) _ m).bind
          fun es k _ hes => (quiet_expectMark _ _).andThen fun _ => ?_
      exact .pure fun S => (he S).append (hes S)
    refine (quiet_acceptKind? _).andThen fun _ => .ite
      (fun _ => harguments.bind fun e k _ he => ih he) fun _ => ?_
    refine (quiet_acceptKind? _).andThen fun _ => .ite (fun _ => ?_) fun _ => .pure he
    refine (yields_expectName _).bind fun name k _ hname => ?_
    obtain ⟨rfl, -⟩ := hname
    exact ih he

/-- An operator has no number. -/
theorem yields_unaryExpr (n : Nat) :
    Yields n inner.unaryExpr fun e m => (Phrase.unary e).Numbered n m := by
  refine (quiet_accept? _).andThen fun found => ?_
  cases found with
  | none =>
    exact (yields_primary h n).bind fun e m _ he => quiet_bound.andThen fun _ =>
      yields_suffixes h _ he
  | some found => exact (h.unary n).bind fun _ _ _ he => .pure he

omit h in
/-- Operands are numbered from left to right. -/
theorem yields_chain {operand : Parser Expr}
    (hoperand : ∀ n, Yields n operand fun e m => (Phrase.expression e).Numbered n m)
    (operator? : TokenKind → Option α) (join : α → Nat → Expr → Expr → Expr)
    (hjoin : ∀ op line left right S, (join op line left right).occurrences S =
      left.occurrences S ++ right.occurrences S) (n : Nat) :
    Yields n (chain operator? join operand) fun e m => (Phrase.expression e).Numbered n m := by
  -- The numbers of the operands follow one another, the first one included.
  have hmore (fuel : Nat) {e : Expr} {m : Nat} (he : (Phrase.expression e).Numbered n m) :
      Yields m (moreOperands operator? join operand fuel e) fun e k =>
        (Phrase.expression e).Numbered n k := by
    induction fuel generalizing e m with
    | zero => exact .pure he
    | succ fuel ih =>
      refine (quiet_accept? _).andThen fun found => ?_
      cases found with
      | none => exact .pure he
      | some found =>
        refine (hoperand m).bind fun right k _ hright => ih fun S => ?_
        rw [hjoin]
        exact (he S).append (hright S)
  exact (hoperand n).bind fun first m _ hfirst => quiet_bound.andThen fun _ => hmore _ hfirst

/-- All levels of operators. -/
theorem yields_disjunction (n : Nat) :
    Yields n inner.disjunction fun e m => (Phrase.expression e).Numbered n m := by
  have hfactor := yields_chain (yields_unaryExpr h) factorOperator? .binary
    fun _ _ _ _ _ => rfl
  have hterm := yields_chain hfactor termOperator? .binary fun _ _ _ _ _ => rfl
  have hcomparison := yields_chain hterm comparisonOperator? .binary fun _ _ _ _ _ => rfl
  have hequality := yields_chain hcomparison equalityOperator? .binary
    fun _ _ _ _ _ => rfl
  have hconjunction := yields_chain hequality conjunctionOperator? .logical
    fun _ _ _ _ _ => rfl
  exact yields_chain hconjunction disjunctionOperator? .logical (fun _ _ _ _ _ => rfl) n

omit h in
/-- A target that is no variable keeps its numbers; that of a variable is left out, and the
assignment gets one behind. -/
theorem yields_assignTo {target value : Expr} {n m k : Nat} (line : Nat)
    (htarget : (Phrase.expression target).Numbered n m)
    (hvalue : (Phrase.expression value).Numbered m k) :
    Yields k (assignTo target line value) fun e j => (Phrase.expression e).Numbered n j := by
  unfold assignTo
  split
  · next use =>
    -- The number of the use that was read as a target is left out.
    have hname : IsName use.name.text := (htarget []).written _ List.mem_cons_self (.inl rfl)
    refine yields_freshUse.bind fun id j _ hid => ?_
    obtain ⟨rfl, rfl⟩ := hid
    refine .pure fun S => ?_
    exact ((hvalue S).append (.use rfl fun _ => hname)).widen (htarget S).le (Nat.le_refl _)
  · exact .pure fun S => (htarget S).append_swap (hvalue S)
  · refine (quiet_report _ _).andThen fun _ => .pure fun S => ?_
    exact (htarget S).widen (Nat.le_refl _) (hvalue S).le

/-- A value, or a target with a value behind it. -/
theorem yields_assignment (n : Nat) :
    Yields n inner.assignment fun e m => (Phrase.expression e).Numbered n m := by
  refine (yields_disjunction h n).bind fun target m _ htarget =>
    (quiet_acceptKind? _).andThen fun found => ?_
  cases found with
  | none => exact .pure htarget
  | some line =>
    exact (h.expression m).bind fun value k _ hvalue => yields_assignTo line htarget hvalue

end Expressions

/-!
## Statements

The parts of a loop are put together in another order than they are read, and so the ranges of a
`for` loop are not in the order of its tree.
-/

/-- A clause that is missing. -/
theorem yields_noClause (n : Nat) :
    Yields n (pure none) fun e m => (Phrase.clause e).Numbered n m :=
  .pure fun _ => .nil n

section Statements

variable {inner : Nested} (h : inner.Yielding)
include h

/-- A clause that is an expression. -/
theorem yields_someAssignment (n : Nat) :
    Yields n (some <$> inner.assignment) fun e m => (Phrase.clause e).Numbered n m :=
  (yields_assignment h n).map fun _ _ _ he => he

/-- The numbers are those of the expression. -/
theorem yields_expressionStatement (n : Nat) :
    Yields n inner.expressionStatement fun s m => (Phrase.statement false s).Numbered n m :=
  (yields_assignment h n).bind fun _ _ _ he => (quiet_expectMark _ _).andThen fun _ =>
    .pure ⟨rfl, he⟩

/-- The numbers are those of the initializer. -/
theorem yields_varDeclaration (n : Nat) :
    Yields n inner.varDeclaration fun s m => (Phrase.declaration s).Numbered n m := by
  refine (yields_expectName _).bind fun name m _ hname => ?_
  obtain ⟨rfl, hname⟩ := hname
  -- Behind the initializer, or where there is none, the rest is the same.
  have hrest {e : Option Expr} {k : Nat} (he : (Phrase.clause e).Numbered m k) :
      Yields k (do
        let _ ← expectMark .semicolon .afterVariable
        return Stmt.var name e) fun s k => (Phrase.declaration s).Numbered m k := by
    refine (quiet_expectMark _ _).andThen fun _ => .pure fun S => ?_
    cases e with
    | none => exact (he S).declaration hname
    | some e =>
      have he := he (Scope.enter name.text false S)
      exact Stretch.declaration (he.cons trivial rfl) hname
  refine (quiet_acceptKind? _).andThen fun _ => .ite (fun _ => ?_) fun _ => ?_
  · exact (yields_someAssignment h m).bind fun e k _ he => hrest he
  · exact (yields_noClause m).bind fun e k _ he => hrest he

/-- A clause may be missing. -/
theorem yields_forClause (final : Mark) (place : MarkPlace) (n : Nat) :
    Yields n (inner.forClause final place) fun e m => (Phrase.clause e).Numbered n m := by
  have hrest {e : Option Expr} {k : Nat} (he : (Phrase.clause e).Numbered n k) :
      Yields k (do
        let _ ← expectMark final place
        return e) fun e k => (Phrase.clause e).Numbered n k :=
    (quiet_expectMark _ _).andThen fun _ => .pure he
  refine (quiet_isNext _).andThen fun _ => .ite (fun _ => ?_) fun _ => ?_
  · exact (yields_noClause n).bind fun e k _ he => hrest he
  · exact (yields_someAssignment h n).bind fun e k _ he => hrest he

/-- The first clause may declare a variable. -/
theorem yields_forInitializer (n : Nat) :
    Yields n inner.forInitializer fun s m => (Phrase.initializer s).Numbered n m := by
  refine (quiet_acceptKind? _).andThen fun _ => .ite (fun _ => .pure fun _ => .nil n) fun _ => ?_
  refine (quiet_acceptKind? _).andThen fun _ => .ite (fun _ => ?_) fun _ => ?_
  · exact (yields_varDeclaration h n).map fun s m _ hs => hs
  · exact (yields_expressionStatement h n).map fun s m _ hs => hs.2

/-- Clauses and body are put together to a loop. -/
theorem yields_forStatement (n : Nat) :
    Yields n inner.forStatement fun s m => (Phrase.statement false s).Numbered n m := by
  refine (quiet_expectMark _ _).andThen fun _ => ?_
  refine (yields_forInitializer h n).bind fun first m _ hfirst => ?_
  refine (yields_forClause h _ _ m).bind fun condition k _ hcondition => ?_
  refine (yields_forClause h _ _ k).bind fun last j _ hlast => ?_
  refine (h.statement j).bind fun body i _ hbody => .pure ?_
  rw [forLoop_eq_loopTree]
  obtain ⟨hdeclares, hbody⟩ := hbody
  refine ⟨?_, stretch_loopTree hfirst hcondition hlast hdeclares hbody⟩
  cases first <;> cases last <;> rfl

/-- The condition, and then the branches. -/
theorem yields_ifStatement (n : Nat) :
    Yields n inner.ifStatement fun s m => (Phrase.statement false s).Numbered n m := by
  refine (quiet_expectMark _ _).andThen fun _ => ?_
  refine (yields_assignment h n).bind fun condition m _ hcondition => ?_
  refine (quiet_expectMark _ _).andThen fun _ => ?_
  refine (h.statement m).bind fun consequence k _ hconsequence => ?_
  -- A branch is a statement, and statements declare nothing.
  obtain ⟨hdeclares, hconsequence⟩ := hconsequence
  refine (quiet_acceptKind? _).andThen fun _ => .ite (fun _ => ?_) fun _ => ?_
  · refine ((h.statement k).map (Q := fun s m => (Phrase.statement false s).Numbered k m)
      (P := fun s? m => ∃ s, s? = some s ∧ (Phrase.statement false s).Numbered k m)
        fun s m _ hs => ⟨s, rfl, hs⟩).bind fun alternative j _ halternative => .pure ?_
    obtain ⟨s, rfl, hdeclares', hs⟩ := halternative
    exact ⟨rfl, fun S => (hcondition S).append
      (((hconsequence S).append ((hs S).body hdeclares')).body hdeclares)⟩
  · refine (Yields.pure (Q := fun s? m => s? = none ∧ m = k) ⟨rfl, rfl⟩).bind
      fun alternative j _ halternative => .pure ?_
    obtain ⟨rfl, rfl⟩ := halternative
    exact ⟨rfl, fun S => (hcondition S).append ((hconsequence S).body hdeclares)⟩

/-- The numbers are those of the value. -/
theorem yields_returnStatement (line n : Nat) :
    Yields n (inner.returnStatement line) fun s m => (Phrase.statement false s).Numbered n m := by
  have hrest {e : Option Expr} {k : Nat} (he : (Phrase.clause e).Numbered n k) :
      Yields k (do
        let _ ← expectMark .semicolon .afterReturnValue
        return Stmt.returnValue line e) fun s k => (Phrase.statement false s).Numbered n k := by
    refine (quiet_expectMark _ _).andThen fun _ => .pure ⟨rfl, fun S => ?_⟩
    cases e <;> exact he S
  refine (quiet_isNext _).andThen fun _ => .ite (fun _ => ?_) fun _ => ?_
  · exact (yields_noClause n).bind fun e k _ he => hrest he
  · exact (yields_someAssignment h n).bind fun e k _ he => hrest he

/-- The condition, and then the body. -/
theorem yields_whileStatement (n : Nat) :
    Yields n inner.whileStatement fun s m => (Phrase.statement false s).Numbered n m := by
  refine (quiet_expectMark _ _).andThen fun _ => ?_
  refine (yields_assignment h n).bind fun condition m _ hcondition => ?_
  refine (quiet_expectMark _ _).andThen fun _ => ?_
  refine (h.statement m).bind fun body k _ hbody => .pure ?_
  obtain ⟨hdeclares, hbody⟩ := hbody
  exact ⟨rfl, fun S => (hcondition S).append ((hbody S).body hdeclares)⟩

/-- All kinds of statements. -/
theorem yields_statementRule (n : Nat) :
    Yields n inner.statementRule fun s m => (Phrase.statement false s).Numbered n m := by
  refine (quiet_accept? _).andThen fun found => ?_
  cases found with
  | none => exact yields_expressionStatement h n
  | some found =>
    obtain ⟨start, line⟩ := found
    cases start with
    | forLoop => exact yields_forStatement h n
    | ifThen => exact yields_ifStatement h n
    | print =>
      exact (yields_assignment h n).bind fun _ _ _ he => (quiet_expectMark _ _).andThen fun _ =>
        .pure ⟨rfl, he⟩
    | block => exact (yields_block h n).bind fun _ _ _ hss => .pure ⟨rfl, fun S => hss _⟩
    | returnValue => exact yields_returnStatement h line n
    | whileLoop => exact yields_whileStatement h n

/-!
## Declarations

Behind a mistake tokens are skipped, so that numbers are never given twice.
-/

/-- The numbers are those of the body. -/
theorem yields_function (kind : FunctionKind) (n : Nat) :
    Yields n (inner.function kind) fun f m => (Phrase.function f).Numbered n m := by
  refine (yields_expectName _).bind fun name m _ hname => ?_
  obtain ⟨rfl, hname⟩ := hname
  refine (quiet_expectMark _ _).andThen fun _ => (yields_parameters m).bind fun xs k _ hxs => ?_
  obtain ⟨rfl, hxs⟩ := hxs
  refine (quiet_expectMark _ _).andThen fun _ => (yields_block h m).bind fun body j _ hbody => ?_
  exact .pure ⟨hname, fun S => stretch_parameters hxs (hbody _) _⟩

/-- Methods and static methods in the order of the text, sorted into two lists. -/
theorem yields_methods (fuel n : Nat) :
    Yields n (inner.methods fuel) fun fs m => (Phrase.members fs.1 fs.2).Numbered n m := by
  induction fuel generalizing n with
  | zero => exact .pure fun _ _ => .nil n
  | succ fuel ih =>
    refine quiet_atEnd.andThen fun _ => .ite (fun _ => .pure fun _ _ => .nil n) fun _ => ?_
    refine (quiet_isNext _).andThen fun _ => .ite (fun _ => .pure fun _ _ => .nil n) fun _ => ?_
    refine (quiet_acceptKind? _).andThen fun isStatic => ?_
    refine (yields_function h .method n).bind fun f m _ hf => (ih m).bind fun fs k _ hfs => ?_
    refine .ite (fun _ => .pure fun S S' => ?_) fun _ => .pure fun S S' => ?_
    · rw [functionsOccurrences, List.append_assoc]
      exact (hf.2 S).append (hfs S S')
    -- This method was read before the static ones behind it, and is walked after them.
    · refine ((hf.2 S').append (hfs S S')).perm ?_
      rw [functionsOccurrences]
      exact List.perm_append_comm_assoc _ _ _

/-- The superclass is a use, and comes first. -/
theorem yields_classDeclaration (n : Nat) :
    Yields n inner.classDeclaration fun s m => (Phrase.declaration s).Numbered n m := by
  refine (yields_expectName _).bind fun name m _ hname => ?_
  obtain ⟨rfl, hname⟩ := hname
  have hparent : Yields m superclass fun parent k =>
      ∀ S, Stretch m k (superclassOccurrences S name parent) := by
    refine (quiet_acceptKind? _).andThen fun _ => .ite (fun _ => ?_) fun _ => .pure fun _ => .nil m
    refine (yields_expectName _).bind fun parent k _ hparent => ?_
    obtain ⟨rfl, hparent⟩ := hparent
    refine yields_freshUse.bind fun id j _ hid => ?_
    obtain ⟨rfl, rfl⟩ := hid
    refine .pure fun S => ?_
    -- The superclass is a use, so it takes one number, before those of the members.
    have huse : Stretch id (id + 1) [.use ⟨.«variable», parent.text, parent.line, id, S⟩] :=
      .use rfl fun _ => hparent
    exact huse.cons trivial rfl
  refine hparent.bind fun parent k _ hparent => (quiet_expectMark _ _).andThen fun _ => ?_
  refine quiet_bound.andThen fun _ => (yields_methods h _ k).bind fun fs j _ hfs => ?_
  refine (quiet_expectMark _ _).andThen fun _ => .pure fun S => ?_
  exact ((hparent _).append (hfs _ _)).declaration hname

/-- All kinds of declarations. -/
theorem yields_declarationRule (n : Nat) :
    Yields n inner.declarationRule fun s m => (Phrase.declaration s).Numbered n m := by
  refine (quiet_acceptKind? _).andThen fun _ => .ite (fun _ => yields_classDeclaration h n)
    fun _ => ?_
  refine quiet_acceptFunction.andThen fun _ => .ite (fun _ => ?_) fun _ => ?_
  · exact (yields_function h .function n).bind fun f m _ hf =>
      .pure fun S => (hf.2 _).declaration hf.1
  refine (quiet_acceptKind? _).andThen fun _ => .ite (fun _ => yields_varDeclaration h n)
    fun _ => (yields_statementRule h n).mono fun s m _ hs => hs.2

omit h in
/-- What is skipped is gone, and nothing comes in its place. -/
theorem mem_of_mem_resume {previous t : Token} {ts : List Token} (h : t ∈ resume previous ts) :
    t ∈ ts := by
  induction ts generalizing previous with
  | nil => cases h
  | cons t' ts ih =>
    unfold resume at h
    split at h
    · exact h
    · exact List.mem_cons_of_mem _ (ih h)

omit h in
/-- Behind a mistake come tokens of the text. -/
theorem mem_of_mem_skipMistake {t : Token} {ts : List Token} (h : t ∈ skipMistake ts) : t ∈ ts := by
  cases ts with
  | nil => cases h
  | cons t' ts => exact List.mem_cons_of_mem _ (mem_of_mem_resume h)

/-- A statement with a mistake is left out, and with it the numbers in it. -/
theorem yields_recovering (n : Nat) :
    Yields n inner.recovering fun d m => (Phrase.initializer d).Numbered n m := by
  intro s hs hn
  have hrule := yields_declarationRule h n s hs hn
  unfold recovering
  cases hrun : inner.declarationRule s with
  | ok d s' =>
    rw [hrun] at hrule
    exact hrule
  | error e s' =>
    rw [hrun] at hrule
    cases e with
    | tooDeep => exact hrule
    -- The numbers that were taken stay taken, although what was read is dropped.
    | mistake =>
      refine ⟨fun t ht => hrule.1 t (mem_of_mem_skipMistake ht), hrule.2, fun _ => ?_⟩
      exact .none hrule.2

end Statements

/-!
## Programs

Induction on the levels of nesting ties the knot, and induction on the rounds of the loop makes a
program of declarations.
-/

/-- All rules number uses in a row, at every depth. -/
theorem yielding_grammar (depth : Nat) : (grammar depth).Yielding := by
  induction depth with
  | zero => exact ⟨fun _ => .throw _, fun _ => .throw _, fun _ => .throw _, fun _ => .throw _⟩
  | succ depth ih =>
    exact ⟨yields_recovering ih, yields_statementRule ih, yields_assignment ih, yields_unaryExpr ih⟩

/-- The declarations of a program, those with mistakes left out. -/
theorem yields_program {rules : Nested} (h : rules.Yielding) (fuel n : Nat) :
    Yields n (program rules fuel) fun ss m => (Phrase.declarations ss).Numbered n m := by
  induction fuel generalizing n with
  | zero => exact .pure fun _ => .nil n
  | succ fuel ih =>
    intro s hs hn
    have hfirst := h.declaration n s hs hn
    unfold program
    by_cases hempty : s.rest.isEmpty = true
    · simp only [hempty, if_true]
      exact ⟨hs, Nat.le_of_eq hn.symm, fun _ => .none (Nat.le_of_eq hn.symm)⟩
    · simp only [hempty]
      cases hrun : rules.declaration s with
      -- The parser gives up and keeps what it has read before.
      | error e s' =>
        rw [hrun] at hfirst
        have hreport : Yields s'.nextUse (do report (← here) .nesting; return [])
            fun ss m => (Phrase.declarations ss).Numbered n m :=
          quiet_here.andThen fun _ => (quiet_report _ _).andThen fun _ =>
            .pure fun _ => .none hfirst.2
        exact hreport.later hfirst.2 hfirst.1 rfl
      -- The others begin with the number at which the first declaration ended.
      | ok first s' =>
        rw [hrun] at hfirst
        obtain ⟨hs', hle, hfirst⟩ := hfirst
        have hrest := (ih s'.nextUse).later hle hs' rfl
        dsimp only
        cases hrun' : program rules fuel s' with
        | error e s'' =>
          rw [hrun'] at hrest
          exact hrest
        | ok others s'' =>
          rw [hrun'] at hrest
          exact ⟨hrest.1, hrest.2.1, numbered_declarations hfirst hrest.2.2⟩

/-- **What holds of the tree of any text.** -/
theorem stretch_statements (depth firstUse : Nat) (source : String) (S : List Scope) :
    Stretch firstUse (parse depth firstUse (lex source)).nextUse
      (stmtsOccurrences S (parse depth firstUse (lex source)).statements) := by
  have hprogram := yields_program (yielding_grammar depth) ((lex source).tokens.length + 1) firstUse
    ⟨(lex source).tokens, (lex source).endLine, [], firstUse, (lex source).tokens.length + 1⟩
    (fun _ ht => named_of_mem_lex ht) rfl
  unfold parse
  dsimp only
  cases hrun : program (grammar depth) ((lex source).tokens.length + 1)
      ⟨(lex source).tokens, (lex source).endLine, [], firstUse, (lex source).tokens.length + 1⟩ with
  | ok ss s =>
    rw [hrun] at hprogram
    exact hprogram.2.2 S
  -- No statement is kept here.
  | error e s =>
    rw [hrun] at hprogram
    exact .none hprogram.2

end LoxLang
