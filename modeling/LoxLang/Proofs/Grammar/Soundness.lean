import LoxLang.Proofs.Grammar.LookingAhead
import LoxLang.Proofs.Grammar.Reading

/-!
# What the parser accepts is derived by the grammar

For each rule of the parser: if it reads on without reporting anything, then the tokens that it
passed derive the tree that it gives (`Spells`). The rules one level further in are assumed to do
so (`SoundAt`), and `sound_grammar` ties the knot by induction on the levels.

Loops carry what stands before them: a loop over operators or suffixes extends a derivation of the
expression that it was given, so the left-recursive rules of the grammar come out by induction on
the rounds of the loop.
-/

namespace LoxLang

open LoxLang.Parser Nested

/-- A phrase is spelled by the tokens between two states. -/
def Spells (d : Nat) (ph : Phrase) (s s' : ParserState) : Prop :=
  ∃ ts, s.rest = ts ++ s'.rest ∧ Derives d ph s.nextUse ts s'.nextUse

/-- The next token, if there is one, is no `else`. -/
def NoElse (ts : List Token) : Prop := ∀ t rest, ts = t :: rest → t.kind ≠ .keyword .«else»

/-- A statement is spelled by some tokens in front and the tokens between two states, and if it is
open then no `else` stands behind it. -/
def SpellsStatement (d : Nat) (front : List Token) (x : Stmt) (s s' : ParserState) : Prop :=
  ∃ o ts, s.rest = ts ++ s'.rest ∧ Derives d (.statement o x) s.nextUse (front ++ ts) s'.nextUse ∧
    (o = true → NoElse s'.rest)

/-- The rules one level further in read what the grammar derives. -/
structure SoundAt (d : Nat) (inner : Nested) : Prop where
  declaration : Reads inner.declaration fun s st s' =>
    ∃ d' x, d = d' + 1 ∧ st = some x ∧ Spells d' (.declaration x) s s'
  statement : Reads inner.statement fun s x s' => ∃ d', d = d' + 1 ∧ SpellsStatement d' [] x s s'
  expression : Reads inner.expression fun s e s' =>
    ∃ d', d = d' + 1 ∧ Spells d' (.expression e) s s'
  unary : Reads inner.unary fun s e s' => ∃ d', d = d' + 1 ∧ Spells d' (.unary e) s s'

variable {d : Nat} {inner : Nested}

/-!
## Lists

Items between commas, statements between braces. The loop over items has read some when it comes
round again, and so its lemma says what it adds to them.
-/

/-- Items behind commas, one after the other. -/
inductive Separated {α : Type} (D : UseId → List Token → α → UseId → Prop) :
    UseId → List Token → List α → UseId → Prop where
  | nil {n : Nat} : Separated D n [] [] n
  | cons {n m k line : Nat} {ts ts' : List Token} {a : α} {as : List α} (ha : D n ts a m)
      (has : Separated D m ts' as k) :
      Separated D n (Mark.comma.token line :: (ts ++ ts')) (a :: as) k

section Lists

variable {α : Type} {item : Parser α} {D : UseId → List Token → α → UseId → Prop}

/-- An item reader passes tokens that are related to the item. -/
def ReadsItem (item : Parser α) (D : UseId → List Token → α → UseId → Prop) : Prop :=
  Reads item fun s a s' => ∃ ts, s.rest = ts ++ s'.rest ∧ D s.nextUse ts a s'.nextUse

/-- Further items, each behind a comma, and not too many. -/
theorem reads_moreItems (hitem : ReadsItem item D) (e : GrammarError) (fuel count : Nat) :
    Reads (moreItems item e fuel count) fun s as s' =>
      (as = [] ∨ count + as.length ≤ maxArguments) ∧
        ∃ ts, s.rest = ts ++ s'.rest ∧ Separated D s.nextUse ts as s'.nextUse := by
  induction fuel generalizing count with
  | zero =>
    refine (Unreported.pure _).mono ?_
    rintro s _ _ ⟨rfl, rfl⟩
    exact ⟨.inl rfl, [], rfl, .nil⟩
  | succ fuel ih =>
    have hcons := hitem.bind fun a => (ih (count + 1)).bind fun as => Unreported.pure (a :: as)
    refine (Reads.acceptKind? (P := fun _ s as s' => count < maxArguments ∧ ∃ a as' m ts ts',
      as = a :: as' ∧ (as' = [] ∨ count + 1 + as'.length ≤ maxArguments) ∧
        s.rest = ts ++ ts' ++ s'.rest ∧ D s.nextUse ts a m ∧ Separated D m ts' as' s'.nextUse)
      (fun line => ?_) (Unreported.pure _)).mono ?_
    -- Beyond the most that is allowed there would be a report.
    · by_cases hcount : maxArguments ≤ count
      · simp only [hcount, if_true]
        refine (reads_here.bind fun _ => (reads_report _ _).bind fun _ => hcons).mono ?_
        rintro s as s' ⟨_, _, _, _, _, hfalse, _⟩
        exact hfalse.elim
      · simp only [hcount, if_false]
        refine hcons.mono ?_
        rintro s as s' ⟨a, s₁, ⟨ts, hts, ha⟩, as', s₂, ⟨hlen, ts', hts', has⟩, rfl, rfl⟩
        exact ⟨by omega, a, as', _, ts, ts', rfl, hlen, by simp [hts, hts'], ha, has⟩
    · rintro s as s' (⟨line, s₁, ⟨hrest, huse⟩, hcount, a, as', m, ts, ts', rfl, hlen, hts, ha,
        has⟩ | ⟨-, rfl, rfl⟩)
      · refine ⟨.inr ?_, Mark.comma.token line :: (ts ++ ts'), ?_, .cons (huse ▸ ha) has⟩
        · rcases hlen with rfl | hlen
          · exact Nat.succ_le_of_lt hcount
          · simp only [List.length_cons]
            omega
        · simp [hrest, hts]
      · exact ⟨.inl rfl, [], rfl, .nil⟩

/-- No items, or a first one and further ones. -/
theorem reads_items (hitem : ReadsItem item D) (e : GrammarError) :
    Reads (items item e) fun s as s' => as.length ≤ maxArguments ∧
      ((as = [] ∧ s' = s) ∨ ∃ a as' m ts ts', as = a :: as' ∧ s.rest = ts ++ ts' ++ s'.rest ∧
        D s.nextUse ts a m ∧ Separated D m ts' as' s'.nextUse) := by
  unfold items
  refine ((reads_isNext _).bind fun b => Unreported.ite (fun _ => Unreported.pure _) fun _ =>
    hitem.bind fun a => reads_bound.bind fun fuel => (reads_moreItems hitem e fuel 1).bind
      fun as => Unreported.pure _).mono ?_
  rintro s as s' ⟨b, s₁, ⟨rfl, -⟩, ⟨-, rfl, rfl⟩ | ⟨-, a, s₂, ⟨ts, hts, ha⟩, fuel, _, rfl, as', s₃,
    ⟨hlen, ts', hts', has⟩, rfl, rfl⟩⟩
  · exact ⟨Nat.zero_le _, .inl ⟨rfl, rfl⟩⟩
  -- With one item or more, those behind the first were counted as they were read.
  · refine ⟨?_, .inr ⟨a, as', _, ts, ts', rfl, by simp [hts, hts'], ha, has⟩⟩
    rcases hlen with rfl | hlen
    · simp [maxArguments]
    · simp only [List.length_cons]
      omega

end Lists

/-- Parameters are written as names between commas. -/
theorem derives_moreParameters {n m : UseId} {ts : List Token} {xs : List Name}
    (h : Separated (fun n ts (x : Name) m => ts = [x.token] ∧ m = n) n ts xs m) :
    m = n ∧ Derives d (.moreParameters xs) n ts n := by
  induction h with
  | nil => exact ⟨rfl, .noMoreParameters⟩
  | cons hx _ ih =>
    obtain ⟨rfl, rfl⟩ := hx
    obtain ⟨rfl, ih⟩ := ih
    exact ⟨rfl, .moreParameters ih⟩

/-- Parameters up to the closing parenthesis. -/
theorem reads_parameters :
    Reads parameters fun s xs s' => xs.length ≤ maxArguments ∧ ∃ ts line,
      s.rest = ts ++ Mark.rightParen.token line :: s'.rest ∧ s'.nextUse = s.nextUse ∧
        Derives d (.parameters xs) s.nextUse ts s.nextUse := by
  have hname : ReadsItem (expectName .parameter) fun n ts x m => ts = [x.token] ∧ m = n :=
    (reads_expectName _).mono fun s x s' h => ⟨_, h.1, rfl, h.2⟩
  unfold parameters
  refine ((reads_items hname _).bind fun xs => (reads_expectMark _ _).bind
    fun _ => Unreported.pure _).mono ?_
  rintro s xs s' ⟨xs', s₁, ⟨hlen, hxs⟩, line, s₂, ⟨hrest, huse⟩, rfl, rfl⟩
  refine ⟨hlen, ?_⟩
  rcases hxs with ⟨rfl, rfl⟩ | ⟨x, more, m, ts, ts', rfl, hts, ⟨rfl, rfl⟩, hmore⟩
  · exact ⟨[], line, hrest, huse, .noParameters⟩
  · obtain ⟨hm, hmore⟩ := derives_moreParameters (d := d) hmore
    refine ⟨_, line, by simp [hts, hrest], huse.trans hm, .parameters hmore⟩

/-- An argument is derived one level further in than the call. -/
abbrev DerivesInside (d : Nat) (n : UseId) (ts : List Token) (e : Expr) (m : UseId) : Prop :=
  ∃ d', d = d' + 1 ∧ Derives d' (.expression e) n ts m

/-- Arguments are expressions one level further in. -/
theorem derives_moreArguments {n m : UseId} {ts : List Token} {es : List Expr}
    (h : Separated (DerivesInside d) n ts es m) : Derives d (.moreArguments es) n ts m := by
  induction h with
  | nil => exact .noMoreArguments
  | cons he _ ih =>
    obtain ⟨d', rfl, he⟩ := he
    exact .moreArguments he ih

/-- Statements up to a closing brace. A declaration that has a mistake leaves a report behind. -/
theorem reads_statements (h : SoundAt d inner) (fuel : Nat) :
    Reads (inner.statements fuel) fun s ss s' => Spells d (.declarations ss) s s' := by
  induction fuel with
  | zero =>
    refine (Unreported.pure _).mono ?_
    rintro s _ _ ⟨rfl, rfl⟩
    exact ⟨[], rfl, .noDeclarations⟩
  | succ fuel ih =>
    unfold Nested.statements
    refine ((reads_isNext _).bind fun _ => Unreported.ite (fun _ => Unreported.pure _) fun _ =>
      reads_atEnd.bind fun _ => Unreported.ite (fun _ => Unreported.pure _) fun _ =>
        h.declaration.bind fun _ => ih.bind fun _ => Unreported.pure _).mono ?_
    rintro s ss s' ⟨_, _, ⟨rfl, -⟩, ⟨-, rfl, rfl⟩ | ⟨-, _, _, ⟨rfl, -⟩, ⟨-, rfl, rfl⟩ |
      ⟨-, _, s₁, ⟨d', st, rfl, rfl, ts, hts, hst⟩, ss', s₂, ⟨ts', hts', hss⟩, rfl, rfl⟩⟩⟩
    -- A brace is next, the tokens are at their end, or a declaration was read.
    · exact ⟨[], rfl, .noDeclarations⟩
    · exact ⟨[], rfl, .noDeclarations⟩
    · exact ⟨ts ++ ts', by simp [hts, hts'], .declarations hst hss⟩

/-- Statements up to the closing brace. -/
theorem reads_block (h : SoundAt d inner) :
    Reads inner.block fun s ss s' => ∃ ts line,
      s.rest = ts ++ Mark.rightBrace.token line :: s'.rest ∧
        Derives d (.declarations ss) s.nextUse ts s'.nextUse := by
  unfold Nested.block
  refine (reads_bound.bind fun _ => (reads_statements h _).bind fun _ =>
    (reads_expectMark _ _).bind fun _ => Unreported.pure _).mono ?_
  rintro s ss s' ⟨_, _, rfl, ss', s₁, ⟨ts, hts, hss⟩, line, s₂, ⟨hrest, huse⟩, rfl, rfl⟩
  exact ⟨ts, line, by simp [hts, hrest], huse ▸ hss⟩

/-!
## Expressions

From those that are written without operators to those with operators on all levels of precedence.
-/

/-- Behind the keyword stand parameters and a body. -/
theorem reads_lambda (h : SoundAt d inner) (line : Nat) :
    Reads (inner.lambda line) fun s e s' => ∃ ts, s.rest = ts ++ s'.rest ∧
      Derives d (.primary e) s.nextUse (Keyword.«fun».token line :: ts) s'.nextUse := by
  unfold Nested.lambda
  refine ((reads_expectMark _ _).bind fun _ => (reads_parameters (d := d)).bind fun xs =>
    (reads_expectMark _ _).bind fun _ => (reads_block h).bind fun body => Unreported.pure _).mono ?_
  rintro s e s' ⟨lineL, s₁, ⟨hl, hul⟩, xs, s₂, ⟨hlen, ts, lineR, hr, hur, hxs⟩, lineB, s₃,
    ⟨hb, hub⟩, body, s₄, ⟨ts', lineE, he, hbody⟩, rfl, rfl⟩
  rw [hub, hur, hul] at hbody
  have hrest : s.rest = (Mark.leftParen.token lineL :: (ts ++ Mark.rightParen.token lineR ::
      Mark.leftBrace.token lineB :: (ts' ++ [Mark.rightBrace.token lineE]))) ++ s'.rest := by
    simp [hl, hr, hb, he]
  exact ⟨_, hrest, .lambda (hul ▸ hxs) hlen hbody⟩

/-- An expression one level further in, up to the closing parenthesis. -/
theorem reads_parenthesized (h : SoundAt d inner) :
    Reads inner.parenthesized fun s e s' => ∃ d' e' ts line, d = d' + 1 ∧ e = .grouping e' ∧
      s.rest = ts ++ Mark.rightParen.token line :: s'.rest ∧
        Derives d' (.expression e') s.nextUse ts s'.nextUse := by
  unfold Nested.parenthesized
  refine (h.expression.bind fun _ => (reads_expectMark _ _).bind fun _ => Unreported.pure _).mono ?_
  rintro s _ s' ⟨e, s₁, ⟨d', rfl, ts, hts, he⟩, line, _, ⟨hr, hur⟩, rfl, rfl⟩
  exact ⟨d', e, ts, line, rfl, rfl, by simp [hts, hr], hur ▸ he⟩

/-- Behind `super` stand a point and a name. -/
theorem reads_superMethod (line : Nat) :
    Reads (superMethod line) fun s e s' => ∃ ts, s.rest = ts ++ s'.rest ∧
      Derives d (.primary e) s.nextUse (Keyword.super.token line :: ts) s'.nextUse := by
  unfold superMethod
  refine ((reads_expectMark _ _).bind fun _ => (reads_expectName _).bind fun _ =>
    reads_freshUse.bind fun _ => Unreported.pure _).mono ?_
  rintro s _ s' ⟨lineD, s₁, ⟨hd, hud⟩, x, s₂, ⟨hx, hux⟩, _, s₃, ⟨rfl, hrest, huse⟩, rfl, rfl⟩
  have hpass : s.rest = [Mark.dot.token lineD, x.token] ++ s'.rest := by simp [hd, hx, hrest]
  have hnext : s'.nextUse = s.nextUse + 1 := by rw [huse, hux, hud]
  rw [hux, hud, hnext]
  exact ⟨_, hpass, .super⟩

/-- How an expression goes on depends on the token that it starts with. -/
theorem reads_afterStart (h : SoundAt d inner) {kind : TokenKind} {start : PrimaryStart}
    (hstart : PrimaryStart.ofKind? kind = some start) (line : Nat) :
    Reads (inner.afterStart line start) fun s e s' => ∃ ts, s.rest = ts ++ s'.rest ∧
      Derives d (.primary e) s.nextUse (⟨kind, line⟩ :: ts) s'.nextUse := by
  have hkind := PrimaryStart.is_of_ofKind? hstart
  cases start with
  -- The first token was taken before, so it is put in front of the others here.
  | literal value =>
    refine (Unreported.pure _).mono ?_
    rintro s _ _ ⟨rfl, rfl⟩
    exact ⟨[], rfl, .literal hkind⟩
  | name text =>
    subst hkind
    refine (reads_freshUse.bind fun id => Unreported.pure _).mono ?_
    rintro s _ _ ⟨_, s₁, ⟨rfl, hrest, huse⟩, rfl, rfl⟩
    exact ⟨[], hrest.symm, huse ▸ .«variable» (x := ⟨text, line⟩)⟩
  | parenthesis =>
    subst hkind
    refine (reads_parenthesized h).mono ?_
    rintro s _ s' ⟨d', e, ts, lineR, rfl, rfl, hrest, he⟩
    exact ⟨_, by simpa using hrest, .grouping he⟩
  | lambda =>
    subst hkind
    exact reads_lambda h line
  | this =>
    subst hkind
    refine (reads_freshUse.bind fun id => Unreported.pure _).mono ?_
    rintro s _ _ ⟨_, s₁, ⟨rfl, hrest, huse⟩, rfl, rfl⟩
    exact ⟨[], hrest.symm, huse ▸ .this⟩
  | super =>
    subst hkind
    exact reads_superMethod line

/-- Whatever token the expression starts with. -/
theorem reads_primary (h : SoundAt d inner) :
    Reads inner.primary fun s e s' => Spells d (.primary e) s s' := by
  refine (Reads.accept? (fun kind start line hstart => reads_afterStart h hstart line)
    (reads_fail (Q := fun _ _ _ => False) _)).mono ?_
  rintro s e s' (⟨kind, line, s₁, ⟨hrest, huse⟩, ts, hts, he⟩ | ⟨-, hfalse⟩)
  · exact ⟨⟨kind, line⟩ :: ts, by simp [hrest, hts], huse ▸ he⟩
  · exact hfalse.elim

/-- Arguments up to the closing parenthesis, and not too many. -/
theorem reads_arguments (h : SoundAt d inner) (callee : Expr) :
    Reads (inner.arguments callee) fun s e s' => ∃ es ts line, e = .call callee line es ∧
      es.length ≤ maxArguments ∧ s.rest = ts ++ Mark.rightParen.token line :: s'.rest ∧
        Derives d (.arguments es) s.nextUse ts s'.nextUse := by
  -- An argument is read by the rules one level further in.
  have hitem : ReadsItem inner.expression (DerivesInside d) := by
    refine h.expression.mono ?_
    rintro s e s' ⟨d', hd, ts, hts, he⟩
    exact ⟨ts, hts, d', hd, he⟩
  refine ((reads_items hitem _).bind fun es => (reads_expectMark _ _).bind
    fun _ => Unreported.pure _).mono ?_
  rintro s _ s' ⟨es, s₁, ⟨hlen, hes⟩, line, s₂, ⟨hr, hu⟩, rfl, rfl⟩
  rcases hes with ⟨rfl, rfl⟩ | ⟨e, more, m, ts, ts', rfl, hts, ⟨d', rfl, he⟩, hmore⟩
  · exact ⟨[], [], line, rfl, hlen, hr, hu ▸ .noArguments⟩
  · exact ⟨_, ts ++ ts', line, rfl, hlen, by simp [hts, hr],
      hu ▸ .arguments he (derives_moreArguments hmore)⟩

/-- The loop over suffixes extends what it was given. -/
theorem reads_suffixes (h : SoundAt d inner) (fuel : Nat) (e : Expr) :
    Reads (inner.suffixes fuel e) fun s e' s' => ∀ n ts, Derives d (.call e) n ts s.nextUse →
      ∃ ts', s.rest = ts' ++ s'.rest ∧ Derives d (.call e') n (ts ++ ts') s'.nextUse := by
  induction fuel generalizing e with
  | zero =>
    refine (Unreported.pure _).mono ?_
    rintro s _ _ ⟨rfl, rfl⟩ n ts he
    exact ⟨[], rfl, by simpa using he⟩
  | succ fuel ih =>
    have hget := (reads_expectName .property).bind fun x => ih (.get e x)
    refine (Reads.acceptKind? (fun line => (reads_arguments h e).bind fun e' => ih e')
      (Reads.acceptKind? (fun line => hget) (Unreported.pure e))).mono ?_
    rintro s e' s' (⟨lineL, s₁, ⟨hl, hul⟩, _, s₂, ⟨es, tes, line, rfl, hlen, hr, hes⟩, hmore⟩ |
      ⟨-, ⟨lineD, s₁, ⟨hd, hud⟩, x, s₂, ⟨hx, hux⟩, hmore⟩ | ⟨-, rfl, rfl⟩⟩) n ts he
    · have hcall : Derives d (.call (.call e line es)) n
          (ts ++ Mark.leftParen.token lineL :: (tes ++ [Mark.rightParen.token line])) s₂.nextUse :=
        .call he (hul ▸ hes) hlen
      -- All that stands before it has become the callee of a call, which is what is read on from.
      obtain ⟨ts', hts', he'⟩ := hmore n _ hcall
      refine ⟨Mark.leftParen.token lineL :: (tes ++ Mark.rightParen.token line :: ts'), ?_, ?_⟩
      · simp [hl, hr, hts']
      · simpa using he'
    · have hget : Derives d (.call (.get e x)) n (ts ++ [Mark.dot.token lineD, x.token])
          s.nextUse := .get he
      obtain ⟨ts', hts', he'⟩ := hmore n _ (by rw [hux, hud]; exact hget)
      refine ⟨Mark.dot.token lineD :: x.token :: ts', ?_, ?_⟩
      · simp [hd, hx, hts']
      · simpa using he'
    · exact ⟨[], rfl, by simpa using he⟩

/-- A primary expression, and what follows it. -/
theorem reads_call (h : SoundAt d inner) :
    Reads inner.call fun s e s' => Spells d (.call e) s s' := by
  refine ((reads_primary h).bind fun e => reads_bound.bind fun fuel =>
    reads_suffixes h fuel e).mono ?_
  rintro s e s' ⟨e₀, s₁, ⟨ts, hts, he₀⟩, fuel, _, rfl, hmore⟩
  obtain ⟨ts', hts', he⟩ := hmore _ _ (.primary he₀)
  exact ⟨ts ++ ts', by simp [hts, hts'], he⟩

/-- Operators in front of an expression stand a level further in each. -/
theorem reads_unaryExpr (h : SoundAt d inner) :
    Reads inner.unaryExpr fun s e s' => Spells d (.unary e) s s' := by
  refine (Reads.accept? (P := fun kind line s e s' => ∃ op d' e', kind = op.token ∧ d = d' + 1 ∧
    e = .unary op line e' ∧ Spells d' (.unary e') s s') (fun kind op line hop => ?_)
    (reads_call h)).mono ?_
  · refine (h.unary.bind fun e => Unreported.pure _).mono ?_
    rintro s _ s' ⟨e, s₁, ⟨d', hd, he⟩, rfl, rfl⟩
    exact ⟨op, d', e, eq_token_of_unaryOperator? hop, hd, rfl, he⟩
  · rintro s e s' (⟨_, line, s₁, ⟨hrest, huse⟩, op, d', e', rfl, rfl, rfl, ts, hts, he⟩ |
      ⟨-, ts, hts, he⟩)
    · exact ⟨⟨op.token, line⟩ :: ts, by simp [hrest, hts], .unary (huse ▸ he)⟩
    · exact ⟨ts, hts, .suffixed he⟩

/-!
### Operators with two operands

One lemma for all levels of precedence. A level has its operators, and its operands are the
expressions of the next level.
-/

section Chain

variable {α : Type} {l : Level} {operator? : TokenKind → Option α}
  {join : α → Nat → Expr → Expr → Expr} {operand : Parser Expr}

/-- The loop over operators extends what it was given, and so associates to the left. -/
theorem reads_moreOperands (hop : ∀ kind, l.operator? kind = (operator? kind).map join)
    (hoperand : Reads operand fun s e s' => Spells d (l.operand e) s s') (fuel : Nat) (e : Expr) :
    Reads (moreOperands operator? join operand fuel e) fun s e' s' => ∀ n ts,
      Derives d (.chain l e) n ts s.nextUse →
        ∃ ts', s.rest = ts' ++ s'.rest ∧ Derives d (.chain l e') n (ts ++ ts') s'.nextUse := by
  induction fuel generalizing e with
  | zero =>
    refine (Unreported.pure _).mono ?_
    rintro s _ _ ⟨rfl, rfl⟩ n ts he
    exact ⟨[], rfl, by simpa using he⟩
  | succ fuel ih =>
    refine (Reads.accept? (P := fun kind line s e' s' => ∃ op right s₁,
      operator? kind = some op ∧ Spells d (l.operand right) s s₁ ∧
        ∀ n ts, Derives d (.chain l (join op line e right)) n ts s₁.nextUse →
          ∃ ts', s₁.rest = ts' ++ s'.rest ∧ Derives d (.chain l e') n (ts ++ ts') s'.nextUse)
      (fun kind op line hkind => ?_) (Unreported.pure e)).mono ?_
    · refine (hoperand.bind fun right => ih (join op line e right)).mono ?_
      rintro s e' s' ⟨right, s₁, hright, hmore⟩
      exact ⟨op, right, s₁, hkind, hright, hmore⟩
    · rintro s e' s' (⟨kind, line, s₁, ⟨hrest, huse⟩, op, right, s₂, hkind, ⟨tr, htr, hright⟩,
        hmore⟩ | ⟨-, rfl, rfl⟩) n ts he
      -- An operator of this level joins all that has been read so far to what stands behind it.
      · have hmem : (kind, join op) ∈ l.operators :=
          Level.operator?_eq_some_iff.mp (by rw [hop, hkind]; rfl)
        obtain ⟨ts', hts', he'⟩ := hmore n _ (.joined he hmem (huse ▸ hright))
        refine ⟨⟨kind, line⟩ :: (tr ++ ts'), by simp [hrest, htr, hts'], ?_⟩
        simpa using he'
      · exact ⟨[], rfl, by simpa using he⟩

/-- An operand, and further ones behind operators. -/
theorem reads_chain (hop : ∀ kind, l.operator? kind = (operator? kind).map join)
    (hoperand : Reads operand fun s e s' => Spells d (l.operand e) s s') :
    Reads (chain operator? join operand) fun s e s' => Spells d (.chain l e) s s' := by
  refine (hoperand.bind fun e => reads_bound.bind fun fuel =>
    reads_moreOperands hop hoperand fuel e).mono ?_
  rintro s e s' ⟨e₀, s₁, ⟨ts, hts, he₀⟩, fuel, _, rfl, hmore⟩
  obtain ⟨ts', hts', he⟩ := hmore _ _ (.operand he₀)
  exact ⟨ts ++ ts', by simp [hts, hts'], he⟩

end Chain

/-- All levels, from that of `or` inwards. -/
theorem reads_disjunction (h : SoundAt d inner) :
    Reads inner.disjunction fun s e s' => Spells d (.chain .disjunction e) s s' := by
  have hfactor := reads_chain (l := .factor) (fun _ => rfl) (reads_unaryExpr h)
  have hterm := reads_chain (l := .term) (fun _ => rfl) hfactor
  have hcomparison := reads_chain (l := .comparison) (fun _ => rfl) hterm
  have hequality := reads_chain (l := .equality) (fun _ => rfl) hcomparison
  have hconjunction := reads_chain (l := .conjunction) (fun _ => rfl) hequality
  exact reads_chain (l := .disjunction) (fun _ => rfl) hconjunction

/-!
### Assignment

What stands to the left of an assignment has been read as an expression. So a derivation of that
expression must be turned into one of the target.
-/

/-- What is no operation on two operands stands alone on each level. -/
theorem Derives.unary_of_chain {l : Level} {e : Expr} {n m : UseId} {ts : List Token}
    (h : Derives d (.chain l e) n ts m) (hbinary : ∀ op line a b, e ≠ .binary op line a b)
    (hlogical : ∀ op line a b, e ≠ .logical op line a b) : Derives d (.unary e) n ts m := by
  -- What is no operation has only one operand on this level. So it is handed down level by level.
  have hoperand {l : Level} (h : Derives d (.chain l e) n ts m) :
      Derives d (l.operand e) n ts m := by
    cases h with
    | operand he => exact he
    | @joined _ _ _ _ line _ _ _ _ _ left right _ hop _ =>
      rcases Level.join_of_mem_operators hop with ⟨op, rfl⟩ | ⟨op, rfl⟩
      · exact absurd rfl (hlogical op line left right)
      · exact absurd rfl (hbinary op line left right)
  have hfactor (h : Derives d (.chain .factor e) n ts m) := hoperand h
  have hterm (h : Derives d (.chain .term e) n ts m) := hfactor (hoperand h)
  have hcomparison (h : Derives d (.chain .comparison e) n ts m) := hterm (hoperand h)
  have hequality (h : Derives d (.chain .equality e) n ts m) := hcomparison (hoperand h)
  have hconjunction (h : Derives d (.chain .conjunction e) n ts m) := hequality (hoperand h)
  cases l with
  | disjunction => exact hconjunction (hoperand h)
  | conjunction => exact hconjunction h
  | equality => exact hequality h
  | comparison => exact hcomparison h
  | term => exact hterm h
  | factor => exact hfactor h

/-- An expression that is a variable is written as its name. -/
theorem Derives.chain_variable {l : Level} {use : VariableUse} {n m : UseId} {ts : List Token}
    (h : Derives d (.chain l (.«variable» use)) n ts m) : ts = [use.name.token] ∧ m = n + 1 := by
  cases h.unary_of_chain (by nofun) (by nofun) with
  | suffixed he =>
    cases he with
    | primary he =>
      cases he with
      | «variable» => exact ⟨rfl, rfl⟩

/-- An expression that is a property is written as its object, a point and its name. -/
theorem Derives.chain_get {l : Level} {object : Expr} {x : Name} {n m : UseId} {ts : List Token}
    (h : Derives d (.chain l (.get object x)) n ts m) :
    ∃ ts' line, ts = ts' ++ [Mark.dot.token line, x.token] ∧ Derives d (.call object) n ts' m := by
  cases h.unary_of_chain (by nofun) (by nofun) with
  | suffixed he =>
    cases he with
    | primary he => cases he
    | get hobject => exact ⟨_, _, rfl, hobject⟩

/-- A variable or a property can be assigned to. The use of a variable gets a new number. -/
theorem reads_assignTo (target : Expr) (line : Nat) (value : Expr) :
    Reads (assignTo target line value) fun s e s' => s'.rest = s.rest ∧
      ((∃ use, target = .«variable» use ∧ e = .assign s.nextUse use.name value ∧
          s'.nextUse = s.nextUse + 1) ∨
        ∃ object x, target = .get object x ∧ e = .set object x value ∧ s'.nextUse = s.nextUse) := by
  unfold assignTo
  split
  · next use =>
    refine (reads_freshUse.bind fun id => Unreported.pure _).mono ?_
    rintro s _ s' ⟨_, _, ⟨rfl, hrest, huse⟩, rfl, rfl⟩
    exact ⟨hrest, .inl ⟨use, rfl, rfl, huse⟩⟩
  · next object x =>
    refine (Unreported.pure _).mono ?_
    rintro s _ _ ⟨rfl, rfl⟩
    exact ⟨rfl, .inr ⟨object, x, rfl, rfl, rfl⟩⟩
  -- Any other target is reported.
  · refine ((reads_report _ _).bind fun _ => Unreported.pure _).mono ?_
    rintro s _ _ ⟨_, _, hfalse, _⟩
    exact hfalse.elim

/-- An expression, and perhaps a value behind it. -/
theorem reads_assignment (h : SoundAt d inner) :
    Reads inner.assignment fun s e s' => Spells d (.expression e) s s' := by
  have hassign (target : Expr) (line : Nat) :=
    h.expression.bind fun value => reads_assignTo target line value
  refine ((reads_disjunction h).bind fun target =>
    Reads.acceptKind? (fun line => hassign target line) (Unreported.pure target)).mono ?_
  rintro s e s' ⟨target, s₁, ⟨ts, hts, htarget⟩, ⟨line, s₂, ⟨heq, hueq⟩, value, s₃,
    ⟨d', rfl, tv, htv, hvalue⟩, hrest, hassigned⟩ | ⟨-, rfl, rfl⟩⟩
  · rw [hueq] at hvalue
    -- The target was read as an expression. Its tokens are those of the assignment, too.
    rcases hassigned with ⟨use, rfl, rfl, huse⟩ | ⟨object, x, rfl, rfl, huse⟩
    · obtain ⟨rfl, hn⟩ := htarget.chain_variable
      rw [hn] at hvalue
      have hpass : s.rest = (use.name.token :: Mark.equal.token line :: tv) ++ s'.rest := by
        simp [hts, heq, htv, hrest]
      exact ⟨_, hpass, huse ▸ .assign hvalue⟩
    · obtain ⟨tx, lineD, rfl, hobject⟩ := htarget.chain_get
      have hpass : s.rest = (tx ++ Mark.dot.token lineD :: x.token ::
          Mark.equal.token line :: tv) ++ s'.rest := by
        simp [hts, heq, htv, hrest]
      exact ⟨_, hpass, huse ▸ .set hobject hvalue⟩
  · exact ⟨ts, hts, .value htarget⟩

/-!
## Statements

Each kind of statement behind the tokens that tell its kind, so that the lemmas speak of the tokens
in front of what is read.
-/

/-- What is read up to a semicolon, or another mark behind it. -/
def SpellsUpTo (final : Mark) (d : Nat) (ph : Phrase) (s s' : ParserState) : Prop :=
  ∃ ts line, s.rest = ts ++ final.token line :: s'.rest ∧ Derives d ph s.nextUse ts s'.nextUse

/-- A phrase, and the mark that ends it. -/
theorem Spells.upTo {final : Mark} {ph : Phrase} {s s₁ s' : ParserState} {line : Nat}
    (h : Spells d ph s s₁) (hpass : Passes [⟨.mark final, line⟩] s₁ s') :
    SpellsUpTo final d ph s s' := by
  obtain ⟨ts, hts, h⟩ := h
  exact ⟨ts, line, by simp [hts, hpass.1], hpass.2 ▸ h⟩

/-- An expression up to the semicolon. -/
theorem reads_expressionStatement (h : SoundAt d inner) :
    Reads inner.expressionStatement fun s x s' =>
      ∃ e, x = .expression e ∧ SpellsUpTo .semicolon d (.expression e) s s' := by
  refine ((reads_assignment h).bind fun e => (reads_expectMark _ _).bind
    fun _ => Unreported.pure _).mono ?_
  rintro s _ s' ⟨e, s₁, he, line, _, hpass, rfl, rfl⟩
  exact ⟨e, rfl, he.upTo hpass⟩

/-- The same behind `print`. -/
theorem reads_printStatement (h : SoundAt d inner) :
    Reads inner.printStatement fun s x s' =>
      ∃ e, x = .print e ∧ SpellsUpTo .semicolon d (.expression e) s s' := by
  refine ((reads_assignment h).bind fun e => (reads_expectMark _ _).bind
    fun _ => Unreported.pure _).mono ?_
  rintro s _ s' ⟨e, s₁, he, line, _, hpass, rfl, rfl⟩
  exact ⟨e, rfl, he.upTo hpass⟩

/-- A clause that may be left out, up to the mark behind it. -/
theorem reads_forClause (h : SoundAt d inner) (final : Mark) (place : MarkPlace) :
    Reads (inner.forClause final place) fun s e s' => SpellsUpTo final d (.clause e) s s' := by
  have hfinal (e : Option Expr) := (reads_expectMark final place).bind fun _ => Unreported.pure e
  refine ((reads_isNext _).bind fun _ => Unreported.ite
    (fun _ => (Unreported.pure none).bind hfinal)
    fun _ => ((reads_assignment h).map some).bind hfinal).mono ?_
  rintro s e s' ⟨_, _, ⟨rfl, -⟩, ⟨-, e, _, ⟨rfl, rfl⟩, line, _, hpass, rfl, rfl⟩ |
    ⟨-, _, s₁, ⟨e, he, rfl⟩, line, _, hpass, rfl, rfl⟩⟩
  · exact Spells.upTo ⟨[], rfl, .noClause⟩ hpass
  · obtain ⟨ts, hts, he⟩ := he
    exact Spells.upTo ⟨ts, hts, .clause he⟩ hpass

/-- A value that may be left out, up to the semicolon. -/
theorem reads_returnStatement (h : SoundAt d inner) (line : Nat) :
    Reads (inner.returnStatement line) fun s x s' =>
      ∃ e, x = .returnValue line e ∧ SpellsUpTo .semicolon d (.clause e) s s' := by
  rw [returnStatement_eq]
  refine ((reads_forClause h _ _).bind fun e => Unreported.pure _).mono ?_
  rintro s _ s' ⟨e, s₁, he, rfl, rfl⟩
  exact ⟨e, rfl, he⟩

/-- A name, and perhaps an initializer. -/
theorem reads_varDeclaration (h : SoundAt d inner) :
    Reads inner.varDeclaration fun s x s' => Spells d (.«variable» x) s s' := by
  -- The declaration ends in the same way with an initializer and without one.
  have hfinal (x : Name) (e : Option Expr) :=
    (reads_expectMark .semicolon .afterVariable).bind fun _ => Unreported.pure (Stmt.var x e)
  refine Unreported.mono ((reads_expectName _).bind fun x => Reads.acceptKind?
    (fun _ => ((reads_assignment h).map some).bind (hfinal x))
    ((Unreported.pure none).bind (hfinal x))) ?_
  rintro s _ s' ⟨x, s₁, ⟨hx, hux⟩, ⟨lineE, s₂, ⟨heq, hueq⟩, _, s₃, ⟨e, ⟨ts, hts, he⟩, rfl⟩, line, _,
    ⟨hr, hur⟩, rfl, rfl⟩ | ⟨-, _, _, ⟨rfl, rfl⟩, line, _, ⟨hr, hur⟩, rfl, rfl⟩⟩
  · rw [hueq, hux, ← hur] at he
    have hpass : s.rest = (x.token :: Mark.equal.token lineE ::
        (ts ++ [Mark.semicolon.token line])) ++ s'.rest := by
      simp [hx, heq, hts, hr]
    exact ⟨_, hpass, .variableValue he⟩
  · have hpass : s.rest = [x.token, Mark.semicolon.token line] ++ s'.rest := by simp [hx, hr]
    rw [Spells, hur, hux]
    exact ⟨_, hpass, .variableNil⟩

/-- A declaration, an expression, or nothing but a semicolon. -/
theorem reads_forInitializer (h : SoundAt d inner) :
    Reads inner.forInitializer fun s x s' => Spells d (.initializer x) s s' := by
  refine (Reads.acceptKind? (fun _ => Unreported.pure none) (Reads.acceptKind?
    (fun _ => (reads_varDeclaration h).map some)
    ((reads_expressionStatement h).map some))).mono ?_
  rintro s _ s' (⟨line, _, ⟨hr, hur⟩, rfl, rfl⟩ | ⟨-, ⟨line, s₁, ⟨hv, huv⟩, x, ⟨ts, hts, hx⟩, rfl⟩ |
    ⟨-, _, ⟨e, rfl, ts, line, hts, he⟩, rfl⟩⟩)
  · exact ⟨_, hr, hur ▸ .noInitializer⟩
  · exact ⟨Keyword.var.token line :: ts, by simp [hv, hts], huv ▸ .variableInitializer hx⟩
  · exact ⟨ts ++ [Mark.semicolon.token line], by simp [hts], .effectInitializer he⟩

/-- What stands behind the parenthesis of a loop or a branch, up to the end of the statement. -/
theorem reads_forStatement (h : SoundAt d inner) (lineF : Nat) :
    Reads inner.forStatement fun s x s' =>
      SpellsStatement d [Keyword.«for».token lineF] x s s' := by
  refine ((reads_expectMark _ _).bind fun _ => (reads_forInitializer h).bind fun first =>
    (reads_forClause h _ _).bind fun condition => (reads_forClause h _ _).bind fun last =>
      h.statement.bind fun body => Unreported.pure _).mono ?_
  rintro s _ s' ⟨lineL, s₁, ⟨hl, hul⟩, first, s₂, ⟨ti, hti, hfirst⟩, condition, s₃,
    ⟨tc, lineS, htc, hcondition⟩, last, s₄, ⟨tl, lineR, htl, hlast⟩, body, s₅,
    ⟨d', rfl, o, tb, htb, hbody, helse⟩, rfl, rfl⟩
  have hpass : s.rest = (Mark.leftParen.token lineL :: (ti ++ (tc ++ Mark.semicolon.token lineS ::
      (tl ++ Mark.rightParen.token lineR :: tb)))) ++ s'.rest := by
    simp [hl, hti, htc, htl, htb]
  rw [forLoop_eq_loopTree]
  exact ⟨o, _, hpass, .forLoop (hul ▸ hfirst) hcondition hlast hbody, helse⟩

/-- The condition in parentheses, and the body. -/
theorem reads_whileStatement (h : SoundAt d inner) (lineW : Nat) :
    Reads inner.whileStatement fun s x s' =>
      SpellsStatement d [Keyword.«while».token lineW] x s s' := by
  refine ((reads_expectMark _ _).bind fun _ => (reads_assignment h).bind fun condition =>
    (reads_expectMark _ _).bind fun _ => h.statement.bind fun body => Unreported.pure _).mono ?_
  rintro s _ s' ⟨lineL, s₁, ⟨hl, hul⟩, e, s₂, ⟨te, hte, he⟩, lineR, s₃, ⟨hr, hur⟩, body, s₄,
    ⟨d', rfl, o, tb, htb, hbody, helse⟩, rfl, rfl⟩
  have hpass : s.rest = (Mark.leftParen.token lineL :: (te ++ Mark.rightParen.token lineR :: tb)) ++
      s'.rest := by
    simp [hl, hte, hr, htb]
  exact ⟨o, _, hpass, .whileDo (hul ▸ he) (hur ▸ hbody), helse⟩

/-- An `else` belongs to the nearest `if` that it can belong to. So a branch that is open is not
followed by one. -/
theorem reads_ifStatement (h : SoundAt d inner) (lineI : Nat) :
    Reads inner.ifStatement fun s x s' => SpellsStatement d [Keyword.«if».token lineI] x s s' := by
  have hfinal (e : Expr) (x : Stmt) (y : Option Stmt) : Reads (pure (Stmt.ifThen e x y)) _ :=
    Unreported.pure _
  refine Unreported.mono ((reads_expectMark _ _).bind fun _ => (reads_assignment h).bind fun e =>
    (reads_expectMark _ _).bind fun _ => h.statement.bind fun x => Reads.acceptKind?
      (fun _ => (h.statement.map some).bind (hfinal e x))
      ((Unreported.pure none).bind (hfinal e x))) ?_
  rintro s _ s' ⟨lineL, s₁, ⟨hl, hul⟩, e, s₂, ⟨te, hte, he⟩, lineR, s₃, ⟨hr, hur⟩, x, s₄,
    ⟨d', rfl, o, tx, htx, hx, helse⟩, ⟨lineE, s₅, ⟨hrest, huse⟩, _, s₆,
      ⟨y, ⟨_, heq, o', ty, hty, hy, helse'⟩, rfl⟩, rfl, rfl⟩ | ⟨hnone, _, _, ⟨rfl, rfl⟩, rfl, rfl⟩⟩
  · -- An `else` stands behind the first branch, so that is not open.
    obtain rfl : o = false := by
      cases o with
      | false => rfl
      | true => exact absurd rfl (helse rfl _ _ hrest)
    obtain rfl := Nat.succ.inj heq
    have hpass : s.rest = (Mark.leftParen.token lineL :: (te ++ Mark.rightParen.token lineR ::
        (tx ++ Keyword.«else».token lineE :: ty))) ++ s'.rest := by
      simp [hl, hte, hr, htx, hrest, hty]
    exact ⟨o', _, hpass, .ifElse (hul ▸ he) (hur ▸ hx) (huse ▸ hy), helse'⟩
  · have hpass : s.rest = (Mark.leftParen.token lineL :: (te ++
        Mark.rightParen.token lineR :: tx)) ++ s'.rest := by
      simp [hl, hte, hr, htx]
    exact ⟨true, _, hpass, .ifThen (hul ▸ he) (hur ▸ hx), fun _ => hnone⟩

/-- How a statement goes on depends on the token that it starts with. -/
theorem reads_afterStatementStart (h : SoundAt d inner) {kind : TokenKind} {start : StatementStart}
    (hstart : start.Is kind) (line : Nat) :
    Reads (inner.afterStatementStart line start) fun s x s' =>
      SpellsStatement d [⟨kind, line⟩] x s s' := by
  cases start with
  | forLoop =>
    subst hstart
    exact reads_forStatement h line
  | ifThen =>
    subst hstart
    exact reads_ifStatement h line
  | print =>
    subst hstart
    refine (reads_printStatement h).mono ?_
    rintro s _ s' ⟨e, rfl, ts, line', hts, he⟩
    exact ⟨false, ts ++ [Mark.semicolon.token line'], by simp [hts], .print he, by nofun⟩
  | block =>
    subst hstart
    refine ((reads_block h).bind fun body => Unreported.pure _).mono ?_
    rintro s _ s' ⟨body, _, ⟨ts, line', hts, hbody⟩, rfl, rfl⟩
    exact ⟨false, ts ++ [Mark.rightBrace.token line'], by simp [hts], .block hbody, by nofun⟩
  | returnValue =>
    subst hstart
    refine (reads_returnStatement h line).mono ?_
    rintro s _ s' ⟨e, rfl, ts, line', hts, he⟩
    exact ⟨false, ts ++ [Mark.semicolon.token line'], by simp [hts], .returnValue he, by nofun⟩
  | whileLoop =>
    subst hstart
    exact reads_whileStatement h line

/-- Any statement that is no declaration. -/
theorem reads_statementRule (h : SoundAt d inner) :
    Reads inner.statementRule fun s x s' => SpellsStatement d [] x s s' := by
  refine (Reads.accept? (fun kind start line hstart =>
    reads_afterStatementStart h (StatementStart.is_of_ofKind? hstart) line)
    (reads_expressionStatement h)).mono ?_
  rintro s x s' (⟨kind, line, s₁, ⟨hrest, huse⟩, o, ts, hts, hx, helse⟩ |
    ⟨-, e, rfl, ts, line, hts, he⟩)
  · exact ⟨o, ⟨kind, line⟩ :: ts, by simp [hrest, hts], huse ▸ hx, helse⟩
  · exact ⟨false, ts ++ [Mark.semicolon.token line], by simp [hts], .effect he, by nofun⟩

/-!
## Declarations

Functions and classes, and the choice between declarations and other statements.
-/

/-- A name, parameters and a body. -/
theorem reads_function (h : SoundAt d inner) (kind : FunctionKind) :
    Reads (inner.function kind) fun s f s' => Spells d (.function f) s s' := by
  refine ((reads_expectName _).bind fun x => (reads_expectMark _ _).bind fun _ =>
    (reads_parameters (d := d)).bind fun xs => (reads_expectMark _ _).bind fun _ =>
      (reads_block h).bind fun body => Unreported.pure _).mono ?_
  rintro s _ s' ⟨x, s₀, ⟨hx, hux⟩, lineL, s₁, ⟨hl, hul⟩, xs, s₂, ⟨hlen, ts, lineR, hr, hur, hxs⟩,
    lineB, s₃, ⟨hb, hub⟩, body, s₄, ⟨ts', lineE, he, hbody⟩, rfl, rfl⟩
  rw [hub, hur, hul, hux] at hbody
  rw [hul, hux] at hxs
  have hpass : s.rest = (x.token :: Mark.leftParen.token lineL :: (ts ++
      Mark.rightParen.token lineR :: Mark.leftBrace.token lineB ::
        (ts' ++ [Mark.rightBrace.token lineE]))) ++ s'.rest := by
    simp [hx, hl, hr, hb, he]
  exact ⟨_, hpass, .function hxs hlen hbody⟩

/-- The members of a class, told apart by a keyword. -/
theorem reads_methods (h : SoundAt d inner) (fuel : Nat) :
    Reads (inner.methods fuel) fun s ms s' => Spells d (.members ms.1 ms.2) s s' := by
  induction fuel with
  | zero =>
    refine (Unreported.pure _).mono ?_
    rintro s _ _ ⟨rfl, rfl⟩
    exact ⟨[], rfl, .noMembers⟩
  | succ fuel ih =>
    -- Both kinds of methods are read alike, and go to one of the two lists.
    have hmethod (isStatic : Bool) : Reads (do
        let method ← inner.function .method
        let others ← inner.methods fuel
        if isStatic then return (others.1, method :: others.2)
        else return (method :: others.1, others.2)) fun s ms s' =>
          ∃ f fs gs s₁, Spells d (.function f) s s₁ ∧ Spells d (.members fs gs) s₁ s' ∧
            ms = if isStatic then (fs, f :: gs) else (f :: fs, gs) := by
      refine ((reads_function h .method).bind fun f => ih.bind fun ms =>
        Unreported.ite (fun _ => Unreported.pure _) fun _ => Unreported.pure _).mono ?_
      rintro s _ s' ⟨f, s₁, hf, ms, s₂, hms, ⟨his, rfl, rfl⟩ | ⟨his, rfl, rfl⟩⟩
      · exact ⟨f, ms.1, ms.2, s₁, hf, hms, by simp [his]⟩
      · exact ⟨f, ms.1, ms.2, s₁, hf, hms, by simp [his]⟩
    refine (reads_atEnd.bind fun _ => Unreported.ite (fun _ => Unreported.pure _) fun _ =>
      (reads_isNext _).bind fun _ => Unreported.ite (fun _ => Unreported.pure _) fun _ =>
        Reads.acceptKind? (fun _ => hmethod true) (hmethod false)).mono ?_
    rintro s ms s' ⟨_, _, ⟨rfl, -⟩, ⟨-, rfl, rfl⟩ | ⟨-, _, _, ⟨rfl, -⟩, ⟨-, rfl, rfl⟩ |
      ⟨-, ⟨line, s₀, ⟨hc, huc⟩, f, fs, gs, s₁, ⟨ts, hts, hf⟩, ⟨ts', hts', hms⟩, rfl⟩ |
        ⟨-, f, fs, gs, s₁, ⟨ts, hts, hf⟩, ⟨ts', hts', hms⟩, rfl⟩⟩⟩⟩
    · exact ⟨[], rfl, .noMembers⟩
    · exact ⟨[], rfl, .noMembers⟩
    · exact ⟨Keyword.«class».token line :: (ts ++ ts'), by simp [hc, hts, hts'],
        .staticMethod (huc ▸ hf) hms⟩
    · exact ⟨ts ++ ts', by simp [hts, hts'], .method hf hms⟩

/-- The name behind `<` is a use, and gets a number. -/
theorem reads_superclass :
    Reads superclass fun s use s' =>
      (use = none ∧ s' = s) ∨ ∃ y line, use = some ⟨s.nextUse, y⟩ ∧
        s.rest = [Mark.less.token line, y.token] ++ s'.rest ∧ s'.nextUse = s.nextUse + 1 := by
  refine Unreported.mono (Reads.acceptKind? (fun _ => (reads_expectName _).bind fun _ =>
    reads_freshUse.bind fun _ => Unreported.pure _) (Unreported.pure none)) ?_
  rintro s _ s' (⟨line, s₁, ⟨hl, hul⟩, y, s₂, ⟨hy, huy⟩, _, s₃, ⟨rfl, hrest, huse⟩, rfl, rfl⟩ |
    ⟨-, rfl, rfl⟩)
  · exact .inr ⟨y, line, by rw [huy, hul], by simp [hl, hy, hrest], by rw [huse, huy, hul]⟩
  · exact .inl ⟨rfl, rfl⟩

/-- A name, perhaps a superclass, and members. -/
theorem reads_classDeclaration (h : SoundAt d inner) (lineC : Nat) :
    Reads inner.classDeclaration fun s x s' => ∃ ts, s.rest = ts ++ s'.rest ∧
      Derives d (.declaration x) s.nextUse (Keyword.«class».token lineC :: ts) s'.nextUse := by
  refine ((reads_expectName _).bind fun x => reads_superclass.bind fun use =>
    (reads_expectMark _ _).bind fun _ => reads_bound.bind fun fuel =>
      (reads_methods h fuel).bind fun ms => (reads_expectMark _ _).bind
        fun _ => Unreported.pure _).mono ?_
  rintro s _ s' ⟨x, s₁, ⟨hx, hux⟩, use, s₂, hparent, lineL, s₃, ⟨hl, hul⟩, _, _, rfl, ms, s₄,
    ⟨ts, hts, hms⟩, lineR, _, ⟨hr, hur⟩, rfl, rfl⟩
  rw [← hur] at hms
  -- Without a superclass and with one.
  rcases hparent with ⟨rfl, rfl⟩ | ⟨y, lineB, rfl, hy, huy⟩
  · have hpass : s.rest = (x.token :: Mark.leftBrace.token lineL ::
        (ts ++ [Mark.rightBrace.token lineR])) ++ s'.rest := by
      simp [hx, hl, hts, hr]
    rw [hul, hux] at hms
    exact ⟨_, hpass, .classDecl hms⟩
  · have hpass : s.rest = (x.token :: Mark.less.token lineB :: y.token ::
        Mark.leftBrace.token lineL :: (ts ++ [Mark.rightBrace.token lineR])) ++ s'.rest := by
      simp [hx, hy, hl, hts, hr]
    rw [hul, huy, hux] at hms
    rw [hux]
    exact ⟨_, hpass, .subclassDecl hms⟩

/-- Where a name follows the keyword, it is a declaration and no expression. -/
theorem reads_acceptFunction :
    Reads acceptFunction fun s b s' => (b = false ∧ s' = s) ∨
      (b = true ∧ ∃ line, Passes [Keyword.«fun».token line] s s') := by
  intro s
  obtain ⟨line, rest, hrest, hrun⟩ | hrun := acceptFunction_cases s
  · rw [hrun]
    exact ⟨List.prefix_refl _, fun _ => .inr ⟨rfl, line, hrest, rfl⟩⟩
  · rw [hrun]
    exact ⟨List.prefix_refl _, fun _ => .inl ⟨rfl, rfl⟩⟩

/-- Any declaration or statement. -/
theorem reads_declarationRule (h : SoundAt d inner) :
    Reads inner.declarationRule fun s x s' => Spells d (.declaration x) s s' := by
  refine (Reads.acceptKind? (fun line => reads_classDeclaration h line)
    (reads_acceptFunction.bind fun _ => Unreported.ite
      (fun _ => (reads_function h .function).bind fun f => Unreported.pure _)
      fun _ => Reads.acceptKind? (fun _ => reads_varDeclaration h) (reads_statementRule h))).mono ?_
  rintro s x s' (⟨line, s₁, ⟨hc, huc⟩, ts, hts, hx⟩ | ⟨-, b, s₁, hb, hrest⟩)
  · exact ⟨Keyword.«class».token line :: ts, by simp [hc, hts], huc ▸ hx⟩
  · rcases hrest with ⟨rfl, f, s₂, ⟨ts, hts, hf⟩, rfl, rfl⟩ | ⟨hne, hrest⟩
    -- A function begins with `fun` and a name. A `fun` without a name begins an expression.
    · obtain ⟨hfalse, -⟩ | ⟨-, line, hf', huf⟩ := hb
      · cases hfalse
      · exact ⟨Keyword.«fun».token line :: ts, by simp [hf', hts], .functionDecl (huf ▸ hf)⟩
    · obtain ⟨-, rfl⟩ | ⟨htrue, -⟩ := hb
      · rcases hrest with ⟨line, s₂, ⟨hv, huv⟩, ts, hts, hx⟩ | ⟨-, o, ts, hts, hx, -⟩
        · exact ⟨Keyword.var.token line :: ts, by simp [hv, hts], .variableDecl (huv ▸ hx)⟩
        · exact ⟨ts, hts, .statement hx⟩
      · exact absurd htrue hne

/-- Where nothing is reported, there is no mistake to recover from. -/
theorem reads_recovering (h : SoundAt d inner) :
    Reads inner.recovering fun s x s' => ∃ y, x = some y ∧ Spells d (.declaration y) s s' := by
  intro s
  have hrule := reads_declarationRule h s
  unfold recovering
  split at hrule
  · next y s' hrun =>
    rw [hrun]
    exact ⟨hrule.1, fun heq => ⟨y, rfl, hrule.2 heq⟩⟩
  · next e s' hrun =>
    rw [hrun]
    cases e with
    -- A mistake was reported, so there is nothing to show.
    | mistake => exact ⟨hrule.1, fun heq => absurd heq (hrule.2 rfl)⟩
    | tooDeep => exact ⟨hrule.1, by nofun⟩

/-!
## Tying the knot

By induction on the levels, and for a program on the number of its declarations.
-/

/-- **The rules of the parser are sound on every level.** Induction on the levels of nesting. -/
theorem sound_grammar (d : Nat) : SoundAt d (grammar d) := by
  induction d with
  | zero => exact ⟨Reads.tooDeep, Reads.tooDeep, Reads.tooDeep, Reads.tooDeep⟩
  | succ d ih =>
    refine ⟨(reads_recovering ih).mono ?_, (reads_statementRule ih).mono ?_,
      (reads_assignment ih).mono ?_, (reads_unaryExpr ih).mono ?_⟩
    · rintro s _ s' ⟨x, rfl, hx⟩
      exact ⟨d, x, rfl, rfl, hx⟩
    all_goals
      intro s x s' hx
      exact ⟨d, rfl, hx⟩

/-- The loop of a program passes all tokens, since no declaration is written without any. -/
theorem reads_program (d fuel : Nat) :
    Reads (program (grammar d) fuel) fun s ss s' =>
      s.rest.length < fuel → s'.rest = [] ∧ Spells d (.declarations ss) s s' := by
  induction fuel with
  | zero =>
    intro s
    exact ⟨List.prefix_refl _, fun _ hfuel => absurd hfuel (Nat.not_lt_zero _)⟩
  | succ fuel ih =>
    intro s
    unfold program
    by_cases hempty : s.rest.isEmpty
    · rw [if_pos hempty]
      have hnil := List.isEmpty_iff.mp hempty
      exact ⟨List.prefix_refl _, fun _ _ => ⟨hnil, [], rfl, .noDeclarations⟩⟩
    · rw [if_neg hempty]
      have hfirst := (sound_grammar d).declaration s
      split at hfirst
      · next x s₁ hrun =>
        rw [hrun]
        have hmore := ih s₁
        dsimp only
        split at hmore
        · next ss s' hrun' =>
          rw [hrun']
          refine ⟨hfirst.1.trans hmore.1, fun heq hfuel => ?_⟩
          obtain ⟨h₁, h₂⟩ := Unreported.eq_of_grows hfirst.1 hmore.1 heq
          obtain ⟨d', y, rfl, rfl, ts, hts, hy⟩ := hfirst.2 h₁
          -- A declaration has a token at least, so what is left needs less fuel.
          have hlen : s₁.rest.length < s.rest.length := by
            have := List.length_pos_iff.mpr hy.declaration_ne_nil
            simp only [hts, List.length_append]
            omega
          obtain ⟨hnil, ts', hts', hss⟩ := hmore.2 h₂ (by omega)
          exact ⟨hnil, ts ++ ts', by simp [hts, hts'], .declarations hy hss⟩
        · next e s' hrun' =>
          rw [hrun']
          exact ⟨hfirst.1.trans hmore.1, fun he heq =>
            hmore.2 he (Unreported.eq_of_grows hfirst.1 hmore.1 heq).2⟩
      · next e s₁ hrun =>
        rw [hrun]
        -- Nesting that is too deep is reported, so nothing is claimed of it.
        have hreport := (reads_here.bind fun place => (reads_report place .nesting).bind
          fun _ => Unreported.pure ([] : List Stmt)) s₁
        dsimp only
        split at hreport
        · next _ s' hrun' =>
          rw [hrun']
          refine ⟨hfirst.1.trans hreport.1, fun heq _ => ?_⟩
          obtain ⟨_, _, _, _, _, hfalse, _⟩ :=
            hreport.2 (Unreported.eq_of_grows hfirst.1 hreport.1 heq).2
          exact hfalse.elim
        · next e' s' hrun' =>
          rw [hrun']
          exact ⟨hfirst.1.trans hreport.1, fun he heq =>
            hreport.2 he (Unreported.eq_of_grows hfirst.1 hreport.1 heq).2⟩

end LoxLang
