import LoxLang.Proofs.Grammar.Accepting
import LoxLang.Proofs.Grammar.LookingAhead

/-!
# What the grammar derives is accepted by the parser

For each rule of the grammar: if the parser accepts the phrases that a rule is made of, then it
accepts the phrase of the rule (`Phrase.Accepted`), by induction on derivations
(`Derives.accepted`). A phrase is accepted only before tokens that cannot belong to it, as `Stops`
and `NotNext` say: an expression ends before what binds less tightly than its operators, an open
statement before what is no `else`.

The rules for operators, calls and properties are left-recursive, the parser goes round a loop.
`Continues` is what both have in common: to read a phrase and then to go on in the loop comes to
the same as to go on in the loop with its tree.
-/

namespace LoxLang

open LoxLang.Parser Nested

/-!
## Where phrases end

A phrase of the grammar says nothing of what stands behind it, but the parser looks there to see
whether to go on. So each phrase is accepted only in front of tokens that do not continue it;
operators are compared by how tightly they bind.
-/

/-- How tightly a token binds what stands before it, zero if not at all. -/
def TokenKind.tightness : TokenKind → Nat
  | .mark .equal => 1
  | .keyword .or => 2
  | .keyword .and => 3
  | .mark .bangEqual | .mark .equalEqual => 4
  | .mark .greater | .mark .greaterEqual | .mark .less | .mark .lessEqual => 5
  | .mark .minus | .mark .plus => 6
  | .mark .slash | .mark .star => 7
  | .mark .leftParen | .mark .dot => 8
  | _ => 0

/-- How tightly the operators of a level bind. -/
def Level.tightness : Level → Nat
  | disjunction => 2
  | conjunction => 3
  | equality => 4
  | comparison => 5
  | term => 6
  | factor => 7

/-- The next token, if there is one, binds less tightly than some. -/
def Stops (k : Nat) (ts : List Token) : Prop := ∀ t rest, ts = t :: rest → t.kind.tightness < k

/-- What stops a tighter phrase stops a looser one. -/
theorem Stops.mono {j k : Nat} {ts : List Token} (h : Stops j ts) (hle : j ≤ k) : Stops k ts :=
  fun t rest heq => Nat.lt_of_lt_of_le (h t rest heq) hle

/-- Where a phrase stops, no operator stands that binds as tightly. -/
theorem Stops.notNext {k : Nat} {ts : List Token} {kind : TokenKind} (h : Stops k ts)
    (hle : k ≤ kind.tightness) : NotNext kind ts := by
  rintro t rest heq rfl
  exact absurd (h t rest heq) (by omega)

/-- A token that binds less tightly ends the phrase before it. -/
theorem stops_cons {k line : Nat} {kind : TokenKind} {ts : List Token} (h : kind.tightness < k) :
    Stops k (⟨kind, line⟩ :: ts) := by
  rintro t rest heq
  obtain ⟨rfl, -⟩ := List.cons.inj heq
  exact h

/-- What stands next is one token only. -/
theorem notNext_cons {line : Nat} {kind kind' : TokenKind} {ts : List Token} (h : kind' ≠ kind) :
    NotNext kind (⟨kind', line⟩ :: ts) := by
  rintro t rest heq
  obtain ⟨rfl, -⟩ := List.cons.inj heq
  exact h

/-- The operators of a level bind equally tightly. -/
theorem Level.tightness_of_mem_operators {l : Level} {kind : TokenKind}
    {join : Nat → Expr → Expr → Expr} (h : (kind, join) ∈ l.operators) :
    kind.tightness = l.tightness := by
  cases l <;> obtain ⟨op, hop, heq⟩ := List.mem_map.mp h <;> cases heq <;> cases op <;>
    first | rfl | simp at hop

/-- What binds less tightly than a level is none of its operators. -/
theorem Level.operator?_eq_none {l : Level} {kind : TokenKind} (h : kind.tightness < l.tightness) :
    l.operator? kind = none := by
  cases hop : l.operator? kind with
  | none => rfl
  | some join =>
    have := Level.tightness_of_mem_operators (Level.operator?_eq_some_iff.mp hop)
    omega

/-!
## Acceptance

To accept a phrase is to read its tokens in front of whatever may follow, give its tree and the
number of the next use, and report nothing, unless it is nested deeper than the parser goes.
-/

section Acceptance

variable {α : Type}

/-- On every level of nesting, a rule reads some tokens as a tree, whatever follows that is allowed
to. It gives up for depth only below `d` levels. -/
def Accepts (p : Nested → Parser α) (follow : List Token → Prop) (d : Nat) (n : UseId)
    (ts : List Token) (a : α) (m : UseId) : Prop :=
  ∀ (k : Nat) (s : ParserState) (rest : List Token), follow rest → (ts ++ rest).length < s.bound →
    Reaches (k < d) (p (grammar k)) (s.place (ts ++ rest) n) a (s.place rest m)

/-- A rule that ends in a loop reads some tokens and then goes on in the loop with their tree. -/
def Continues (p : Nested → Parser α) (loop : Nested → Nat → α → Parser α)
    (follow : List Token → Prop) (d : Nat) (n : UseId) (ts : List Token) (a : α) (m : UseId) :
    Prop :=
  ∀ (k : Nat) (s : ParserState) (rest : List Token) (b : α) (s' : ParserState), follow rest →
    (ts ++ rest).length < s.bound →
    (∀ fuel, rest.length < fuel →
      Reaches (k < d) (loop (grammar k) fuel a) (s.place rest m) b s') →
    Reaches (k < d) (p (grammar k)) (s.place (ts ++ rest) n) b s'

variable {p q : Nested → Parser α} {loop : Nested → Nat → α → Parser α}
  {follow follow' : List Token → Prop} {d : Nat} {n m : UseId} {ts : List Token} {a : α}

/-- Behind the last round of its loop, a rule has accepted a phrase. -/
theorem Continues.accepts (h : Continues p loop follow d n ts a m)
    (hfollow : ∀ rest, follow' rest → follow rest)
    (hstop : ∀ (k fuel : Nat) (s : ParserState) (rest : List Token), follow' rest →
      Reaches (k < d) (loop (grammar k) fuel a) (s.place rest m) a (s.place rest m)) :
    Accepts p follow' d n ts a m :=
  fun k s rest hrest hbound =>
    h k s rest a _ (hfollow rest hrest) hbound fun fuel _ => hstop k fuel s rest hrest

/-- A rule that is accepted is accepted one level further in. -/
theorem Accepts.nested (h : Accepts p follow d n ts a m) (hinner : q .innermost = throw .tooDeep)
    (haround : ∀ inner, q inner.around = p inner) : Accepts q follow (d + 1) n ts a m := by
  intro k s rest hrest hbound
  cases k with
  | zero =>
    show Reaches _ (q .innermost) _ _ _
    rw [hinner]
    exact .inr ⟨Nat.succ_pos d, _, rfl⟩
  | succ k =>
    show Reaches _ (q (grammar k).around) _ _ _
    rw [haround]
    exact (h k s rest hrest hbound).mono Nat.succ_lt_succ

/-- Without a mistake there is nothing to recover from. -/
theorem Accepts.recovering {x : Stmt} (h : Accepts declarationRule follow d n ts x m) :
    Accepts Nested.recovering follow d n ts (some x) m := by
  intro k s rest hrest hbound
  rcases h k s rest hrest hbound with hrun | ⟨hdeep, s', hrun⟩
  · exact .inl (by simp only [Nested.recovering, hrun])
  · exact .inr ⟨hdeep, s', by simp only [Nested.recovering, hrun]⟩

end Acceptance

/-- Anything may follow. -/
abbrev Anything (_ : List Token) : Prop := True

/-- A mark follows. -/
abbrev Before (m : Mark) (ts : List Token) : Prop := ∃ line rest, ts = m.token line :: rest

/-- The rule of a level of operators. -/
def Level.rule : Level → Nested → Parser Expr
  | disjunction => Nested.disjunction
  | conjunction => Nested.conjunction
  | equality => Nested.equality
  | comparison => Nested.comparison
  | term => Nested.term
  | factor => Nested.factor

/-- The rule of the operands of a level. -/
def Level.operandRule : Level → Nested → Parser Expr
  | disjunction => Nested.conjunction
  | conjunction => Nested.equality
  | equality => Nested.comparison
  | comparison => Nested.term
  | term => Nested.factor
  | factor => Nested.unaryExpr

/-- The loop over the operators of a level. -/
def Level.loop : Level → Nested → Nat → Expr → Parser Expr
  | disjunction, inner => moreOperands disjunctionOperator? .logical inner.conjunction
  | conjunction, inner => moreOperands conjunctionOperator? .logical inner.equality
  | equality, inner => moreOperands equalityOperator? .binary inner.comparison
  | comparison, inner => moreOperands comparisonOperator? .binary inner.term
  | term, inner => moreOperands termOperator? .binary inner.factor
  | factor, inner => moreOperands factorOperator? .binary inner.unaryExpr

/-- What it means that the parser accepts a phrase, for each kind of phrase: which rule reads it,
and what may follow. -/
def Phrase.Accepted (d : Nat) (n : UseId) (ts : List Token) (m : UseId) : Phrase → Prop
  | .primary e => Accepts Nested.primary Anything d n ts e m
  | .call e => Continues Nested.call Nested.suffixes Anything d n ts e m
  -- What may follow a phrase is said by the loosest operator that would still be taken into it.
  | .unary e => Accepts Nested.unaryExpr (Stops 8) d n ts e m
  | .chain l e => Continues l.rule l.loop (Stops (l.tightness + 1)) d n ts e m
  | .expression e => Accepts Nested.assignment (Stops 1) d n ts e m
  | .arguments es => es.length ≤ maxArguments →
    Accepts (fun inner => items inner.expression .tooManyArguments) (Before .rightParen) d n ts es m
  | .moreArguments es => ∀ fuel count, ts.length < fuel → count + es.length ≤ maxArguments →
    Accepts (fun inner => moreItems inner.expression .tooManyArguments fuel count)
      (Before .rightParen) d n ts es m
  | .parameters xs => xs.length ≤ maxArguments →
    Accepts (fun _ => items (expectName .parameter) .tooManyParameters) (Before .rightParen)
      d n ts xs m
  | .moreParameters xs => ∀ fuel count, ts.length < fuel → count + xs.length ≤ maxArguments →
    Accepts (fun _ => moreItems (expectName .parameter) .tooManyParameters fuel count)
      (Before .rightParen) d n ts xs m
  | .«variable» x => Accepts Nested.varDeclaration Anything d n ts x m
  | .initializer x => Accepts Nested.forInitializer Anything d n ts x m
  | .clause e => ∀ (final : Mark) (place : MarkPlace) (line : Nat),
    final = .semicolon ∨ final = .rightParen →
      Accepts (fun inner => inner.forClause final place) Anything d n (ts ++ [final.token line]) e m
  -- A statement that is open at its end would take an `else` behind it.
  | .statement o x =>
    Accepts Nested.statementRule (fun rest => o = true → NotNext (.keyword .«else») rest) d n ts x m
  | .declaration x => Accepts Nested.declarationRule (NotNext (.keyword .«else»)) d n ts x m
  | .declarations xs => ∀ fuel, ts.length < fuel →
    Accepts (fun inner => inner.statements fuel) (Before .rightBrace) d n ts xs m
  | .function f => ∀ kind, Accepts (fun inner => inner.function kind) Anything d n ts f m
  | .members fs gs => ∀ fuel, ts.length < fuel →
    Accepts (fun inner => inner.methods fuel) (Before .rightBrace) d n ts (fs, gs) m

variable {d : Nat} {n m k : UseId} {ts ts' : List Token}

/-!
## Lists

Items are read until none follows. How often the loop may be entered does not matter as long as
there are enough tokens, since each item takes one.
-/

section Lists

variable {α : Type} {item : Nested → Parser α} {e : GrammarError} {a : α} {as : List α}

/-- Behind the last item a closing parenthesis stands. -/
theorem accepts_noMoreItems (fuel count : Nat) :
    Accepts (fun inner => moreItems (item inner) e fuel count) (Before .rightParen)
      d n [] [] n := by
  rintro k s _ ⟨line, rest, rfl⟩ -
  cases fuel with
  | zero => exact .pure []
  | succ fuel => exact Reaches.leaveKind (notNext_cons (by nofun)) (.pure [])

/-- One round of the loop over items. -/
theorem accepts_moreItems {fuel count line : Nat} {follow : List Token → Prop}
    (hitem : Accepts item follow d n ts a m)
    (hfollow : ∀ rest, Before .rightParen rest → follow (ts' ++ rest))
    (hmore : Accepts (fun inner => moreItems (item inner) e fuel (count + 1)) (Before .rightParen)
      d m ts' as k) (hcount : count < maxArguments) :
    Accepts (fun inner => moreItems (item inner) e (fuel + 1) count) (Before .rightParen)
      d n (Mark.comma.token line :: (ts ++ ts')) (a :: as) k := by
  intro j s rest hrest hbound
  simp only [List.cons_append, List.append_assoc]
  simp only [List.cons_append, List.append_assoc, List.length_cons, List.length_append] at hbound
  refine Reaches.takeKind ?_
  -- The limit on the number of items is not reached yet.
  simp only [Nat.not_le.mpr hcount, if_false]
  refine (hitem j s _ (hfollow rest hrest) ?_).bind ((hmore j s rest hrest ?_).bind (.pure _))
  · simp only [List.length_append]
    omega
  · simp only [List.length_append]
    omega

/-- An empty list ends where it begins. -/
theorem accepts_noItems :
    Accepts (fun inner => items (item inner) e) (Before .rightParen) d n [] [] n := by
  rintro k s _ ⟨line, rest, rfl⟩ -
  exact Reaches.next (.pure [])

/-- A list has a first item, and then more behind commas. -/
theorem accepts_items {follow : List Token → Prop} (hitem : Accepts item follow d n ts a m)
    (hfollow : ∀ rest, Before .rightParen rest → follow (ts' ++ rest))
    (hmore : ∀ fuel, ts'.length < fuel →
      Accepts (fun inner => moreItems (item inner) e fuel 1) (Before .rightParen) d m ts' as k)
    (hfirst : ∀ rest, NotNext (.mark .rightParen) (ts ++ rest)) :
    Accepts (fun inner => items (item inner) e) (Before .rightParen)
      d n (ts ++ ts') (a :: as) k := by
  intro j s rest hrest hbound
  simp only [List.append_assoc]
  simp only [List.append_assoc, List.length_append] at hbound
  -- No item begins with a parenthesis that closes, so the list is not taken for an empty one.
  refine Reaches.notNext (hfirst _) ((hitem j s _ (hfollow rest hrest) ?_).bind
    (Reaches.boundThen ((hmore s.bound ?_ j s rest hrest ?_).bind (.pure _))))
  · simp only [List.length_append]
    omega
  · omega
  · simp only [List.length_append]
    omega

end Lists

/-- The body of a function behind the parenthesis of its parameters. -/
theorem reaches_block {xs : List Stmt} {line : Nat} {deep : Prop} {j : Nat} {s : ParserState}
    {rest : List Token} (hxs : (Phrase.declarations xs).Accepted d n ts m)
    (hbound : (ts ++ Mark.rightBrace.token line :: rest).length < s.bound) (hdeep : j < d → deep) :
    Reaches deep (grammar j).block (s.place (ts ++ Mark.rightBrace.token line :: rest) n) xs
      (s.place rest m) := by
  have hfuel : ts.length < s.bound := by
    simp only [List.length_append] at hbound
    omega
  have hbody := (hxs s.bound hfuel j s _ ⟨line, rest, rfl⟩ hbound).mono hdeep
  exact Reaches.boundThen (hbody.bind (Reaches.mark (.pure xs)))

/-!
## Expressions without operators

Each is recognized by its first token.
-/

/-- A literal is one token. -/
theorem accepts_literal {kind : TokenKind} {line : Nat} {value : Literal}
    (h : kind.constant? = some value) :
    (Phrase.primary (.literal value)).Accepted d n [⟨kind, line⟩] n :=
  fun _ _ _ _ _ => Reaches.take (PrimaryStart.ofKind?_constant h) (.pure _)

/-- A name gets the next number. -/
theorem accepts_variable {x : Name} :
    (Phrase.primary (.«variable» ⟨n, x⟩)).Accepted d n [x.token] (n + 1) :=
  fun _ _ _ _ _ => Reaches.take rfl (Reaches.fresh (.pure _))

/-- The keyword gets the next number. -/
theorem accepts_this {line : Nat} :
    (Phrase.primary (.this n line)).Accepted d n [Keyword.this.token line] (n + 1) :=
  fun _ _ _ _ _ => Reaches.take rfl (Reaches.fresh (.pure _))

/-- The keyword gets the next number, and the method behind the dot none. -/
theorem accepts_super {line lineD : Nat} {x : Name} :
    (Phrase.primary (.super n line x)).Accepted d n
      [Keyword.super.token line, Mark.dot.token lineD, x.token] (n + 1) :=
  fun _ _ _ _ _ => Reaches.take rfl (Reaches.mark (Reaches.name (Reaches.fresh (.pure _))))

/-- Between parentheses anything may stand that is an expression. -/
theorem accepts_grouping {e : Expr} {lineL lineR : Nat}
    (he : (Phrase.expression e).Accepted d n ts m) :
    (Phrase.primary (.grouping e)).Accepted (d + 1) n
      (Mark.leftParen.token lineL :: (ts ++ [Mark.rightParen.token lineR])) m := by
  intro j s rest _ hbound
  have hinner : Accepts Nested.expression (Stops 1) (d + 1) n ts e m := he.nested rfl fun _ => rfl
  simp only [List.cons_append, List.append_assoc, List.nil_append] at hbound ⊢
  refine Reaches.take rfl ((hinner j s _ (stops_cons (by decide)) ?_).bind
    (Reaches.mark (.pure _)))
  exact Nat.lt_of_succ_lt hbound

/-- A function without a name, in the place of an expression. -/
theorem accepts_lambda {xs : List Name} {body : List Stmt} {line lineL lineR lineB lineE : Nat}
    (hxs : (Phrase.parameters xs).Accepted d n ts n) (hlen : xs.length ≤ maxArguments)
    (hbody : (Phrase.declarations body).Accepted d n ts' m) :
    (Phrase.primary (.lambda line xs body)).Accepted d n
      (Keyword.«fun».token line :: Mark.leftParen.token lineL :: (ts ++
        Mark.rightParen.token lineR :: Mark.leftBrace.token lineB ::
          (ts' ++ [Mark.rightBrace.token lineE]))) m := by
  intro j s rest _ hbound
  simp only [List.cons_append, List.append_assoc, List.nil_append] at hbound ⊢
  simp only [List.length_cons, List.length_append] at hbound
  refine Reaches.take rfl (Reaches.mark (Reaches.bind (Reaches.bind
    (hxs hlen j s _ ⟨lineR, _, rfl⟩ ?_) (Reaches.mark (.pure _)))
      (Reaches.mark (Reaches.bind (reaches_block hbody ?_ id) (.pure _)))))
  · simp only [List.length_cons, List.length_append]
    omega
  · simp only [List.length_cons, List.length_append]
    omega

/-!
## Calls and properties

Behind an expression stand any number of calls and properties. They are read in a loop, from left to
right, while the grammar derives them from the outside in.
-/

/-- Nothing need stand behind an expression. -/
theorem accepts_suffixless {e : Expr} (he : (Phrase.primary e).Accepted d n ts m) :
    (Phrase.call e).Accepted d n ts m :=
  fun j s rest _ _ _ hbound hmore => (he j s rest trivial hbound).bind
    (Reaches.boundThen (hmore s.bound (by
      simp only [List.length_append] at hbound
      omega)))

/-- A call is one more round of the loop. -/
theorem accepts_call {callee : Expr} {es : List Expr} {lineL line : Nat}
    (hcallee : (Phrase.call callee).Accepted d n ts m)
    (hes : (Phrase.arguments es).Accepted d m ts' k) (hlen : es.length ≤ maxArguments) :
    (Phrase.call (.call callee line es)).Accepted d n
      (ts ++ Mark.leftParen.token lineL :: (ts' ++ [Mark.rightParen.token line])) k := by
  intro j s rest b s' _ hbound hmore
  simp only [List.cons_append, List.append_assoc, List.nil_append] at hbound ⊢
  -- The arguments are one round of the loop behind the callee.
  refine hcallee j s _ b s' trivial hbound fun fuel hfuel => ?_
  simp only [List.length_cons, List.length_append] at hbound hfuel
  obtain ⟨fuel, rfl⟩ : ∃ fuel', fuel = fuel' + 1 := ⟨fuel - 1, by omega⟩
  refine Reaches.takeKind (Reaches.bind (Reaches.bind (hes hlen j s _ ⟨line, rest, rfl⟩ ?_)
    (Reaches.mark (.pure _))) (hmore fuel (by omega)))
  simp only [List.length_cons, List.length_append]
  omega

/-- A property is one more round of the loop. -/
theorem accepts_get {object : Expr} {x : Name} {lineD : Nat}
    (hobject : (Phrase.call object).Accepted d n ts m) :
    (Phrase.call (.get object x)).Accepted d n (ts ++ [Mark.dot.token lineD, x.token]) m := by
  intro j s rest b s' _ hbound hmore
  simp only [List.cons_append, List.append_assoc, List.nil_append] at hbound ⊢
  -- The loop looks for a parenthesis first, and there is none.
  refine hobject j s _ b s' trivial hbound fun fuel hfuel => ?_
  simp only [List.length_cons] at hfuel
  obtain ⟨fuel, rfl⟩ : ∃ fuel', fuel = fuel' + 1 := ⟨fuel - 1, by omega⟩
  exact Reaches.leaveKind (notNext_cons (by nofun)) (Reaches.takeKind (Reaches.name
    (hmore fuel (by omega))))

/-- The loop over suffixes ends before what is none. -/
theorem reaches_suffixes_stop {deep : Prop} {inner : Nested} {fuel : Nat} {e : Expr}
    {s : ParserState} {rest : List Token} (hrest : Stops 8 rest) :
    Reaches deep (inner.suffixes fuel e) (s.place rest n) e (s.place rest n) := by
  cases fuel with
  | zero => exact .pure e
  | succ fuel =>
    exact Reaches.leaveKind (hrest.notNext (by decide))
      (Reaches.leaveKind (hrest.notNext (by decide)) (.pure e))

/-- A call need not have arguments. -/
theorem accepts_noArguments : (Phrase.arguments []).Accepted d n [] n :=
  fun _ => accepts_noItems

/-- An argument ends before a comma or the closing parenthesis. -/
theorem stops_moreArguments {es : List Expr} (h : Derives d (.moreArguments es) n ts m) :
    ∀ rest, Before .rightParen rest → Stops 1 (ts ++ rest) := by
  rintro _ ⟨line, rest, rfl⟩
  cases h with
  | noMoreArguments => exact stops_cons (by decide)
  | moreArguments => exact stops_cons (by decide)

/-- One more argument behind a comma. -/
theorem accepts_moreArguments {e : Expr} {es : List Expr} {line : Nat}
    (hes : Derives (d + 1) (.moreArguments es) m ts' k)
    (hae : (Phrase.expression e).Accepted d n ts m)
    (haes : (Phrase.moreArguments es).Accepted (d + 1) m ts' k) :
    (Phrase.moreArguments (e :: es)).Accepted (d + 1) n
      (Mark.comma.token line :: (ts ++ ts')) k := by
  intro fuel count hfuel hcount
  have hinner : Accepts Nested.expression (Stops 1) (d + 1) n ts e m := hae.nested rfl fun _ => rfl
  simp only [List.length_cons, List.length_append] at hfuel hcount
  obtain ⟨fuel, rfl⟩ : ∃ fuel', fuel = fuel' + 1 := ⟨fuel - 1, by omega⟩
  exact accepts_moreItems hinner (stops_moreArguments hes)
    (haes fuel (count + 1) (by omega) (by omega)) (by omega)

/-- No expression begins with a mark that ends one. -/
theorem BeginsWith.notNext {starts : TokenKind → Bool} {kind : TokenKind}
    (h : BeginsWith starts ts) (hkind : starts kind = false) (rest : List Token) :
    NotNext kind (ts ++ rest) := by
  obtain ⟨t, ts', rfl, hstarts, -⟩ := h
  rintro t' rest' heq rfl
  obtain ⟨rfl, -⟩ := List.cons.inj heq
  rw [hkind] at hstarts
  cases hstarts

/-- The first argument, and more behind it. -/
theorem accepts_arguments {e : Expr} {es : List Expr} (he : Derives d (.expression e) n ts m)
    (hes : Derives (d + 1) (.moreArguments es) m ts' k)
    (hae : (Phrase.expression e).Accepted d n ts m)
    (haes : (Phrase.moreArguments es).Accepted (d + 1) m ts' k) :
    (Phrase.arguments (e :: es)).Accepted (d + 1) n (ts ++ ts') k := by
  intro hlen
  have hinner : Accepts Nested.expression (Stops 1) (d + 1) n ts e m := hae.nested rfl fun _ => rfl
  simp only [List.length_cons] at hlen
  exact accepts_items hinner (stops_moreArguments hes)
    (fun fuel hfuel => haes fuel 1 hfuel (by omega)) (he.beginsProperly.notNext rfl)

/-!
## Operators

A level of operators is read as a loop over operands of the next tighter level. What joins to the
left is read off the loop by induction on the derivation.
-/

/-- What begins an expression without operators is no unary operator. -/
theorem unaryOperator?_eq_none {kind : TokenKind} (h : kind.startsPrimary) :
    unaryOperator? kind = none := by
  unfold unaryOperator?
  split <;> first | rfl | cases h

/-- What does not begin with an operator is a call. -/
theorem accepts_suffixed {e : Expr} (he : Derives d (.call e) n ts m)
    (hae : (Phrase.call e).Accepted d n ts m) : (Phrase.unary e).Accepted d n ts m := by
  intro j s rest hrest hbound
  obtain ⟨t, ts, rfl, hstarts, -⟩ := he.beginsProperly
  refine Reaches.leave ?_ (hae j s rest e _ trivial hbound fun fuel _ =>
    reaches_suffixes_stop hrest)
  rintro t' rest' heq
  obtain ⟨rfl, -⟩ := List.cons.inj heq
  exact unaryOperator?_eq_none hstarts

/-- An operator stands in front of what may begin with an operator again. -/
theorem accepts_unary {op : UnaryOperator} {line : Nat} {e : Expr}
    (he : (Phrase.unary e).Accepted d n ts m) :
    (Phrase.unary (.unary op line e)).Accepted (d + 1) n (⟨op.token, line⟩ :: ts) m := by
  intro j s rest hrest hbound
  have hinner : Accepts Nested.unary (Stops 8) (d + 1) n ts e m := he.nested rfl fun _ => rfl
  have hop : unaryOperator? op.token = some op := by cases op <;> rfl
  exact Reaches.take hop ((hinner j s rest hrest (Nat.lt_of_succ_lt hbound)).bind (.pure _))

/-- A level is an operand and then the loop over its operators. -/
theorem Level.rule_eq (l : Level) (inner : Nested) :
    l.rule inner = l.operandRule inner >>= fun e => bound >>= fun fuel => l.loop inner fuel e := by
  cases l <;> rfl

section Chain

variable {α : Type} {l : Level} {operator? : TokenKind → Option α}
  {join : α → Nat → Expr → Expr → Expr} {operand : Parser Expr} {deep : Prop} {s s' : ParserState}
  {rest : List Token} {e right b : Expr}

/-- Where no operator of the level follows, the loop ends with what it has. -/
theorem reaches_moreOperands_stop (hop : ∀ kind, l.operator? kind = (operator? kind).map join)
    (hrest : Stops l.tightness rest) (fuel : Nat) :
    Reaches deep (moreOperands operator? join operand fuel e) (s.place rest n) e
      (s.place rest n) := by
  cases fuel with
  | zero => exact .pure e
  | succ fuel =>
    refine Reaches.leave (fun t rest' heq => ?_) (.pure e)
    exact Option.map_eq_none_iff.mp ((hop t.kind).symm.trans
      (Level.operator?_eq_none (hrest t rest' heq)))

/-- Where an operator follows, the loop goes on with both operands joined. -/
theorem reaches_moreOperands (hop : ∀ kind, l.operator? kind = (operator? kind).map join)
    {kind : TokenKind} {line fuel : Nat} {join' : Nat → Expr → Expr → Expr}
    (hmem : (kind, join') ∈ l.operators)
    (hright : Reaches deep operand (s.place ts n) right (s.place rest m))
    (hmore : Reaches deep (moreOperands operator? join operand fuel (join' line e right))
      (s.place rest m) b s') :
    Reaches deep (moreOperands operator? join operand (fuel + 1) e)
      (s.place (⟨kind, line⟩ :: ts) n) b s' := by
  have hjoin := (hop kind).symm.trans (Level.operator?_eq_some_iff.mpr hmem)
  obtain ⟨op, hkind, rfl⟩ := Option.map_eq_some_iff.mp hjoin
  exact Reaches.take hkind (hright.bind hmore)

end Chain

/-- The loop over operators ends before what binds less tightly. -/
theorem Level.reaches_loop_stop {l : Level} {deep : Prop} {inner : Nested} {fuel : Nat} {e : Expr}
    {s : ParserState} {rest : List Token} (hrest : Stops l.tightness rest) :
    Reaches deep (l.loop inner fuel e) (s.place rest n) e (s.place rest n) := by
  cases l <;> exact reaches_moreOperands_stop (fun _ => rfl) hrest fuel

/-- One round of the loop over operators. -/
theorem Level.reaches_loop {l : Level} {deep : Prop} {inner : Nested} {kind : TokenKind}
    {fuel line : Nat} {join : Nat → Expr → Expr → Expr} {e right b : Expr} {s s' : ParserState}
    {rest : List Token} (hmem : (kind, join) ∈ l.operators)
    (hright : Reaches deep (l.operandRule inner) (s.place ts n) right (s.place rest m))
    (hmore : Reaches deep (l.loop inner fuel (join line e right)) (s.place rest m) b s') :
    Reaches deep (l.loop inner (fuel + 1) e) (s.place (⟨kind, line⟩ :: ts) n) b s' := by
  cases l <;> exact reaches_moreOperands (fun _ => rfl) hmem hright hmore

/-- Operands are accepted before the operators of their level and looser ones. -/
theorem accepts_operandRule {l : Level} {e : Expr} (h : (l.operand e).Accepted d n ts m) :
    Accepts l.operandRule (Stops (l.tightness + 1)) d n ts e m := by
  cases l with
  | factor => exact h
  | _ =>
    exact Continues.accepts h (fun _ hrest => Stops.mono hrest (by decide))
      fun _ _ _ _ hrest => Level.reaches_loop_stop hrest

/-- An operand alone is a chain without an operator. -/
theorem accepts_operand {l : Level} {e : Expr} (h : (l.operand e).Accepted d n ts m) :
    (Phrase.chain l e).Accepted d n ts m := by
  intro j s rest b s' hrest hbound hmore
  rw [Level.rule_eq]
  refine (accepts_operandRule h j s rest hrest hbound).bind (Reaches.boundThen (hmore _ ?_))
  simp only [List.length_append] at hbound
  exact Nat.lt_of_le_of_lt (Nat.le_add_left _ _) hbound

/-- One operator more is one round of the loop more. -/
theorem accepts_joined {l : Level} {kind : TokenKind} {join : Nat → Expr → Expr → Expr}
    {left right : Expr} {line : Nat} (hleft : (Phrase.chain l left).Accepted d n ts m)
    (hop : (kind, join) ∈ l.operators) (hright : (l.operand right).Accepted d m ts' k) :
    (Phrase.chain l (join line left right)).Accepted d n (ts ++ ⟨kind, line⟩ :: ts') k := by
  intro j s rest b s' hrest hbound hmore
  simp only [List.cons_append, List.append_assoc] at hbound ⊢
  have htight := Level.tightness_of_mem_operators hop
  refine hleft j s _ b s' (stops_cons (by omega)) hbound fun fuel hfuel => ?_
  simp only [List.length_cons, List.length_append] at hbound hfuel
  obtain ⟨fuel, rfl⟩ : ∃ fuel', fuel = fuel' + 1 := ⟨fuel - 1, by omega⟩
  refine Level.reaches_loop hop (accepts_operandRule hright j s rest hrest ?_)
    (hmore fuel (by omega))
  simp only [List.length_append]
  omega

/-- Without operators, all levels accept the same. -/
theorem accepts_disjunction {e : Expr} (he : Derives d (.call e) n ts m)
    (h : (Phrase.call e).Accepted d n ts m) :
    Accepts Nested.disjunction (Stops 2) d n ts e m := by
  have hfactor : (Phrase.chain .factor e).Accepted d n ts m :=
    accepts_operand (accepts_suffixed he h)
  have hterm : (Phrase.chain .term e).Accepted d n ts m := accepts_operand hfactor
  have hcomparison : (Phrase.chain .comparison e).Accepted d n ts m := accepts_operand hterm
  have hequality : (Phrase.chain .equality e).Accepted d n ts m := accepts_operand hcomparison
  have hconjunction : (Phrase.chain .conjunction e).Accepted d n ts m := accepts_operand hequality
  exact (accepts_operand (l := .disjunction) hconjunction).accepts
    (fun _ hrest => hrest.mono (by decide)) fun _ _ _ _ hrest => Level.reaches_loop_stop hrest

/-!
## Assignment

Whether something is an assignment is seen only behind its target, which is read as an expression
and turned into a target then.
-/

/-- Where no equals sign follows, what was read is the value. -/
theorem accepts_value {e : Expr} (he : (Phrase.chain .disjunction e).Accepted d n ts m) :
    (Phrase.expression e).Accepted d n ts m := by
  intro j s rest hrest hbound
  have htarget : Accepts Nested.disjunction (Stops 2) d n ts e m :=
    Continues.accepts he (fun _ h => Stops.mono h (by decide))
      fun _ _ _ _ h => Level.reaches_loop_stop h
  exact (htarget j s rest (hrest.mono (by decide)) hbound).bind
    (Reaches.leaveKind (hrest.notNext (by decide)) (.pure e))

/-- An assignment is a target, an equals sign and a value, which are made one tree. -/
theorem accepts_assignment {target e b : Expr} {line : Nat}
    (htarget : Accepts Nested.disjunction (Stops 2) (d + 1) n ts target m)
    (he : (Phrase.expression e).Accepted d m ts' k) {l : UseId}
    (hassign : ∀ (deep : Prop) (s : ParserState) (rest : List Token),
      Reaches deep (assignTo target line e) (s.place rest k) b (s.place rest l)) :
    (Phrase.expression b).Accepted (d + 1) n (ts ++ Mark.equal.token line :: ts') l := by
  intro j s rest hrest hbound
  have hinner : Accepts Nested.expression (Stops 1) (d + 1) m ts' e k := he.nested rfl fun _ => rfl
  simp only [List.cons_append, List.append_assoc] at hbound ⊢
  refine (htarget j s _ (stops_cons (by decide)) hbound).bind (Reaches.takeKind
    ((hinner j s rest hrest ?_).bind (hassign _ s rest)))
  simp only [List.length_cons, List.length_append] at hbound ⊢
  omega

/-- The number of the assignment is one that follows those of its value. -/
theorem accepts_assign {x : Name} {e : Expr} {line : Nat}
    (he : (Phrase.expression e).Accepted d (n + 1) ts m) :
    (Phrase.expression (.assign m x e)).Accepted (d + 1) n
      (x.token :: Mark.equal.token line :: ts) (m + 1) :=
  accepts_assignment (accepts_disjunction (.primary .«variable»)
    (accepts_suffixless accepts_variable)) he fun _ _ _ => Reaches.fresh (.pure _)

/-- A property is set where it would be read. -/
theorem accepts_set {object e : Expr} {x : Name} {lineD line : Nat}
    (hobject : Derives (d + 1) (.call object) n ts m)
    (haobject : (Phrase.call object).Accepted (d + 1) n ts m)
    (he : (Phrase.expression e).Accepted d m ts' k) :
    (Phrase.expression (.set object x e)).Accepted (d + 1) n
      (ts ++ Mark.dot.token lineD :: x.token :: Mark.equal.token line :: ts') k := by
  have hget : Derives (d + 1) (.call (.get object x)) n (ts ++ [Mark.dot.token lineD, x.token]) m :=
    .get hobject
  have hset : (Phrase.expression (.set object x e)).Accepted (d + 1) n
      (ts ++ [Mark.dot.token lineD, x.token] ++ Mark.equal.token line :: ts') k :=
    accepts_assignment (accepts_disjunction hget (accepts_get haobject)) he fun _ _ _ => .pure _
  rwa [List.append_assoc] at hset

/-!
## Parameters

Parameters are names, and stand in the same kind of list as arguments.
-/

/-- A name is one token. -/
theorem accepts_name {x : Name} (role : NameRole) :
    Accepts (fun _ => expectName role) Anything d n [x.token] x n :=
  fun _ _ _ _ _ => .inl rfl

/-- One more parameter behind a comma. -/
theorem accepts_moreParameters {x : Name} {xs : List Name} {line : Nat}
    (hxs : (Phrase.moreParameters xs).Accepted d n ts n) :
    (Phrase.moreParameters (x :: xs)).Accepted d n
      (Mark.comma.token line :: x.token :: ts) n := by
  intro fuel count hfuel hcount
  simp only [List.length_cons] at hfuel hcount
  obtain ⟨fuel, rfl⟩ : ∃ fuel', fuel = fuel' + 1 := ⟨fuel - 1, by omega⟩
  exact accepts_moreItems (accepts_name .parameter) (fun _ _ => trivial)
    (hxs fuel (count + 1) (by omega) (by omega)) (by omega)

/-- The first parameter, and more behind it. -/
theorem accepts_parameters {x : Name} {xs : List Name}
    (hxs : (Phrase.moreParameters xs).Accepted d n ts n) :
    (Phrase.parameters (x :: xs)).Accepted d n (x.token :: ts) n := by
  intro hlen
  simp only [List.length_cons] at hlen
  exact accepts_items (accepts_name .parameter) (fun _ _ => trivial)
    (fun fuel hfuel => hxs fuel 1 hfuel (by omega)) fun _ => notNext_cons (by nofun)

/-!
## Statements

Each statement but one begins with a token of its own. A statement that ends in an `if` without an
`else` is open, and is not accepted in front of an `else`.
-/

/-- An expression ends as a statement with a semicolon. -/
theorem accepts_expressionStatement {e : Expr} {line : Nat}
    (he : (Phrase.expression e).Accepted d n ts m) :
    Accepts Nested.expressionStatement Anything d n (ts ++ [Mark.semicolon.token line])
      (.expression e) m := by
  intro j s rest _ hbound
  simp only [List.cons_append, List.append_assoc, List.nil_append] at hbound ⊢
  exact (he j s _ (stops_cons (by decide)) hbound).bind (Reaches.mark (.pure _))

/-- A statement that begins with a token of its own is what is read behind that. -/
theorem accepts_statementStart {o : Bool} {x : Stmt} {kind : TokenKind} {line : Nat}
    {b : StatementStart} (hstart : StatementStart.ofKind? kind = some b)
    (h : Accepts (fun inner => inner.afterStatementStart line b)
      (fun rest => o = true → NotNext (.keyword .«else») rest) d n ts x m) :
    (Phrase.statement o x).Accepted d n (⟨kind, line⟩ :: ts) m :=
  fun j s rest hrest hbound => Reaches.take hstart (h j s rest hrest (Nat.lt_of_succ_lt hbound))

/-- What begins an expression begins no other statement. -/
theorem statementStart_eq_none {kind : TokenKind} (h : kind.startsExpression) :
    StatementStart.ofKind? kind = none := by
  unfold StatementStart.ofKind?
  split <;> first | rfl | cases h

/-- Where no statement begins with the next token, an expression is read. -/
theorem accepts_effect {e : Expr} {line : Nat} (he : Derives d (.expression e) n ts m)
    (hae : (Phrase.expression e).Accepted d n ts m) :
    (Phrase.statement false (.expression e)).Accepted d n
      (ts ++ [Mark.semicolon.token line]) m := by
  intro j s rest _ hbound
  refine Reaches.leave ?_ (accepts_expressionStatement hae j s rest trivial hbound)
  obtain ⟨t, ts, rfl, hstarts, -⟩ := he.beginsProperly
  rintro t' rest' heq
  obtain ⟨rfl, -⟩ := List.cons.inj heq
  exact statementStart_eq_none hstarts

/-- What is printed ends with a semicolon. -/
theorem accepts_print {e : Expr} {lineP line : Nat} (he : (Phrase.expression e).Accepted d n ts m) :
    (Phrase.statement false (.print e)).Accepted d n
      (Keyword.print.token lineP :: (ts ++ [Mark.semicolon.token line])) m := by
  refine accepts_statementStart (b := .print) rfl fun j s rest _ hbound => ?_
  simp only [List.cons_append, List.append_assoc, List.nil_append] at hbound ⊢
  exact (he j s _ (stops_cons (by decide)) hbound).bind (Reaches.mark (.pure _))

/-- A block ends with its brace. -/
theorem accepts_blockStatement {xs : List Stmt} {lineL lineR : Nat}
    (hxs : (Phrase.declarations xs).Accepted d n ts m) :
    (Phrase.statement false (.block xs)).Accepted d n
      (Mark.leftBrace.token lineL :: (ts ++ [Mark.rightBrace.token lineR])) m := by
  refine accepts_statementStart (b := .block) rfl fun j s rest _ hbound => ?_
  simp only [List.cons_append, List.append_assoc, List.nil_append] at hbound ⊢
  exact (reaches_block hxs hbound id).bind (.pure _)

/-- Between the keyword and the semicolon an expression may stand. -/
theorem accepts_returnValue {e : Option Expr} {lineR line : Nat}
    (he : (Phrase.clause e).Accepted d n ts m) :
    (Phrase.statement false (.returnValue lineR e)).Accepted d n
      (Keyword.«return».token lineR :: (ts ++ [Mark.semicolon.token line])) m := by
  refine accepts_statementStart (b := .returnValue) rfl fun j s rest _ hbound => ?_
  have hrun := he .semicolon .afterReturnValue line (.inl rfl) j s rest trivial hbound
  show Reaches _ ((grammar j).returnStatement lineR) _ _ _
  rw [returnStatement_eq]
  exact hrun.bind (.pure _)

/-- What may follow a statement inside another one. -/
abbrev AfterStatement (o : Bool) (rest : List Token) : Prop :=
  o = true → NotNext (.keyword .«else») rest

/-- A statement in a statement is one level further in. -/
theorem nestedStatement {o : Bool} {x : Stmt} (h : (Phrase.statement o x).Accepted d n ts m) :
    Accepts Nested.statement (AfterStatement o) (d + 1) n ts x m :=
  h.nested rfl fun _ => rfl

/-- A loop is open if its body is. -/
theorem accepts_whileDo {o : Bool} {e : Expr} {x : Stmt} {lineW lineL lineR : Nat}
    (he : (Phrase.expression e).Accepted (d + 1) n ts m)
    (hx : (Phrase.statement o x).Accepted d m ts' k) :
    (Phrase.statement o (.whileDo e x)).Accepted (d + 1) n
      (Keyword.«while».token lineW :: Mark.leftParen.token lineL :: (ts ++
        Mark.rightParen.token lineR :: ts')) k := by
  refine accepts_statementStart (b := .whileLoop) rfl fun j s rest hrest hbound => ?_
  simp only [List.cons_append, List.append_assoc] at hbound ⊢
  simp only [List.length_cons, List.length_append] at hbound
  refine Reaches.mark ((he j s _ (stops_cons (by decide)) ?_).bind (Reaches.mark
    ((nestedStatement hx j s rest hrest ?_).bind (.pure _))))
  · simp only [List.length_cons, List.length_append]
    omega
  · simp only [List.length_append]
    omega

/-- Without an `else` the statement is open. -/
theorem accepts_ifThen {o : Bool} {e : Expr} {x : Stmt} {lineI lineL lineR : Nat}
    (he : (Phrase.expression e).Accepted (d + 1) n ts m)
    (hx : (Phrase.statement o x).Accepted d m ts' k) :
    (Phrase.statement true (.ifThen e x none)).Accepted (d + 1) n
      (Keyword.«if».token lineI :: Mark.leftParen.token lineL :: (ts ++
        Mark.rightParen.token lineR :: ts')) k := by
  refine accepts_statementStart (b := .ifThen) rfl fun j s rest hrest hbound => ?_
  simp only [List.cons_append, List.append_assoc] at hbound ⊢
  simp only [List.length_cons, List.length_append] at hbound
  refine Reaches.mark ((he j s _ (stops_cons (by decide)) ?_).bind (Reaches.mark
    ((nestedStatement hx j s rest (fun _ => hrest rfl) ?_).bind
      (Reaches.leaveKind (hrest rfl) ((Reaches.pure none).bind (.pure _))))))
  · simp only [List.length_cons, List.length_append]
    omega
  · simp only [List.length_append]
    omega

/-- With an `else` the first branch is closed, and the second decides. -/
theorem accepts_ifElse {l : UseId} {ts'' : List Token} {o : Bool} {e : Expr} {x y : Stmt}
    {lineI lineL lineR lineE : Nat} (he : (Phrase.expression e).Accepted (d + 1) n ts m)
    (hx : (Phrase.statement false x).Accepted d m ts' k)
    (hy : (Phrase.statement o y).Accepted d k ts'' l) :
    (Phrase.statement o (.ifThen e x (some y))).Accepted (d + 1) n
      (Keyword.«if».token lineI :: Mark.leftParen.token lineL :: (ts ++
        Mark.rightParen.token lineR :: (ts' ++ Keyword.«else».token lineE :: ts''))) l := by
  refine accepts_statementStart (b := .ifThen) rfl fun j s rest hrest hbound => ?_
  simp only [List.cons_append, List.append_assoc] at hbound ⊢
  simp only [List.length_cons, List.length_append] at hbound
  refine Reaches.mark ((he j s _ (stops_cons (by decide)) ?_).bind (Reaches.mark
    -- The first branch is not open, so it leaves the `else` to this statement.
    ((nestedStatement hx j s _ (by nofun) ?_).bind (Reaches.takeKind
      (((nestedStatement hy j s rest hrest ?_).map some).bind (.pure _))))))
  · simp only [List.length_cons, List.length_append]
    omega
  · simp only [List.length_cons, List.length_append]
    omega
  · simp only [List.length_append]
    omega

/-- A semicolon stands for a missing initializer. -/
theorem accepts_noInitializer {line : Nat} :
    (Phrase.initializer none).Accepted d n [Mark.semicolon.token line] n :=
  fun _ _ _ _ _ => Reaches.takeKind (.pure _)

/-- A loop may declare its variable. -/
theorem accepts_variableInitializer {x : Stmt} {line : Nat}
    (hx : (Phrase.«variable» x).Accepted d n ts m) :
    (Phrase.initializer (some x)).Accepted d n (Keyword.var.token line :: ts) m :=
  fun j s rest _ hbound => Reaches.leaveKind (notNext_cons (by nofun))
    (Reaches.takeKind ((hx j s rest trivial (Nat.lt_of_succ_lt hbound)).map some))

/-- A loop may begin with an expression. -/
theorem accepts_effectInitializer {e : Expr} {line : Nat} (he : Derives d (.expression e) n ts m)
    (hae : (Phrase.expression e).Accepted d n ts m) :
    (Phrase.initializer (some (.expression e))).Accepted d n
      (ts ++ [Mark.semicolon.token line]) m := by
  intro j s rest _ hbound
  have hfirst := he.beginsProperly
  have hrun := accepts_expressionStatement hae j s rest trivial hbound
  rw [List.append_assoc] at hrun ⊢
  exact Reaches.leaveKind (hfirst.notNext rfl _) (Reaches.leaveKind (hfirst.notNext rfl _)
    (hrun.map some))

/-- A clause may be missing. -/
theorem accepts_noClause : (Phrase.clause none).Accepted d n [] n :=
  fun _ _ _ _ _ _ _ _ _ => Reaches.next ((Reaches.pure none).bind (Reaches.mark (.pure _)))

/-- A clause is an expression. -/
theorem accepts_clause {e : Expr} (he : Derives d (.expression e) n ts m)
    (hae : (Phrase.expression e).Accepted d n ts m) :
    (Phrase.clause (some e)).Accepted d n ts m := by
  intro final place line hfinal j s rest _ hbound
  simp only [List.cons_append, List.append_assoc, List.nil_append] at hbound ⊢
  have hstop : Stops 1 (final.token line :: rest) := by
    rcases hfinal with rfl | rfl <;> exact stops_cons (by decide)
  have hfirst : NotNext (.mark final) (ts ++ final.token line :: rest) := by
    rcases hfinal with rfl | rfl <;> exact he.beginsProperly.notNext rfl _
  exact Reaches.notNext hfirst (((hae j s _ hstop hbound).map some).bind (Reaches.mark (.pure _)))

/-- The clauses and the body are put together to the tree of a loop. -/
theorem accepts_forLoop {l i : UseId} {ts'' body : List Token} {o : Bool} {first : Option Stmt}
    {condition last : Option Expr} {x : Stmt} {lineF lineL lineS lineR : Nat}
    (hfirst : (Phrase.initializer first).Accepted (d + 1) n ts m)
    (hcondition : (Phrase.clause condition).Accepted (d + 1) m ts' k)
    (hlast : (Phrase.clause last).Accepted (d + 1) k ts'' l)
    (hx : (Phrase.statement o x).Accepted d l body i) :
    (Phrase.statement o (loopTree first condition last x)).Accepted (d + 1) n
      (Keyword.«for».token lineF :: Mark.leftParen.token lineL :: (ts ++ (ts' ++
        Mark.semicolon.token lineS :: (ts'' ++ Mark.rightParen.token lineR :: body)))) i := by
  refine accepts_statementStart (b := .forLoop) rfl fun j s rest hrest hbound => ?_
  -- Each clause is read with the mark behind it, so it does not matter what follows that.
  have hcondition := hcondition .semicolon .afterLoopCondition lineS (.inl rfl) j s
    (ts'' ++ Mark.rightParen.token lineR :: (body ++ rest)) trivial
  have hlast := hlast .rightParen .afterForClauses lineR (.inr rfl) j s (body ++ rest) trivial
  simp only [List.cons_append, List.append_assoc, List.nil_append] at hbound hcondition hlast ⊢
  simp only [List.length_cons, List.length_append] at hbound hcondition hlast
  rw [← forLoop_eq_loopTree]
  refine Reaches.mark ((hfirst j s _ trivial ?_).bind ((hcondition ?_).bind ((hlast ?_).bind
    ((nestedStatement hx j s rest hrest ?_).bind (.pure _)))))
  · simp only [List.length_cons, List.length_append]
    omega
  · omega
  · omega
  · simp only [List.length_append]
    omega

/-!
## Declarations

Three keywords begin a declaration, and all else is a statement. A function is declared only where a
name follows the keyword, since a lambda begins with it too.
-/

/-- A variable need not have an initializer. -/
theorem accepts_variableNil {x : Name} {line : Nat} :
    (Phrase.«variable» (.var x none)).Accepted d n [x.token, Mark.semicolon.token line] n :=
  fun _ _ _ _ _ => Reaches.name (Reaches.leaveKind (notNext_cons (by nofun))
    ((Reaches.pure none).bind (Reaches.mark (.pure _))))

/-- An initializer stands behind an equals sign. -/
theorem accepts_variableValue {x : Name} {e : Expr} {lineE line : Nat}
    (he : (Phrase.expression e).Accepted d n ts m) :
    (Phrase.«variable» (.var x (some e))).Accepted d n
      (x.token :: Mark.equal.token lineE :: (ts ++ [Mark.semicolon.token line])) m := by
  intro j s rest _ hbound
  simp only [List.cons_append, List.append_assoc, List.nil_append] at hbound ⊢
  exact Reaches.name (Reaches.takeKind (((he j s _ (stops_cons (by decide))
    (Nat.lt_of_succ_lt (Nat.lt_of_succ_lt hbound))).map some).bind (Reaches.mark (.pure _))))

/-- A name, parameters and a body. -/
theorem accepts_function {x : Name} {xs : List Name} {body : List Stmt}
    {lineL lineR lineB lineE : Nat} (hxs : (Phrase.parameters xs).Accepted d n ts n)
    (hlen : xs.length ≤ maxArguments) (hbody : (Phrase.declarations body).Accepted d n ts' m) :
    (Phrase.function ⟨x, xs, body⟩).Accepted d n
      (x.token :: Mark.leftParen.token lineL :: (ts ++ Mark.rightParen.token lineR ::
        Mark.leftBrace.token lineB :: (ts' ++ [Mark.rightBrace.token lineE]))) m := by
  intro kind j s rest _ hbound
  simp only [List.cons_append, List.append_assoc, List.nil_append] at hbound ⊢
  simp only [List.length_cons, List.length_append] at hbound
  refine Reaches.name (Reaches.mark (Reaches.bind (Reaches.bind
    (hxs hlen j s _ ⟨lineR, _, rfl⟩ ?_) (Reaches.mark (.pure _)))
      (Reaches.mark (Reaches.bind (reaches_block hbody ?_ id) (.pure _)))))
  · simp only [List.length_cons, List.length_append]
    omega
  · simp only [List.length_cons, List.length_append]
    omega

/-- A class may be empty. -/
theorem accepts_noMembers : (Phrase.members [] []).Accepted d n [] n := by
  rintro fuel - j s _ ⟨line, rest, rfl⟩ -
  cases fuel with
  | zero => exact .pure _
  | succ fuel => exact Reaches.notAtEnd (by simp) (Reaches.next (.pure _))

/-- A function begins with its name. -/
theorem Derives.function_eq_cons {f : FunctionDecl} (h : Derives d (.function f) n ts m) :
    ∃ rest, ts = f.name.token :: rest := by
  cases h
  exact ⟨_, rfl⟩

/-- A method begins with its name. -/
theorem accepts_method {f : FunctionDecl} {fs gs : List FunctionDecl}
    (hf : Derives d (.function f) n ts m) (haf : (Phrase.function f).Accepted d n ts m)
    (hrest : (Phrase.members fs gs).Accepted d m ts' k) :
    (Phrase.members (f :: fs) gs).Accepted d n (ts ++ ts') k := by
  intro fuel hfuel j s rest hbrace hbound
  obtain ⟨more, rfl⟩ := hf.function_eq_cons
  simp only [List.length_append, List.length_cons] at hfuel
  obtain ⟨fuel, rfl⟩ : ∃ fuel', fuel = fuel' + 1 := ⟨fuel - 1, by omega⟩
  have hmethod := haf .method j s (ts' ++ rest) trivial
  simp only [List.cons_append, List.append_assoc] at hbound hmethod ⊢
  simp only [List.length_append, List.length_cons] at hbound hmethod
  refine Reaches.notAtEnd (by simp) (Reaches.notNext (notNext_cons (by nofun)) (Reaches.leaveKind
    (notNext_cons (by nofun)) ((hmethod hbound).bind
      ((hrest fuel (by omega) j s rest hbrace ?_).bind (.pure _)))))
  simp only [List.length_append]
  omega

/-- A static method has a keyword in front of its name. -/
theorem accepts_staticMethod {f : FunctionDecl} {fs gs : List FunctionDecl} {line : Nat}
    (haf : (Phrase.function f).Accepted d n ts m)
    (hrest : (Phrase.members fs gs).Accepted d m ts' k) :
    (Phrase.members fs (f :: gs)).Accepted d n
      (Keyword.«class».token line :: (ts ++ ts')) k := by
  intro fuel hfuel j s rest hbrace hbound
  simp only [List.length_append, List.length_cons] at hfuel
  -- There is fuel for one more member, because there are tokens left.
  obtain ⟨fuel, rfl⟩ : ∃ fuel', fuel = fuel' + 1 := ⟨fuel - 1, by omega⟩
  simp only [List.cons_append, List.append_assoc] at hbound ⊢
  simp only [List.length_append, List.length_cons] at hbound
  refine Reaches.notAtEnd (by simp) (Reaches.notNext (notNext_cons (by nofun)) (Reaches.takeKind
    ((haf .method j s (ts' ++ rest) trivial ?_).bind
      ((hrest fuel (by omega) j s rest hbrace ?_).bind (.pure _)))))
  · simp only [List.length_append]
    omega
  · simp only [List.length_append]
    omega

/-- The keyword `fun` is not taken before a parenthesis, nor is anything else. -/
theorem reaches_acceptFunction_leave {starts : TokenKind → Bool} {deep : Prop} {s : ParserState}
    (h : BeginsWith starts ts) (rest : List Token) :
    Reaches deep acceptFunction (s.place (ts ++ rest) n) false (s.place (ts ++ rest) n) := by
  obtain ⟨t, ts', rfl, -, hfun⟩ := h
  refine .inl ?_
  unfold acceptFunction
  split
  · next line x line' rest' heq =>
    obtain ⟨rfl, heq⟩ := List.cons.inj heq
    obtain ⟨line'', ts'', rfl⟩ := hfun rfl
    cases heq
  · rfl

/-- What begins with no keyword of a declaration is a statement. -/
theorem accepts_statementDeclaration {o : Bool} {x : Stmt} (hx : Derives d (.statement o x) n ts m)
    (hax : (Phrase.statement o x).Accepted d n ts m) :
    (Phrase.declaration x).Accepted d n ts m := by
  intro j s rest hrest hbound
  have hfirst := hx.beginsProperly
  exact Reaches.leaveKind (hfirst.notNext rfl _) ((reaches_acceptFunction_leave hfirst rest).bind
    (Reaches.leaveKind (hfirst.notNext rfl _) (hax j s rest (fun _ => hrest) hbound)))

/-- A variable behind its keyword. -/
theorem accepts_variableDecl {x : Stmt} {line : Nat}
    (hx : (Phrase.«variable» x).Accepted d n ts m) :
    (Phrase.declaration x).Accepted d n (Keyword.var.token line :: ts) m := by
  intro j s rest _ hbound
  exact Reaches.leaveKind (notNext_cons (by nofun)) (Reaches.bind (a := false) (.inl rfl)
    (Reaches.takeKind (hx j s rest trivial (Nat.lt_of_succ_lt hbound))))

/-- A function behind its keyword. -/
theorem accepts_functionDecl {f : FunctionDecl} {line : Nat} (hf : Derives d (.function f) n ts m)
    (haf : (Phrase.function f).Accepted d n ts m) :
    (Phrase.declaration (.function f)).Accepted d n (Keyword.«fun».token line :: ts) m := by
  intro j s rest _ hbound
  have hrun := haf .function j s rest trivial (Nat.lt_of_succ_lt hbound)
  obtain ⟨more, rfl⟩ := hf.function_eq_cons
  exact Reaches.leaveKind (notNext_cons (by nofun)) (Reaches.bind (a := true) (.inl rfl)
    (hrun.bind (.pure _)))

/-- A class body between its braces. -/
theorem reaches_classBody {fs gs : List FunctionDecl} {x : Name} {parent : Option VariableUse}
    {deep : Prop} {lineL lineR : Nat} {j : Nat} {s : ParserState} {rest : List Token}
    (hmembers : (Phrase.members fs gs).Accepted d n ts m) (hdeep : j < d → deep)
    (hbound : (ts ++ Mark.rightBrace.token lineR :: rest).length < s.bound) :
    Reaches deep (do
        let _ ← expectMark .leftBrace .beforeClassBody
        let (fs, gs) ← (grammar j).methods (← bound)
        let _ ← expectMark .rightBrace .afterClassBody
        return Stmt.classDecl x parent fs gs)
      (s.place (Mark.leftBrace.token lineL :: (ts ++ Mark.rightBrace.token lineR :: rest)) n)
      (.classDecl x parent fs gs) (s.place rest m) := by
  have hfuel : ts.length < s.bound := by
    simp only [List.length_append] at hbound
    omega
  have hbody := (hmembers s.bound hfuel j s _ ⟨lineR, rest, rfl⟩ hbound).mono hdeep
  exact Reaches.mark (Reaches.boundThen (hbody.bind (Reaches.mark (.pure _))))

/-- A class without a superclass. -/
theorem accepts_classDecl {fs gs : List FunctionDecl} {x : Name} {lineC lineL lineR : Nat}
    (hmembers : (Phrase.members fs gs).Accepted d n ts m) :
    (Phrase.declaration (.classDecl x none fs gs)).Accepted d n
      (Keyword.«class».token lineC :: x.token :: Mark.leftBrace.token lineL :: (ts ++
        [Mark.rightBrace.token lineR])) m := by
  intro j s rest _ hbound
  simp only [List.cons_append, List.append_assoc, List.nil_append] at hbound ⊢
  refine Reaches.takeKind (Reaches.name (Reaches.bind (a := none)
    (Reaches.leaveKind (notNext_cons (by nofun)) (.pure _)) (reaches_classBody hmembers id ?_)))
  simp only [List.length_cons] at hbound
  omega

/-- A class with a superclass, whose name is a use and gets a number. -/
theorem accepts_subclassDecl {fs gs : List FunctionDecl} {x y : Name}
    {lineC lineB lineL lineR : Nat} (hmembers : (Phrase.members fs gs).Accepted d (n + 1) ts m) :
    (Phrase.declaration (.classDecl x (some ⟨n, y⟩) fs gs)).Accepted d n
      (Keyword.«class».token lineC :: x.token :: Mark.less.token lineB :: y.token ::
        Mark.leftBrace.token lineL :: (ts ++ [Mark.rightBrace.token lineR])) m := by
  intro j s rest _ hbound
  simp only [List.cons_append, List.append_assoc, List.nil_append] at hbound ⊢
  refine Reaches.takeKind (Reaches.name (Reaches.bind
    (Reaches.takeKind (Reaches.name (Reaches.fresh (.pure _))))
      (reaches_classBody hmembers id ?_)))
  simp only [List.length_cons] at hbound
  omega

/-- No declaration begins with a token that cannot begin one. -/
theorem Derives.notNext_declaration {x : Stmt} {kind : TokenKind}
    (h : Derives d (.declaration x) n ts m) (hkind : kind.startsDeclaration = false)
    (rest : List Token) : NotNext kind (ts ++ rest) := by
  obtain ⟨t, ts', rfl, hstarts⟩ := h.beginsProperly
  rintro t' rest' heq rfl
  obtain ⟨rfl, -⟩ := List.cons.inj heq
  rw [hkind] at hstarts
  cases hstarts

/-- Behind a declaration there is no `else`: either nothing of the kind is left, or the next
declaration. -/
theorem Derives.notNext_else {xs : List Stmt} (h : Derives d (.declarations xs) n ts m)
    {rest : List Token} (hrest : NotNext (.keyword .«else») rest) :
    NotNext (.keyword .«else») (ts ++ rest) := by
  cases h with
  | noDeclarations => exact hrest
  | declarations hx _ =>
    rw [List.append_assoc]
    exact hx.notNext_declaration rfl _

/-- There may be no declaration. -/
theorem accepts_noDeclarations : (Phrase.declarations []).Accepted d n [] n := by
  rintro fuel - j s _ ⟨line, rest, rfl⟩ -
  cases fuel with
  | zero => exact .pure _
  | succ fuel => exact Reaches.next (.pure _)

/-- A declaration in a block is one level further in. -/
theorem nestedDeclaration {x : Stmt} (h : (Phrase.declaration x).Accepted d n ts m) :
    Accepts Nested.declaration (NotNext (.keyword .«else»)) (d + 1) n ts (some x) m :=
  Accepts.nested (Accepts.recovering h) rfl fun _ => rfl

/-- One declaration, and more behind it. -/
theorem accepts_declarations {x : Stmt} {xs : List Stmt} (hx : Derives d (.declaration x) n ts m)
    (hxs : Derives (d + 1) (.declarations xs) m ts' k)
    (hax : (Phrase.declaration x).Accepted d n ts m)
    (haxs : (Phrase.declarations xs).Accepted (d + 1) m ts' k) :
    (Phrase.declarations (x :: xs)).Accepted (d + 1) n (ts ++ ts') k := by
  rintro fuel hfuel j s _ ⟨line, rest, rfl⟩ hbound
  have hlen := List.length_pos_iff.mpr hx.declaration_ne_nil
  simp only [List.append_assoc] at hbound ⊢
  simp only [List.length_append] at hbound hfuel
  -- A declaration has tokens, so one turn of the loop is left for it.
  obtain ⟨fuel, rfl⟩ : ∃ fuel', fuel = fuel' + 1 := ⟨fuel - 1, by omega⟩
  refine Reaches.notNext (hx.notNext_declaration rfl _) (Reaches.notAtEnd
    (by simp [hx.declaration_ne_nil]) ((nestedDeclaration hax j s _
      (hxs.notNext_else (notNext_cons (by nofun))) ?_).bind
        ((haxs fuel (by omega) j s _ ⟨line, rest, rfl⟩ ?_).bind (.pure _))))
  · simp only [List.length_append]
    omega
  · simp only [List.length_append]
    omega

/-!
## All phrases

Each way to derive a phrase is one of the lemmas above, so this is an induction over derivations
with nothing more to show.
-/

/-- **Every phrase that the grammar derives is accepted.** Induction on the derivation, one case
for each rule of the grammar. -/
theorem Derives.accepted {ph : Phrase} (h : Derives d ph n ts m) : ph.Accepted d n ts m := by
  -- One lemma for each rule of the grammar.
  induction h with
  | literal hkind => exact accepts_literal hkind
  | «variable» => exact accepts_variable
  | grouping _ ih => exact accepts_grouping ih
  | lambda _ hlen _ ihxs ih => exact accepts_lambda ihxs hlen ih
  | this => exact accepts_this
  | super => exact accepts_super
  | primary _ ih => exact accepts_suffixless ih
  | call _ _ hlen ih ihes => exact accepts_call ih ihes hlen
  | get _ ih => exact accepts_get ih
  | noArguments => exact accepts_noArguments
  | arguments he hes ih ihes => exact accepts_arguments he hes ih ihes
  | noMoreArguments => exact fun fuel count _ _ => accepts_noMoreItems fuel count
  | moreArguments _ hes ih ihes => exact accepts_moreArguments hes ih ihes
  | suffixed he ih => exact accepts_suffixed he ih
  | unary _ ih => exact accepts_unary ih
  | operand _ ih => exact accepts_operand ih
  | joined _ hop _ ih ih' => exact accepts_joined ih hop ih'
  | value _ ih => exact accepts_value ih
  | assign _ ih => exact accepts_assign ih
  | set hobject _ ih ih' => exact accepts_set hobject ih ih'
  | noParameters => exact fun _ => accepts_noItems
  | parameters _ ih => exact accepts_parameters ih
  | noMoreParameters => exact fun fuel count _ _ => accepts_noMoreItems fuel count
  | moreParameters _ ih => exact accepts_moreParameters ih
  | effect he ih => exact accepts_effect he ih
  | print _ ih => exact accepts_print ih
  | block _ ih => exact accepts_blockStatement ih
  | returnValue _ ih => exact accepts_returnValue ih
  | whileDo _ _ ih ih' => exact accepts_whileDo ih ih'
  | ifThen _ _ ih ih' => exact accepts_ifThen ih ih'
  | ifElse _ _ _ ih ih' ih'' => exact accepts_ifElse ih ih' ih''
  | forLoop _ _ _ _ ih ih' ih'' ihs => exact accepts_forLoop ih ih' ih'' ihs
  | noInitializer => exact accepts_noInitializer
  | variableInitializer _ ih => exact accepts_variableInitializer ih
  | effectInitializer he ih => exact accepts_effectInitializer he ih
  | noClause => exact accepts_noClause
  | clause he ih => exact accepts_clause he ih
  | variableNil => exact accepts_variableNil
  | variableValue _ ih => exact accepts_variableValue ih
  | function _ hlen _ ihxs ih => exact accepts_function ihxs hlen ih
  | noMembers => exact accepts_noMembers
  | method hf _ ih ih' => exact accepts_method hf ih ih'
  | staticMethod _ _ ih ih' => exact accepts_staticMethod ih ih'
  | statement hs ih => exact accepts_statementDeclaration hs ih
  | variableDecl _ ih => exact accepts_variableDecl ih
  | functionDecl hf ih => exact accepts_functionDecl hf ih
  | classDecl _ ih => exact accepts_classDecl ih
  | subclassDecl _ ih => exact accepts_subclassDecl ih
  | noDeclarations => exact accepts_noDeclarations
  | declarations hs hss ih ih' => exact accepts_declarations hs hss ih ih'

end LoxLang
