import LoxLang.Proofs.Grammar

/-!
# Looking ahead

The parser decides by the next token what it reads. This module says which tokens its looks accept,
in the terms of the grammar, and what phrases begin with: a phrase that is never empty can be told
by its first token (`Derives.beginsProperly`). Only the keyword `fun` needs a second one, because it
begins a declaration before a name and a lambda before a parenthesis.
-/

namespace LoxLang

open LoxLang.Parser Nested

/-!
## What the looks accept

The parser decides by the kind of the next token. For each look it is said which kinds it accepts,
and for all other kinds that it does not.
-/

/-- A token is one that an expression without operators can begin with. -/
def Nested.PrimaryStart.Is (kind : TokenKind) : PrimaryStart → Prop
  | .literal value => kind.constant? = some value
  | .name text => kind = .identifier text
  | .parenthesis => kind = .mark .leftParen
  | .lambda => kind = .keyword .«fun»
  | .this => kind = .keyword .this
  | .super => kind = .keyword .super

theorem PrimaryStart.is_of_ofKind? {kind : TokenKind} {start : PrimaryStart}
    (h : PrimaryStart.ofKind? kind = some start) : start.Is kind := by
  unfold PrimaryStart.ofKind? at h
  split at h <;> first | (obtain rfl := Option.some.inj h; rfl) | cases h

/-- The parser takes each constant for what it is. -/
theorem PrimaryStart.ofKind?_constant {kind : TokenKind} {value : Literal}
    (h : kind.constant? = some value) : PrimaryStart.ofKind? kind = some (.literal value) := by
  unfold TokenKind.constant? at h
  split at h
  · exact congrArg _ (congrArg _ (Option.some.inj h))
  · exact congrArg _ (congrArg _ (Option.some.inj h))
  · exact congrArg _ (congrArg _ (Option.some.inj h))
  · unfold TokenKind.literal? at h
    split at h
    · exact congrArg _ (congrArg _ (Option.some.inj h))
    · exact congrArg _ (congrArg _ (Option.some.inj h))
    · cases h

/-- A token is one that a statement other than an expression begins with. -/
def Nested.StatementStart.Is (kind : TokenKind) : StatementStart → Prop
  | .forLoop => kind = .keyword .«for»
  | .ifThen => kind = .keyword .«if»
  | .print => kind = .keyword .print
  | .block => kind = .mark .leftBrace
  | .returnValue => kind = .keyword .«return»
  | .whileLoop => kind = .keyword .«while»

theorem StatementStart.is_of_ofKind? {kind : TokenKind} {start : StatementStart}
    (h : StatementStart.ofKind? kind = some start) : start.Is kind := by
  unfold StatementStart.ofKind? at h
  split at h <;> first | (obtain rfl := Option.some.inj h; rfl) | cases h

theorem eq_token_of_unaryOperator? {kind : TokenKind} {op : UnaryOperator}
    (h : unaryOperator? kind = some op) : kind = op.token := by
  unfold unaryOperator? at h
  split at h <;> first | (obtain rfl := Option.some.inj h; rfl) | cases h

/-- How the parser tells the operators of a level. -/
def Level.operator? : Level → TokenKind → Option (Nat → Expr → Expr → Expr)
  | disjunction, kind => (disjunctionOperator? kind).map .logical
  | conjunction, kind => (conjunctionOperator? kind).map .logical
  | equality, kind => (equalityOperator? kind).map .binary
  | comparison, kind => (comparisonOperator? kind).map .binary
  | term, kind => (termOperator? kind).map .binary
  | factor, kind => (factorOperator? kind).map .binary

/-- The parser and the grammar have the same operators on each level. -/
theorem Level.operator?_eq_some_iff {l : Level} {kind : TokenKind}
    {join : Nat → Expr → Expr → Expr} :
    l.operator? kind = some join ↔ (kind, join) ∈ l.operators := by
  constructor
  · intro h
    cases l <;> obtain ⟨op, hop, rfl⟩ := Option.map_eq_some_iff.mp h <;>
      simp only [disjunctionOperator?, conjunctionOperator?, equalityOperator?,
        comparisonOperator?, termOperator?, factorOperator?] at hop <;>
      split at hop <;> cases hop <;> simp [operators, BinaryOperator.token, LogicalOperator.token]
  · intro h
    cases l <;> obtain ⟨op, hop, heq⟩ := List.mem_map.mp h <;> cases heq <;> cases op <;>
      first | rfl | simp at hop

/-- Operators join two operands to an operation on them. -/
theorem Level.join_of_mem_operators {l : Level} {kind : TokenKind}
    {join : Nat → Expr → Expr → Expr} (h : (kind, join) ∈ l.operators) :
    (∃ op, join = .logical op) ∨ ∃ op, join = .binary op := by
  cases l <;> obtain ⟨op, -, heq⟩ := List.mem_map.mp h <;> cases heq <;>
    first | exact .inl ⟨op, rfl⟩ | exact .inr ⟨op, rfl⟩

/-! ## Rules in the terms of the grammar -/

/-- A return statement is a clause up to a semicolon. -/
theorem returnStatement_eq (inner : Nested) (line : Nat) :
    inner.returnStatement line =
      inner.forClause .semicolon .afterReturnValue >>= fun e => pure (.returnValue line e) := by
  simp only [Nested.returnStatement, Nested.forClause, bind_assoc, pure_bind]
  congr 1
  funext b
  cases b <;> simp only [Bool.false_eq_true, if_true, if_false, bind_assoc, pure_bind]

/-- The parser's tree of a loop is the one of the grammar. -/
theorem forLoop_eq_loopTree (first : Option Stmt) (condition last : Option Expr) (body : Stmt) :
    forLoop first condition last body = loopTree first condition last body := by
  cases first <;> cases last <;> rfl

/-- The keyword `fun` is taken or nothing is. -/
theorem acceptFunction_cases (s : ParserState) :
    (∃ line rest, s.rest = Keyword.«fun».token line :: rest ∧
      acceptFunction s = .ok true { s with rest }) ∨ acceptFunction s = .ok false s := by
  unfold acceptFunction
  split
  · next line x line' rest hrest => exact .inl ⟨line, _, hrest, rfl⟩
  · exact .inr rfl

/-!
## First tokens

Which tokens a primary, an expression, a statement and a declaration can begin with. The keyword
`fun` begins a lambda as well as a declaration, so the token behind it is part of the description.
-/

namespace TokenKind

/-- Whether a token can begin an expression without operators in front. -/
def startsPrimary : TokenKind → Bool
  | .mark .leftParen | .keyword .«fun» | .keyword .super | .keyword .this => true
  | .identifier _ => true
  | kind => kind.constant?.isSome

/-- Whether a token can begin an expression. -/
def startsExpression : TokenKind → Bool
  | .mark .bang | .mark .minus => true
  | kind => kind.startsPrimary

/-- Whether a token can begin a statement that declares nothing. -/
def startsStatement : TokenKind → Bool
  | .keyword .«for» | .keyword .«if» | .keyword .print | .mark .leftBrace => true
  | .keyword .«return» | .keyword .«while» => true
  | kind => kind.startsExpression

/-- Whether a token can begin a declaration. -/
def startsDeclaration : TokenKind → Bool
  | .keyword .«class» | .keyword .var => true
  | kind => kind.startsStatement

end TokenKind

/-- The tokens begin with one of a class, and the keyword `fun` with a parenthesis behind it. -/
def BeginsWith (starts : TokenKind → Bool) (ts : List Token) : Prop :=
  ∃ t rest, ts = t :: rest ∧ starts t.kind ∧
    (t.kind = .keyword .«fun» → ∃ line rest', rest = Mark.leftParen.token line :: rest')

/-- What the tokens of a phrase begin with. -/
def Phrase.Begins (ts : List Token) : Phrase → Prop
  | .primary _ | .call _ => BeginsWith TokenKind.startsPrimary ts
  | .unary _ | .chain _ _ | .expression _ => BeginsWith TokenKind.startsExpression ts
  | .statement _ _ => BeginsWith TokenKind.startsStatement ts
  | .declaration _ => ∃ t rest, ts = t :: rest ∧ t.kind.startsDeclaration
  | _ => True

namespace BeginsWith

variable {starts starts' : TokenKind → Bool} {ts : List Token}

theorem append (h : BeginsWith starts ts) (ts' : List Token) : BeginsWith starts (ts ++ ts') := by
  obtain ⟨t, rest, rfl, hstarts, hfun⟩ := h
  refine ⟨t, rest ++ ts', rfl, hstarts, fun heq => ?_⟩
  obtain ⟨line, rest', rfl⟩ := hfun heq
  exact ⟨line, rest' ++ ts', rfl⟩

theorem mono (h : BeginsWith starts ts) (himp : ∀ kind, starts kind → starts' kind) :
    BeginsWith starts' ts := by
  obtain ⟨t, rest, hts, hstarts, hfun⟩ := h
  exact ⟨t, rest, hts, himp _ hstarts, hfun⟩

/-- A first token other than `fun` is enough. -/
theorem of_ne_fun {t : Token} {rest : List Token} (hstarts : starts t.kind)
    (hne : t.kind ≠ .keyword .«fun») : BeginsWith starts (t :: rest) :=
  ⟨t, rest, rfl, hstarts, fun heq => absurd heq hne⟩

end BeginsWith

theorem startsExpression_of_startsPrimary {kind : TokenKind} (h : kind.startsPrimary) :
    kind.startsExpression := by
  unfold TokenKind.startsExpression
  split <;> first | rfl | exact h

theorem startsStatement_of_startsExpression {kind : TokenKind} (h : kind.startsExpression) :
    kind.startsStatement := by
  unfold TokenKind.startsStatement
  split <;> first | rfl | exact h

theorem startsDeclaration_of_startsStatement {kind : TokenKind} (h : kind.startsStatement) :
    kind.startsDeclaration := by
  unfold TokenKind.startsDeclaration
  split <;> first | rfl | exact h

theorem startsPrimary_of_constant? {kind : TokenKind} {value : Literal}
    (h : kind.constant? = some value) : kind.startsPrimary := by
  unfold TokenKind.startsPrimary
  split <;> first | rfl | simp [h]

theorem constant?_ne_fun {kind : TokenKind} {value : Literal} (h : kind.constant? = some value) :
    kind ≠ .keyword .«fun» := by
  rintro rfl
  simp [TokenKind.constant?, TokenKind.literal?] at h

/-- Operands begin with what expressions begin with. -/
theorem begins_operand {l : Level} {e : Expr} {ts : List Token} (h : (l.operand e).Begins ts) :
    BeginsWith TokenKind.startsExpression ts := by
  cases l <;> exact h

/-- **Phrases are told by their first tokens.** Induction on the derivation; a rule that begins
with a phrase passes on what that begins with. -/
theorem Derives.beginsProperly {d : Nat} {ph : Phrase} {n m : UseId} {ts : List Token}
    (h : Derives d ph n ts m) : ph.Begins ts := by
  -- A phrase begins as the first phrase in it, or with a token of its own.
  induction h with
  | literal hkind => exact .of_ne_fun (startsPrimary_of_constant? hkind) (constant?_ne_fun hkind)
  | «variable» | grouping | this | super => exact .of_ne_fun rfl (by nofun)
  | lambda => exact ⟨_, _, rfl, rfl, fun _ => ⟨_, _, rfl⟩⟩
  | primary _ ih => exact ih
  | call _ _ _ ih _ => exact ih.append _
  | get _ ih => exact ih.append _
  | suffixed _ ih => exact ih.mono fun _ => startsExpression_of_startsPrimary
  | @unary _ _ _ _ _ op => cases op <;> exact .of_ne_fun rfl (by nofun)
  | operand _ ih => exact begins_operand ih
  | joined _ _ _ ih _ => exact ih.append _
  | value _ ih => exact ih
  | assign => exact .of_ne_fun rfl (by nofun)
  | set _ _ ih _ => exact (ih.append _).mono fun _ => startsExpression_of_startsPrimary
  | effect _ ih => exact (ih.append _).mono fun _ => startsStatement_of_startsExpression
  | print | block | returnValue | whileDo | ifThen | ifElse | forLoop =>
    exact .of_ne_fun rfl (by nofun)
  | statement _ ih =>
    obtain ⟨t, rest, hts, hstarts, _⟩ := ih
    exact ⟨t, rest, hts, startsDeclaration_of_startsStatement hstarts⟩
  | variableDecl | functionDecl | classDecl | subclassDecl => exact ⟨_, _, rfl, rfl⟩
  | _ => trivial

/-- No declaration is written without tokens. -/
theorem Derives.declaration_ne_nil {d : Nat} {s : Stmt} {n m : UseId} {ts : List Token}
    (h : Derives d (.declaration s) n ts m) : ts ≠ [] := by
  obtain ⟨t, rest, rfl, _⟩ := h.beginsProperly
  simp

end LoxLang
