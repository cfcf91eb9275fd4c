import LoxLang.Proofs.Grammar

/-!
# Parsers that read what they should

The counterpart of `Parser.Reads`, for showing that a parser does give a result. `Reaches deep p s
a s'` says that `p` gives `a` and gets from `s` to `s'`, unless it gives up for depth, which it may
only do if `deep`. Since nothing is reported in between, the states of such a run differ in the
tokens ahead and the number of the next use only, and are written `s.place tokens next`.

The rules take what comes behind a step as a premise, so a run of a grammar rule is shown step by
step in the order in which the tokens are taken.
-/

namespace LoxLang

/-- A parser state with other tokens ahead and another number for the next use. -/
def ParserState.place (s : ParserState) (rest : List Token) (nextUse : UseId) : ParserState :=
  { s with rest, nextUse }

namespace Parser

variable {α β : Type}

/-- A parser gives a result and ends in a state, unless it is at a bound of depth. -/
def Reaches (deep : Prop) (p : Parser α) (s : ParserState) (a : α) (s' : ParserState) : Prop :=
  p s = .ok a s' ∨ deep ∧ ∃ s'', p s = .error .tooDeep s''

variable {deep deep' : Prop} {s s' s'' : ParserState} {n : UseId} {ts : List Token} {b : β}

/-!
## Rules

To reach a state is to end there with a result, or to find that something is nested too deep. The
second is passed on by everything that follows.
-/

/-- What is nested too deep for a part is so for the whole. -/
theorem Reaches.mono {p : Parser α} {a : α} (h : Reaches deep p s a s') (himp : deep → deep') :
    Reaches deep' p s a s' :=
  h.imp_right fun ⟨hdeep, hstop⟩ => ⟨himp hdeep, hstop⟩

/-- To give a result reads nothing. -/
theorem Reaches.pure (a : α) : Reaches deep (pure a) s a s := .inl rfl

/-- One parser behind the other, from the state that the first has reached. -/
theorem Reaches.bind {p : Parser α} {f : α → Parser β} {a : α} (hp : Reaches deep p s a s')
    (hf : Reaches deep (f a) s' b s'') : Reaches deep (p >>= f) s b s'' := by
  show EStateM.bind p f s = _ ∨ deep ∧ ∃ _, EStateM.bind p f s = _
  unfold EStateM.bind
  rcases hp with hp | ⟨hdeep, t, hp⟩
  · rw [hp]
    exact hf
  · rw [hp]
    exact .inr ⟨hdeep, t, rfl⟩

/-- A result may be changed behind a parser. -/
theorem Reaches.map {p : Parser α} {a : α} (f : α → β) (hp : Reaches deep p s a s') :
    Reaches deep (f <$> p) s (f a) s' :=
  hp.bind (.pure (f a))

/-- The bound on loops is looked at, and stays. -/
theorem Reaches.boundThen {g : Nat → Parser β} (h : Reaches deep (g s.bound) s b s') :
    Reaches deep (Parser.bound >>= g) s b s' :=
  Reaches.bind (.inl rfl) h

/-!
## Taking tokens

A rule for each way to look at the next token: it is taken, or it is left where it is.
-/

/-- The next token is one that is wanted, and is taken. -/
theorem Reaches.take {f : TokenKind → Option α} {g : Option (α × Nat) → Parser β} {t : Token}
    {a : α} (ha : f t.kind = some a)
    (h : Reaches deep (g (some (a, t.line))) (s.place ts n) b s') :
    Reaches deep (accept? f >>= g) (s.place (t :: ts) n) b s' :=
  Reaches.bind (.inl (by simp [accept?, ParserState.place, ha])) h

/-- The next token is not one that is wanted, or there is none, and nothing is taken. -/
theorem Reaches.leave {f : TokenKind → Option α} {g : Option (α × Nat) → Parser β}
    (hne : ∀ t rest, ts = t :: rest → f t.kind = none)
    (h : Reaches deep (g none) (s.place ts n) b s') :
    Reaches deep (accept? f >>= g) (s.place ts n) b s' := by
  refine Reaches.bind (.inl ?_) h
  cases ts with
  | nil => rfl
  | cons t rest => simp [accept?, ParserState.place, hne t rest rfl]

/-- A token of one kind is taken. -/
theorem Reaches.takeKind {g : Option Nat → Parser β} {kind : TokenKind} {line : Nat}
    (h : Reaches deep (g (some line)) (s.place ts n) b s') :
    Reaches deep (acceptKind? kind >>= g) (s.place (⟨kind, line⟩ :: ts) n) b s' := by
  rw [acceptKind?, bind_assoc]
  exact Reaches.take (if_pos rfl) h

/-- The next token, if there is one, is not of a kind. -/
def NotNext (kind : TokenKind) (ts : List Token) : Prop := ∀ t rest, ts = t :: rest → t.kind ≠ kind

/-- A token of another kind is left. -/
theorem Reaches.leaveKind {g : Option Nat → Parser β} {kind : TokenKind} (hne : NotNext kind ts)
    (h : Reaches deep (g none) (s.place ts n) b s') :
    Reaches deep (acceptKind? kind >>= g) (s.place ts n) b s' := by
  rw [acceptKind?, bind_assoc]
  exact Reaches.leave (fun t rest heq => if_neg (hne t rest heq)) h

/-- A punctuation mark that has to stand there stands there. -/
theorem Reaches.mark {g : Nat → Parser β} {m : Mark} {place : MarkPlace} {line : Nat}
    (h : Reaches deep (g line) (s.place ts n) b s') :
    Reaches deep (expectMark m place >>= g) (s.place (m.token line :: ts) n) b s' := by
  rw [expectMark, bind_assoc]
  exact Reaches.takeKind h

/-- A name that has to stand there stands there. -/
theorem Reaches.name {g : Name → Parser β} {role : NameRole} {x : Name}
    (h : Reaches deep (g x) (s.place ts n) b s') :
    Reaches deep (expectName role >>= g) (s.place (x.token :: ts) n) b s' := by
  rw [expectName, bind_assoc]
  exact Reaches.take rfl h

/-- A use gets the next number. -/
theorem Reaches.fresh {g : UseId → Parser β} (h : Reaches deep (g n) (s.place ts (n + 1)) b s') :
    Reaches deep (freshUse >>= g) (s.place ts n) b s' :=
  Reaches.bind (.inl rfl) h

/-!
## Looking ahead

Looking ahead takes nothing, whatever is found.
-/

/-- The next token is of the kind asked for. -/
theorem Reaches.next {kind : TokenKind} {g : Bool → Parser β} {line : Nat}
    (h : Reaches deep (g true) (s.place (⟨kind, line⟩ :: ts) n) b s') :
    Reaches deep (isNext kind >>= g) (s.place (⟨kind, line⟩ :: ts) n) b s' :=
  Reaches.bind (.inl (by simp [isNext, ParserState.place])) h

/-- The next token is of another kind, or there is none. -/
theorem Reaches.notNext {kind : TokenKind} {g : Bool → Parser β} (hne : NotNext kind ts)
    (h : Reaches deep (g false) (s.place ts n) b s') :
    Reaches deep (isNext kind >>= g) (s.place ts n) b s' := by
  refine Reaches.bind (.inl ?_) h
  cases ts with
  | nil => rfl
  | cons t rest => simp [isNext, ParserState.place, hne t rest rfl]

/-- Where there is a token, the end has not been reached. -/
theorem Reaches.notAtEnd {g : Bool → Parser β} (hne : ts ≠ [])
    (h : Reaches deep (g false) (s.place ts n) b s') :
    Reaches deep (atEnd >>= g) (s.place ts n) b s' := by
  refine Reaches.bind (.inl ?_) h
  cases ts with
  | nil => exact absurd rfl hne
  | cons t rest => rfl

end Parser

end LoxLang
