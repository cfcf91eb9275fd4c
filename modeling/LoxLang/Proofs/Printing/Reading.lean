import LoxLang.Proofs.Correspondence
import LoxLang.Proofs.Grammar.Exactness
import LoxLang.Proofs.Printing
import LoxLang.Proofs.Scoping.Source

/-!
# Reading what was printed

The words of a tree are a way to write it down, in the grammar in which it was read (`Rereads`).
Lines and numbers of uses may differ. One lemma for each rule of the grammar says so; a `for` loop
is put together from the lemmas for the statements it stands for.
-/

namespace LoxLang

/-!
## More levels

Parts of a tree are derived each with as many levels as it needs, and put together with as many as
the deepest needs.
-/

/-- What is derived with some levels is derived with one more. -/
theorem Derives.succ {d n m : Nat} {ph : Phrase} {ts : List Token} (h : Derives d ph n ts m) :
    Derives (d + 1) ph n ts m := by
  induction h with
  | literal hkind => exact .literal hkind
  | «variable» => exact .«variable»
  | grouping _ ih => exact .grouping ih
  | lambda _ hlen _ ihxs ih => exact .lambda ihxs hlen ih
  | this => exact .this
  | super => exact .super
  | primary _ ih => exact .primary ih
  | call _ _ hlen ih ih' => exact .call ih ih' hlen
  | get _ ih => exact .get ih
  | noArguments => exact .noArguments
  | arguments _ _ ih ih' => exact .arguments ih ih'
  | noMoreArguments => exact .noMoreArguments
  | moreArguments _ _ ih ih' => exact .moreArguments ih ih'
  | suffixed _ ih => exact .suffixed ih
  | unary _ ih => exact .unary ih
  | operand _ ih => exact .operand ih
  | joined _ hop _ ih ih' => exact .joined ih hop ih'
  | value _ ih => exact .value ih
  | assign _ ih => exact .assign ih
  | set _ _ ih ih' => exact .set ih ih'
  | noParameters => exact .noParameters
  | parameters _ ih => exact .parameters ih
  | noMoreParameters => exact .noMoreParameters
  | moreParameters _ ih => exact .moreParameters ih
  | effect _ ih => exact .effect ih
  | print _ ih => exact .print ih
  | block _ ih => exact .block ih
  | returnValue _ ih => exact .returnValue ih
  | whileDo _ _ ih ih' => exact .whileDo ih ih'
  | ifThen _ _ ih ih' => exact .ifThen ih ih'
  | ifElse _ _ _ ih ih' ih'' => exact .ifElse ih ih' ih''
  | forLoop _ _ _ _ ih ih' ih'' ihs => exact .forLoop ih ih' ih'' ihs
  | noInitializer => exact .noInitializer
  | variableInitializer _ ih => exact .variableInitializer ih
  | effectInitializer _ ih => exact .effectInitializer ih
  | noClause => exact .noClause
  | clause _ ih => exact .clause ih
  | variableNil => exact .variableNil
  | variableValue _ ih => exact .variableValue ih
  | function _ hlen _ ihxs ih => exact .function ihxs hlen ih
  | noMembers => exact .noMembers
  | method _ _ ih ih' => exact .method ih ih'
  | staticMethod _ _ ih ih' => exact .staticMethod ih ih'
  | statement _ ih => exact .statement ih
  | variableDecl _ ih => exact .variableDecl ih
  | functionDecl _ ih => exact .functionDecl ih
  | classDecl _ ih => exact .classDecl ih
  | subclassDecl _ ih => exact .subclassDecl ih
  | noDeclarations => exact .noDeclarations
  | declarations _ _ ih ih' => exact .declarations ih ih'

/-- What is derived with some levels is derived with more. -/
theorem Derives.mono {d d' n m : Nat} {ph : Phrase} {ts : List Token} (h : Derives d ph n ts m)
    (hle : d ≤ d') : Derives d' ph n ts m := by
  induction hle with
  | refl => exact h
  | step _ ih => exact ih.succ

/-- Levels for two derivations. -/
theorem Derives.both {d d' n m n' m' : Nat} {ph ph' : Phrase} {ts ts' : List Token}
    (h : Derives d ph n ts m) (h' : Derives d' ph' n' ts' m') :
    ∃ k, Derives k ph n ts m ∧ Derives k ph' n' ts' m' :=
  ⟨max d d', h.mono (Nat.le_max_left _ _), h'.mono (Nat.le_max_right _ _)⟩

/-!
## Tokens for words

A word that is printed may be spelled in several ways, and so words are written by tokens in several
ways. What is shown holds for each of them.
-/

/-- Tokens that spell words. -/
abbrev Writes (ws : List Word) (ts : List Token) : Prop :=
  List.Forall₂ (fun w t => Word.Spelled w t.kind) ws ts

/-- No word is written by no token. -/
theorem writes_nil {ts : List Token} : Writes [] ts ↔ ts = [] := List.forall₂_nil_left_iff

/-- A word that is a token is written by this token, on any line. -/
theorem writes_token {kind : TokenKind} {ws : List Word} {ts : List Token} :
    Writes (.token kind :: ws) ts ↔ ∃ line ts', ts = ⟨kind, line⟩ :: ts' ∧ Writes ws ts' := by
  constructor
  · rintro (_ | ⟨hw, hws⟩)
    rename_i t ts
    obtain ⟨kind', line⟩ := t
    cases hw
    exact ⟨line, ts, rfl, hws⟩
  · rintro ⟨line, ts', rfl, hws⟩
    exact .cons (.token kind) hws

/-- Words in a row are written by tokens in a row. -/
theorem writes_append {ws : List Word} (ws' : List Word) {ts : List Token} :
    Writes (ws ++ ws') ts ↔ ∃ ts₁ ts₂, ts = ts₁ ++ ts₂ ∧ Writes ws ts₁ ∧ Writes ws' ts₂ := by
  constructor
  · intro h
    induction ws generalizing ts with
    | nil => exact ⟨[], ts, rfl, .nil, h⟩
    | cons w ws ih =>
      obtain ⟨t, ts', hw, hws, rfl⟩ := List.forall₂_cons_left_iff.mp h
      obtain ⟨ts₁, ts₂, rfl, h₁, h₂⟩ := ih hws
      exact ⟨t :: ts₁, ts₂, rfl, .cons hw h₁, h₂⟩
  · rintro ⟨ts₁, ts₂, rfl, h₁, h₂⟩
    exact List.rel_append h₁ h₂

/-- That tokens spell words can be computed. -/
theorem writes_of_accepts {ws : List Word} {ts : List Token}
    (h : List.Forall₂ (fun w t => Word.accepts w t.kind = true) ws ts)
    (hproper : ∀ t ∈ ts, t.kind.Proper) : Writes ws ts := by
  induction h with
  | nil => exact .nil
  | cons hw _ ih =>
    obtain ⟨ht, hts⟩ := List.forall_mem_cons.mp hproper
    exact .cons ((Word.spelled_iff_accepts ht).mpr hw) (ih hts)

/-!
## Words that are read

For each kind of tree: if its parts are printed so that they are read again, then so is the tree.
Parentheses are printed nowhere but where the tree has a grouping.
-/

/-- Lines and numbers do not count. -/
def Correspondence.loose : Correspondence := ⟨fun _ _ => True, fun _ _ => True⟩

/-- A word has a spelling, and each spelling is a proper token. -/
def Word.Spellable (w : Word) : Prop := ∃ kind, w.Spelled kind ∧ kind.Proper

/-- A token that a text can have is spelled by its text. -/
theorem Word.Spellable.token {kind : TokenKind} (h : kind.Proper) : (Word.token kind).Spellable :=
  ⟨_, .token _, h⟩

/-- A punctuation mark is spelled by itself. -/
theorem Word.Spellable.mark (m : Mark) : m.word.Spellable := .token (.mark m)

/-- A keyword is spelled by itself. -/
theorem Word.Spellable.keyword (k : Keyword) : k.word.Spellable := .token (.keyword k)

/-- Words can be spelled, and however they are, they are read as a phrase for the same thing. -/
structure Rereads {α : Type} (words : List Word) (same : α → Prop) (phrase : α → Phrase) :
    Prop where
  spellable : ∀ w ∈ words, w.Spellable
  derives : ∀ n ts, Writes words ts → ∃ d a m, same a ∧ Derives d (phrase a) n ts m

/-- A phrase that is another one as well. -/
theorem Rereads.lift {α : Type} {words : List Word} {same : α → Prop} {phrase phrase' : α → Phrase}
    (h : Rereads words same phrase)
    (himp : ∀ {d n m : Nat} {a : α} {ts : List Token}, Derives d (phrase a) n ts m →
      Derives d (phrase' a) n ts m) : Rereads words same phrase' := by
  refine ⟨h.spellable, fun n ts hts => ?_⟩
  obtain ⟨d, a, m, hsame, ha⟩ := h.derives n ts hts
  exact ⟨d, a, m, hsame, himp ha⟩

/-- An expression is read as the same expression. -/
abbrev RereadsExpr (phrase : Expr → Phrase) (e : Expr) : Prop :=
  Rereads e.words (e.Corresponds .loose) phrase

/-- Names can be written as identifiers. -/
def NamesProper (xs : List Name) : Prop := ∀ x ∈ xs, (TokenKind.identifier x.text).Proper

/-- Statements are read as the same declarations. -/
abbrev RereadsDeclarations (ss : List Stmt) : Prop :=
  Rereads (stmtsWords ss) (List.Forall₂ (Stmt.Corresponds .loose) ss) .declarations

/-- A statement is read as the same declaration. -/
abbrev RereadsDeclaration (s : Stmt) : Prop := Rereads s.words (s.Corresponds .loose) .declaration

/-- A statement is read as the same statement, which is not open if it was not. -/
abbrev RereadsStatement (o : Bool) (s : Stmt) : Prop :=
  Rereads s.words (fun p : Bool × Stmt => (p.1 = true → o = true) ∧ s.Corresponds .loose p.2)
    fun p => .statement p.1 p.2

/-- A function is read as the same function. -/
abbrev RereadsFunction (f : FunctionDecl) : Prop :=
  Rereads f.words (f.Corresponds .loose) .function

section Rules

variable {e e' : Expr} {es : List Expr} {x : Name} {xs : List Name} {s s' : Stmt} {ss : List Stmt}
  {f : FunctionDecl} {fs gs : List FunctionDecl} {o : Bool}

/-- A name is the same on any line. -/
theorem name_corresponds (x : Name) (line : Nat) : x.Corresponds .loose ⟨x.text, line⟩ :=
  ⟨rfl, trivial⟩

/-!
### Expressions

From primaries to assignments, each level of operators over the one that binds more tightly. What is
printed for an expression of a level is read at this level again.
-/

/-- What is read without operators is read as any expression. -/
theorem RereadsExpr.expression (h : RereadsExpr .primary e) : RereadsExpr .expression e := by
  -- What is no operation belongs to each level in turn, from the tightest to the loosest.
  have hchain {l : Level} (h : RereadsExpr l.operand e) : RereadsExpr (.chain l) e :=
    h.lift .operand
  have hfactor : RereadsExpr (.chain .factor) e :=
    hchain ((h.lift .primary).lift .suffixed)
  have hcomparison : RereadsExpr (.chain .comparison) e := hchain (hchain hfactor)
  have hconjunction : RereadsExpr (.chain .conjunction) e := hchain (hchain hcomparison)
  have hdisjunction : RereadsExpr (.chain .disjunction) e := hchain hconjunction
  exact hdisjunction.lift .value

/-- A value that is written as one word. -/
theorem rereads_word {kind : TokenKind} {value : Literal} (hkind : kind.constant? = some value)
    (hproper : kind.Proper) (hword : value.word = .token kind) :
    RereadsExpr .primary (.literal value) := by
  refine ⟨?_, fun n ts hts => ?_⟩
  · rw [Expr.words, hword]
    exact List.forall_mem_singleton.mpr (Word.Spellable.token hproper)
  · simp only [Expr.words, hword, writes_token, writes_nil] at hts
    obtain ⟨line, _, rfl, rfl⟩ := hts
    exact ⟨0, _, n, .literal value, .literal hkind⟩

/-- A number, whose numeral may be another one of the same value. -/
theorem rereads_number {text : String} (hproper : (TokenKind.number text).Proper) :
    RereadsExpr .primary (.literal (.number (Number.read text))) := by
  refine ⟨?_, fun n ts hts => ?_⟩
  · obtain ⟨c, hc, hmatches⟩ := hproper.ofClass
    cases hc
    exact List.forall_mem_singleton.mpr ⟨_, .number text hmatches, hproper⟩
  · obtain ⟨⟨kind, line⟩, rest, hw, hrest, rfl⟩ := List.forall₂_cons_left_iff.mp hts
    obtain rfl := writes_nil.mp hrest
    dsimp only [Literal.word] at hw
    generalize Number.read text = y at hw
    cases hw with
    | number text' => exact ⟨0, _, n, .literal _, .literal rfl⟩

/-- A literal that is one token. -/
theorem rereads_literal {kind : TokenKind} {value : Literal} (hkind : kind.constant? = some value)
    (hproper : kind.Proper) : RereadsExpr .primary (.literal value) := by
  cases kind with
  | mark m => cases hkind
  | keyword k => cases k <;> cases hkind <;> exact rereads_word rfl (.keyword _) rfl
  | identifier x => cases hkind
  | string content =>
    cases hkind
    exact rereads_word rfl hproper rfl
  | number text =>
    cases hkind
    exact rereads_number hproper

/-- A variable is its name. -/
theorem rereads_variable {use : VariableUse} (hx : (TokenKind.identifier use.name.text).Proper) :
    RereadsExpr .primary (.«variable» use) := by
  refine ⟨List.forall_mem_singleton.mpr (Word.Spellable.token hx), fun n ts hts => ?_⟩
  simp only [Expr.words, writes_token, writes_nil] at hts
  obtain ⟨line, _, rfl, rfl⟩ := hts
  exact ⟨0, .«variable» ⟨n, ⟨use.name.text, line⟩⟩, n + 1,
    .«variable» ⟨trivial, name_corresponds _ line⟩, .«variable»⟩

/-- Parentheses around an expression. -/
theorem rereads_grouping (h : RereadsExpr .expression e) : RereadsExpr .primary (.grouping e) := by
  refine ⟨?_, fun n ts hts => ?_⟩
  · simp only [Expr.words, List.forall_mem_cons, List.forall_mem_append]
    exact ⟨.mark _, h.spellable, .mark _, nofun⟩
  · simp only [Expr.words, writes_token, writes_append, writes_nil] at hts
    obtain ⟨lineL, _, rfl, _, _, rfl, he, lineR, _, rfl, rfl⟩ := hts
    obtain ⟨d, e', m, hsame, he'⟩ := h.derives n _ he
    exact ⟨d + 1, .grouping e', m, .grouping hsame, .grouping he'⟩

/-- The keyword alone. -/
theorem rereads_this (i : UseId) (line : Nat) : RereadsExpr .primary (.this i line) := by
  refine ⟨List.forall_mem_singleton.mpr (.keyword _), fun n ts hts => ?_⟩
  simp only [Expr.words, writes_token, writes_nil] at hts
  obtain ⟨line', _, rfl, rfl⟩ := hts
  exact ⟨0, .this n line', n + 1, .this trivial trivial, .this⟩

/-- The keyword, a dot, and a method. -/
theorem rereads_super (i : UseId) (line : Nat) (hx : (TokenKind.identifier x.text).Proper) :
    RereadsExpr .primary (.super i line x) := by
  refine ⟨?_, fun n ts hts => ?_⟩
  · simp only [Expr.words, List.forall_mem_cons]
    exact ⟨.keyword _, .mark _, .token hx, nofun⟩
  · simp only [Expr.words, writes_token, writes_nil] at hts
    obtain ⟨line', _, rfl, lineD, _, rfl, lineX, _, rfl, rfl⟩ := hts
    exact ⟨0, .super n line' ⟨x.text, lineX⟩, n + 1,
      .super trivial trivial (name_corresponds x lineX), .super⟩

/-- No argument between the parentheses. -/
theorem rereads_noArguments : Rereads (argumentWords [])
    (List.Forall₂ (Expr.Corresponds .loose) []) .arguments := by
  refine ⟨nofun, fun n ts hts => ?_⟩
  obtain rfl := writes_nil.mp hts
  exact ⟨0, [], n, .nil, .noArguments⟩

/-- No argument behind the last. -/
theorem rereads_noMoreArguments : Rereads (moreArgumentWords [])
    (List.Forall₂ (Expr.Corresponds .loose) []) .moreArguments := by
  refine ⟨nofun, fun n ts hts => ?_⟩
  obtain rfl := writes_nil.mp hts
  exact ⟨0, [], n, .nil, .noMoreArguments⟩

/-- The first argument has no comma in front. -/
theorem rereads_arguments (h : RereadsExpr .expression e)
    (hes : Rereads (moreArgumentWords es) (List.Forall₂ (Expr.Corresponds .loose) es)
      .moreArguments) :
    Rereads (argumentWords (e :: es)) (List.Forall₂ (Expr.Corresponds .loose) (e :: es))
      .arguments := by
  refine ⟨?_, fun n ts hts => ?_⟩
  · simp only [argumentWords, List.forall_mem_append]
    exact ⟨h.spellable, hes.spellable⟩
  · simp only [argumentWords, writes_append] at hts
    obtain ⟨_, _, rfl, hts, hts'⟩ := hts
    obtain ⟨d, e', m, hsame, he⟩ := h.derives n _ hts
    obtain ⟨d', es', k, hsame', hes'⟩ := hes.derives m _ hts'
    obtain ⟨j, he, hes'⟩ := he.both hes'
    exact ⟨j + 1, e' :: es', k, .cons hsame hsame', .arguments he hes'.succ⟩

/-- Each further argument has a comma in front. -/
theorem rereads_moreArguments (h : RereadsExpr .expression e)
    (hes : Rereads (moreArgumentWords es) (List.Forall₂ (Expr.Corresponds .loose) es)
      .moreArguments) :
    Rereads (moreArgumentWords (e :: es)) (List.Forall₂ (Expr.Corresponds .loose) (e :: es))
      .moreArguments := by
  refine ⟨?_, fun n ts hts => ?_⟩
  · simp only [moreArgumentWords, List.forall_mem_cons, List.forall_mem_append]
    exact ⟨.mark _, h.spellable, hes.spellable⟩
  · simp only [moreArgumentWords, writes_token, writes_append] at hts
    obtain ⟨line, _, rfl, _, _, rfl, hts, hts'⟩ := hts
    obtain ⟨d, e', m, hsame, he⟩ := h.derives n _ hts
    obtain ⟨d', es', k, hsame', hes'⟩ := hes.derives m _ hts'
    obtain ⟨j, he, hes'⟩ := he.both hes'
    exact ⟨j + 1, e' :: es', k, .cons hsame hsame', .moreArguments he hes'.succ⟩

/-- What is called, and then the arguments. -/
theorem rereads_call (line : Nat) (h : RereadsExpr .call e)
    (hes : Rereads (argumentWords es) (List.Forall₂ (Expr.Corresponds .loose) es) .arguments)
    (hlen : es.length ≤ maxArguments) : RereadsExpr .call (.call e line es) := by
  refine ⟨?_, fun n ts hts => ?_⟩
  · simp only [Expr.words, List.forall_mem_cons, List.forall_mem_append]
    exact ⟨h.spellable, .mark _, hes.spellable, .mark _, nofun⟩
  · simp only [Expr.words, writes_token, writes_append, writes_nil] at hts
    obtain ⟨_, _, rfl, hts, lineL, _, rfl, _, _, rfl, hts', line', _, rfl, rfl⟩ := hts
    obtain ⟨d, e', m, hsame, he⟩ := h.derives n _ hts
    obtain ⟨d', es', k, hsame', hes'⟩ := hes.derives m _ hts'
    obtain ⟨j, he, hes'⟩ := he.both hes'
    exact ⟨j, .call e' line' es', k, .call hsame trivial hsame',
      .call he hes' (hsame'.length_eq ▸ hlen)⟩

/-- A property behind a dot. -/
theorem rereads_get (h : RereadsExpr .call e) (hx : (TokenKind.identifier x.text).Proper) :
    RereadsExpr .call (.get e x) := by
  refine ⟨?_, fun n ts hts => ?_⟩
  · simp only [Expr.words, List.forall_mem_cons, List.forall_mem_append]
    exact ⟨h.spellable, .mark _, .token hx, nofun⟩
  · simp only [Expr.words, writes_token, writes_append, writes_nil] at hts
    obtain ⟨_, _, rfl, hts, lineD, _, rfl, lineX, _, rfl, rfl⟩ := hts
    obtain ⟨d, e', m, hsame, he⟩ := h.derives n _ hts
    exact ⟨d, .get e' ⟨x.text, lineX⟩, m, .get hsame (name_corresponds x lineX), .get he⟩

/-- An operator in front. -/
theorem rereads_unary {op : UnaryOperator} (line : Nat) (h : RereadsExpr .unary e) :
    RereadsExpr .unary (.unary op line e) := by
  have hop : (Word.token op.token).Spellable := by cases op <;> exact .mark _
  refine ⟨?_, fun n ts hts => ?_⟩
  · simp only [Expr.words, List.forall_mem_cons]
    exact ⟨hop, h.spellable⟩
  · simp only [Expr.words, writes_token] at hts
    obtain ⟨line', _, rfl, hts⟩ := hts
    obtain ⟨d, e', m, hsame, he⟩ := h.derives n _ hts
    exact ⟨d + 1, .unary op line' e', m, .unary trivial hsame, .unary he⟩

/-- What holds of the operators of all levels alike. -/
theorem Level.join_words {l : Level} {kind : TokenKind} {join : Nat → Expr → Expr → Expr}
    (hop : (kind, join) ∈ l.operators) :
    (Word.token kind).Spellable ∧
      (∀ line left right, (join line left right).words =
        left.words ++ .token kind :: right.words) ∧
      ∀ {line line' left left' right right'}, Expr.Corresponds .loose left left' →
        Expr.Corresponds .loose right right' →
          Expr.Corresponds .loose (join line left right) (join line' left' right') := by
  have hmark (op : BinaryOperator) : (Word.token op.token).Spellable := by
    cases op <;> exact .mark _
  have hkeyword (op : LogicalOperator) : (Word.token op.token).Spellable := by
    cases op <;> exact .keyword _
  -- The levels of `and` and `or` join by keywords, all others by marks.
  cases l <;> obtain ⟨op, -, heq⟩ := List.mem_map.mp hop <;> cases heq <;>
    first
    | exact ⟨hkeyword op, fun _ _ _ => rfl, fun h h' => .logical trivial h h'⟩
    | exact ⟨hmark op, fun _ _ _ => rfl, fun h h' => .binary trivial h h'⟩

/-- An operator between operands that bind tightly enough. -/
theorem rereads_joined {l : Level} {kind : TokenKind} {join : Nat → Expr → Expr → Expr} (line : Nat)
    (h : RereadsExpr (.chain l) e) (hop : (kind, join) ∈ l.operators)
    (h' : RereadsExpr l.operand e') : RereadsExpr (.chain l) (join line e e') := by
  obtain ⟨hspellable, hwords, hcorresponds⟩ := Level.join_words hop
  refine ⟨?_, fun n ts hts => ?_⟩
  · simp only [hwords, List.forall_mem_cons, List.forall_mem_append]
    exact ⟨h.spellable, hspellable, h'.spellable⟩
  · simp only [hwords, writes_token, writes_append] at hts
    obtain ⟨_, _, rfl, hts, line', _, rfl, hts'⟩ := hts
    obtain ⟨d, left, m, hsame, hleft⟩ := h.derives n _ hts
    obtain ⟨d', right, k, hsame', hright⟩ := h'.derives m _ hts'
    obtain ⟨j, hleft, hright⟩ := hleft.both hright
    exact ⟨j, join line' left right, k, hcorresponds hsame hsame', .joined hleft hop hright⟩

/-- A variable, an equals sign, and a value. -/
theorem rereads_assign (i : UseId) (hx : (TokenKind.identifier x.text).Proper)
    (h : RereadsExpr .expression e) : RereadsExpr .expression (.assign i x e) := by
  refine ⟨?_, fun n ts hts => ?_⟩
  · simp only [Expr.words, List.forall_mem_cons]
    exact ⟨.token hx, .mark _, h.spellable⟩
  · simp only [Expr.words, writes_token] at hts
    obtain ⟨lineX, _, rfl, line, _, rfl, hts⟩ := hts
    obtain ⟨d, e', m, hsame, he⟩ := h.derives (n + 1) _ hts
    exact ⟨d + 1, .assign m ⟨x.text, lineX⟩ e', m + 1,
      .assign trivial (name_corresponds x lineX) hsame, .assign he⟩

/-- A property, an equals sign, and a value. -/
theorem rereads_set (h : RereadsExpr .call e) (hx : (TokenKind.identifier x.text).Proper)
    (h' : RereadsExpr .expression e') : RereadsExpr .expression (.set e x e') := by
  refine ⟨?_, fun n ts hts => ?_⟩
  · simp only [Expr.words, List.forall_mem_cons, List.forall_mem_append]
    exact ⟨h.spellable, .mark _, .token hx, .mark _, h'.spellable⟩
  · simp only [Expr.words, writes_token, writes_append] at hts
    obtain ⟨_, _, rfl, hts, lineD, _, rfl, lineX, _, rfl, line, _, rfl, hts'⟩ := hts
    obtain ⟨d, object, m, hsame, hobject⟩ := h.derives n _ hts
    obtain ⟨d', value, k, hsame', hvalue⟩ := h'.derives m _ hts'
    obtain ⟨j, hobject, hvalue⟩ := hobject.both hvalue
    exact ⟨j + 1, .set object ⟨x.text, lineX⟩ value, k,
      .set hsame (name_corresponds x lineX) hsame', .set hobject.succ hvalue⟩

/-!
### Functions

Parameters have no trees of their own, so they are read as names that are the same up to lines.
Methods and static methods may stand in any order in a class, and are printed in one.
-/

/-- Commas and names can be spelled. -/
theorem spellable_moreParameters (hxs : NamesProper xs) :
    ∀ w ∈ moreParameterWords xs, w.Spellable := by
  induction xs with
  | nil => nofun
  | cons x xs ih =>
    obtain ⟨hx, hxs⟩ := List.forall_mem_cons.mp hxs
    simp only [moreParameterWords, List.forall_mem_cons]
    exact ⟨.mark _, .token hx, ih hxs⟩

/-- Names with commas between them can be spelled. -/
theorem spellable_parameters (hxs : NamesProper xs) : ∀ w ∈ parameterWords xs, w.Spellable := by
  cases xs with
  | nil => nofun
  | cons x xs =>
    obtain ⟨hx, hxs⟩ := List.forall_mem_cons.mp hxs
    exact List.forall_mem_cons.mpr ⟨.token hx, spellable_moreParameters hxs⟩

/-- Each further parameter has a comma in front. -/
theorem rereads_moreParameters {ts : List Token} (hts : Writes (moreParameterWords xs) ts) :
    ∃ xs', List.Forall₂ (Name.Corresponds .loose) xs xs' ∧
      ∀ d n, Derives d (.moreParameters xs') n ts n := by
  induction xs generalizing ts with
  | nil =>
    obtain rfl := writes_nil.mp hts
    exact ⟨[], .nil, fun _ _ => .noMoreParameters⟩
  | cons x xs ih =>
    simp only [moreParameterWords, writes_token] at hts
    obtain ⟨lineC, _, rfl, line, _, rfl, hts⟩ := hts
    obtain ⟨xs', hsame, hxs⟩ := ih hts
    exact ⟨⟨x.text, line⟩ :: xs', .cons (name_corresponds x line) hsame,
      fun d n => .moreParameters (hxs d n)⟩

/-- The first parameter has no comma in front. -/
theorem rereads_parameters {ts : List Token} (hts : Writes (parameterWords xs) ts) :
    ∃ xs', List.Forall₂ (Name.Corresponds .loose) xs xs' ∧
      ∀ d n, Derives d (.parameters xs') n ts n := by
  cases xs with
  | nil =>
    obtain rfl := writes_nil.mp hts
    exact ⟨[], .nil, fun _ _ => .noParameters⟩
  | cons x xs =>
    simp only [parameterWords, writes_token] at hts
    obtain ⟨line, _, rfl, hts⟩ := hts
    obtain ⟨xs', hsame, hxs⟩ := rereads_moreParameters hts
    exact ⟨⟨x.text, line⟩ :: xs', .cons (name_corresponds x line) hsame,
      fun d n => .parameters (hxs d n)⟩

/-- The keyword, parameters, and a body. -/
theorem rereads_lambda (line : Nat) (hxs : NamesProper xs) (hlen : xs.length ≤ maxArguments)
    (h : RereadsDeclarations ss) : RereadsExpr .primary (.lambda line xs ss) := by
  refine ⟨?_, fun n ts hts => ?_⟩
  · simp only [Expr.words, List.forall_mem_cons, List.forall_mem_append]
    exact ⟨.keyword _, .mark _, spellable_parameters hxs, .mark _, .mark _, h.spellable, .mark _,
      nofun⟩
  · simp only [Expr.words, writes_token, writes_append, writes_nil] at hts
    obtain ⟨line', _, rfl, lineL, _, rfl, _, _, rfl, hts, lineR, _, rfl, lineB, _, rfl, _, _, rfl,
      hts', lineE, _, rfl, rfl⟩ := hts
    obtain ⟨xs', hsame, hxs'⟩ := rereads_parameters hts
    obtain ⟨d, ss', m, hsame', hss⟩ := h.derives n _ hts'
    exact ⟨d, .lambda line' xs' ss', m, .lambda trivial hsame hsame',
      .lambda (hxs' d n) (hsame.length_eq ▸ hlen) hss⟩

/-- A name, parameters, and a body. -/
theorem rereads_function (hx : (TokenKind.identifier x.text).Proper) (hxs : NamesProper xs)
    (hlen : xs.length ≤ maxArguments) (h : RereadsDeclarations ss) :
    RereadsFunction ⟨x, xs, ss⟩ := by
  refine ⟨?_, fun n ts hts => ?_⟩
  · simp only [FunctionDecl.words, List.forall_mem_cons, List.forall_mem_append]
    exact ⟨.token hx, .mark _, spellable_parameters hxs, .mark _, .mark _, h.spellable, .mark _,
      nofun⟩
  · simp only [FunctionDecl.words, writes_token, writes_append, writes_nil] at hts
    obtain ⟨line, _, rfl, lineL, _, rfl, _, _, rfl, hts, lineR, _, rfl, lineB, _, rfl, _, _, rfl,
      hts', lineE, _, rfl, rfl⟩ := hts
    obtain ⟨xs', hsame, hxs'⟩ := rereads_parameters hts
    obtain ⟨d, ss', m, hsame', hss⟩ := h.derives n _ hts'
    exact ⟨d, ⟨⟨x.text, line⟩, xs', ss'⟩, m, .mk (name_corresponds x line) hsame hsame',
      .function (hxs' d n) (hsame.length_eq ▸ hlen) hss⟩

/-- Methods can be spelled if each can. -/
theorem spellable_functions {lead : List Word} (hlead : ∀ w ∈ lead, w.Spellable)
    (hfs : ∀ f ∈ fs, RereadsFunction f) : ∀ w ∈ functionsWords lead fs, w.Spellable := by
  induction fs with
  | nil => nofun
  | cons f fs ih =>
    obtain ⟨hf, hfs⟩ := List.forall_mem_cons.mp hfs
    simp only [functionsWords, List.forall_mem_append]
    exact ⟨hlead, hf.spellable, ih hfs⟩

/-- Each static method has a keyword in front. -/
theorem rereads_staticMethods {n : UseId} {ts : List Token} (hgs : ∀ g ∈ gs, RereadsFunction g)
    (hts : Writes (functionsWords [Keyword.«class».word] gs) ts) :
    ∃ d gs' m, List.Forall₂ (FunctionDecl.Corresponds .loose) gs gs' ∧
      Derives d (.members [] gs') n ts m := by
  induction gs generalizing n ts with
  | nil =>
    obtain rfl := writes_nil.mp hts
    exact ⟨0, [], n, .nil, .noMembers⟩
  | cons g gs ih =>
    obtain ⟨hg, hgs⟩ := List.forall_mem_cons.mp hgs
    simp only [functionsWords, List.singleton_append, writes_token, writes_append] at hts
    obtain ⟨line, _, rfl, _, _, rfl, hts, hts'⟩ := hts
    obtain ⟨d, g', m, hsame, hg'⟩ := hg.derives n _ hts
    obtain ⟨d', gs', k, hsame', hgs'⟩ := ih (n := m) hgs hts'
    obtain ⟨j, hg', hgs'⟩ := hg'.both hgs'
    exact ⟨j, g' :: gs', k, .cons hsame hsame', .staticMethod hg' hgs'⟩

/-- The methods of a class are written before its static methods, wherever they stood. -/
theorem rereads_members {n : UseId} {ts : List Token} (hfs : ∀ f ∈ fs, RereadsFunction f)
    (hgs : ∀ g ∈ gs, RereadsFunction g)
    (hts : Writes (functionsWords [] fs ++ functionsWords [Keyword.«class».word] gs) ts) :
    ∃ d fs' gs' m, List.Forall₂ (FunctionDecl.Corresponds .loose) fs fs' ∧
      List.Forall₂ (FunctionDecl.Corresponds .loose) gs gs' ∧
      Derives d (.members fs' gs') n ts m := by
  induction fs generalizing n ts with
  | nil =>
    obtain ⟨d, gs', m, hsame, hgs'⟩ := rereads_staticMethods hgs hts
    exact ⟨d, [], gs', m, .nil, hsame, hgs'⟩
  | cons f fs ih =>
    obtain ⟨hf, hfs⟩ := List.forall_mem_cons.mp hfs
    rw [functionsWords, List.nil_append, List.append_assoc, writes_append] at hts
    obtain ⟨_, _, rfl, hts, hts'⟩ := hts
    obtain ⟨d, f', m, hsame, hf'⟩ := hf.derives n _ hts
    obtain ⟨d', fs', gs', k, hsame', hsame'', hrest⟩ := ih (n := m) hfs hts'
    -- The method and the members behind it may need different numbers of levels.
    obtain ⟨j, hf', hrest⟩ := hf'.both hrest
    exact ⟨j, f' :: fs', gs', k, .cons hsame hsame', hsame'', .method hf' hrest⟩

/-!
### Statements

Statements that may be open are told from those that are not, so that an `else` goes to the `if`
that it was read with.
-/

/-- A statement that is never open. -/
theorem RereadsStatement.of_closed
    (hspellable : ∀ w ∈ s.words, w.Spellable)
    (hderives : ∀ n ts, Writes s.words ts → ∃ d s' m, s.Corresponds .loose s' ∧
      Derives d (.statement false s') n ts m) : RereadsStatement o s := by
  refine ⟨hspellable, fun n ts hts => ?_⟩
  obtain ⟨d, s', m, hsame, hs⟩ := hderives n ts hts
  exact ⟨d, (false, s'), m, ⟨nofun, hsame⟩, hs⟩

/-- A statement may stand where a declaration may. -/
theorem RereadsStatement.declaration (h : RereadsStatement o s) : RereadsDeclaration s := by
  refine ⟨h.spellable, fun n ts hts => ?_⟩
  obtain ⟨d, ⟨o', s'⟩, m, hsame, hs⟩ := h.derives n ts hts
  exact ⟨d, s', m, hsame.2, .statement hs⟩

/-- An expression and a semicolon. -/
theorem rereads_effect (h : RereadsExpr .expression e) : RereadsStatement o (.expression e) := by
  refine .of_closed ?_ fun n ts hts => ?_
  · simp only [Stmt.words, List.forall_mem_cons, List.forall_mem_append]
    exact ⟨h.spellable, .mark _, nofun⟩
  · simp only [Stmt.words, writes_token, writes_append, writes_nil] at hts
    obtain ⟨_, _, rfl, hts, line, _, rfl, rfl⟩ := hts
    obtain ⟨d, e', m, hsame, he⟩ := h.derives n _ hts
    exact ⟨d, .expression e', m, .expression hsame, .effect he⟩

/-- The keyword, an expression, and a semicolon. -/
theorem rereads_print (h : RereadsExpr .expression e) : RereadsStatement o (.print e) := by
  refine .of_closed ?_ fun n ts hts => ?_
  · simp only [Stmt.words, List.forall_mem_cons, List.forall_mem_append]
    exact ⟨.keyword _, h.spellable, .mark _, nofun⟩
  · simp only [Stmt.words, writes_token, writes_append, writes_nil] at hts
    obtain ⟨lineP, _, rfl, _, _, rfl, hts, line, _, rfl, rfl⟩ := hts
    obtain ⟨d, e', m, hsame, he⟩ := h.derives n _ hts
    exact ⟨d, .print e', m, .print hsame, .print he⟩

/-- Statements between braces. -/
theorem rereads_block (h : RereadsDeclarations ss) : RereadsStatement o (.block ss) := by
  refine .of_closed ?_ fun n ts hts => ?_
  · simp only [Stmt.words, List.forall_mem_cons, List.forall_mem_append]
    exact ⟨.mark _, h.spellable, .mark _, nofun⟩
  · simp only [Stmt.words, writes_token, writes_append, writes_nil] at hts
    obtain ⟨lineL, _, rfl, _, _, rfl, hts, lineR, _, rfl, rfl⟩ := hts
    obtain ⟨d, ss', m, hsame, hss⟩ := h.derives n _ hts
    exact ⟨d, .block ss', m, .block hsame, .block hss⟩

/-- The keyword and a semicolon. -/
theorem rereads_returnNothing (line : Nat) : RereadsStatement o (.returnValue line none) := by
  refine .of_closed ?_ fun n ts hts => ?_
  · simp only [Stmt.words, List.forall_mem_cons]
    exact ⟨.keyword _, .mark _, nofun⟩
  · simp only [Stmt.words, writes_token, writes_nil] at hts
    obtain ⟨lineR, _, rfl, lineS, _, rfl, rfl⟩ := hts
    exact ⟨0, .returnValue lineR none, n, .returnValue trivial .none,
      @Derives.returnValue _ _ _ _ _ [] _ .noClause⟩

/-- The keyword, an expression, and a semicolon. -/
theorem rereads_returnValue (line : Nat) (h : RereadsExpr .expression e) :
    RereadsStatement o (.returnValue line (some e)) := by
  refine .of_closed ?_ fun n ts hts => ?_
  · simp only [Stmt.words, List.forall_mem_cons, List.forall_mem_append]
    exact ⟨.keyword _, h.spellable, .mark _, nofun⟩
  · simp only [Stmt.words, writes_token, writes_append, writes_nil] at hts
    obtain ⟨lineR, _, rfl, _, _, rfl, hts, lineS, _, rfl, rfl⟩ := hts
    obtain ⟨d, e', m, hsame, he⟩ := h.derives n _ hts
    exact ⟨d, .returnValue lineR (some e'), m, .returnValue trivial (.some hsame),
      .returnValue (.clause he)⟩

/-- The keyword, a condition, and a body. It is open if the body is. -/
theorem rereads_whileDo (h : RereadsExpr .expression e) (hs : RereadsStatement o s) :
    RereadsStatement o (.whileDo e s) := by
  refine ⟨?_, fun n ts hts => ?_⟩
  · simp only [Stmt.words, List.forall_mem_cons, List.forall_mem_append]
    exact ⟨.keyword _, .mark _, h.spellable, .mark _, hs.spellable⟩
  · simp only [Stmt.words, writes_token, writes_append] at hts
    obtain ⟨lineW, _, rfl, lineL, _, rfl, _, _, rfl, hts, lineR, _, rfl, hts'⟩ := hts
    obtain ⟨d, e', m, hsame, he⟩ := h.derives n _ hts
    obtain ⟨d', ⟨o', s'⟩, k, ⟨hopen, hsame'⟩, hs'⟩ := hs.derives m _ hts'
    obtain ⟨j, he, hs'⟩ := he.both hs'
    exact ⟨j + 1, (o', .whileDo e' s'), k, ⟨hopen, .whileDo hsame hsame'⟩, .whileDo he.succ hs'⟩

/-- Without an `else` it is open, so that none may follow. -/
theorem rereads_ifThen (h : RereadsExpr .expression e) (hs : RereadsStatement o s) :
    RereadsStatement true (.ifThen e s none) := by
  refine ⟨?_, fun n ts hts => ?_⟩
  · simp only [Stmt.words, List.forall_mem_cons, List.forall_mem_append]
    exact ⟨.keyword _, .mark _, h.spellable, .mark _, hs.spellable⟩
  · simp only [Stmt.words, writes_token, writes_append] at hts
    obtain ⟨lineI, _, rfl, lineL, _, rfl, _, _, rfl, hts, lineR, _, rfl, hts'⟩ := hts
    obtain ⟨d, e', m, hsame, he⟩ := h.derives n _ hts
    obtain ⟨d', ⟨o', s'⟩, k, ⟨-, hsame'⟩, hs'⟩ := hs.derives m _ hts'
    obtain ⟨j, he, hs'⟩ := he.both hs'
    exact ⟨j + 1, (true, .ifThen e' s' none), k, ⟨fun _ => rfl, .ifThen hsame hsame' .none⟩,
      .ifThen he.succ hs'⟩

/-- What stands before an `else` is not open when it is read again either. -/
theorem rereads_ifElse (h : RereadsExpr .expression e) (hs : RereadsStatement false s)
    (hs' : RereadsStatement o s') : RereadsStatement o (.ifThen e s (some s')) := by
  refine ⟨?_, fun n ts hts => ?_⟩
  · simp only [Stmt.words, List.forall_mem_cons, List.forall_mem_append]
    exact ⟨.keyword _, .mark _, h.spellable, .mark _, hs.spellable, .keyword _, hs'.spellable⟩
  · simp only [Stmt.words, writes_token, writes_append] at hts
    obtain ⟨lineI, _, rfl, lineL, _, rfl, _, _, rfl, hts, lineR, _, rfl, _, _, rfl, hts', lineE, _,
      rfl, hts''⟩ := hts
    obtain ⟨d, e', m, hsame, he⟩ := h.derives n _ hts
    obtain ⟨d', ⟨o', t⟩, k, ⟨hclosed, hsame'⟩, ht⟩ := hs.derives m _ hts'
    obtain ⟨d'', ⟨o'', t'⟩, i, ⟨hopen, hsame''⟩, ht'⟩ := hs'.derives k _ hts''
    -- The first branch is closed, or the `else` would belong to an `if` in it.
    obtain rfl : o' = false := Bool.eq_false_iff.mpr fun ho => nomatch hclosed ho
    refine ⟨max d (max d' d'') + 1, (o'', .ifThen e' t (some t')), i,
      ⟨hopen, .ifThen hsame hsame' (.some hsame'')⟩, ?_⟩
    exact .ifElse (he.mono (by omega)) (ht.mono (by omega)) (ht'.mono (by omega))

/-!
### Declarations

Declarations stand in a row without anything between them. A class is printed with its methods
before its static methods.
-/

/-- Nothing is printed of an empty program. -/
theorem rereads_noDeclarations : RereadsDeclarations [] := by
  refine ⟨nofun, fun n ts hts => ?_⟩
  obtain rfl := writes_nil.mp hts
  exact ⟨0, [], n, .nil, .noDeclarations⟩

/-- Declarations one behind the other. -/
theorem rereads_declarations (hs : RereadsDeclaration s) (hss : RereadsDeclarations ss) :
    RereadsDeclarations (s :: ss) := by
  refine ⟨?_, fun n ts hts => ?_⟩
  · simp only [stmtsWords, List.forall_mem_append]
    exact ⟨hs.spellable, hss.spellable⟩
  · simp only [stmtsWords, writes_append] at hts
    obtain ⟨_, _, rfl, hts, hts'⟩ := hts
    obtain ⟨d, s', m, hsame, hs'⟩ := hs.derives n _ hts
    obtain ⟨d', ss', k, hsame', hss'⟩ := hss.derives m _ hts'
    obtain ⟨j, hs', hss'⟩ := hs'.both hss'
    exact ⟨j + 1, s' :: ss', k, .cons hsame hsame', .declarations hs' hss'.succ⟩

/-- The keyword, a name, and a semicolon. -/
theorem rereads_variableNil (hx : (TokenKind.identifier x.text).Proper) :
    RereadsDeclaration (.var x none) := by
  refine ⟨?_, fun n ts hts => ?_⟩
  · simp only [Stmt.words, List.forall_mem_cons]
    exact ⟨.keyword _, .token hx, .mark _, nofun⟩
  · simp only [Stmt.words, writes_token, writes_nil] at hts
    obtain ⟨lineV, _, rfl, lineX, _, rfl, lineS, _, rfl, rfl⟩ := hts
    exact ⟨0, .var ⟨x.text, lineX⟩ none, n, .var (name_corresponds x lineX) .none,
      .variableDecl .variableNil⟩

/-- The keyword, a name, and an initializer. -/
theorem rereads_variableValue (hx : (TokenKind.identifier x.text).Proper)
    (h : RereadsExpr .expression e) : RereadsDeclaration (.var x (some e)) := by
  refine ⟨?_, fun n ts hts => ?_⟩
  · simp only [Stmt.words, List.forall_mem_cons, List.forall_mem_append]
    exact ⟨.keyword _, .token hx, .mark _, h.spellable, .mark _, nofun⟩
  · simp only [Stmt.words, writes_token, writes_append, writes_nil] at hts
    obtain ⟨lineV, _, rfl, lineX, _, rfl, lineE, _, rfl, _, _, rfl, hts, lineS, _, rfl, rfl⟩ := hts
    obtain ⟨d, e', m, hsame, he⟩ := h.derives n _ hts
    exact ⟨d, .var ⟨x.text, lineX⟩ (some e'), m, .var (name_corresponds x lineX) (.some hsame),
      .variableDecl (.variableValue he)⟩

/-- The keyword, and a function with its name. -/
theorem rereads_functionDecl (h : RereadsFunction f) : RereadsDeclaration (.function f) := by
  refine ⟨?_, fun n ts hts => ?_⟩
  · simp only [Stmt.words, List.forall_mem_cons]
    exact ⟨.keyword _, h.spellable⟩
  · simp only [Stmt.words, writes_token] at hts
    obtain ⟨line, _, rfl, hts⟩ := hts
    obtain ⟨d, f', m, hsame, hf⟩ := h.derives n _ hts
    exact ⟨d, .function f', m, .function hsame, .functionDecl hf⟩

/-- A class without a superclass. -/
theorem rereads_classDecl (hx : (TokenKind.identifier x.text).Proper)
    (hfs : ∀ f ∈ fs, RereadsFunction f) (hgs : ∀ g ∈ gs, RereadsFunction g) :
    RereadsDeclaration (.classDecl x none fs gs) := by
  refine ⟨?_, fun n ts hts => ?_⟩
  · simp only [Stmt.words, List.forall_mem_cons, List.forall_mem_append]
    exact ⟨.keyword _, .token hx, .mark _, ⟨spellable_functions nofun hfs,
      spellable_functions (List.forall_mem_singleton.mpr (.keyword _)) hgs⟩, .mark _, nofun⟩
  · rw [Stmt.words] at hts
    simp only [writes_token, writes_append [_], writes_nil] at hts
    obtain ⟨lineC, _, rfl, lineX, _, rfl, lineL, _, rfl, _, _, rfl, hts, lineR, _, rfl, rfl⟩ := hts
    obtain ⟨d, fs', gs', m, hsame, hsame', hmembers⟩ := rereads_members (n := n) hfs hgs hts
    exact ⟨d, .classDecl ⟨x.text, lineX⟩ none fs' gs', m,
      .classDecl (name_corresponds x lineX) .none hsame hsame', .classDecl hmembers⟩

/-- A class with a superclass. -/
theorem rereads_subclassDecl {use : VariableUse} (hx : (TokenKind.identifier x.text).Proper)
    (huse : (TokenKind.identifier use.name.text).Proper) (hfs : ∀ f ∈ fs, RereadsFunction f)
    (hgs : ∀ g ∈ gs, RereadsFunction g) : RereadsDeclaration (.classDecl x (some use) fs gs) := by
  refine ⟨?_, fun n ts hts => ?_⟩
  · simp only [Stmt.words, List.forall_mem_cons, List.forall_mem_append]
    exact ⟨.keyword _, .token hx, .mark _, .token huse, .mark _, ⟨spellable_functions nofun hfs,
      spellable_functions (List.forall_mem_singleton.mpr (.keyword _)) hgs⟩, .mark _, nofun⟩
  · rw [Stmt.words] at hts
    simp only [writes_token, writes_append [_], writes_nil] at hts
    obtain ⟨lineC, _, rfl, lineX, _, rfl, lineB, _, rfl, lineY, _, rfl, lineL, _, rfl, _, _, rfl,
      hts, lineR, _, rfl, rfl⟩ := hts
    obtain ⟨d, fs', gs', m, hsame, hsame', hmembers⟩ := rereads_members (n := n + 1) hfs hgs hts
    exact ⟨d, .classDecl ⟨x.text, lineX⟩ (some ⟨n, ⟨use.name.text, lineY⟩⟩) fs' gs', m,
      .classDecl (name_corresponds x lineX) (.some ⟨trivial, name_corresponds _ lineY⟩) hsame
        hsame', .subclassDecl hmembers⟩

/-! ### Loops -/

/-- The statements that a `for` loop stands for. -/
theorem rereads_loopTree {first : Option Stmt} {condition last : Option Expr}
    (hfirst : ∀ t ∈ first, RereadsDeclaration t)
    (hcondition : ∀ e ∈ condition, RereadsExpr .expression e)
    (hlast : ∀ e ∈ last, RereadsExpr .expression e) (hs : RereadsStatement o s) :
    RereadsStatement o (loopTree first condition last s) := by
  have htest : RereadsExpr .expression (condition.getD (.literal (.bool true))) := by
    cases condition with
    | none =>
      have htrue : RereadsExpr .primary (.literal (.bool true)) := rereads_word rfl (.keyword _) rfl
      exact htrue.expression
    | some e => exact hcondition e rfl
  -- Statements that stand in a block, one behind the other.
  have hpair {t t' : Stmt} (ht : RereadsDeclaration t) (ht' : RereadsDeclaration t') {o : Bool} :
      RereadsStatement o (.block [t, t']) :=
    rereads_block (rereads_declarations ht (rereads_declarations ht' rereads_noDeclarations))
  have hround {e : Expr} (he : RereadsExpr .expression e) {o' : Bool} :
      RereadsStatement o' (.block [s, .expression e]) :=
    hpair hs.declaration (rereads_effect (o := false) he).declaration
  cases first with
  | none =>
    cases last with
    | none => exact rereads_whileDo htest hs
    | some e => exact rereads_whileDo htest (hround (hlast e rfl))
  | some t =>
    have ht := hfirst t rfl
    cases last with
    | none => exact hpair ht (rereads_whileDo htest hs).declaration
    | some e =>
      exact hpair ht (rereads_whileDo (o := false) htest (hround (hlast e rfl))).declaration

end Rules

/-!
## Phrases

The trees that are printed are those that the grammar derives, so the induction is on derivations.
-/

/-- What was read as a phrase is read again when it is written down. Parameters are no trees, so it
is enough that they can be written. -/
def Phrase.Reread : Phrase → Prop
  | .primary e => RereadsExpr .primary e
  | .call e => RereadsExpr .call e
  | .unary e => RereadsExpr .unary e
  | .chain l e => RereadsExpr (.chain l) e
  | .expression e => RereadsExpr .expression e
  | .arguments es =>
    Rereads (argumentWords es) (List.Forall₂ (Expr.Corresponds .loose) es) .arguments
  | .moreArguments es =>
    Rereads (moreArgumentWords es) (List.Forall₂ (Expr.Corresponds .loose) es) .moreArguments
  | .parameters xs | .moreParameters xs => NamesProper xs
  | .«variable» s | .declaration s => RereadsDeclaration s
  | .statement o s => RereadsStatement o s
  | .initializer s => ∀ t ∈ s, RereadsDeclaration t
  | .clause e => ∀ e' ∈ e, RereadsExpr .expression e'
  | .declarations ss => RereadsDeclarations ss
  | .function f => RereadsFunction f
  | .members fs gs => (∀ f ∈ fs, RereadsFunction f) ∧ ∀ g ∈ gs, RereadsFunction g

/-- An operand of a level is an expression of the next tighter one. -/
theorem Phrase.reread_operand {l : Level} {e : Expr} :
    (l.operand e).Reread ↔ RereadsExpr l.operand e := by
  cases l <;> rfl

/-- **What is read is read again when it is written down.** Induction on the derivation. -/
theorem Derives.reread {d n m : Nat} {ph : Phrase} {ts : List Token} (h : Derives d ph n ts m)
    (hts : ∀ t ∈ ts, t.kind.Proper) : ph.Reread := by
  have hname {x : Name} {ts : List Token} (hts : ∀ t ∈ ts, t.kind.Proper) (hx : x.token ∈ ts) :
      (TokenKind.identifier x.text).Proper := hts _ hx
  induction h with
  | literal hkind => exact rereads_literal hkind (hts _ List.mem_cons_self)
  | «variable» => exact rereads_variable (hname hts (by simp))
  | grouping _ ih => exact rereads_grouping (ih fun t ht => hts t (by simp [ht]))
  | lambda _ hlen _ ihxs ih =>
    exact rereads_lambda _ (ihxs fun t ht => hts t (by simp [ht])) hlen
      (ih fun t ht => hts t (by simp [ht]))
  | this => exact rereads_this _ _
  | super => exact rereads_super _ _ (hname hts (by simp))
  | primary _ ih => exact (ih hts).lift .primary
  | call _ _ hlen ih ihes =>
    exact rereads_call _ (ih fun t ht => hts t (by simp [ht]))
      (ihes fun t ht => hts t (by simp [ht])) hlen
  | get _ ih => exact rereads_get (ih fun t ht => hts t (by simp [ht])) (hname hts (by simp))
  | noArguments => exact rereads_noArguments
  | arguments _ _ ih ihes =>
    exact rereads_arguments (ih fun t ht => hts t (by simp [ht]))
      (ihes fun t ht => hts t (by simp [ht]))
  | noMoreArguments => exact rereads_noMoreArguments
  | moreArguments _ _ ih ihes =>
    exact rereads_moreArguments (ih fun t ht => hts t (by simp [ht]))
      (ihes fun t ht => hts t (by simp [ht]))
  | suffixed _ ih => exact (ih hts).lift .suffixed
  | unary _ ih => exact rereads_unary _ (ih fun t ht => hts t (by simp [ht]))
  | operand _ ih => exact (Phrase.reread_operand.mp (ih hts)).lift .operand
  | joined _ hop _ ih ih' =>
    exact rereads_joined _ (ih fun t ht => hts t (by simp [ht])) hop
      (Phrase.reread_operand.mp (ih' fun t ht => hts t (by simp [ht])))
  | value _ ih => exact (ih hts).lift .value
  | assign _ ih =>
    exact rereads_assign _ (hname hts (by simp)) (ih fun t ht => hts t (by simp [ht]))
  | set _ _ ih ih' =>
    exact rereads_set (ih fun t ht => hts t (by simp [ht])) (hname hts (by simp))
      (ih' fun t ht => hts t (by simp [ht]))
  | noParameters => exact nofun
  | parameters _ ih =>
    exact List.forall_mem_cons.mpr ⟨hname hts (by simp), ih fun t ht => hts t (by simp [ht])⟩
  | noMoreParameters => exact nofun
  | moreParameters _ ih =>
    exact List.forall_mem_cons.mpr ⟨hname hts (by simp), ih fun t ht => hts t (by simp [ht])⟩
  | effect _ ih => exact rereads_effect (ih fun t ht => hts t (by simp [ht]))
  | print _ ih => exact rereads_print (ih fun t ht => hts t (by simp [ht]))
  | block _ ih => exact rereads_block (ih fun t ht => hts t (by simp [ht]))
  | @returnValue _ _ _ lineR _ _ e _ ih =>
    have he := ih fun t ht => hts t (by simp [ht])
    cases e with
    | none => exact rereads_returnNothing lineR
    | some e => exact rereads_returnValue lineR (he e rfl)
  | whileDo _ _ ih ih' =>
    exact rereads_whileDo (ih fun t ht => hts t (by simp [ht]))
      (ih' fun t ht => hts t (by simp [ht]))
  -- Whether a statement is open is part of its phrase, so an `else` belongs to the same `if` again.
  | ifThen _ _ ih ih' =>
    exact rereads_ifThen (ih fun t ht => hts t (by simp [ht]))
      (ih' fun t ht => hts t (by simp [ht]))
  | ifElse _ _ _ ih ih' ih'' =>
    exact rereads_ifElse (ih fun t ht => hts t (by simp [ht]))
      (ih' fun t ht => hts t (by simp [ht])) (ih'' fun t ht => hts t (by simp [ht]))
  -- A `for` loop is printed as the tree it stands for, a `while` loop in blocks.
  | forLoop _ _ _ _ ih ih' ih'' ihs =>
    exact rereads_loopTree (ih fun t ht => hts t (by simp [ht]))
      (ih' fun t ht => hts t (by simp [ht])) (ih'' fun t ht => hts t (by simp [ht]))
      (ihs fun t ht => hts t (by simp [ht]))
  | noInitializer => exact nofun
  | variableInitializer _ ih =>
    intro t ht
    obtain rfl := Option.some.inj ht
    exact ih fun t ht => hts t (by simp [ht])
  | effectInitializer _ ih =>
    intro t ht
    obtain rfl := Option.some.inj ht
    exact (rereads_effect (o := false) (ih fun t ht => hts t (by simp [ht]))).declaration
  | noClause => exact nofun
  | clause _ ih =>
    intro e he
    obtain rfl := Option.some.inj he
    exact ih hts
  | variableNil => exact rereads_variableNil (hname hts (by simp))
  | variableValue _ ih =>
    exact rereads_variableValue (hname hts (by simp)) (ih fun t ht => hts t (by simp [ht]))
  | function _ hlen _ ihxs ih =>
    exact rereads_function (hname hts (by simp)) (ihxs fun t ht => hts t (by simp [ht])) hlen
      (ih fun t ht => hts t (by simp [ht]))
  | noMembers => exact ⟨nofun, nofun⟩
  | method _ _ ih ih' =>
    obtain ⟨hfs, hgs⟩ := ih' fun t ht => hts t (by simp [ht])
    exact ⟨List.forall_mem_cons.mpr ⟨ih fun t ht => hts t (by simp [ht]), hfs⟩, hgs⟩
  | staticMethod _ _ ih ih' =>
    obtain ⟨hfs, hgs⟩ := ih' fun t ht => hts t (by simp [ht])
    exact ⟨hfs, List.forall_mem_cons.mpr ⟨ih fun t ht => hts t (by simp [ht]), hgs⟩⟩
  | statement _ ih => exact (ih hts).declaration
  | variableDecl _ ih => exact ih fun t ht => hts t (by simp [ht])
  | functionDecl _ ih => exact rereads_functionDecl (ih fun t ht => hts t (by simp [ht]))
  | classDecl _ ih =>
    obtain ⟨hfs, hgs⟩ := ih fun t ht => hts t (by simp [ht])
    exact rereads_classDecl (hname hts (by simp)) hfs hgs
  -- The members are printed methods first, whatever their order in the source.
  | subclassDecl _ ih =>
    obtain ⟨hfs, hgs⟩ := ih fun t ht => hts t (by simp [ht])
    exact rereads_subclassDecl (hname hts (by simp)) (hname hts (by simp)) hfs hgs
  | noDeclarations => exact rereads_noDeclarations
  | declarations _ _ ih ih' =>
    exact rereads_declarations (ih fun t ht => hts t (by simp [ht]))
      (ih' fun t ht => hts t (by simp [ht]))

/-!
## Programs

From words to a text: a spelling of each word, with a blank behind. Each of them is cut off where
the blank comes.
-/

/-- Words that can be spelled have a spelling, all of whose tokens are proper. -/
theorem exists_spelling {ws : List Word} (h : ∀ w ∈ ws, w.Spellable) :
    ∃ kinds, List.Forall₂ Word.Spelled ws kinds := by
  induction ws with
  | nil => exact ⟨[], .nil⟩
  | cons w ws ih =>
    obtain ⟨⟨kind, hkind, -⟩, hws⟩ := List.forall_mem_cons.mp h
    obtain ⟨kinds, hkinds⟩ := ih hws
    exact ⟨kind :: kinds, .cons hkind hkinds⟩

/-- What spells a word is a token that a text can have. -/
theorem proper_of_spelling {ws : List Word} {kinds : List TokenKind} (h : ∀ w ∈ ws, w.Spellable)
    (hkinds : List.Forall₂ Word.Spelled ws kinds) : ∀ k ∈ kinds, k.Proper := by
  induction hkinds with
  | nil => nofun
  | cons hkind _ ih =>
    obtain ⟨⟨kind, hkind', hproper⟩, hws⟩ := List.forall_mem_cons.mp h
    exact List.forall_mem_cons.mpr ⟨hkind'.proper hkind hproper, ih hws⟩

/-- The tokens of a text are tokens that a text can have. -/
theorem proper_of_mem_lex {source : String} {t : Token} (h : t ∈ (lex source).tokens) :
    t.kind.Proper :=
  proper_of_mem_pieces (mem_of_mem_ofPieces h)

/-- **A tree that is printed is read again.** The tree of a program that is parsed without a report
can be written down as a text, and from each such text, however its numbers are spelled, the same
tree is read without a report, up to lines and numbers of uses, unless parsing stops at the bound of
nesting. -/
theorem print_reread (depth firstUse : Nat) (source : String)
    (hreports : (parse depth firstUse (lex source)).reports = []) :
    (∃ kinds, List.Forall₂ Word.Spelled
      (stmtsWords (parse depth firstUse (lex source)).statements) kinds) ∧
    ∀ kinds, List.Forall₂ Word.Spelled
        (stmtsWords (parse depth firstUse (lex source)).statements) kinds →
      (lex (sentence kinds)).reports = [] ∧
      (lex (sentence kinds)).tokens.map (·.kind) = kinds ∧
      ∀ depth' firstUse', (parse depth' firstUse' (lex (sentence kinds))).WithinDepth →
        (parse depth' firstUse' (lex (sentence kinds))).reports = [] ∧
        List.Forall₂ (Stmt.Corresponds .loose) (parse depth firstUse (lex source)).statements
          (parse depth' firstUse' (lex (sentence kinds))).statements := by
  have hreread : RereadsDeclarations (parse depth firstUse (lex source)).statements :=
    (derives_of_reports_eq_nil hreports).reread fun _ ht => proper_of_mem_lex ht
  refine ⟨exists_spelling hreread.spellable, fun kinds hkinds => ?_⟩
  obtain ⟨hlexed, hclean⟩ := lex_sentence (proper_of_spelling hreread.spellable hkinds)
  refine ⟨hclean, hlexed, fun depth' firstUse' hdepth => ?_⟩
  rw [← hlexed, List.forall₂_map_right_iff] at hkinds
  -- A derivation of the new tokens exists, and the parser finds it unless it runs out of levels.
  obtain ⟨d, ss, m, hsame, hderives⟩ := hreread.derives firstUse' _ hkinds
  have hparse : parse depth' firstUse' (lex (sentence kinds)) = ⟨ss, [], m⟩ :=
    (parse_of_derives hderives).resolve_right fun hstop => hstop.2 hdepth
  rw [hparse]
  exact ⟨rfl, hsame⟩

/-- A `for` loop around an `if`, written as the statements it stands for and with other numerals. -/
theorem print_reread_loop :
    let source := "for (var i = 0; i < 2.50; i = i + 1) " ++
      "if (i == 1) print \"a\"; else fun (x) \x7b return -x; \x7d(i);"
    let text := "\x7b var i = 0.0 ; while ( i < 2.5 ) \x7b if ( i == 1 ) print \"a\" ; " ++
      "else fun ( x ) \x7b return - x ; \x7d ( i ) ; i = i + 1.00 ; \x7d \x7d"
    (parse 40 0 (lex source)).reports = [] ∧
      (∃ kinds, sentence kinds = text ∧
        List.Forall₂ Word.Spelled (stmtsWords (parse 40 0 (lex source)).statements) kinds) ∧
      (parse 40 0 (lex text)).WithinDepth ∧ (parse 40 0 (lex text)).reports = [] ∧
      List.Forall₂ (Stmt.Corresponds .loose) (parse 40 0 (lex source)).statements
        (parse 40 0 (lex text)).statements := by
  intro source text
  have hreports : (parse 40 0 (lex source)).reports = [] := by decide +kernel
  have hdepth : (parse 40 0 (lex text)).WithinDepth := by
    have hclean : (parse 40 0 (lex text)).reports = [] := by decide +kernel
    exact fun place => hclean ▸ List.not_mem_nil
  have hsentence : sentence ((lex text).tokens.map (·.kind)) = text := by decide +kernel
  -- The text spells the loop as the `while` loop it is read as, with other zeros in its numbers.
  have haccepts : List.Forall₂ (fun w t => Word.accepts w t.kind = true)
      (stmtsWords (parse 40 0 (lex source)).statements) (lex text).tokens := by decide +kernel
  have hspelled : List.Forall₂ Word.Spelled (stmtsWords (parse 40 0 (lex source)).statements)
      ((lex text).tokens.map (·.kind)) := by
    rw [List.forall₂_map_right_iff]
    exact writes_of_accepts haccepts fun _ ht => proper_of_mem_lex ht
  obtain ⟨-, -, hall⟩ := (print_reread 40 0 source hreports).2 _ hspelled
  rw [hsentence] at hall
  exact ⟨hreports, ⟨_, hsentence, hspelled⟩, hdepth, hall 40 0 hdepth⟩

end LoxLang
