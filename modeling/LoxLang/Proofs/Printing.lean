import LoxLang.Proofs.Munching
import LoxLang.Tree

/-!
# Printing trees

A tree is written down as words, one for each token, in the order of the grammar; no parentheses are
added to those that the tree has. A word is a token that can be written in one way only, or a
number, which can be written as any numeral that has its value (`Word.Spelled`). The text of a
program is its words with blanks between them (`sentence`), and it is cut into these words again
(`lex_sentence`).
-/

namespace LoxLang

/-!
## Words

The words of a tree, one for each token that it needs, with names and numbers where a token has
some. Groupings are part of the tree, so nothing has to be put into parentheses.
-/

/-- A word of a program that is written down. -/
inductive Word where
  | token (kind : TokenKind)
  | number (x : Float)

/-- How a word can be spelled: a number by each numeral that is read as this number. -/
inductive Word.Spelled : Word → TokenKind → Prop
  | token (kind : TokenKind) : Spelled (.token kind) kind
  | number (text : String) (h : PieceClass.number.Matches text.toList) :
      Spelled (.number (Number.read text)) (.number text)

/-- The word of a mark. -/
abbrev Mark.word (m : Mark) : Word := .token (.mark m)

/-- The word of a keyword. -/
abbrev Keyword.word (k : Keyword) : Word := .token (.keyword k)

/-- The word of a name. -/
abbrev Name.word (x : Name) : Word := .token (.identifier x.text)

/-- The word of a value. -/
def Literal.word : Literal → Word
  | .nil => Keyword.word .nil
  | .bool true => Keyword.word .«true»
  | .bool false => Keyword.word .«false»
  | .number x => .number x
  | .string s => .token (.string s)

/-- The words of further parameters, each behind a comma. -/
def moreParameterWords : List Name → List Word
  | [] => []
  | x :: xs => Mark.comma.word :: x.word :: moreParameterWords xs

/-- The words of parameters. -/
def parameterWords : List Name → List Word
  | [] => []
  | x :: xs => x.word :: moreParameterWords xs

mutual

/-- The words of an expression. -/
@[simp] def Expr.words : Expr → List Word
  | .literal value => [value.word]
  | .grouping e => Mark.leftParen.word :: (e.words ++ [Mark.rightParen.word])
  | .unary op _ e => .token op.token :: e.words
  | .binary op _ left right => left.words ++ .token op.token :: right.words
  | .logical op _ left right => left.words ++ .token op.token :: right.words
  | .«variable» use => [use.name.word]
  | .assign _ x e => x.word :: Mark.equal.word :: e.words
  | .call callee _ es =>
    callee.words ++ Mark.leftParen.word :: (argumentWords es ++ [Mark.rightParen.word])
  | .get object x => object.words ++ [Mark.dot.word, x.word]
  | .set object x e => object.words ++ Mark.dot.word :: x.word :: Mark.equal.word :: e.words
  | .lambda _ xs body =>
    Keyword.«fun».word :: Mark.leftParen.word :: (parameterWords xs ++
      Mark.rightParen.word :: Mark.leftBrace.word :: (stmtsWords body ++ [Mark.rightBrace.word]))
  | .this _ _ => [Keyword.this.word]
  | .super _ _ x => [Keyword.super.word, Mark.dot.word, x.word]

/-- The words of arguments. -/
@[simp] def argumentWords : List Expr → List Word
  | [] => []
  | e :: es => e.words ++ moreArgumentWords es

/-- The words of further arguments, each behind a comma. -/
@[simp] def moreArgumentWords : List Expr → List Word
  | [] => []
  | e :: es => Mark.comma.word :: (e.words ++ moreArgumentWords es)

/-- The words of a statement. -/
@[simp] def Stmt.words : Stmt → List Word
  | .expression e => e.words ++ [Mark.semicolon.word]
  | .print e => Keyword.print.word :: (e.words ++ [Mark.semicolon.word])
  | .var x none => [Keyword.var.word, x.word, Mark.semicolon.word]
  | .var x (some e) =>
    Keyword.var.word :: x.word :: Mark.equal.word :: (e.words ++ [Mark.semicolon.word])
  | .block body => Mark.leftBrace.word :: (stmtsWords body ++ [Mark.rightBrace.word])
  | .ifThen e s none =>
    Keyword.«if».word :: Mark.leftParen.word :: (e.words ++ Mark.rightParen.word :: s.words)
  | .ifThen e s (some s') =>
    Keyword.«if».word :: Mark.leftParen.word :: (e.words ++
      Mark.rightParen.word :: (s.words ++ Keyword.«else».word :: s'.words))
  | .whileDo e s =>
    Keyword.«while».word :: Mark.leftParen.word :: (e.words ++ Mark.rightParen.word :: s.words)
  | .function f => Keyword.«fun».word :: f.words
  | .returnValue _ none => [Keyword.«return».word, Mark.semicolon.word]
  | .returnValue _ (some e) => Keyword.«return».word :: (e.words ++ [Mark.semicolon.word])
  | .classDecl x none methods staticMethods =>
    Keyword.«class».word :: x.word :: Mark.leftBrace.word :: ((functionsWords [] methods ++
      functionsWords [Keyword.«class».word] staticMethods) ++ [Mark.rightBrace.word])
  | .classDecl x (some use) methods staticMethods =>
    Keyword.«class».word :: x.word :: Mark.less.word :: use.name.word :: Mark.leftBrace.word ::
      ((functionsWords [] methods ++
        functionsWords [Keyword.«class».word] staticMethods) ++ [Mark.rightBrace.word])

/-- The words of a function from its name on. -/
@[simp] def FunctionDecl.words : FunctionDecl → List Word
  | ⟨x, xs, body⟩ =>
    x.word :: Mark.leftParen.word :: (parameterWords xs ++
      Mark.rightParen.word :: Mark.leftBrace.word :: (stmtsWords body ++ [Mark.rightBrace.word]))

/-- The words of statements. -/
@[simp] def stmtsWords : List Stmt → List Word
  | [] => []
  | s :: ss => s.words ++ stmtsWords ss

/-- The words of the methods of a class, each behind the same words. -/
@[simp] def functionsWords (lead : List Word) : List FunctionDecl → List Word
  | [] => []
  | f :: fs => lead ++ (f.words ++ functionsWords lead fs)

end

/-!
## Tokens that are written as they should be

A token that the scanner gives can be written again: its lexeme is a text of its class, and no
keyword is a name.
-/

/-- A token is cut out of a text again in which it stands between blanks. -/
structure TokenKind.Proper (kind : TokenKind) : Prop where
  ofClass : ∃ c, (Piece.token kind).class? = some c ∧ c.Matches kind.lexeme.toList
  notKeyword : ∀ x, kind = .identifier x → Keyword.ofText? x = none

theorem TokenKind.Proper.mark (m : Mark) : (TokenKind.mark m).Proper :=
  ⟨⟨.mark m, rfl, .mark m⟩, nofun⟩

theorem TokenKind.Proper.keyword (k : Keyword) : (TokenKind.keyword k).Proper := by
  refine ⟨⟨.word, rfl, ?_⟩, nofun⟩
  cases k <;> exact .word _ _ (by decide) (List.all_eq_true.mp rfl)

theorem TokenKind.Proper.number {text : String} (h : PieceClass.number.Matches text.toList) :
    (TokenKind.number text).Proper := ⟨⟨.number, rfl, h⟩, nofun⟩

/-- The tokens of a source are proper. -/
theorem proper_of_mem_pieces {cs : List Char} {kind : TokenKind} (h : .token kind ∈ pieces cs) :
    kind.Proper := by
  obtain ⟨before, after, hpieces⟩ := List.append_of_mem h
  refine ⟨?_, fun x hx => ofText?_of_mem_pieces (hx ▸ h)⟩
  obtain ⟨c, hc, hlongest⟩ := taken_of_pieces hpieces
  exact ⟨c, hc, hlongest.ofClass⟩

/-- A spelling of a proper word is proper. -/
theorem Word.Spelled.proper {w : Word} {kind kind' : TokenKind} (h : w.Spelled kind)
    (h' : w.Spelled kind') (hkind : kind.Proper) : kind'.Proper := by
  cases h' with
  | token => cases h with | token => exact hkind
  | number text htext => exact .number htext

/-- Whether a word can be spelled in some way, to be computed. -/
def Word.accepts : Word → TokenKind → Bool
  | .token kind, kind' => kind = kind'
  | .number x, .number text => Number.read text = x
  | .number _, _ => false

theorem Word.spelled_iff_accepts {w : Word} {kind : TokenKind} (h : kind.Proper) :
    w.Spelled kind ↔ w.accepts kind := by
  constructor
  · rintro (_ | _) <;> simp [accepts]
  · intro haccepts
    cases w with
    | token kind' =>
      obtain rfl : kind' = kind := by simpa [accepts] using haccepts
      exact .token kind'
    | number x =>
      cases kind with
      | number text =>
        obtain ⟨c, hc, hmatches⟩ := h.ofClass
        cases hc
        obtain rfl : Number.read text = x := by simpa [accepts] using haccepts
        exact .number text hmatches
      | _ => cases haccepts

/-!
## Sentences

Lexemes with a space behind each are cut where they were joined, because no class of tokens goes on
over a space, apart from strings, which end with their quote.
-/

/-- The text of tokens with blanks between them. -/
def sentence (kinds : List TokenKind) : String := " ".intercalate (kinds.map TokenKind.lexeme)

theorem toList_sentence_singleton (kind : TokenKind) :
    (sentence [kind]).toList = kind.lexeme.toList := rfl

theorem toList_sentence_cons (kind kind' : TokenKind) (kinds : List TokenKind) :
    (sentence (kind :: kind' :: kinds)).toList =
      kind.lexeme.toList ++ ' ' :: (sentence (kind' :: kinds)).toList := by
  simp [sentence, String.toList_intercalate, List.intercalate]

/-- What is empty or begins with a blank. -/
def BlankAhead (cs : List Char) : Prop := ∀ c ∈ cs.head?, c = ' '

/-- What is empty or begins with white space. -/
def SpaceAhead (cs : List Char) : Prop := ∀ c ∈ cs.head?, isBlank c

theorem BlankAhead.space {cs : List Char} (h : BlankAhead cs) : SpaceAhead cs := fun c hc => by
  rw [h c hc]
  rfl

theorem isNamePart_of_isBlank {c : Char} (h : isBlank c) : isNamePart c = false := by
  simp only [isBlank, Bool.or_eq_true, decide_eq_true_eq] at h
  obtain ((rfl | rfl) | rfl) | rfl := h <;> rfl

theorem isDigit_of_isBlank {c : Char} (h : isBlank c) : isDigit c = false := by
  have hpart := isNamePart_of_isBlank h
  simp only [isNamePart, Bool.or_eq_false_iff] at hpart
  exact hpart.2

section Cutting

variable {c : Char} {cs tail : List Char} {p : Char → Bool}

theorem SpaceAhead.takeWhile (h : SpaceAhead tail) (hp : ∀ {c}, isBlank c → p c = false)
    (hcs : ∀ c ∈ cs, p c) : (cs ++ tail).takeWhile p = cs ∧ (cs ++ tail).dropWhile p = tail := by
  rw [List.takeWhile_append_of_pos hcs, List.dropWhile_append_of_pos hcs]
  cases tail with
  | nil => simp
  | cons d tail => simp [hp (h d rfl)]

theorem markBeforeEqual_blank (h : SpaceAhead tail) (short long : Mark) :
    markBeforeEqual short long tail = (.ofMark short, tail) := by
  unfold markBeforeEqual
  split
  · cases h _ rfl
  · rfl

theorem afterSlash_blank (h : SpaceAhead tail) : afterSlash tail = (.ofMark .slash, tail) := by
  unfold afterSlash
  split
  · cases h _ rfl
  · rfl

theorem nextPiece_mark (h : SpaceAhead tail) {m : Mark} (hm : m.text.toList = c :: cs) :
    nextPiece c (cs ++ tail) = (.token (.mark m), tail) := by
  cases m <;> simp only [Mark.text] at hm <;> cases hm <;>
    first
    | rfl
    | exact markBeforeEqual_blank h _ _
    | exact afterSlash_blank h

/-- What begins with a letter or a digit is none of the pieces whose rules come first. -/
theorem nextPiece_of_isNamePart (hc : isNamePart c) (rest : List Char) :
    nextPiece c rest = if isDigit c then afterDigit c rest else afterNameStart c rest := by
  obtain ⟨hsingle, hpair, hslash, hblank, hquote⟩ := plain_of_isNamePart hc
  unfold nextPiece
  rw [hsingle, hpair]
  simp only [hslash, hblank, hquote, if_false, Bool.false_eq_true]
  split
  · rfl
  · next hdigit =>
    have hname : isNameStart c := by simpa [isNamePart, hdigit] using hc
    rw [if_pos hname]

theorem nextPiece_word (h : SpaceAhead tail) (hword : PieceClass.word.Matches (c :: cs)) :
    nextPiece c (cs ++ tail) = (.ofWord (c :: cs), tail) := by
  obtain ⟨hc, hcs⟩ : isNameStart c ∧ ∀ d ∈ cs, isNamePart d := by
    cases hword with | word _ _ hc hcs => exact ⟨hc, hcs⟩
  have hdigit : ¬isDigit c := fun hd => by
    rw [isNameStart_of_isDigit hd] at hc
    cases hc
  rw [nextPiece_of_isNamePart (by simp [isNamePart, hc]), if_neg hdigit]
  unfold afterNameStart
  obtain ⟨htake, hdrop⟩ := h.takeWhile isNamePart_of_isBlank hcs
  rw [htake, hdrop]

/-- A number is cut where white space comes, or a point with digits behind it and then white space.
-/
theorem nextPiece_number (h : SpaceAhead tail) (hnumber : PieceClass.number.Matches (c :: cs)) :
    nextPiece c (cs ++ tail) = (.token (.number (String.ofList (c :: cs))), tail) := by
  generalize htext : c :: cs = text at hnumber
  cases hnumber with
  -- Without a point, the digits end at the blank, and the blank is no point.
  | whole digits hne hdigits =>
    subst htext
    have hc : isDigit c := hdigits c List.mem_cons_self
    have hcs : ∀ d ∈ cs, isDigit d := fun d hd => hdigits d (List.mem_cons_of_mem _ hd)
    rw [nextPiece_of_isNamePart (by simp [isNamePart, hc]), if_pos hc]
    unfold afterDigit
    obtain ⟨htake, hdrop⟩ := h.takeWhile isDigit_of_isBlank hcs
    dsimp only
    rw [htake, hdrop]
    split
    · cases h _ rfl
    · rfl
  -- With a point, it has to be seen that a digit follows it, which `he` says.
  | fraction digits places hne hdigits hne' hplaces =>
    obtain ⟨d, digits, rfl⟩ := List.exists_cons_of_ne_nil hne
    obtain ⟨e, places, rfl⟩ := List.exists_cons_of_ne_nil hne'
    obtain ⟨rfl, hcs⟩ := List.cons.inj htext
    obtain rfl : cs = digits ++ '.' :: e :: places := hcs
    have hc : isDigit c := hdigits c List.mem_cons_self
    have hcs : ∀ d ∈ digits, isDigit d := fun d hd => hdigits d (List.mem_cons_of_mem _ hd)
    have he : isDigit e := hplaces e List.mem_cons_self
    have hrest : ∀ d ∈ places, isDigit d := fun d hd => hplaces d (List.mem_cons_of_mem _ hd)
    rw [nextPiece_of_isNamePart (by simp [isNamePart, hc]), if_pos hc]
    unfold afterDigit
    have hpoint : isDigit '.' = false := rfl
    obtain ⟨htake, hdrop⟩ := h.takeWhile isDigit_of_isBlank hrest
    rw [List.append_assoc, List.takeWhile_append_of_pos hcs, List.dropWhile_append_of_pos hcs]
    simp [hpoint, he, htake, hdrop]

theorem nextPiece_string (content : List Char) (h : '"' ∉ content) :
    nextPiece '"' ((content ++ ['"']) ++ tail) =
      (.token (.string (String.ofList content)), tail) := by
  have hcontent : ∀ d ∈ content, (d ≠ '"' : Bool) = true := fun d hd => by
    simpa using fun hn : d = '"' => h (hn ▸ hd)
  show afterQuote _ = _
  unfold afterQuote
  rw [List.append_assoc, List.takeWhile_append_of_pos hcontent,
    List.dropWhile_append_of_pos hcontent]
  simp

end Cutting

/-- **A proper token before white space is cut out again.** -/
theorem nextPiece_lexeme {kind : TokenKind} (h : kind.Proper) {tail : List Char}
    (htail : SpaceAhead tail) :
    ∃ c cs, kind.lexeme.toList = c :: cs ∧ nextPiece c (cs ++ tail) = (.token kind, tail) := by
  obtain ⟨k, hclass, hmatches⟩ := h.ofClass
  obtain ⟨c, cs, hcs⟩ := List.exists_cons_of_ne_nil hmatches.ne_nil
  refine ⟨c, cs, hcs, ?_⟩
  rw [hcs] at hmatches
  have htext : String.ofList (c :: cs) = kind.lexeme := by rw [← hcs, String.ofList_toList]
  -- The class of a token fixes which of the lemmas on pieces applies.
  cases kind with
  | mark m => exact nextPiece_mark htail hcs
  | keyword word =>
    cases hclass
    rw [nextPiece_word htail hmatches, Piece.ofWord, htext, TokenKind.lexeme, ofText?_text]
  | identifier x =>
    cases hclass
    rw [nextPiece_word htail hmatches, Piece.ofWord, htext, TokenKind.lexeme, h.notKeyword x rfl]
  | string content =>
    have hlexeme : '"' :: (content.toList ++ ['"']) = c :: cs := by
      rw [← hcs]
      simp [TokenKind.lexeme]
    obtain ⟨rfl, rfl⟩ := List.cons.inj hlexeme
    cases hclass
    generalize hquoted : '"' :: (content.toList ++ ['"']) = text at hmatches
    cases hmatches with
    | string content' hcontent =>
      obtain rfl : content.toList = content' := by simpa using hquoted
      rw [nextPiece_string _ hcontent, String.ofList_toList]
  | number text =>
    cases hclass
    rw [nextPiece_number htail hmatches, htext, TokenKind.lexeme]

/-- A sentence is cut into its words. -/
theorem filterMap_pieces_sentence {kinds : List TokenKind} (h : ∀ k ∈ kinds, k.Proper) :
    (pieces (sentence kinds).toList).filterMap Piece.kind? = kinds ∧
      (pieces (sentence kinds).toList).filterMap Piece.fault? = [] := by
  induction kinds with
  | nil => simp [sentence, pieces]
  | cons kind kinds ih =>
    obtain ⟨ih, ih'⟩ := ih fun k hk => h k (List.mem_cons_of_mem _ hk)
    -- Behind the last token the text ends, behind the others comes a blank.
    cases kinds with
    | nil =>
      have htail : BlankAhead [] := fun _ h => by cases h
      obtain ⟨c, cs, hcs, hpiece⟩ := nextPiece_lexeme (h kind List.mem_cons_self) htail.space
      rw [List.append_nil] at hpiece
      simp [toList_sentence_singleton, hcs, pieces, hpiece, Piece.kind?, Piece.fault?]
    | cons kind' kinds =>
      have htail : BlankAhead (' ' :: (sentence (kind' :: kinds)).toList) :=
        fun d hd => (Option.some.inj hd).symm
      obtain ⟨c, cs, hcs, hpiece⟩ := nextPiece_lexeme (h kind List.mem_cons_self) htail.space
      have hblank (cs : List Char) : nextPiece ' ' cs = (.blank ' ', cs) := rfl
      rw [toList_sentence_cons, hcs, List.cons_append, pieces, hpiece, pieces, hblank]
      exact ⟨congrArg (kind :: ·) ih, ih'⟩

/-- **Words that are written with blanks between them are read again**, without a report. -/
theorem lex_sentence {kinds : List TokenKind} (h : ∀ k ∈ kinds, k.Proper) :
    (lex (sentence kinds)).tokens.map (·.kind) = kinds ∧ (lex (sentence kinds)).reports = [] := by
  obtain ⟨hkinds, hfaults⟩ := filterMap_pieces_sentence h
  obtain ⟨lines, -, hreports⟩ := reports_ofPieces 1 (pieces (sentence kinds).toList)
  refine ⟨(kinds_ofPieces 1 _).trans hkinds, ?_⟩
  rw [hfaults, List.zipWith_nil_right] at hreports
  exact hreports

end LoxLang
