import LoxLang.Report

/-!
# From characters to tokens

A source text is cut into pieces, each the longest possible at its place: tokens, comments,
blanks, and the two kinds of faulty pieces. Nothing is lost (`text_nextPiece`), and each piece has
at least one character (`length_nextPiece_le`), so cutting ends. Lines are counted over the pieces
afterwards.
-/

namespace LoxLang

/-- A decimal digit. Only the ASCII digits count. -/
def isDigit (c : Char) : Bool := '0' ≤ c && c ≤ '9'

/-- A character that can begin a name. Only ASCII letters and the underscore count. -/
def isNameStart (c : Char) : Bool := ('a' ≤ c && c ≤ 'z') || ('A' ≤ c && c ≤ 'Z') || c = '_'

/-- A character that can go on a name. -/
def isNamePart (c : Char) : Bool := isNameStart c || isDigit c

/-- A piece of a source text. -/
inductive Piece where
  | token (kind : TokenKind)
  /-- Two slashes and the rest of the line, without its line break. -/
  | comment (body : List Char)
  | blank (c : Char)
  /-- A character that begins no other piece. -/
  | unexpected (c : Char)
  /-- A quotation mark with no partner, and all that follows it. -/
  | unterminated (body : List Char)
deriving DecidableEq, Repr

namespace Piece

/-- The characters of a piece. -/
def text : Piece → List Char
  | token kind => kind.lexeme.toList
  | comment body => '/' :: '/' :: body
  | blank c => [c]
  | unexpected c => [c]
  | unterminated body => '"' :: body

/-- The number of line breaks in a piece. -/
def lineBreaks (p : Piece) : Nat := p.text.count '\n'

/-- The token made of a mark. -/
def ofMark (m : Mark) : Piece := token (.mark m)

/-- The token made of a word: a keyword, or else an identifier. -/
def ofWord (cs : List Char) : Piece :=
  let word := String.ofList cs
  match Keyword.ofText? word with
  | some k => token (.keyword k)
  | none => token (.identifier word)

end Piece

/-- A mark that an equals sign makes longer. -/
def markBeforeEqual (short long : Mark) : List Char → Piece × List Char
  | '=' :: rest => (.ofMark long, rest)
  | rest => (.ofMark short, rest)

/-- A division sign or a comment, after a slash. -/
def afterSlash : List Char → Piece × List Char
  | '/' :: rest => (.comment (rest.takeWhile (· ≠ '\n')), rest.dropWhile (· ≠ '\n'))
  | rest => (.ofMark .slash, rest)

/-- A string, after its opening quotation mark. It may run over several lines. -/
def afterQuote (rest : List Char) : Piece × List Char :=
  let content := rest.takeWhile (· ≠ '"')
  match rest.dropWhile (· ≠ '"') with
  | [] => (.unterminated content, [])
  -- What is dropped here is the closing quotation mark.
  | _ :: rest' => (.token (.string (String.ofList content)), rest')

/-- A number that starts with the digit `c`. A point belongs to it only if a digit follows. -/
def afterDigit (c : Char) (rest : List Char) : Piece × List Char :=
  let whole := c :: rest.takeWhile isDigit
  match rest.dropWhile isDigit with
  | '.' :: d :: rest' =>
    if isDigit d then
      (.token (.number (String.ofList (whole ++ '.' :: d :: rest'.takeWhile isDigit))),
        rest'.dropWhile isDigit)
    else (.token (.number (String.ofList whole)), '.' :: d :: rest')
  | rest' => (.token (.number (String.ofList whole)), rest')

/-- A keyword or identifier that starts with `c`. -/
def afterNameStart (c : Char) (rest : List Char) : Piece × List Char :=
  (.ofWord (c :: rest.takeWhile isNamePart), rest.dropWhile isNamePart)

/-- The mark of one character that no other character makes longer. -/
def singleMark? : Char → Option Mark
  | '(' => some .leftParen
  | ')' => some .rightParen
  | '{' => some .leftBrace
  | '}' => some .rightBrace
  | ',' => some .comma
  | '.' => some .dot
  | '-' => some .minus
  | '+' => some .plus
  | ';' => some .semicolon
  | '*' => some .star
  | _ => none

/-- The marks that start with a character and can be followed by an equals sign: without it and
with it. -/
def markPair? : Char → Option (Mark × Mark)
  | '!' => some (.bang, .bangEqual)
  | '=' => some (.equal, .equalEqual)
  | '<' => some (.less, .lessEqual)
  | '>' => some (.greater, .greaterEqual)
  | _ => none

/-- White space between tokens. -/
def isBlank (c : Char) : Bool := c = ' ' || c = '\r' || c = '\t' || c = '\n'

/-- The piece that starts with `c`, and what remains after it. -/
def nextPiece (c : Char) (rest : List Char) : Piece × List Char :=
  match singleMark? c with
  | some m => (.ofMark m, rest)
  | none =>
    match markPair? c with
    | some (short, long) => markBeforeEqual short long rest
    | none =>
      if c = '/' then afterSlash rest
      else if isBlank c then (.blank c, rest)
      else if c = '"' then afterQuote rest
      else if isDigit c then afterDigit c rest
      else if isNameStart c then afterNameStart c rest
      else (.unexpected c, rest)

/-!
## Nothing is lost

The texts of the pieces make up the source, character by character, also those of blanks, comments
and characters that belong to no token.
-/

theorem text_ofMark (m : Mark) : (Piece.ofMark m).text = m.text.toList := rfl

theorem text_ofWord (cs : List Char) : (Piece.ofWord cs).text = cs := by
  simp only [Piece.ofWord]
  split
  · next k h =>
    have := List.find?_some h
    simp only [decide_eq_true_eq] at this
    simp [Piece.text, TokenKind.lexeme, this]
  · simp [Piece.text, TokenKind.lexeme]

theorem head_dropWhile_eq_quote {cs : List Char} {c : Char} {rest : List Char}
    (h : cs.dropWhile (· ≠ '"') = c :: rest) : c = '"' := by
  have := List.head?_dropWhile_not (· ≠ '"') cs
  rw [h] at this
  simpa using this

/-- A piece and what remains after it make up the text it was cut from. -/
theorem text_nextPiece (c : Char) (rest : List Char) :
    (nextPiece c rest).1.text ++ (nextPiece c rest).2 = c :: rest := by
  unfold nextPiece
  split
  · next m h =>
    unfold singleMark? at h
    split at h <;> simp_all <;> subst h <;> rfl
  split
  · next short long h =>
    unfold markPair? at h
    unfold markBeforeEqual
    split at h <;> simp_all <;> obtain ⟨rfl, rfl⟩ := h <;> split <;> rfl
  split
  · next h =>
    unfold afterSlash
    split
    · simp [Piece.text, h, List.takeWhile_append_dropWhile]
    · simp [text_ofMark, Mark.text, h]
  split
  · rfl
  split
  · next h =>
    -- The quote that ends a string is dropped from the rest and stands in the piece.
    unfold afterQuote
    simp only
    split
    · next h' =>
      have := @List.takeWhile_append_dropWhile _ (· ≠ '"') rest
      rw [h'] at this
      simpa [Piece.text, h] using this
    · next d rest' h' =>
      have := @List.takeWhile_append_dropWhile _ (· ≠ '"') rest
      have hd := head_dropWhile_eq_quote h'
      rw [h', hd] at this
      simpa [Piece.text, TokenKind.lexeme, h] using this
  split
  -- A point belongs to the number only with a digit behind it.
  · unfold afterDigit
    simp only
    have parts := @List.takeWhile_append_dropWhile _ isDigit rest
    split
    · next d rest' h' =>
      rw [h'] at parts
      split
      · simp [Piece.text, TokenKind.lexeme, List.takeWhile_append_dropWhile, parts]
      · simp [Piece.text, TokenKind.lexeme, parts]
    · simp [Piece.text, TokenKind.lexeme]
  split
  · simp [afterNameStart, text_ofWord, List.takeWhile_append_dropWhile]
  · rfl

/-!
## Progress

Each piece takes at least one character, so cutting a text into pieces comes to an end.
-/

theorem length_dropWhile_le (p : Char → Bool) (cs : List Char) :
    (cs.dropWhile p).length ≤ cs.length :=
  (List.dropWhile_suffix p).sublist.length_le

/-- What remains after a piece is no longer than what follows the piece's first character. -/
theorem length_nextPiece_le (c : Char) (rest : List Char) :
    (nextPiece c rest).2.length ≤ rest.length := by
  unfold nextPiece
  split
  · simp
  split
  · unfold markBeforeEqual; split <;> simp
  split
  · unfold afterSlash
    split
    · exact Nat.le_succ_of_le (length_dropWhile_le _ _)
    · simp
  split
  · simp
  split
  · unfold afterQuote
    simp only
    split
    · simp
    · next h =>
      have := length_dropWhile_le (· ≠ '"') rest
      rw [h] at this
      exact Nat.le_of_succ_le this
  split
  · unfold afterDigit
    simp only
    split
    · next d rest' h =>
      have := length_dropWhile_le isDigit rest
      rw [h] at this
      simp only [List.length_cons] at this
      split
      · have := length_dropWhile_le isDigit rest'
        simp only
        omega
      · simpa using this
    · exact length_dropWhile_le _ _
  split
  · exact length_dropWhile_le _ _
  · simp

/-- The pieces of a source text. -/
def pieces : List Char → List Piece
  | [] => []
  | c :: rest => (nextPiece c rest).1 :: pieces (nextPiece c rest).2
termination_by cs => cs.length
decreasing_by
  have := length_nextPiece_le c rest
  simp only [List.length_cons]
  omega

/-- The outcome of cutting a source text: its tokens, the line on which it ends, and what was
reported. -/
structure Lexed where
  tokens : List Token
  endLine : Nat
  reports : List Report
deriving DecidableEq, Repr

/-- Puts a piece that ends on a line in front of what follows it. -/
def Lexed.cons (p : Piece) (line : Nat) (next : Lexed) : Lexed :=
  match p with
  | .token kind => { next with tokens := ⟨kind, line⟩ :: next.tokens }
  | .comment _ | .blank _ => next
  | .unexpected c =>
    { next with reports := .lexical line (.unexpectedCharacter c) :: next.reports }
  | .unterminated _ => { next with reports := .lexical line .unterminatedString :: next.reports }

/-- The tokens and reports of pieces that start on a line. Each is placed on the line on which its
piece ends. -/
def Lexed.ofPieces (line : Nat) : List Piece → Lexed
  | [] => ⟨[], line, []⟩
  | p :: ps => .cons p (line + p.lineBreaks) (.ofPieces (line + p.lineBreaks) ps)

/-- Cuts a source text into tokens. -/
def lex (source : String) : Lexed := .ofPieces 1 (pieces source.toList)

namespace Lexed

/-- The place after the last token. -/
def endLocation (l : Lexed) : Location := .endOfSource l.endLine

/-- The tokens, followed by the end of the source. -/
def locations (l : Lexed) : List Location := l.tokens.map .token ++ [l.endLocation]

end Lexed

end LoxLang
