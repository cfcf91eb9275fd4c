import LoxLang.Literal
import LoxLang.Number.Text

/-!
# Tokens

The words of the language. A token is a kind, which determines its text, and the line on which it
ends.
-/

namespace LoxLang

/-- Operators and punctuation marks. -/
inductive Mark where
  | leftParen | rightParen | leftBrace | rightBrace | comma | dot | minus | plus | semicolon
  | star | slash | bang | bangEqual | equal | equalEqual | greater | greaterEqual | less
  | lessEqual
deriving DecidableEq, Repr

namespace Mark

/-- The text of a mark. -/
def text : Mark → String
  | leftParen => "("
  | rightParen => ")"
  | leftBrace => "\x7b"
  | rightBrace => "\x7d"
  | comma => ","
  | dot => "."
  | minus => "-"
  | plus => "+"
  | semicolon => ";"
  | star => "*"
  | slash => "/"
  | bang => "!"
  | bangEqual => "!="
  | equal => "="
  | equalEqual => "=="
  | greater => ">"
  | greaterEqual => ">="
  | less => "<"
  | lessEqual => "<="

/-- The name of a mark's kind in token listings. -/
def label : Mark → String
  | leftParen => "LEFT_PAREN"
  | rightParen => "RIGHT_PAREN"
  | leftBrace => "LEFT_BRACE"
  | rightBrace => "RIGHT_BRACE"
  | comma => "COMMA"
  | dot => "DOT"
  | minus => "MINUS"
  | plus => "PLUS"
  | semicolon => "SEMICOLON"
  | star => "STAR"
  | slash => "SLASH"
  | bang => "BANG"
  | bangEqual => "BANG_EQUAL"
  | equal => "EQUAL"
  | equalEqual => "EQUAL_EQUAL"
  | greater => "GREATER"
  | greaterEqual => "GREATER_EQUAL"
  | less => "LESS"
  | lessEqual => "LESS_EQUAL"

end Mark

/-- Words that cannot be used as names. -/
inductive Keyword where
  | and | «class» | «else» | «false» | «for» | «fun» | «if» | nil | or | print | «return» | super
  | this | «true» | var | «while»
deriving DecidableEq, Repr

namespace Keyword

/-- All keywords. -/
def all : List Keyword :=
  [and, «class», «else», «false», «for», «fun», «if», nil, or, print, «return», super, this,
    «true», var, «while»]

/-- The text of a keyword. -/
def text : Keyword → String
  | and => "and"
  | «class» => "class"
  | «else» => "else"
  | «false» => "false"
  | «for» => "for"
  | «fun» => "fun"
  | «if» => "if"
  | nil => "nil"
  | or => "or"
  | print => "print"
  | «return» => "return"
  | super => "super"
  | this => "this"
  | «true» => "true"
  | var => "var"
  | «while» => "while"

/-- The keyword with a given text. -/
def ofText? (s : String) : Option Keyword := all.find? (·.text = s)

/-- The name of a keyword's kind in token listings. -/
def label (k : Keyword) : String := k.text.toUpper

/-- Whether a keyword begins a declaration or statement, so that parsing can take up again at it
after an error. -/
def startsStatement : Keyword → Bool
  | «class» | «fun» | var | «for» | «if» | «while» | print | «return» => Bool.true
  | _ => Bool.false

end Keyword

/-- What a token is. A number keeps its text, of which its value is a function. -/
inductive TokenKind where
  | mark (m : Mark)
  | keyword (k : Keyword)
  | identifier (name : String)
  | string (content : String)
  | number (text : String)
deriving DecidableEq, Repr

namespace TokenKind

/-- The text of a token in the source. -/
def lexeme : TokenKind → String
  | mark m => m.text
  | keyword k => k.text
  | identifier name => name
  | string content => "\"" ++ content ++ "\""
  | number text => text

/-- The name of a token's kind in token listings. -/
def label : TokenKind → String
  | mark m => m.label
  | keyword k => k.label
  | identifier _ => "IDENTIFIER"
  | string _ => "STRING"
  | number _ => "NUMBER"

/-- The value of a string or number token. The other kinds have none, the words `true`, `false`
and `nil` included. -/
def literal? : TokenKind → Option Literal
  | string content => some (.string content)
  | number text => some (.number (Number.read text))
  | _ => none

end TokenKind

/-- A token of a source text, with the line on which it ends. -/
structure Token where
  kind : TokenKind
  line : Nat
deriving DecidableEq, Repr

/-- A place of a source text that a message can point at: a token, or the end of the text. -/
inductive Location where
  | token (t : Token)
  | endOfSource (line : Nat)
deriving DecidableEq, Repr

namespace Location

/-- The line of a location. -/
def line : Location → Nat
  | token t => t.line
  | endOfSource line => line

/-- The text found at a location, empty at the end of the source. -/
def lexeme : Location → String
  | token t => t.kind.lexeme
  | endOfSource _ => ""

/-- The name of the kind of thing at a location. -/
def label : Location → String
  | token t => t.kind.label
  | endOfSource _ => "EOF"

/-- The value of the string or number at a location. -/
def literal? : Location → Option Literal
  | token t => t.kind.literal?
  | endOfSource _ => none

/-- One line of a token listing: kind, text and value. -/
def listing (l : Location) : String :=
  let value := match l.literal? with
    | some (.string s) => s
    | some (.number x) => Number.debugText x
    | _ => "None"
  s!"{l.label} {l.lexeme} {value}"

end Location

end LoxLang
