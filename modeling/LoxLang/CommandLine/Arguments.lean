import LoxLang.Number.Integer

/-!
# Command-line arguments

What the words of a command line ask for. There is one operand, the script, and there are two
options, one of which takes a value. Long options can be shortened as long as it is clear which one
is meant. Words are looked at in their order, so help that is asked for before a fault is given.
-/

namespace LoxLang.CommandLine

/-- What a word of the command line is. -/
inductive Argument where
  | operand (text : String)
  /-- Two dashes, after which there are only operands. -/
  | separator
  | help
  /-- The option for help with a value, which it does not take. -/
  | helpWithValue
  /-- The option for the recursion limit, with its value if that is in the same word. -/
  | recursionLimit (value : Option String)
  /-- A word that looks like an option and is none. -/
  | unknown
  /-- A shortened option that could be several. -/
  | ambiguous
deriving DecidableEq, Repr

/-- The two long options. -/
inductive LongOption where
  | help
  | recursionLimit
deriving DecidableEq, Repr

/-- The word for a long option. -/
def LongOption.text : LongOption → String
  | help => "--help"
  | recursionLimit => "--recursion-limit"

/-- Whether a text is a negative number, which is an operand and no option: a dash and digits, with
a decimal point before or among them, or without one. A line break may follow. -/
def isNegativeNumber (cs : List Char) : Bool :=
  let isDigit (c : Char) := (Number.digitOfScript? c).isSome
  match cs with
  | '-' :: cs =>
    let cs := if cs.getLast? = some '\n' then cs.dropLast else cs
    match cs.dropWhile isDigit with
    | [] => !cs.isEmpty
    | '.' :: fraction => !fraction.isEmpty && fraction.all isDigit
    | _ => false
  | _ => false

/-- A word with a dash at its front that is no option. -/
def Argument.ofStray (cs : List Char) : Argument :=
  if isNegativeNumber cs || cs.contains ' ' then .operand (String.ofList cs) else .unknown

/-- A word of several short options, the first of which is `-h`. An equals sign may stand behind
that. There is no other short option, so the word asks for help if all its letters do, and otherwise
gives a value to help. -/
def Argument.ofHelpCluster (tail : List Char) : Argument :=
  let letters := match tail with
    | '=' :: letters => letters
    | letters => letters
  if !letters.isEmpty && letters.all (· = 'h') then .help else .helpWithValue

/-- A word that starts with two dashes. -/
def Argument.ofLong (cs : List Char) : Argument :=
  let name := cs.takeWhile (· ≠ '=')
  let value := match cs.dropWhile (· ≠ '=') with
    | [] => none
    | _ :: value => some (String.ofList value)
  let candidates := [LongOption.help, .recursionLimit].filter fun o =>
    name.isPrefixOf o.text.toList
  match candidates, value with
  | [], _ => .ofStray cs
  | [.help], none => .help
  | [.help], some _ => .helpWithValue
  | [.recursionLimit], value => .recursionLimit value
  | _, _ => .ambiguous

/-- What a word is, as long as no separator stands before it. -/
def Argument.ofWord (word : String) : Argument :=
  match word.toList with
  | ['-', '-'] => .separator
  | '-' :: '-' :: cs => .ofLong ('-' :: '-' :: cs)
  | ['-', 'h'] => .help
  | '-' :: 'h' :: tail => .ofHelpCluster tail
  | ['-'] => .operand word
  | '-' :: cs => .ofStray ('-' :: cs)
  | _ => .operand word

/-- What the words of a command line are. -/
def Argument.ofWords : List String → List Argument
  | [] => []
  | word :: words =>
    match Argument.ofWord word with
    | .separator => .separator :: words.map .operand
    | a => a :: Argument.ofWords words

/-- The recursion limit that a command line asks for. -/
inductive RecursionLimit where
  /-- None is asked for. -/
  | standard
  | limit (n : Int)
  /-- Two dashes stand in the place of the value. They are accepted there, and mean no value. -/
  | blank
deriving DecidableEq, Repr

/-- The recursion limit that the value of the option means, if it means one. -/
def RecursionLimit.ofValue? (value : String) : Option RecursionLimit :=
  if value = "--" then some blank else (Number.readInteger? value).map limit

/-- What a command line asks for. -/
inductive Request where
  | help
  | misuse
  | run (script : Option String) (recursionLimit : RecursionLimit)
deriving DecidableEq, Repr

/-- What has been found on the command line so far: the script, the recursion limit, and whether
there were words that mean nothing. -/
structure Found where
  script : Option String
  recursionLimit : RecursionLimit
  stray : Bool
deriving DecidableEq, Repr

namespace Found

/-- Takes an operand. Only the first is the script. -/
def operand (found : Found) (text : String) : Found :=
  match found.script with
  | none => { found with script := some text }
  | some _ => { found with stray := true }

/-- The request, when all words have been looked at. -/
def request (found : Found) : Request :=
  if found.stray then .misuse else .run found.script found.recursionLimit

end Found

/-- Reads on from what has been found. -/
def readArguments (found : Found) : List Argument → Request
  | [] => found.request
  | .operand text :: .separator :: rest =>
    if found.script.isSome then .misuse else readArguments (found.operand text) rest
  | .operand text :: rest => readArguments (found.operand text) rest
  | .separator :: rest => if found.script.isSome then .misuse else readArguments found rest
  | .help :: _ => .help
  | .helpWithValue :: _ => .misuse
  | .ambiguous :: _ => .misuse
  | .unknown :: rest => readArguments { found with stray := true } rest
  | .recursionLimit (some value) :: rest =>
    match RecursionLimit.ofValue? value with
    | none => .misuse
    | some recursionLimit => readArguments { found with recursionLimit } rest
  | .recursionLimit none :: .operand value :: rest =>
    match RecursionLimit.ofValue? value with
    | none => .misuse
    | some recursionLimit => readArguments { found with recursionLimit } rest
  | .recursionLimit none :: _ => .misuse

/-- What a command line asks for. A word that could be several options spoils it all. -/
def Request.ofWords (words : List String) : Request :=
  let arguments := Argument.ofWords words
  if arguments.contains .ambiguous then .misuse
  else readArguments ⟨none, .standard, false⟩ arguments

end LoxLang.CommandLine
