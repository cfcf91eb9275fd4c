import LoxLang.CommandLine.Arguments
import LoxLang.CommandLine.Directory
import LoxLang.CommandLine.Prompt

/-!
# The command line

A command line runs a script, or starts the prompt if it names none. The exit code tells apart wrong
usage, static errors and failures of the program.
-/

namespace LoxLang.CommandLine

/-- The name under which the program reports. -/
def programName : String := "pylox"

/-- How the program is used. -/
def usage : String :=
  "usage: " ++ programName ++ " [-h] [--recursion-limit RECURSION_LIMIT] [script]\n"

/-- The text of help. -/
def helpText : String :=
  usage ++ "\nRun Lox scripts\n\npositional arguments:\n" ++
    "  script                script to run; starts a prompt when omitted\n\noptions:\n" ++
    "  -h, --help            show this help message and exit\n" ++
    "  --recursion-limit RECURSION_LIMIT\n" ++
    "                        recursion limit, bounds the depth of calls\n"

/-- A text with line breaks of one kind: a carriage return, with or without a line feed behind it,
becomes a line feed. -/
def normalizeLineBreaks : List Char → List Char
  | [] => []
  | '\r' :: '\n' :: cs => '\n' :: normalizeLineBreaks cs
  | '\r' :: cs => '\n' :: normalizeLineBreaks cs
  | c :: cs => c :: normalizeLineBreaks cs

/-- The source text of a script, if its content is text in UTF-8. -/
def sourceText? (content : ByteArray) : Option String :=
  (String.fromUTF8? content).map fun s => String.ofList (normalizeLineBreaks s.toList)

/-- The exit code of a session. A static error counts for more than a failure. -/
def exitCode (s : Session) : ExitCode :=
  if s.hadError then .staticError
  else if s.hadRuntimeError then .runtimeError
  else .ok

/-- Runs a source text in a session of its own. -/
def runSource (host : Host) (depth : Nat) (source : String) : Outcome :=
  let (t, s) := Session.initial.run host depth source
  ⟨t.output, t.diagnostics, (exitOfEnding? t.ending).getD (.code (exitCode s))⟩

/-- Runs the content of a script. -/
def runContent (host : Host) (depth : Nat) (content : ByteArray) : Outcome :=
  match sourceText? content with
  | none => .silent .notText
  | some source => runSource host depth source

/-- Runs a script, given what came of reading it. A name with a NUL in it is no name of a file. -/
def runScript (host : Host) (depth : Nat) (script : String)
    (content : Except FileError ByteArray) : Outcome :=
  if script.toList.contains '\x00' then .silent .impossibleName
  else
    match content with
    | .ok content => runContent host depth content
    | .error e => ⟨"", s!"{programName}: {script}: {e.message}\n", .code .usage⟩

/-- The largest recursion limit that can be set. -/
def maxRecursionLimit : Int := 0x7fffffff

/-- The largest recursion limit that leaves no room for anything but the program itself. -/
def programFrames : Int := 10

/-- The levels of nesting that a recursion limit allows for, if it can be set. -/
def levels : RecursionLimit → Except Exit Nat
  | .standard => .ok defaultLevels
  | .blank => .error .limitMissing
  | .limit n =>
    if n > maxRecursionLimit ∨ n < -maxRecursionLimit - 1 then .error .limitTooHigh
    else if n < 1 then .error .limitTooLow
    else if n ≤ programFrames then .error .limitUsedUp
    else .ok (levelsOfRecursionLimit n.toNat)

/-- What comes of a request, given how files are read and the text of standard input. -/
def Request.outcome (host : Host) (read : String → Except FileError ByteArray) (input : String) :
    Request → Outcome
  | help => ⟨helpText, "", .code .ok⟩
  | misuse => ⟨"", usage, .code .usage⟩
  | run script recursionLimit =>
    match levels recursionLimit, script with
    | .error exit, _ => .silent exit
    | .ok depth, none => promptText host depth input
    | .ok depth, some script => runScript host depth script (read script)

end LoxLang.CommandLine
