import LoxLang.CommandLine.Outcome
import LoxLang.Session

/-!
# The prompt

At the prompt, each line of input is a source text of its own, run in one session. Errors in a line
do not concern the lines after it.
-/

namespace LoxLang.CommandLine

/-- What is shown before each line is read. -/
def promptSign : String := "> "

/-- The lines of a text, each with the line break that ends it. -/
def lines : List Char → List (List Char)
  | [] => []
  | c :: cs =>
    if c = '\n' then [c] :: lines cs
    else
      match lines cs with
      | [] => [[c]]
      | line :: more => (c :: line) :: more

/-- How the prompt ends because of how a line ended, if it does. -/
def exitOfEnding? : Ending → Option Exit
  | .lost e => some (.lost e)
  | .endless => some .endless
  | .refused | .finished | .failed _ => none

/-- Runs lines at the prompt. -/
def prompt (host : Host) (depth : Nat) : Session → List String → Outcome
  | _, [] => ⟨promptSign ++ "\n", "", .code .ok⟩
  | s, line :: more =>
    let (t, s) := s.run host depth line
    let next : Outcome := match exitOfEnding? t.ending with
      | some exit => .silent exit
      | none => prompt host depth s.reset more
    next.after (promptSign ++ t.output) t.diagnostics

/-- Runs a text at the prompt, in a session of its own. -/
def promptText (host : Host) (depth : Nat) (input : String) : Outcome :=
  prompt host depth .initial ((lines input.toList).map String.ofList)

end LoxLang.CommandLine
