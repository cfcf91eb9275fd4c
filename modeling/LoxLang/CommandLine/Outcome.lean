import LoxLang.Frames

/-!
# Outcomes

What a command line leaves behind: the text on both output streams, and how it ended.
-/

namespace LoxLang.CommandLine

/-- The exit codes. -/
inductive ExitCode where
  | ok
  | usage
  | staticError
  | runtimeError
deriving DecidableEq, Repr

/-- The number of an exit code. -/
def ExitCode.number : ExitCode → Nat
  | ok => 0
  | usage => 64
  | staticError => 65
  | runtimeError => 70

/-- How a command line ended. -/
inductive Exit where
  | code (c : ExitCode)
  /-- A local name was looked up where it is not. -/
  | lost (e : FrameError)
  /-- A loop did not end. -/
  | endless
  /-- The script is not a text. -/
  | notText
  /-- No file can have the name of the script. -/
  | impossibleName
  /-- The recursion limit has no value. -/
  | limitMissing
  /-- The recursion limit is not positive. -/
  | limitTooLow
  /-- The recursion limit is used up before the script is read. -/
  | limitUsedUp
  /-- The recursion limit is larger than any that can be set. -/
  | limitTooHigh
deriving DecidableEq, Repr

/-- The outcome of a command line. -/
structure Outcome where
  output : String
  diagnostics : String
  exit : Exit
deriving DecidableEq, Repr

namespace Outcome

/-- An outcome that shows nothing. -/
def silent (exit : Exit) : Outcome := ⟨"", "", exit⟩

/-- An outcome with more text in front. -/
def after (o : Outcome) (output diagnostics : String) : Outcome :=
  { o with output := output ++ o.output, diagnostics := diagnostics ++ o.diagnostics }

end Outcome

end LoxLang.CommandLine
