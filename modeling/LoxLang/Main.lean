import LoxLang.CommandLine

/-!
# The program

Reads the command line, the script and standard input, and writes what comes of them.
-/

namespace LoxLang.CommandLine

/-- The surroundings of a program that is run from the command line, started at a time in
milliseconds. The clock goes on by a millisecond with each reading. -/
def hostAt (start : Nat) : Host := ⟨fun reading => (start + reading).toFloat / 1000, 1 <<< 62⟩

/-- Writes what a run showed. -/
def write (output diagnostics : String) : IO Unit := do
  let out ← IO.getStdout
  out.putStr output
  out.flush
  (← IO.getStderr).putStr diagnostics

/-- The exit code of an outcome. -/
def codeOf : Exit → UInt32
  | .code c => c.number.toUInt32
  | _ => 1

/-- The number by which the system says that what was opened as a file is a directory. -/
def directoryErrorCode : UInt32 := 21

/-- The error that reading a file ended with. -/
def fileError : IO.Error → FileError
  | .inappropriateType _ code _ =>
    if code = directoryErrorCode then .isDirectory else .notDirectory
  | .invalidArgument .. => .nameTooLong
  | .permissionDenied .. => .permissionDenied
  | _ => .notFound

/-- Reads a file. -/
def readFile (path : String) : IO (Except FileError ByteArray) :=
  try
    return .ok (← IO.FS.readBinFile path)
  catch e =>
    return .error (fileError e)

/-- Reads and runs lines until the input ends. -/
partial def interact (host : Host) (depth : Nat) (s : Session) : IO UInt32 := do
  write promptSign ""
  let line ← (← IO.getStdin).getLine
  if line.isEmpty then
    write "\n" ""
    return 0
  let (t, s) := s.run host depth line
  write t.output t.diagnostics
  match exitOfEnding? t.ending with
  | some exit => return codeOf exit
  | none => interact host depth s.reset

end LoxLang.CommandLine

open LoxLang LoxLang.CommandLine

/-- Runs the command line. -/
def main (args : List String) : IO UInt32 := do
  let host := hostAt (← IO.monoMsNow)
  let request := Request.ofWords args
  match request with
  | .run none recursionLimit =>
    match levels recursionLimit with
    | .ok depth => interact host depth .initial
    | .error exit => return codeOf exit
  | .run (some script) _ =>
    let content ← readFile script
    let outcome := request.outcome host (fun _ => content) ""
    write outcome.output outcome.diagnostics
    return codeOf outcome.exit
  | _ =>
    let outcome := request.outcome host (fun _ => .error .notFound) ""
    write outcome.output outcome.diagnostics
    return codeOf outcome.exit
