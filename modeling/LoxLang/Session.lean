import LoxLang.Evaluation
import LoxLang.Tree.Parsing

/-!
# Sessions

A session runs one source text after the other. What a text defines stays for the texts after it.
A text with a static error is not executed, nor are the texts after it until the session is reset.
-/

namespace LoxLang

/-- The levels of nesting that a recursion limit allows for. A level stands for about three frames
of the stack. However large the recursion limit, there is an end to the levels. -/
def levelsOfRecursionLimit (n : Nat) : Nat := min (n / 3) 8000

/-- The levels of nesting where no recursion limit is asked for. -/
def defaultLevels : Nat := levelsOfRecursionLimit 1000

/-- A session between two runs. -/
structure Session where
  machine : Machine
  /-- The number for the next use of a name. -/
  nextUse : UseId
  /-- Whether a static error was reported since the last reset. -/
  hadError : Bool
  /-- Whether a run failed since the last reset. -/
  hadRuntimeError : Bool

/-- How a run of a source text ends. -/
inductive Ending where
  /-- Nothing was executed, because of a static error. -/
  | refused
  | finished
  | failed (f : Failure)
  /-- A local name was looked up where it is not. Nothing is reported. -/
  | lost (e : FrameError)
  | endless
deriving DecidableEq, Repr

/-- What a run of a source text showed: what it printed, the static errors reported, and how it
ended. -/
structure Transcript where
  output : String
  reports : List Report
  ending : Ending
deriving DecidableEq, Repr

namespace Transcript

/-- The text of diagnostics. -/
def diagnostics (t : Transcript) : String :=
  Report.texts t.reports ++
    match t.ending with
    | .failed f => f.text
    | _ => ""

end Transcript

/-- How a program with its end on a line has ended. Levels that run out outside all calls are
a stack overflow at the end of the source. -/
def Ending.ofAbort (endLine : Nat) : Abort → Ending
  | .failure f => .failed f
  | .frame e => .lost e
  | .tooDeep => .failed ⟨.endOfSource endLine, .stackOverflow⟩
  | .endless => .endless

/-- Whether a run ended with a failure. -/
def Ending.isFailure : Ending → Bool
  | failed _ => true
  | _ => false

namespace Session

/-- A session in which nothing has run. -/
def initial : Session := ⟨.initial, 0, false, false⟩

/-- Forgets that there were errors. -/
def reset (s : Session) : Session := { s with hadError := false, hadRuntimeError := false }

/-- The globals with the texts of their values, sorted by name. -/
def globals (s : Session) : Bindings String :=
  s.machine.globals.map fun (name, v) => (name, s.machine.text v)

/-- Executes the statements of a program, whose uses of local names have been resolved. What was
printed before is not kept. -/
def executeProgram (host : Host) (depth endLine : Nat) (program : List Stmt)
    (uses : List Resolved) (m : Machine) : Ending × Machine :=
  let m := { m with output := "", distances := m.distances.insertAll uses }
  match execute host depth program m with
  | .ok _ m => (.finished, m)
  | .error abort m => (.ofAbort endLine abort, m)

/-- Runs a source text with at most `depth` levels of nesting in each stage. -/
def run (host : Host) (depth : Nat) (s : Session) (source : String) : Transcript × Session :=
  let lexed := lex source
  let parsed := parse depth s.nextUse lexed
  let reports := lexed.reports ++ parsed.reports
  let s := { s with nextUse := parsed.nextUse, hadError := s.hadError || !reports.isEmpty }
  if s.hadError then (⟨"", reports, .refused⟩, s)
  else
    let resolution := resolve depth lexed.endLine parsed.statements
    if !resolution.reports.isEmpty then
      (⟨"", resolution.reports, .refused⟩, { s with hadError := true })
    else
      let (ending, machine) :=
        executeProgram host depth lexed.endLine parsed.statements resolution.uses s.machine
      (⟨machine.output, [], ending⟩,
        { s with machine, hadRuntimeError := s.hadRuntimeError || ending.isFailure })

end Session

end LoxLang
