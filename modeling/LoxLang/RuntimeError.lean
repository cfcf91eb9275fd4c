import LoxLang.Token

/-!
# Run-time errors

What can go wrong while a program runs, as causes, and the wording of each.
-/

namespace LoxLang

/-- The cause of a run-time error. -/
inductive RuntimeError where
  | undefinedVariable (name : String)
  | undefinedProperty (name : String)
  | undefinedStaticMethod (name : String)
  | operandNotNumber
  | operandsNotNumbers
  | operandsNotAddable
  | notCallable
  | argumentCount (expected got : Nat)
  | noProperties
  | noFields
  | superclassNotClass
  | stackOverflow
deriving DecidableEq, Repr

/-- The wording of a run-time error. -/
def RuntimeError.message : RuntimeError → String
  | undefinedVariable name => s!"Undefined variable '{name}'."
  | undefinedProperty name => s!"Undefined property '{name}'."
  | undefinedStaticMethod name => s!"Undefined static method '{name}'."
  | operandNotNumber => "Operand must be a number."
  | operandsNotNumbers => "Operands must be numbers."
  | operandsNotAddable => "Operands must be two numbers or two strings."
  | notCallable => "Can only call functions and classes."
  | argumentCount expected got => s!"Expected {expected} arguments but got {got}."
  | noProperties => "Only instances have properties."
  | noFields => "Only instances have fields."
  | superclassNotClass => "Superclass must be a class."
  | stackOverflow => "Stack overflow."

/-- A run-time error and the place that it is reported at. -/
structure Failure where
  place : Location
  error : RuntimeError
deriving DecidableEq, Repr

/-- A failure as it is written to diagnostics: the wording, then the line. -/
def Failure.text (f : Failure) : String := s!"{f.error.message}\n[line {f.place.line}]\n"

end LoxLang
