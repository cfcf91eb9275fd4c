import LoxLang.Token

/-!
# Reports

What can be wrong with a program text, as causes, and the wording of each. A report is a cause at
a place; a report that has been written is one line of diagnostics.
-/

namespace LoxLang

/-- What can be wrong below the level of tokens. -/
inductive LexicalError where
  | unexpectedCharacter (c : Char)
  | unterminatedString
deriving DecidableEq, Repr

/-- The wording of a lexical error. -/
def LexicalError.message : LexicalError → String
  | unexpectedCharacter c => s!"Unexpected character '{c}'."
  | unterminatedString => "Unterminated string."

/-- The two kinds of named functions. -/
inductive FunctionKind where
  | function
  | method
deriving DecidableEq, Repr

/-- The word for a kind of function. -/
def FunctionKind.text : FunctionKind → String
  | function => "function"
  | method => "method"

/-- What a name is for, where the grammar asks for one. -/
inductive NameRole where
  | className
  | superclass
  | function (kind : FunctionKind)
  | parameter
  | «variable»
  | property
  | superclassMethod
deriving DecidableEq, Repr

/-- The wording of a name's role. -/
def NameRole.text : NameRole → String
  | className => "class name"
  | superclass => "superclass name"
  | function kind => s!"{kind.text} name"
  | parameter => "parameter name"
  | «variable» => "variable name"
  | property => "property name after '.'"
  | superclassMethod => "superclass method name"

/-- Where the grammar asks for a punctuation mark. -/
inductive MarkPlace where
  | beforeClassBody
  | afterClassBody
  | afterName (kind : FunctionKind)
  | beforeBody (kind : FunctionKind)
  | beforeLambdaBody
  | afterParameters
  | afterBlock
  | afterKeyword (k : Keyword)
  | afterLoopCondition
  | afterForClauses
  | afterIfCondition
  | afterWhileCondition
  | afterExpression
  | afterValue
  | afterReturnValue
  | afterVariable
  | afterArguments
deriving DecidableEq, Repr

/-- The wording of a mark's place. -/
def MarkPlace.text : MarkPlace → String
  | beforeClassBody => "before class body"
  | afterClassBody => "after class body"
  | afterName kind => s!"after {kind.text} name"
  | beforeBody kind => s!"before {kind.text} body"
  | beforeLambdaBody => "before lambda body"
  | afterParameters => "after parameters"
  | afterBlock => "after block"
  | afterKeyword k => s!"after '{k.text}'"
  | afterLoopCondition => "after loop condition"
  | afterForClauses => "after for clauses"
  | afterIfCondition => "after if condition"
  | afterWhileCondition => "after condition"
  | afterExpression => "after expression"
  | afterValue => "after value"
  | afterReturnValue => "after return value"
  | afterVariable => "after variable declaration"
  | afterArguments => "after arguments"

/-- The largest number of parameters or arguments. -/
def maxArguments : Nat := 255

/-- What can be wrong with the order of tokens. -/
inductive GrammarError where
  | expectedExpression
  | expectedName (role : NameRole)
  | expectedMark (m : Mark) (place : MarkPlace)
  | tooManyParameters
  | tooManyArguments
  | invalidAssignmentTarget
deriving DecidableEq, Repr

/-- The wording of a grammar error. -/
def GrammarError.message : GrammarError → String
  | expectedExpression => "Expected expression."
  | expectedName role => s!"Expected {role.text}."
  | expectedMark m place => s!"Expected '{m.text}' {place.text}."
  | tooManyParameters => s!"Can't have more than {maxArguments} parameters."
  | tooManyArguments => s!"Can't have more than {maxArguments} arguments."
  | invalidAssignmentTarget => "Invalid assignment target."

/-- What can be wrong with the placement of names and keywords in a tree. -/
inductive ScopeError where
  | alreadyDeclared
  | ownInitializer
  | returnAtTopLevel
  | returnValueFromInitializer
  | inheritsFromItself
  | staticInitializer
  | thisOutsideClass
  | thisInStaticMethod
  | superOutsideClass
  | superInStaticMethod
  | superWithoutSuperclass
deriving DecidableEq, Repr

/-- The wording of a scope error. -/
def ScopeError.message : ScopeError → String
  | alreadyDeclared => "Already a variable with this name in this scope."
  | ownInitializer => "Can't read a variable in its own initializer."
  | returnAtTopLevel => "Can't return from top-level code."
  | returnValueFromInitializer => "Can't return a value from an initializer."
  | inheritsFromItself => "A class can't inherit from itself."
  | staticInitializer => "Init method of a class cannot be static."
  | thisOutsideClass => "Can't use 'this' outside of a class."
  | thisInStaticMethod => "Can't use 'this' in a static method."
  | superOutsideClass => "Can't use 'super' outside of a class."
  | superInStaticMethod => "Can't use 'super' in a static method."
  | superWithoutSuperclass => "Can't use 'super' in a class with no superclass."

/-- What can be wrong with a program before it runs, tokens given. -/
inductive StaticError where
  | grammar (e : GrammarError)
  | scope (e : ScopeError)
  | nesting
deriving DecidableEq, Repr

/-- The wording of a static error. -/
def StaticError.message : StaticError → String
  | grammar e => e.message
  | scope e => e.message
  | nesting => "Too much nesting."

/-- A static error at its place. Lexical errors have a line, the others a location. -/
inductive Report where
  | lexical (line : Nat) (e : LexicalError)
  | located (place : Location) (e : StaticError)
deriving DecidableEq, Repr

namespace Report

/-- How a report names its place, after the line. -/
def whereText : Report → String
  | lexical _ _ => ""
  | located (.endOfSource _) _ => " at end"
  | located (.token t) _ => s!" at '{t.kind.lexeme}'"

/-- The line of a report. -/
def line : Report → Nat
  | lexical line _ => line
  | located place _ => place.line

/-- The wording of a report's cause. -/
def message : Report → String
  | lexical _ e => e.message
  | located _ e => e.message

/-- A report as a line of diagnostics. -/
def text (r : Report) : String := s!"[line {r.line}] Error{r.whereText}: {r.message}\n"

/-- Reports as lines of diagnostics. -/
def texts (rs : List Report) : String := String.join (rs.map text)

end Report

end LoxLang
