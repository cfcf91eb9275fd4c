import LoxLang.Scope

/-!
# Scopes as they stand in the text

Which scopes are open at a place of a program depends on the text alone. This module says so by
recursion on trees, without the walk that resolves names: `occurrences` lists what is met in a tree
in the order of the walk, each use and declaration with the scopes that are open at its place.

What can be asked of a single occurrence comes in two kinds. `Occurrence.Written` holds of whatever
is read from a source text, `Occurrence.Placed` of what the walk lets pass without a report.
-/

namespace LoxLang

/-! ## Scopes -/

namespace Scope

/-- Sets a name in the innermost of some scopes, if any is open. -/
def enter (name : String) (ready : Bool) : List Scope → List Scope
  | [] => []
  | scope :: outer => scope.insert name ready :: outer

/-- Sets names of parameters in the innermost of some scopes, ready for use. -/
def enterAll (scopes : List Scope) (names : List Name) : List Scope :=
  names.foldl (fun scopes x => enter x.text true scopes) scopes

/-- The distance from a place to the nearest scope that holds a name. -/
def distance? (scopes : List Scope) (name : String) : Option Nat :=
  scopes.findIdx? (·.contains name)

end Scope

/-- The scopes that are open behind a statement: a declaration enters its name. -/
def Stmt.scopesAfter (scopes : List Scope) : Stmt → List Scope
  | .var name _ => Scope.enter name.text true scopes
  | .function f => Scope.enter f.name.text true scopes
  | .classDecl name _ _ _ => Scope.enter name.text true scopes
  | _ => scopes

/-- Whether a statement declares a name. -/
def Stmt.declares : Stmt → Bool
  | .var _ _ | .function _ | .classDecl _ _ _ _ => true
  | _ => false

theorem Stmt.scopesAfter_of_not_declares {s : Stmt} (h : s.declares = false)
    (scopes : List Scope) : s.scopesAfter scopes = scopes := by
  cases s <;> first | rfl | cases h

/-!
## Occurrences

The order is that of the walk: the value of an assignment before its target, static methods before
the other members of a class. Occurrences carry the scopes that are open at their place, as the walk
would have them there.
-/

/-- A use of a name, with the scopes that are open at its place. -/
structure Visit where
  kind : UseKind
  name : String
  line : Nat
  id : UseId
  scopes : List Scope
deriving DecidableEq, Repr

/-- The distance of a use to the declaration it means, if that is local. -/
def Visit.distance? (v : Visit) : Option Nat := Scope.distance? v.scopes v.name

/-- The entry of a use among the resolved ones. -/
def Visit.resolved? (v : Visit) : Option Resolved :=
  v.distance?.map (⟨v.kind, v.name, v.line, ·, v.id⟩)

/-- What is met on the way through a tree. -/
inductive Occurrence where
  | use (v : Visit)
  /-- A name that enters the innermost of the open scopes. -/
  | declaration (name : String) (scopes : List Scope)
  /-- A statement that is governed by a condition. -/
  | body (s : Stmt)
  /-- A class that names another one as its superclass. -/
  | subclass (name parent : String)
  /-- The initializer of a variable, in the scopes in which the variable is not ready yet. -/
  | initializer (name : String) (e : Expr) (scopes : List Scope)

/-- The entry of an occurrence among the resolved uses. -/
def Occurrence.resolved? : Occurrence → Option Resolved
  | use v => v.resolved?
  | _ => none

/-- The occurrences of parameters, each of which enters the innermost scope. -/
def parameterOccurrences (scopes : List Scope) : List Name → List Occurrence
  | [] => []
  | x :: xs =>
    .declaration x.text scopes :: parameterOccurrences (Scope.enter x.text true scopes) xs

/-- The scopes around the methods of a class: one that holds `this`, and around it one that holds
`super` if there is a superclass. -/
def methodScopes (scopes : List Scope) : Option VariableUse → List Scope
  | none => [("this", true)] :: scopes
  | some _ => [("this", true)] :: [("super", true)] :: scopes

/-- The occurrences of the superclass of a class. -/
def superclassOccurrences (scopes : List Scope) (name : Name) :
    Option VariableUse → List Occurrence
  | none => []
  | some use => [.subclass name.text use.name.text,
      .use ⟨.«variable», use.name.text, use.name.line, use.id, scopes⟩]

mutual

/-- What is met in an expression, given the scopes that are open. -/
def Expr.occurrences (scopes : List Scope) : Expr → List Occurrence
  | .literal _ => []
  | .grouping e => e.occurrences scopes
  | .unary _ _ e => e.occurrences scopes
  | .binary _ _ left right => left.occurrences scopes ++ right.occurrences scopes
  | .logical _ _ left right => left.occurrences scopes ++ right.occurrences scopes
  | .«variable» use => [.use ⟨.«variable», use.name.text, use.name.line, use.id, scopes⟩]
  | .assign id name value =>
    value.occurrences scopes ++ [.use ⟨.assignment, name.text, name.line, id, scopes⟩]
  | .call callee _ arguments => callee.occurrences scopes ++ exprsOccurrences scopes arguments
  | .get object _ => object.occurrences scopes
  | .set object _ value => value.occurrences scopes ++ object.occurrences scopes
  | .lambda _ params body =>
    parameterOccurrences ([] :: scopes) params ++
      stmtsOccurrences (Scope.enterAll ([] :: scopes) params) body
  | .this id line => [.use ⟨.this, "this", line, id, scopes⟩]
  | .super id line _ => [.use ⟨.super, "super", line, id, scopes⟩]

/-- What is met in a statement, given the scopes that are open before it. -/
def Stmt.occurrences (scopes : List Scope) : Stmt → List Occurrence
  | .expression e => e.occurrences scopes
  | .print e => e.occurrences scopes
  | .var name none => [.declaration name.text scopes]
  | .var name (some e) =>
    .declaration name.text scopes ::
      .initializer name.text e (Scope.enter name.text false scopes) ::
        e.occurrences (Scope.enter name.text false scopes)
  | .block body => stmtsOccurrences ([] :: scopes) body
  | .ifThen condition s none => condition.occurrences scopes ++ .body s :: s.occurrences scopes
  | .ifThen condition s (some t) =>
    condition.occurrences scopes ++ .body s :: (s.occurrences scopes ++
      .body t :: t.occurrences scopes)
  | .whileDo condition s => condition.occurrences scopes ++ .body s :: s.occurrences scopes
  | .function f =>
    .declaration f.name.text scopes :: f.occurrences (Scope.enter f.name.text true scopes)
  | .returnValue _ none => []
  | .returnValue _ (some e) => e.occurrences scopes
  | .classDecl name parent methods staticMethods =>
    .declaration name.text scopes ::
      (superclassOccurrences (Scope.enter name.text true scopes) name parent ++
        (functionsOccurrences (Scope.enter name.text true scopes) staticMethods ++
          functionsOccurrences (methodScopes (Scope.enter name.text true scopes) parent) methods))

/-- What is met in a function, given the scopes that are open around it. -/
def FunctionDecl.occurrences (scopes : List Scope) : FunctionDecl → List Occurrence
  | ⟨_, params, body⟩ =>
    parameterOccurrences ([] :: scopes) params ++
      stmtsOccurrences (Scope.enterAll ([] :: scopes) params) body

/-- What is met in expressions. -/
def exprsOccurrences (scopes : List Scope) : List Expr → List Occurrence
  | [] => []
  | e :: es => e.occurrences scopes ++ exprsOccurrences scopes es

/-- What is met in statements one after the other. -/
def stmtsOccurrences (scopes : List Scope) : List Stmt → List Occurrence
  | [] => []
  | s :: ss => s.occurrences scopes ++ stmtsOccurrences (s.scopesAfter scopes) ss

/-- What is met in functions. -/
def functionsOccurrences (scopes : List Scope) : List FunctionDecl → List Occurrence
  | [] => []
  | f :: fs => f.occurrences scopes ++ functionsOccurrences scopes fs

end

/-! ## What can be asked of an occurrence -/

/-- A text is no keyword that stands for a value, so that it can be a name. -/
def IsName (text : String) : Prop := text ≠ "this" ∧ text ≠ "super"

theorem not_isName_this : ¬IsName "this" := fun h => h.1 rfl

theorem not_isName_super : ¬IsName "super" := fun h => h.2 rfl

/-- What holds of each occurrence in a tree that was read from a text: names are no keywords, and
what is governed by a condition declares nothing. -/
def Occurrence.Written : Occurrence → Prop
  | use v => v.kind = .«variable» ∨ v.kind = .assignment → IsName v.name
  | declaration name _ => IsName name
  | body s => s.declares = false
  | subclass _ _ | initializer _ _ _ => True

/-- What the walk asks of a use. A variable is not read where its own initializer stands; `this` has
a scope; and the scope of `super` lies just around the nearest one of `this`. -/
def Visit.Placed (v : Visit) : Prop :=
  match v.kind with
  | .«variable» => ∀ scope ∈ v.scopes.head?, scope.get? v.name ≠ some false
  | .assignment => True
  | .this => ∃ k, v.distance? = some k
  | .super => ∃ k, v.distance? = some (k + 1) ∧ Scope.distance? v.scopes "this" = some k

/-- What the walk asks of an occurrence. No name enters a scope twice, and no class names itself. -/
def Occurrence.Placed : Occurrence → Prop
  | use v => v.Placed
  | declaration name scopes => ∀ scope ∈ scopes.head?, scope.contains name = false
  | body _ | initializer _ _ _ => True
  | subclass name parent => name ≠ parent

end LoxLang
