import LoxLang.Proofs.Scoping

/-!
# Renaming local variables

A local declaration is found in a tree by the scope that it enters: a scope declares no name twice.
Renaming takes such scopes by a choice (`Choice`) and gives another name to the variables and
parameters that enter them, and to the uses whose distance leads to them. Functions and classes keep
their names, which programs can print, and so do properties and methods.

Where the scopes are that a use can lead to is said by marks: one for each open scope, innermost
first, that tells whether its variables are renamed.
-/

namespace LoxLang

/-! ## Choices -/

/-- Which scopes inside a tree are chosen. The way to a scope is that to the block or function that
makes it: the positions of parts that lead there from the tree. -/
abbrev Choice := List Nat → Bool

namespace Choice

/-- No scope is chosen. -/
def none : Choice := fun _ => false

/-- One scope is chosen. -/
def only (way : List Nat) : Choice := fun other => other == way

/-- What is chosen in a part. -/
def part (c : Choice) (i : Nat) : Choice := fun way => c (i :: way)

/-- What is chosen in a list behind its first item. -/
def rest (c : Choice) : Choice
  | [] => false
  | i :: way => c ((i + 1) :: way)

@[simp]
theorem part_none (i : Nat) : none.part i = none := rfl

@[simp]
theorem rest_none : none.rest = none := by
  funext way
  cases way <;> rfl

end Choice

/-! ## Names -/

/-- Which names change where, given the distances of uses. -/
structure Renaming where
  names : String → String
  distance? : UseId → Option Nat

namespace Renaming

/-- One name becomes another one. -/
def replacing (old new : String) (table : Distances) : Renaming where
  names x := if x = old then new else x
  distance? id := table[id]?

variable (ρ : Renaming)

/-- A name at a place where names change or stay. -/
def text (moved : Bool) (x : String) : String := if moved then ρ.names x else x

/-- A declared name. -/
def name (moved : Bool) (x : Name) : Name := { x with text := ρ.text moved x.text }

/-- Whether a use leads to a scope whose variables are renamed. -/
def moves (marks : List Bool) (id : UseId) : Bool :=
  ((ρ.distance? id).bind (marks[·]?)).getD false

/-- The use of a variable. -/
def use (marks : List Bool) (u : VariableUse) : VariableUse :=
  { u with name := ρ.name (ρ.moves marks u.id) u.name }

end Renaming

/-!
## Trees

The way through the tree is the choice of scopes for the parts, and the marks are those of the
scopes that are open there. A function has one scope for its parameters and its body. The scopes for
`this` and `super` are never marked.
-/

/-- The functions and classes that a statement enters into the scope it stands in. -/
def Stmt.titles : Stmt → List String
  | .function f => [f.name.text]
  | .classDecl name _ _ _ => [name.text]
  | .ifThen _ s none => s.titles
  | .ifThen _ s (some t) => s.titles ++ t.titles
  | .whileDo _ s => s.titles
  | _ => []

/-- The mark of a scope. Its variables are renamed if it is chosen and none of its functions and
classes has a name that would change. -/
def Renaming.mark (ρ : Renaming) (c : Choice) (body : List Stmt) : Bool :=
  c [] && (body.flatMap Stmt.titles).all fun x => ρ.names x == x

/-- The marks of the scopes around the methods of a class. -/
def methodMarks (marks : List Bool) : Option VariableUse → List Bool
  | none => false :: marks
  | some _ => false :: false :: marks

mutual

/-- An expression with other names, given the marks of the scopes that are open. -/
def Expr.rename (ρ : Renaming) (marks : List Bool) (c : Choice) : Expr → Expr
  | .literal value => .literal value
  | .grouping e => .grouping (e.rename ρ marks (c.part 0))
  | .unary op line e => .unary op line (e.rename ρ marks (c.part 0))
  | .binary op line left right =>
    .binary op line (left.rename ρ marks (c.part 0)) (right.rename ρ marks (c.part 1))
  | .logical op line left right =>
    .logical op line (left.rename ρ marks (c.part 0)) (right.rename ρ marks (c.part 1))
  | .«variable» u => .«variable» (ρ.use marks u)
  | .assign id x e => .assign id (ρ.name (ρ.moves marks id) x) (e.rename ρ marks (c.part 0))
  | .call callee line arguments =>
    .call (callee.rename ρ marks (c.part 0)) line (exprsRename ρ marks c.rest arguments)
  | .get e x => .get (e.rename ρ marks (c.part 0)) x
  | .set e x v => .set (e.rename ρ marks (c.part 0)) x (v.rename ρ marks (c.part 1))
  | .lambda line params body =>
    .lambda line (params.map (ρ.name (ρ.mark c body)))
      (stmtsRename ρ (ρ.mark c body :: marks) c body)
  | .this id line => .this id line
  | .super id line x => .super id line x

/-- A statement with other names. A variable that it declares enters the innermost scope. -/
def Stmt.rename (ρ : Renaming) (marks : List Bool) (c : Choice) : Stmt → Stmt
  | .expression e => .expression (e.rename ρ marks (c.part 0))
  | .print e => .print (e.rename ρ marks (c.part 0))
  | .var x none => .var (ρ.name (marks.headD false) x) none
  | .var x (some e) => .var (ρ.name (marks.headD false) x) (some (e.rename ρ marks (c.part 0)))
  | .block body => .block (stmtsRename ρ (ρ.mark c body :: marks) c body)
  | .ifThen condition s none =>
    .ifThen (condition.rename ρ marks (c.part 0)) (s.rename ρ marks (c.part 1)) none
  | .ifThen condition s (some t) =>
    .ifThen (condition.rename ρ marks (c.part 0)) (s.rename ρ marks (c.part 1))
      (some (t.rename ρ marks (c.part 2)))
  | .whileDo condition s =>
    .whileDo (condition.rename ρ marks (c.part 0)) (s.rename ρ marks (c.part 1))
  | .function f => .function (f.rename ρ marks c)
  | .returnValue line none => .returnValue line none
  | .returnValue line (some e) => .returnValue line (some (e.rename ρ marks (c.part 0)))
  | .classDecl x parent methods statics =>
    .classDecl x (parent.map (ρ.use marks))
      (functionsRename ρ (methodMarks marks parent) (c.part 0) methods)
      (functionsRename ρ marks (c.part 1) statics)

/-- A function with other names inside it. -/
def FunctionDecl.rename (ρ : Renaming) (marks : List Bool) (c : Choice) :
    FunctionDecl → FunctionDecl
  | ⟨x, params, body⟩ =>
    ⟨x, params.map (ρ.name (ρ.mark c body)), stmtsRename ρ (ρ.mark c body :: marks) c body⟩

/-- Expressions with other names. -/
def exprsRename (ρ : Renaming) (marks : List Bool) (c : Choice) : List Expr → List Expr
  | [] => []
  | e :: es => e.rename ρ marks (c.part 0) :: exprsRename ρ marks c.rest es

/-- Statements of one scope with other names. -/
def stmtsRename (ρ : Renaming) (marks : List Bool) (c : Choice) : List Stmt → List Stmt
  | [] => []
  | s :: ss => s.rename ρ marks (c.part 0) :: stmtsRename ρ marks c.rest ss

/-- Functions with other names inside them. -/
def functionsRename (ρ : Renaming) (marks : List Bool) (c : Choice) :
    List FunctionDecl → List FunctionDecl
  | [] => []
  | f :: fs => f.rename ρ marks (c.part 0) :: functionsRename ρ marks c.rest fs

end

/-- The functions and classes that a statement enters into the innermost scope keep their names. -/
def Stmt.Keeps (ρ : Renaming) (marks : List Bool) (s : Stmt) : Prop :=
  ∀ x ∈ s.titles, ρ.text (marks.headD false) x = x

theorem Renaming.keeps_of_mark {ρ : Renaming} {c : Choice} {body : List Stmt} (marks : List Bool) :
    ∀ s ∈ body, s.Keeps ρ (ρ.mark c body :: marks) := by
  intro s hs x hx
  show ρ.text (ρ.mark c body) x = x
  cases hmark : ρ.mark c body with
  | false => rfl
  | true =>
    unfold mark at hmark
    have hall := List.all_eq_true.mp (Bool.and_eq_true_iff.mp hmark).2 x
      (List.mem_flatMap.mpr ⟨s, hs, hx⟩)
    exact eq_of_beq hall

/-- No two names become one, and `this` and `super` stay. -/
structure Renaming.Faithful (ρ : Renaming) : Prop where
  injective : Function.Injective ρ.names
  hidden : ∀ x, ¬IsName x → ρ.names x = x

theorem Renaming.Faithful.text_of_hidden {ρ : Renaming} (h : ρ.Faithful) {x : String}
    (hx : ¬IsName x) (moved : Bool) : ρ.text moved x = x := by
  unfold text
  rw [h.hidden x hx, ite_self]

/-!
## Bindings

Names stay different, so what is looked up under its other name is what was looked up under its own.
The same holds of entering and of finding names.
-/

namespace Renaming

variable {α : Type} (ρ : Renaming)

/-- The bindings of a scope or frame with other names. -/
def bindings (moved : Bool) (bs : Bindings α) : Bindings α :=
  bs.map fun (x, a) => (ρ.text moved x, a)

@[simp]
theorem text_false (x : String) : ρ.text false x = x := rfl

@[simp]
theorem name_false (x : Name) : ρ.name false x = x := rfl

@[simp]
theorem bindings_false (bs : Bindings α) : ρ.bindings false bs = bs := List.map_id' bs

variable {ρ} (h : Function.Injective ρ.names)
include h

theorem text_injective (moved : Bool) : Function.Injective (ρ.text moved) := by
  cases moved with
  | false => exact fun _ _ hxy => hxy
  | true => exact h

theorem get?_bindings (moved : Bool) (bs : Bindings α) (x : String) :
    (ρ.bindings moved bs).get? (ρ.text moved x) = bs.get? x := by
  induction bs with
  | nil => rfl
  | cons b bs ih =>
    obtain ⟨key, a⟩ := b
    unfold bindings at ih ⊢
    simp only [List.map_cons, Bindings.get?, (text_injective h moved).eq_iff, ih]

theorem contains_bindings (moved : Bool) (bs : Bindings α) (x : String) :
    (ρ.bindings moved bs).contains (ρ.text moved x) = bs.contains x := by
  unfold Bindings.contains
  rw [get?_bindings h]

theorem insert_bindings (moved : Bool) (bs : Bindings α) (x : String) (a : α) :
    (ρ.bindings moved bs).insert (ρ.text moved x) a = ρ.bindings moved (bs.insert x a) := by
  induction bs with
  | nil => rfl
  | cons b bs ih =>
    obtain ⟨key, b⟩ := b
    unfold bindings at ih ⊢
    simp only [List.map_cons, Bindings.insert, (text_injective h moved).eq_iff, ih]
    split <;> rfl

theorem insertMany_bindings (moved : Bool) (more bs : Bindings α) :
    Bindings.insertMany (ρ.bindings moved bs) (ρ.bindings moved more) =
      ρ.bindings moved (bs.insertMany more) := by
  induction more generalizing bs with
  | nil => rfl
  | cons b more ih =>
    show Bindings.insertMany ((ρ.bindings moved bs).insert _ _) (ρ.bindings moved more) = _
    rw [insert_bindings h, ih]
    rfl

end Renaming

end LoxLang
