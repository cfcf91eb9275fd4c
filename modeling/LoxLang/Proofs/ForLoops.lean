import LoxLang.Proofs.Lexical.Sessions

/-!
# `for` loops without rewriting

What a `for` loop means, said of its clauses and not of the tree that it is parsed to. The loop has
one scope of its own, in which the first clause is executed once. Then, again and again, the
condition is tested, the body is executed, and the last clause is evaluated, all three in the scope
of the loop: what the body declares belongs to the body. A `return` in the body ends the loop at
once. Behind the loop the scope is gone.

Environments and cells are those of `LoxLang.Proofs.Lexical`, so no scope is made of a block and no
distance is counted. Before a program is executed, what is misplaced in it is reported; to that end
a loop is looked at clause by clause in the same scope. Both take a `Reading`, which tells what is a
`for` loop among statements; loops are treated in this way wherever they stand, in the bodies of
functions too.
-/

namespace LoxLang

/-!
## Loops

A loop is its three clauses and its body. The tree that it is parsed to is one or two blocks around
a `while` loop, as clauses are there or not.
-/

/-- What the first clause of a `for` loop can be. -/
inductive ForInitializer where
  | var (name : Name) (value : Option Expr)
  | expression (e : Expr)

/-- The first clause as a statement. -/
def ForInitializer.stmt : ForInitializer → Stmt
  | var name value => .var name value
  | expression e => .expression e

/-- Whether a statement declares nothing where it stands. What is declared in a block belongs to the
block. -/
def Stmt.isClosed : Stmt → Bool
  | .var _ _ | .function _ | .classDecl _ _ _ _ => false
  | .ifThen _ s none => s.isClosed
  | .ifThen _ s (some t) => s.isClosed && t.isClosed
  | .whileDo _ s => s.isClosed
  | .expression _ | .print _ | .block _ | .returnValue _ _ => true

/-- A `for` loop with its clauses. Its body is no declaration. -/
structure ForLoop where
  initializer : Option ForInitializer
  condition : Option Expr
  increment : Option Expr
  body : Stmt
  closed : body.isClosed = true

/-- The tree that a loop is parsed to. -/
def ForLoop.tree (l : ForLoop) : Stmt :=
  Nested.forLoop (l.initializer.map ForInitializer.stmt) l.condition l.increment l.body

namespace ForLoop

/-- What the tree of a loop does in each round. -/
def roundTree (l : ForLoop) : Stmt :=
  match l.increment with
  | none => l.body
  | some e => .block [l.body, .expression e]

/-- What the tree of a loop repeats. -/
def whileTree (l : ForLoop) : Stmt :=
  .whileDo (l.condition.getD (.literal (.bool true))) l.roundTree

theorem tree_of_none {l : ForLoop} (h : l.initializer = none) : l.tree = l.whileTree := by
  unfold tree
  rw [h]
  rfl

theorem tree_of_some {l : ForLoop} {first : ForInitializer} (h : l.initializer = some first) :
    l.tree = .block [first.stmt, l.whileTree] := by
  unfold tree
  rw [h]
  rfl

theorem roundTree_of_none {l : ForLoop} (h : l.increment = none) : l.roundTree = l.body := by
  unfold roundTree
  rw [h]

theorem roundTree_of_some {l : ForLoop} {e : Expr} (h : l.increment = some e) :
    l.roundTree = .block [l.body, .expression e] := by
  unfold roundTree
  rw [h]

theorem isClosed_roundTree (l : ForLoop) : l.roundTree.isClosed = true := by
  cases hincrement : l.increment with
  | none =>
    rw [roundTree_of_none hincrement]
    exact l.closed
  | some e =>
    rw [roundTree_of_some hincrement]
    rfl

/-- The tree of a loop declares nothing where it stands. -/
theorem isClosed_tree (l : ForLoop) : l.tree.isClosed = true := by
  cases hfirst : l.initializer with
  | some first =>
    rw [tree_of_some hfirst]
    rfl
  | none =>
    rw [tree_of_none hfirst]
    exact l.isClosed_roundTree

end ForLoop

/-- A way to tell `for` loops among statements. What is read as a loop has the tree of the loop. -/
structure Reading where
  loop? : Stmt → Option ForLoop
  tree_of_loop? : ∀ {s : Stmt} {l : ForLoop}, loop? s = some l → l.tree = s

/-!
## Reading trees as loops

Trees do not tell whether they come from a `for` loop. A reading decides which ones are taken for
loops; what is shown holds of every reading, so nothing depends on telling them apart.
-/

/-- The loop whose tree repeats a statement. -/
def ForLoop.ofWhile? (first : Option ForInitializer) (condition : Expr) : Stmt → Option ForLoop
  | .block [body, .expression e] =>
    if h : body.isClosed = true then some ⟨first, condition, e, body, h⟩
    else some ⟨first, condition, none, .block [body, .expression e], rfl⟩
  | body => if h : body.isClosed = true then some ⟨first, condition, none, body, h⟩ else none

/-- The loop that has a tree. -/
def Stmt.forLoop? : Stmt → Option ForLoop
  | .whileDo condition s => ForLoop.ofWhile? none condition s
  | .block [.var name value, .whileDo condition s] =>
    ForLoop.ofWhile? (some (.var name value)) condition s
  | .block [.expression e, .whileDo condition s] =>
    ForLoop.ofWhile? (some (.expression e)) condition s
  | _ => none

theorem ForLoop.tree_of_ofWhile? {first : Option ForInitializer} {condition : Expr} {s : Stmt}
    {l : ForLoop} (h : ofWhile? first condition s = some l) :
    l.tree = Nested.forLoop (first.map ForInitializer.stmt) condition none s := by
  unfold ofWhile? at h
  split at h
  · split at h
    · obtain rfl := Option.some.inj h
      rfl
    · obtain rfl := Option.some.inj h
      rfl
  · split at h
    · obtain rfl := Option.some.inj h
      rfl
    · cases h

/-- Whatever has the tree of a loop is read as a loop. -/
def Reading.all : Reading where
  loop? := Stmt.forLoop?
  tree_of_loop? := by
    intro s l h
    unfold Stmt.forLoop? at h
    split at h
    · exact ForLoop.tree_of_ofWhile? h
    · exact ForLoop.tree_of_ofWhile? h
    · exact ForLoop.tree_of_ofWhile? h
    · cases h

theorem ForLoop.isSome_ofWhile? (first : Option ForInitializer) (condition : Expr) {s : Stmt}
    (hs : s.isClosed = true) : (ofWhile? first condition s).isSome := by
  unfold ofWhile?
  split
  · split <;> rfl
  · rw [dif_pos hs]
    rfl

/-- No loop is left out. -/
theorem Reading.isSome_all (l : ForLoop) : (Reading.all.loop? l.tree).isSome := by
  have hround := l.isClosed_roundTree
  cases hfirst : l.initializer with
  | none =>
    rw [ForLoop.tree_of_none hfirst]
    exact ForLoop.isSome_ofWhile? none _ hround
  | some first =>
    rw [ForLoop.tree_of_some hfirst]
    cases first with
    | var name value => exact ForLoop.isSome_ofWhile? (some (.var name value)) _ hround
    | expression e => exact ForLoop.isSome_ofWhile? (some (.expression e)) _ hround

namespace Lexical.Direct

/-! ## What is misplaced

Nesting is bounded, and its levels are counted in the tree of a loop. So the rules for the parts of
a loop are given for each number of levels further in: `rules k` are those `k` levels below the
parts of the tree. -/

/-- Looks at one round of a loop, in its scope: the body, and behind it the last clause. If there is
a last clause, the body stands a level further in. -/
def resolveRound (rules : Nat → ScopeWalk) (context : ScopeContext) (l : ForLoop) :
    Resolver Unit := do
  (rules (if l.increment.isSome then 1 else 0)).stmt context l.body
  if let some e := l.increment then
    (rules 2).expr context e

/-- Looks at what a loop repeats. -/
def resolveRounds (rules : Nat → ScopeWalk) (context : ScopeContext) (l : ForLoop) :
    Resolver Unit := do
  if let some e := l.condition then
    (rules 0).expr context e
  resolveRound rules context l

/-- Looks at a loop. Its first clause is in the scope of the loop. -/
def resolveLoop (rules : Nat → ScopeWalk) (context : ScopeContext) (l : ForLoop) :
    Resolver Unit :=
  match l.initializer with
  | none => resolveRounds rules context l
  | some first => do
    Resolver.openScope []
    (rules 0).stmt context first.stmt
    -- The tree has a block around the loop, so the loop stands a level further in.
    resolveRounds (fun k => rules (k + 1)) context l
    Resolver.closeScope

/-- The walks around walks further in. -/
def walkAround (reading : Reading) (rules : Nat → ScopeWalk) : ScopeWalk where
  expr := (rules 0).exprRule
  stmt context s :=
    match reading.loop? s with
    | some l => resolveLoop rules context l
    | none => (rules 0).stmtRule context s

/-- The walks over trees with at most `depth` levels of nesting, less any number of them. -/
def walks (reading : Reading) : Nat → Nat → ScopeWalk
  | 0, _ => .innermost
  | depth + 1, 0 => walkAround reading (walks reading depth)
  | depth + 1, k + 1 => walks reading depth k

/-- What is reported about a program before it is executed. -/
def reports (reading : Reading) (depth endLine : Nat) (program : List Stmt) : List Report :=
  match program.forM ((walks reading depth 0).stmt ⟨.none, .none⟩) ⟨[], [], [], []⟩ with
  | .ok _ s => s.reports
  | .error .tooDeep s => s.reports ++ [.located (.endOfSource endLine) .nesting]

/-!
## One loop

The clauses are executed in their order, all in one environment that the first clause may have
extended. Each round is executed in this environment anew, and what the body declares is left behind
with it.
-/

/-- Whether a loop goes on. Without a condition it does. -/
def holds (inner : Evaluator) (environment : Environment) : Option Expr → Run Bool
  | none => return true
  | some e => return (← inner.eval environment e).isTruthy

/-- Evaluates the last clause of a loop. -/
def step (inner : Evaluator) (environment : Environment) : Option Expr → Run Unit
  | none => return ()
  | some e => do let _ ← inner.eval environment e

/-- One round of a loop, in its scope: the body, and behind it the last clause. If there is a last
clause, the body stands a level further in. -/
def round (rules : Nat → Evaluator) (environment : Environment) (l : ForLoop) :
    Run Completion :=
  let body := (rules (if l.increment.isSome then 1 else 0)).complete (.inside environment) l.body
  Completion.endings.andThen body do
    step (rules 2) environment l.increment
    return .normal

/-- The rounds of a loop, as often as loops are repeated at most. -/
def rounds (rules : Nat → Evaluator) (environment : Environment) (l : ForLoop) :
    Nat → Run Completion
  | 0 => throw .endless
  | iterations + 1 => do
    if ← holds (rules 0) environment l.condition then
      Completion.endings.andThen (round rules environment l)
        (rounds rules environment l iterations)
    else
      return .normal

/-- Executes the first clause of a loop, which gives the scope of the loop. -/
def start (inner : Evaluator) (environment : Environment) (first : ForInitializer) :
    Run Environment :=
  return (← inner.exec (.inside environment) first.stmt).2.environment

/-- Executes a `for` loop. The place behind it is that before it. -/
def forLoop (host : Host) (rules : Nat → Evaluator) (place : Place) (l : ForLoop) :
    Run (Completion × Place) := do
  match l.initializer with
  | none => return (← rounds rules place.environment l host.iterations, place)
  | some first =>
    let environment ← start (rules 0) place.environment first
    -- The tree has a block around the loop, so the loop stands a level further in.
    return (← rounds (fun k => rules (k + 1)) environment l host.iterations, place)

/-! ## Evaluation -/

/-- Executes a statement: as a loop if it is read as one, and otherwise as ever. -/
def stmtRule (host : Host) (reading : Reading) (rules : Nat → Evaluator) (place : Place)
    (s : Stmt) : Run (Completion × Place) :=
  match reading.loop? s with
  | some l => forLoop host rules place l
  | none => (rules 0).stmtRule host place s

/-- The rules around rules further in. -/
def around (host : Host) (reading : Reading) (rules : Nat → Evaluator) : Evaluator where
  eval := (rules 0).exprRule host
  exec := stmtRule host reading rules

/-- Evaluation with at most `depth` levels of nesting, less any number of them. -/
def levels (host : Host) (reading : Reading) : Nat → Nat → Evaluator
  | 0, _ => .innermost
  | depth + 1, 0 => around host reading (levels host reading depth)
  | depth + 1, k + 1 => levels host reading depth k

/-- Runs the statements of a program one after the other. -/
def execute (host : Host) (reading : Reading) (depth : Nat) (program : List Stmt) : Run Unit :=
  program.forM fun s => do
    let _ ← (levels host reading depth 0).exec .topLevel s

/-! ## Sessions -/

/-- Executes the statements of a program. What was printed before is not kept. -/
def executeProgram (host : Host) (reading : Reading) (depth endLine : Nat) (program : List Stmt)
    (w : Store) : Ending × Store :=
  match execute host reading depth program { w with output := "" } with
  | .ok _ w => (.finished, w)
  | .error abort w => (.ofAbort endLine abort, w)

/-- Runs a source text, which is refused if there is anything to report about it. -/
def run (host : Host) (reading : Reading) (depth : Nat) (s : Session) (source : String) :
    Transcript × Session :=
  let lexed := lex source
  let parsed := parse depth s.nextUse lexed
  let reports := lexed.reports ++ parsed.reports
  let s := { s with nextUse := parsed.nextUse, hadError := s.hadError || !reports.isEmpty }
  if s.hadError then (⟨"", reports, .refused⟩, s)
  else
    let misplaced := Direct.reports reading depth lexed.endLine parsed.statements
    if !misplaced.isEmpty then
      (⟨"", misplaced, .refused⟩, { s with hadError := true })
    else
      let (ending, store) :=
        executeProgram host reading depth lexed.endLine parsed.statements s.store
      (⟨store.output, [], ending⟩,
        { s with store, hadRuntimeError := s.hadRuntimeError || ending.isFailure })

/-- Leads a session through steps. -/
def play (host : Host) (reading : Reading) (depth : Nat) :
    Session → List SessionStep → List Transcript × Session :=
  playSteps (run host reading depth) Session.reset

end Lexical.Direct

end LoxLang
