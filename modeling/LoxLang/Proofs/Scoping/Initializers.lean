import LoxLang.Proofs.Scoping

/-!
# Uses in initializers

A scope says of a name that it is not ready only where the initializer of that very name stands. So
a use that finds its name not ready is part of that initializer (`Originates`), and if scopes lie in
between, it is part of a lambda of the initializer, since nothing else in an expression opens a
scope (`StandsIn`).
-/

namespace LoxLang

/-- What is met in the body of a function, given the scopes around it. -/
def bodyOccurrences (scopes : List Scope) (params : List Name) (body : List Stmt) :
    List Occurrence :=
  parameterOccurrences ([] :: scopes) params ++
    stmtsOccurrences (Scope.enterAll ([] :: scopes) params) body

theorem FunctionDecl.occurrences_eq (S : List Scope) (f : FunctionDecl) :
    f.occurrences S = bodyOccurrences S f.params f.body := by
  obtain ⟨name, params, body⟩ := f
  rw [occurrences]
  rfl

/-!
## Lambdas of an expression

Only a lambda opens a scope in an expression. So a use in it stands in the scopes of the expression
itself, or in the body of one of its lambdas.
-/

mutual

/-- The outermost lambdas of an expression, by their parameters and bodies. -/
def Expr.lambdas : Expr → List (List Name × List Stmt)
  | .literal _ | .«variable» _ | .this _ _ | .super _ _ _ => []
  | .grouping e | .unary _ _ e | .assign _ _ e | .get e _ => e.lambdas
  | .binary _ _ left right | .logical _ _ left right => left.lambdas ++ right.lambdas
  | .call callee _ arguments => callee.lambdas ++ exprsLambdas arguments
  | .set object _ value => value.lambdas ++ object.lambdas
  | .lambda _ params body => [(params, body)]

/-- The outermost lambdas of expressions. -/
def exprsLambdas : List Expr → List (List Name × List Stmt)
  | [] => []
  | e :: es => e.lambdas ++ exprsLambdas es

end

/-- Each use stands in the scopes themselves, or else in one of some lambdas. -/
def StandsIn (S : List Scope) (lambdas : List (List Name × List Stmt)) (os : List Occurrence) :
    Prop :=
  ∀ v, .use v ∈ os → v.scopes = S ∨ ∃ l ∈ lambdas, .use v ∈ bodyOccurrences S l.1 l.2

/-- Two parts of an expression. -/
theorem StandsIn.append {S : List Scope} {ls ls' : List (List Name × List Stmt)}
    {os os' : List Occurrence} (h : StandsIn S ls os) (h' : StandsIn S ls' os') :
    StandsIn S (ls ++ ls') (os ++ os') := by
  intro v hv
  rcases List.mem_append.mp hv with hv | hv
  · exact (h v hv).imp_right fun ⟨l, hl, hl'⟩ => ⟨l, List.mem_append_left ls' hl, hl'⟩
  · exact (h' v hv).imp_right fun ⟨l, hl, hl'⟩ => ⟨l, List.mem_append_right ls hl, hl'⟩

/-- A use stands where it stands. -/
theorem StandsIn.use {v : Visit} : StandsIn v.scopes [] [.use v] := by
  intro u hu
  obtain rfl : u = v := by simpa using hu
  exact .inl rfl

mutual

/-- By induction on the expression. -/
theorem Expr.standsIn_lambdas (S : List Scope) (e : Expr) :
    StandsIn S e.lambdas (e.occurrences S) := by
  cases e with
  | literal value => exact nofun
  | grouping e => exact e.standsIn_lambdas S
  | unary op line e => exact e.standsIn_lambdas S
  | binary op line left right =>
    exact (left.standsIn_lambdas S).append (right.standsIn_lambdas S)
  | logical op line left right =>
    exact (left.standsIn_lambdas S).append (right.standsIn_lambdas S)
  | «variable» use => exact .use
  | assign id name value =>
    have happend := (value.standsIn_lambdas S).append (StandsIn.use (v :=
      ⟨.assignment, name.text, name.line, id, S⟩))
    rw [List.append_nil] at happend
    exact happend
  | call callee line arguments =>
    exact (callee.standsIn_lambdas S).append (exprs_standIn_lambdas S arguments)
  | get object name => exact object.standsIn_lambdas S
  | set object name value =>
    exact (value.standsIn_lambdas S).append (object.standsIn_lambdas S)
  -- All that stands in a lambda is inside of it. No other expression has something in an inner
  -- scope.
  | lambda line params body => exact fun v hv => .inr ⟨(params, body), List.mem_cons_self, hv⟩
  | this id line => exact .use
  | super id line method => exact .use

/-- Arguments of a call. -/
theorem exprs_standIn_lambdas (S : List Scope) (es : List Expr) :
    StandsIn S (exprsLambdas es) (exprsOccurrences S es) := by
  cases es with
  | nil => exact nofun
  | cons e es => exact (e.standsIn_lambdas S).append (exprs_standIn_lambdas S es)

end

/-!
## Names that are not ready

A name is not ready from its declaration to the end of its initializer. Following the scopes from
the program inwards, the only place where such a name is entered is in front of an initializer, so
what finds it there belongs to that initializer.
-/

/-- The scope at a position says that a name is not ready. -/
def Unready (S : List Scope) (i : Nat) (x : String) : Prop :=
  ∃ scope, S[i]? = some scope ∧ scope.get? x = some false

/-- If a use finds a name not ready, then the name was not ready outside already, or the use is in
the initializer of the name that stands just in the scope in which it was found. -/
def Originates (S : List Scope) (os : List Occurrence) : Prop :=
  ∀ v x i, .use v ∈ os → Unready v.scopes i x →
    (∃ j, i + S.length = v.scopes.length + j ∧ Unready S j x) ∨
    ∃ e S', .initializer x e S' ∈ os ∧ .use v ∈ e.occurrences S' ∧ i + S'.length = v.scopes.length

section Entering

variable {S : List Scope} {x y : String} {i : Nat}

/-- It is one of the open scopes that says so. -/
theorem Unready.lt_length (h : Unready S i x) : i < S.length := by
  obtain ⟨scope, hscope, -⟩ := h
  exact (List.getElem?_eq_some_iff.mp hscope).1

/-- A name that is entered is the one that is not ready, or it is another one. -/
theorem Unready.of_enter {ready : Bool} (h : Unready (Scope.enter y ready S) i x) :
    i = 0 ∧ y = x ∧ ready = false ∨ Unready S i x := by
  obtain ⟨scope, hscope, hx⟩ := h
  cases S with
  | nil => exact .inr ⟨scope, hscope, hx⟩
  | cons own S =>
    cases i with
    | succ i => exact .inr ⟨scope, hscope, hx⟩
    | zero =>
      obtain rfl : own.insert y ready = scope := Option.some.inj hscope
      rw [Bindings.get?_insert] at hx
      split at hx
      · next hyx => exact .inl ⟨rfl, hyx, Option.some.inj hx⟩
      · exact .inr ⟨own, rfl, hx⟩

/-- A name that is ready is not it. -/
theorem Unready.of_enter_ready (h : Unready (Scope.enter y true S) i x) : Unready S i x := by
  rcases h.of_enter with ⟨-, -, hready⟩ | h
  · cases hready
  · exact h

/-- A scope in which the name is ready, or is not at all, is not the one. -/
theorem Unready.of_cons {scope : Scope} (hscope : scope.get? x ≠ some false)
    (h : Unready (scope :: S) i x) : ∃ j, i = j + 1 ∧ Unready S j x := by
  obtain ⟨found, hfound, hx⟩ := h
  cases i with
  | zero =>
    obtain rfl := Option.some.inj hfound
    exact absurd hx hscope
  | succ i => exact ⟨i, rfl, found, hfound, hx⟩

/-- Entering a name opens no scope. -/
theorem Scope.length_enter (name : String) (ready : Bool) (S : List Scope) :
    (enter name ready S).length = S.length := by
  cases S <;> rfl

end Entering

namespace Originates

variable {S S' : List Scope} {os os' : List Occurrence}

/-- Where nothing is used, there is nothing to show. -/
theorem of_no_use (h : ∀ v, .use v ∉ os) : Originates S os :=
  fun v _ _ hv => absurd hv (h v)

theorem nil : Originates S [] := of_no_use fun _ => by simp

theorem use {v : Visit} : Originates v.scopes [.use v] := by
  intro u x i hu hx
  obtain rfl : u = v := by simpa using hu
  exact .inl ⟨i, Nat.add_comm _ _, hx⟩

/-- More occurrences around do no harm. -/
theorem imp (h : Originates S os) (hsub : os ⊆ os') {v : Visit} {x : String} {i : Nat}
    (hv : .use v ∈ os) (hx : Unready v.scopes i x) :
    (∃ j, i + S.length = v.scopes.length + j ∧ Unready S j x) ∨
    ∃ e S', .initializer x e S' ∈ os' ∧ .use v ∈ e.occurrences S' ∧
      i + S'.length = v.scopes.length := by
  rcases h v x i hv hx with houter | ⟨e, S', he, hrest⟩
  · exact .inl houter
  · exact .inr ⟨e, S', hsub he, hrest⟩

/-- Occurrences of two parts. -/
theorem append (h : Originates S os) (h' : Originates S os') : Originates S (os ++ os') := by
  intro v x i hv hx
  rcases List.mem_append.mp hv with hv | hv
  · exact h.imp (List.subset_append_left os os') hv hx
  · exact h'.imp (List.subset_append_right os os') hv hx

/-- An occurrence that is no use, before others. -/
theorem cons {o : Occurrence} (h : Originates S os) (ho : ∀ v, o ≠ .use v) :
    Originates S (o :: os) := by
  intro v x i hv hx
  rcases List.mem_cons.mp hv with heq | hv
  · exact absurd heq.symm (ho v)
  · exact h.imp (List.subset_cons_self o os) hv hx

/-- A name that enters ready for use makes no use come too early. -/
theorem of_enter {name : String} (h : Originates (Scope.enter name true S) os) :
    Originates S os := by
  intro v x i hv hx
  rcases h v x i hv hx with ⟨j, hj, houter⟩ | hinner
  · rw [Scope.length_enter] at hj
    exact .inl ⟨j, hj, houter.of_enter_ready⟩
  · exact .inr hinner

/-- Behind a statement all that it declares is ready. -/
theorem of_scopesAfter {s : Stmt} (h : Originates (s.scopesAfter S) os) : Originates S os := by
  cases s <;> first | exact h.of_enter | exact h

/-- Parameters are ready. -/
theorem of_enterAll {names : List Name} (h : Originates (Scope.enterAll S names) os) :
    Originates S os := by
  induction names generalizing S with
  | nil => exact h
  | cons name names ih => exact (ih h).of_enter

/-- A scope whose names are all ready makes no use come too early. -/
theorem of_cons {scope : Scope} (hscope : ∀ x, scope.get? x ≠ some false)
    (h : Originates (scope :: S) os) : Originates S os := by
  intro v x i hv hx
  rcases h v x i hv hx with ⟨j, hj, houter⟩ | hinner
  · obtain ⟨k, rfl, hk⟩ := houter.of_cons (hscope x)
    rw [List.length_cons] at hj
    exact .inl ⟨k, by omega, hk⟩
  · exact .inr hinner

/-- A new scope holds nothing. -/
theorem of_fresh (h : Originates ([] :: S) os) : Originates S os := by
  refine h.of_cons fun x hx => ?_
  rw [Bindings.get?] at hx
  cases hx

/-- `this` and `super` are ready. -/
theorem of_hidden {name : String} (h : Originates ([(name, true)] :: S) os) : Originates S os := by
  refine h.of_cons fun x hx => ?_
  unfold Bindings.get? at hx
  split at hx <;> cases hx

/-- So are the scopes for methods. -/
theorem of_methodScopes {parent : Option VariableUse} (h : Originates (methodScopes S parent) os) :
    Originates S os := by
  cases parent with
  | none => exact h.of_hidden
  | some use => exact h.of_hidden.of_hidden

/-- Where the initializer of a name stands, the name is not ready. -/
theorem initializer {name : String} {e : Expr}
    (h : Originates (Scope.enter name false S) (e.occurrences (Scope.enter name false S))) :
    Originates S (.declaration name S :: .initializer name e (Scope.enter name false S) ::
      e.occurrences (Scope.enter name false S)) := by
  refine cons ?_ nofun
  intro v x i hv hx
  have hmem : .use v ∈ e.occurrences (Scope.enter name false S) := by simpa using hv
  -- A name that is not ready in front of the initializer is its own, or one from further out.
  rcases h v x i hmem hx with ⟨j, hj, houter⟩ | ⟨e', S', he, hrest⟩
  · rcases houter.of_enter with ⟨rfl, rfl, -⟩ | houter
    · exact .inr ⟨e, _, List.mem_cons_self, hmem, hj⟩
    · rw [Scope.length_enter] at hj
      exact .inl ⟨j, hj, houter⟩
  · exact .inr ⟨e', S', List.mem_cons_of_mem _ he, hrest⟩

end Originates

/-- Parameters are no uses. -/
theorem originates_parameters (S : List Scope) (xs : List Name) :
    Originates S (parameterOccurrences S xs) := by
  induction xs generalizing S with
  | nil => exact .nil
  | cons x xs ih => exact (ih _).of_enter.cons nofun

/-- The scope of a function is new, and its parameters are ready. -/
theorem originates_body {S : List Scope} {params : List Name} {body : List Stmt}
    (h : Originates (Scope.enterAll ([] :: S) params)
      (stmtsOccurrences (Scope.enterAll ([] :: S) params) body)) :
    Originates S (bodyOccurrences S params body) := by
  have hparams := originates_parameters ([] :: S) params
  exact (hparams.append h.of_enterAll).of_fresh

mutual

/-- Expressions declare nothing. -/
theorem Expr.originates (S : List Scope) (e : Expr) : Originates S (e.occurrences S) := by
  cases e with
  | literal value => exact .nil
  | grouping e => exact e.originates S
  | unary op line e => exact e.originates S
  | binary op line left right => exact (left.originates S).append (right.originates S)
  | logical op line left right => exact (left.originates S).append (right.originates S)
  | «variable» use => exact .use
  | assign id name value => exact (value.originates S).append .use
  | call callee line arguments =>
    exact (callee.originates S).append (originates_exprs S arguments)
  | get object name => exact object.originates S
  | set object name value => exact (value.originates S).append (object.originates S)
  | lambda line params body => exact originates_body (originates_stmts _ body)
  | this id line => exact .use
  | super id line method => exact .use

/-- The case that matters is that of a variable with an initializer. -/
theorem Stmt.originates (S : List Scope) (s : Stmt) : Originates S (s.occurrences S) := by
  cases s with
  | expression e => exact e.originates S
  | print e => exact e.originates S
  | var name initializer =>
    cases initializer with
    | none => exact Originates.nil.cons nofun
    -- Here is where the name that is not ready comes from.
    | some e => exact .initializer (e.originates _)
  -- A scope that was just opened has no name that is not ready.
  | block body => exact (originates_stmts ([] :: S) body).of_fresh
  | ifThen condition consequence alternative =>
    cases alternative with
    | none =>
      exact (condition.originates S).append ((consequence.originates S).cons nofun)
    | some s =>
      have hbranches := (consequence.originates S).append
        ((s.originates S).cons (o := .body s) nofun)
      exact (condition.originates S).append (hbranches.cons nofun)
  | whileDo condition body =>
    exact (condition.originates S).append ((body.originates S).cons nofun)
  | function f => exact (f.originates _).of_enter.cons nofun
  | returnValue line value =>
    cases value with
    | none => exact .nil
    | some e => exact e.originates S
  | classDecl name parent methods staticMethods =>
    have hstatic := originates_functions (Scope.enter name.text true S) staticMethods
    have hmethods :=
      (originates_functions (methodScopes (Scope.enter name.text true S) parent) methods)
    have hparent : Originates (Scope.enter name.text true S)
        (superclassOccurrences (Scope.enter name.text true S) name parent) := by
      cases parent with
      | none => exact .nil
      | some use => exact Originates.use.cons nofun
    exact (hparent.append (hstatic.append hmethods.of_methodScopes)).of_enter.cons nofun

/-- The body of a function, in a scope with the parameters. -/
theorem FunctionDecl.originates (S : List Scope) (f : FunctionDecl) :
    Originates S (f.occurrences S) := by
  obtain ⟨name, params, body⟩ := f
  exact originates_body (originates_stmts _ body)

/-- Lists of expressions. -/
theorem originates_exprs (S : List Scope) (es : List Expr) :
    Originates S (exprsOccurrences S es) := by
  cases es with
  | nil => exact .nil
  | cons e es => exact (e.originates S).append (originates_exprs S es)

/-- Each statement in the scopes that those before it leave behind. -/
theorem originates_stmts (S : List Scope) (ss : List Stmt) :
    Originates S (stmtsOccurrences S ss) := by
  cases ss with
  | nil => exact .nil
  | cons s ss => exact (s.originates S).append (originates_stmts _ ss).of_scopesAfter

/-- The members of a class. -/
theorem originates_functions (S : List Scope) (fs : List FunctionDecl) :
    Originates S (functionsOccurrences S fs) := by
  cases fs with
  | nil => exact .nil
  | cons f fs => exact (f.originates S).append (originates_functions S fs)

end

/-!
## Variables that are read early

At the top level nothing is unready. So a use that finds its name not ready is found in the
initializer of a variable of that name.
-/

/-- A use of a variable stands in some part of the initializer of that very variable: of the one
that the distance of the use leads to. -/
def Visit.InOwn (part : List Scope → Expr → List Occurrence) (program : List Stmt) (v : Visit) :
    Prop :=
  ∃ e S d, .initializer v.name e S ∈ stmtsOccurrences [] program ∧ .use v ∈ part S e ∧
    v.distance? = some d ∧ d + S.length = v.scopes.length

/-- What is met in the lambdas of an expression. -/
def lambdaOccurrences (S : List Scope) (e : Expr) : List Occurrence :=
  e.lambdas.flatMap fun l => bodyOccurrences S l.1 l.2

/-- A use stands in the initializer of the variable that it means. -/
abbrev Visit.InOwnInitializer : List Stmt → Visit → Prop := InOwn Expr.occurrences

/-- A use stands in a lambda in the initializer of the variable that it means. -/
abbrev Visit.InOwnLambda : List Stmt → Visit → Prop := InOwn lambdaOccurrences

/-- A use that finds its name not ready stands in the initializer of its own variable. -/
theorem inOwnInitializer_of_unready {program : List Stmt} {v : Visit} {d : Nat}
    (hv : .use v ∈ stmtsOccurrences [] program) (hd : v.distance? = some d)
    (hx : Unready v.scopes d v.name) : v.InOwnInitializer program := by
  rcases originates_stmts [] program v v.name d hv hx with ⟨j, -, houter⟩ | ⟨e, S, he, hmem, hS⟩
  · exact absurd houter.lt_length (Nat.not_lt_zero j)
  · exact ⟨e, S, d, he, hmem, hd, hS⟩

/-- With scopes in between, the use is in a lambda of the initializer. -/
theorem Visit.InOwn.inOwnLambda {program : List Stmt} {v : Visit} {d : Nat}
    (h : v.InOwnInitializer program) (hd : v.distance? = some (d + 1)) :
    v.InOwnLambda program := by
  obtain ⟨e, S, d', he, hmem, hd', hS⟩ := h
  obtain rfl : d + 1 = d' := Option.some.inj (hd.symm.trans hd')
  refine ⟨e, S, d + 1, he, ?_, hd, hS⟩
  rcases e.standsIn_lambdas S v hmem with heq | ⟨l, hl, hbody⟩
  · rw [← heq] at hS
    omega
  · exact List.mem_flatMap.mpr ⟨l, hl, hbody⟩

end LoxLang
