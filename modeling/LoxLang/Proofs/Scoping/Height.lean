import LoxLang.Scope

/-!
# Heights of trees

How many levels of nesting a tree has for the walk that resolves names. With as many levels the walk
comes to its end, so every tree can be resolved.
-/

namespace LoxLang

open LoxLang.Resolver ScopeWalk

mutual

/-- The levels of nesting of an expression. -/
def Expr.height : Expr → Nat
  | .literal _ => 1
  | .grouping e => e.height + 1
  | .unary _ _ e => e.height + 1
  | .binary _ _ left right => max left.height right.height + 1
  | .logical _ _ left right => max left.height right.height + 1
  | .«variable» _ => 1
  | .assign _ _ value => value.height + 1
  | .call callee _ arguments => max callee.height (exprsHeight arguments) + 1
  | .get object _ => object.height + 1
  | .set object _ value => max object.height value.height + 1
  | .lambda _ _ body => stmtsHeight body + 1
  | .this _ _ => 1
  | .super _ _ _ => 1

/-- The levels of nesting of a statement. -/
def Stmt.height : Stmt → Nat
  | .expression e => e.height + 1
  | .print e => e.height + 1
  | .var _ none => 1
  | .var _ (some e) => e.height + 1
  | .block body => stmtsHeight body + 1
  | .ifThen condition s none => max condition.height s.height + 1
  | .ifThen condition s (some t) => max condition.height (max s.height t.height) + 1
  | .whileDo condition s => max condition.height s.height + 1
  | .function f => f.height + 1
  | .returnValue _ none => 1
  | .returnValue _ (some e) => e.height + 1
  | .classDecl _ _ methods staticMethods =>
    max (functionsHeight methods) (functionsHeight staticMethods) + 1

/-- The levels of nesting of the statements of a function. -/
def FunctionDecl.height : FunctionDecl → Nat
  | ⟨_, _, body⟩ => stmtsHeight body

/-- The levels of nesting of expressions. -/
def exprsHeight : List Expr → Nat
  | [] => 0
  | e :: es => max e.height (exprsHeight es)

/-- The levels of nesting of statements. -/
def stmtsHeight : List Stmt → Nat
  | [] => 0
  | s :: ss => max s.height (stmtsHeight ss)

/-- The levels of nesting of functions. -/
def functionsHeight : List FunctionDecl → Nat
  | [] => 0
  | f :: fs => max f.height (functionsHeight fs)

end

namespace Resolver

/-- A step of the walk comes to its end. -/
def Completes {α : Type} (p : Resolver α) : Prop := ∀ s, ∃ a s', p s = .ok a s'

variable {α β : Type}

theorem Completes.pure (a : α) : Completes (pure a) := fun s => ⟨a, s, rfl⟩

/-- One walk behind another. -/
theorem Completes.bind {p : Resolver α} {f : α → Resolver β} (hp : Completes p)
    (hf : ∀ a, Completes (f a)) : Completes (p >>= f) := by
  intro s
  obtain ⟨a, s', hrun⟩ := hp s
  obtain ⟨b, s'', hrun'⟩ := hf a s'
  refine ⟨b, s'', ?_⟩
  show EStateM.bind p f s = _
  simp only [EStateM.bind, hrun, hrun']

/-- Whichever is taken. -/
theorem Completes.ite {c : Prop} [Decidable c] {p q : Resolver α} (hp : Completes p)
    (hq : Completes q) : Completes (if c then p else q) := by
  split
  · exact hp
  · exact hq

/-- A walk over some things, one after the other. -/
theorem Completes.forM {f : α → Resolver Unit} {as : List α} (h : ∀ a ∈ as, Completes (f a)) :
    Completes (as.forM f) := by
  induction as with
  | nil => exact .pure ()
  | cons a as ih =>
    exact (h a List.mem_cons_self).bind fun _ => ih fun a' ha' => h a' (List.mem_cons_of_mem _ ha')

/-- A change of the state. -/
theorem completes_modify (f : ScopeState → ScopeState) : Completes (modify f) :=
  fun s => ⟨(), f s, rfl⟩

/-- A report does not end the walk. -/
theorem completes_report (place : Location) (e : ScopeError) : Completes (report place e) :=
  completes_modify _

/-- Neither does a use that is found nowhere. -/
theorem completes_resolveUse (kind : UseKind) (name : String) (line : Nat) (id : UseId) :
    Completes (resolveUse kind name line id) :=
  completes_modify _

/-- Neither does a name that is there already. -/
theorem completes_declare (name : Name) : Completes (declare name) := by
  have hset : Completes (setInnermost name.text false) := completes_modify _
  have hinnermost : Completes innermost? := fun s => ⟨_, s, rfl⟩
  refine hinnermost.bind fun scope? => ?_
  cases scope? with
  | none => exact hset
  | some scope => exact .ite ((completes_report _ _).bind fun _ => hset) hset

/-- Nor one that is a parameter. -/
theorem completes_declareReady (name : Name) : Completes (declareReady name) :=
  (completes_declare name).bind fun _ => completes_modify _

/-- Nor a variable that is not ready. -/
theorem completes_readVariable (use : VariableUse) : Completes (readVariable use) := by
  have hready : Completes (isReady use.name.text) := by
    rintro ⟨scopes, initializing, uses, reports⟩
    cases scopes <;> exact ⟨_, _, rfl⟩
  refine hready.bind fun b => ?_
  exact .ite (completes_resolveUse _ _ _ _)
    ((completes_report _ _).bind fun _ => completes_resolveUse _ _ _ _)

end Resolver

/-!
## Rules of the walk

A tree is higher than each of its parts. So where the parts have as many levels as they need, the
tree has, with one more.
-/

/-- The walks one level further in come to their end on trees of some height. -/
structure ScopeWalk.CompletesUpTo (inner : ScopeWalk) (depth : Nat) : Prop where
  expr : ∀ context e, e.height ≤ depth → Completes (inner.expr context e)
  stmt : ∀ context st, st.height ≤ depth → Completes (inner.stmt context st)

section Rules

variable {inner : ScopeWalk} {depth : Nat} (h : inner.CompletesUpTo depth)
include h

/-- Lists of expressions. -/
theorem completes_exprs (context : ScopeContext) {es : List Expr} (hes : exprsHeight es ≤ depth) :
    Completes (es.forM (inner.expr context)) := by
  refine .forM fun e he => h.expr context e ?_
  induction es with
  | nil => cases he
  | cons e' es ih =>
    rw [exprsHeight] at hes
    rcases List.mem_cons.mp he with rfl | he
    · omega
    · exact ih (by omega) he

/-- Lists of statements. -/
theorem completes_stmts (context : ScopeContext) {ss : List Stmt} (hss : stmtsHeight ss ≤ depth) :
    Completes (ss.forM (inner.stmt context)) := by
  refine .forM fun s hs => h.stmt context s ?_
  induction ss with
  | nil => cases hs
  | cons s' ss ih =>
    rw [stmtsHeight] at hss
    rcases List.mem_cons.mp hs with rfl | hs
    · omega
    · exact ih (by omega) hs

/-- The body of a function. -/
theorem completes_function (context : ScopeContext) (params : List Name) {body : List Stmt}
    (hbody : stmtsHeight body ≤ depth) : Completes (inner.function context params body) :=
  (completes_modify _).bind fun _ => (Completes.forM fun x _ => completes_declareReady x).bind
    fun _ => (completes_stmts h context hbody).bind fun _ => completes_modify _

/-- A function of a declaration. -/
theorem completes_functionDecl (context : ScopeContext) {f : FunctionDecl} (hf : f.height ≤ depth) :
    Completes (inner.function context f.params f.body) := by
  obtain ⟨name, params, body⟩ := f
  exact completes_function h context params hf

omit h in
/-- The members of a class. -/
theorem completes_functions {p : FunctionDecl → Resolver Unit}
    (hp : ∀ f, f.height ≤ depth → Completes (p f)) {fs : List FunctionDecl}
    (hfs : functionsHeight fs ≤ depth) : Completes (fs.forM p) := by
  refine .forM fun f hf => hp f ?_
  induction fs with
  | nil => cases hf
  | cons f' fs ih =>
    rw [functionsHeight] at hfs
    rcases List.mem_cons.mp hf with rfl | hf
    · omega
    · exact ih (by omega) hf

/-- Expressions. -/
theorem completes_exprRule (context : ScopeContext) (e : Expr) (he : e.height ≤ depth + 1) :
    Completes (inner.exprRule context e) := by
  cases e with
  -- An expression is higher than its parts by one, so the levels below are enough for them.
  | literal value => exact .pure ()
  | grouping e => exact h.expr context e (by simpa [Expr.height] using he)
  | unary op line e => exact h.expr context e (by simpa [Expr.height] using he)
  | binary op line left right =>
    rw [Expr.height] at he
    exact (h.expr context left (by omega)).bind fun _ => h.expr context right (by omega)
  | logical op line left right =>
    rw [Expr.height] at he
    exact (h.expr context left (by omega)).bind fun _ => h.expr context right (by omega)
  | «variable» use => exact completes_readVariable use
  | assign id name value =>
    rw [Expr.height] at he
    exact (h.expr context value (by omega)).bind fun _ => completes_resolveUse _ _ _ _
  | call callee line arguments =>
    rw [Expr.height] at he
    exact (h.expr context callee (by omega)).bind fun _ => completes_exprs h context (by omega)
  | get object name => exact h.expr context object (by simpa [Expr.height] using he)
  | set object name value =>
    rw [Expr.height] at he
    exact (h.expr context value (by omega)).bind fun _ => h.expr context object (by omega)
  | lambda line params body =>
    exact completes_function h _ params (by simpa [Expr.height] using he)
  | this id line =>
    show Completes (ScopeWalk.this context id line)
    unfold ScopeWalk.this
    split <;> exact completes_modify _
  | super id line method =>
    show Completes (ScopeWalk.super context id line)
    unfold ScopeWalk.super
    split <;> exact completes_modify _

/-- A variable with or without an initializer. -/
theorem completes_varDeclaration (context : ScopeContext) (name : Name) (initializer : Option Expr)
    (hst : (Stmt.var name initializer).height ≤ depth + 1) :
    Completes (inner.varDeclaration context name initializer) := by
  refine (completes_declare name).bind fun _ => ?_
  cases initializer with
  | none => exact completes_modify _
  | some e =>
    have he := h.expr context e (by simpa [Stmt.height] using hst)
    exact (completes_modify _).bind fun _ => he.bind fun _ => (completes_modify _).bind
      fun _ => completes_modify _

/-- A value that may be left out. -/
theorem completes_returnValue (context : ScopeContext) (line : Nat) (value : Option Expr)
    (hst : (Stmt.returnValue line value).height ≤ depth + 1) :
    Completes (inner.returnValue context line value) := by
  cases value with
  | none => exact .ite ((completes_report _ _).bind fun _ => .pure ()) (.pure ())
  | some e =>
    have he := h.expr context e (by simpa [Stmt.height] using hst)
    have hvalue : Completes (do
        if context.inFunction = .initializer then
          report (Keyword.«return».place line) .returnValueFromInitializer
        inner.expr context e) :=
      .ite ((completes_report _ _).bind fun _ => he) he
    exact .ite ((completes_report _ _).bind fun _ => hvalue) hvalue

/-- The superclass is a variable, and no level further in. -/
theorem completes_classDeclaration (name : Name)
    (parent : Option VariableUse) {methods staticMethods : List FunctionDecl}
    (hmethods : functionsHeight methods ≤ depth)
    (hstatics : functionsHeight staticMethods ≤ depth) :
    Completes (inner.classDeclaration name parent methods staticMethods) := by
  have hstatics : Completes (staticMethods.forM inner.staticMethod) := by
    refine completes_functions (fun f hf => ?_) hstatics
    have hbody := completes_functionDecl h ⟨.method, .staticMethod⟩ hf
    exact .ite ((completes_report _ _).bind fun _ => hbody) hbody
  have hmethods (c : ClassContext) : Completes (methods.forM (inner.instanceMethod c)) :=
    completes_functions (fun _ hf => completes_functionDecl h _ hf) hmethods
  refine (completes_declareReady name).bind fun _ => ?_
  cases parent with
  | none =>
    exact hstatics.bind fun _ => (completes_modify _).bind fun _ => (hmethods _).bind
      fun _ => (completes_modify _).bind fun _ => .pure ()
  -- With a superclass, there is one scope more to open and to close.
  | some use =>
    have hread := completes_readVariable use
    have hsuperclass : Completes (ScopeWalk.superclass name use) :=
      .ite ((completes_report _ _).bind fun _ => hread) hread
    exact hsuperclass.bind fun _ => hstatics.bind fun _ => (completes_modify _).bind
      fun _ => (completes_modify _).bind fun _ => (hmethods _).bind fun _ =>
        (completes_modify _).bind fun _ => completes_modify _

/-- Statements. -/
theorem completes_stmtRule (context : ScopeContext) (st : Stmt) (hst : st.height ≤ depth + 1) :
    Completes (inner.stmtRule context st) := by
  cases st with
  | expression e => exact h.expr context e (by simpa [Stmt.height] using hst)
  | print e => exact h.expr context e (by simpa [Stmt.height] using hst)
  | var name initializer => exact completes_varDeclaration h context name initializer hst
  | block body =>
    exact (completes_modify _).bind fun _ =>
      (completes_stmts h context (by simpa [Stmt.height] using hst)).bind
        fun _ => completes_modify _
  | ifThen condition s alternative =>
    cases alternative with
    | none =>
      rw [Stmt.height] at hst
      exact (h.expr context condition (by omega)).bind fun _ =>
        (h.stmt context s (by omega)).bind fun _ => .pure ()
    | some t =>
      rw [Stmt.height] at hst
      exact (h.expr context condition (by omega)).bind fun _ =>
        (h.stmt context s (by omega)).bind fun _ => h.stmt context t (by omega)
  | whileDo condition s =>
    rw [Stmt.height] at hst
    exact (h.expr context condition (by omega)).bind fun _ => h.stmt context s (by omega)
  | function f =>
    exact (completes_declareReady _).bind fun _ =>
      completes_functionDecl h _ (by simpa [Stmt.height] using hst)
  | returnValue line value => exact completes_returnValue h context line value hst
  | classDecl name parent methods staticMethods =>
    rw [Stmt.height] at hst
    exact completes_classDeclaration h name parent (by omega) (by omega)

end Rules

/-!
## Tying the knot

With as many levels as a tree is high, by induction on them.
-/

/-- At height zero there is no tree. -/
theorem completesUpTo_scopeWalk (depth : Nat) : (scopeWalk depth).CompletesUpTo depth := by
  induction depth with
  | zero =>
    refine ⟨fun _ e he => ?_, fun _ st hst => ?_⟩
    · cases e <;> simp [Expr.height] at he
    · cases st with
      | var name initializer => cases initializer <;> simp [Stmt.height] at hst
      | ifThen condition s alternative => cases alternative <;> simp [Stmt.height] at hst
      | returnValue line value => cases value <;> simp [Stmt.height] at hst
      | _ => simp [Stmt.height] at hst
  | succ depth ih => exact ⟨completes_exprRule ih, completes_stmtRule ih⟩

/-- The walk over a program comes to its end with as many levels as its height. -/
theorem completes_program {depth : Nat} {program : List Stmt} (h : stmtsHeight program ≤ depth) :
    Completes (program.forM ((scopeWalk depth).stmt ⟨.none, .none⟩)) :=
  completes_stmts (completesUpTo_scopeWalk depth) ⟨.none, .none⟩ h

end LoxLang
