import LoxLang.Proofs.ForLoops
import LoxLang.Proofs.Scoping.Walk

/-!
# What is reported about `for` loops

The tree of a loop with a last clause has a scope around each round that the loop has not. Nothing
is ever declared in it, so it makes no difference to what is reported: the two ways to look at a
program always have the same scopes open, but for some empty ones (`Padded`), and report the same
(`Together`). One lemma for each rule says so, and one for loops, where an empty scope is opened;
`together_walks` ties the knot by induction on the levels of nesting.

An empty scope hides what is not ready in the scope around it. That makes no difference either,
because a loop is a statement, and in front of a statement everything is ready (`Settled`).
-/

namespace LoxLang.Lexical.Direct

open LoxLang.Resolver

/-!
## Scopes

The two ways to look at a program have the same scopes open, but for empty ones that only the tree
has. Names are never entered into those, because a statement that declares something where it stands
is never what a loop repeats.
-/

/-- The names that a statement enters into the scope where it stands, wherever in it. -/
def entered : Stmt → List String
  | .var name _ => [name.text]
  | .function f => [f.name.text]
  | .classDecl name _ _ _ => [name.text]
  | .ifThen _ s none => entered s
  | .ifThen _ s (some t) => entered s ++ entered t
  | .whileDo _ s => entered s
  | .expression _ | .print _ | .block _ | .returnValue _ _ => []

/-- What may be the body of a loop enters no name. -/
theorem entered_of_isClosed {s : Stmt} (h : s.isClosed = true) : entered s = [] := by
  fun_induction entered s with
  | case1 | case2 | case3 => cases h
  | case4 _ s ih => exact ih h
  | case5 _ s t ih ih' =>
    obtain ⟨hs, ht⟩ := Bool.and_eq_true_iff.mp h
    rw [ih hs, ih' ht, List.append_nil]
  | case6 _ s ih => exact ih h
  | case7 | case8 | case9 | case10 => rfl

/-- The scopes behind names that were entered. -/
def enterNames (S : List Scope) (xs : List String) : List Scope :=
  xs.foldl (fun S x => Scope.enter x true S) S

/-- Names are entered one after the other. -/
theorem enterNames_append (S : List Scope) (xs ys : List String) :
    enterNames S (xs ++ ys) = enterNames (enterNames S xs) ys := List.foldl_append

/-- In front of a statement, no variable of the innermost scope is being initialized. -/
def Settled (initializing : List String) : List Scope → Prop
  | [] => initializing = []
  | scope :: _ => ∀ x, scope.get? x ≠ some false

/-- The scopes of a program and those of its tree, which has empty ones besides. -/
inductive Padded (initializing : List String) : List Scope → List Scope → Prop
  | nil : Padded initializing [] []
  | scope {scope : Scope} {S S' : List Scope} (h : Padded initializing S S') :
      Padded initializing (scope :: S) (scope :: S')
  | extra {S S' : List Scope} (h : Padded initializing S S') (hsettled : Settled initializing S) :
      Padded initializing S ([] :: S')

/-- The innermost scope is no empty one of the tree. -/
inductive Aligned (initializing : List String) : List Scope → List Scope → Prop
  | nil : Aligned initializing [] []
  | scope {scope : Scope} {S S' : List Scope} (h : Padded initializing S S') :
      Aligned initializing (scope :: S) (scope :: S')

variable {I J : List String} {S S' T T' U U' : List Scope}

/-- Somewhere further out there may be empty scopes, too. -/
theorem Aligned.padded (h : Aligned I S S') : Padded I S S' := by
  cases h with
  | nil => exact .nil
  | scope h => exact .scope h

/-- The name goes to the innermost scope of each, and these are the same. -/
theorem Aligned.enter (h : Aligned I S S') (x : String) (ready : Bool) :
    Aligned I (Scope.enter x ready S) (Scope.enter x ready S') := by
  cases h with
  | nil => exact .nil
  | scope h => exact .scope h

theorem Aligned.enterNames (h : Aligned I S S') (xs : List String) :
    Aligned I (enterNames S xs) (enterNames S' xs) := by
  induction xs generalizing S S' with
  | nil => exact h
  | cons x xs ih => exact ih (h.enter x true)

/-- A name that is entered as ready leaves everything ready. -/
theorem settled_enter (h : Settled I S) (x : String) : Settled I (Scope.enter x true S) := by
  cases S with
  | nil => exact h
  | cons scope S =>
    intro y
    rw [Bindings.get?_insert]
    split
    · simp
    · exact h y

theorem settled_enterNames (h : Settled I S) (xs : List String) : Settled I (enterNames S xs) := by
  induction xs generalizing S with
  | nil => exact h
  | cons x xs ih => exact ih (settled_enter h x)

/-- Names go to the innermost scope. -/
theorem drop_enterNames (S : List Scope) (xs : List String) :
    (enterNames S xs).drop 1 = S.drop 1 := by
  induction xs generalizing S with
  | nil => rfl
  | cons x xs ih => exact (ih _).trans (Scope.drop_enter x true S)

/-!
## Looking at the same

Two walks lead from one stage to another, and report the same on the way. If one gives up because of
the nesting, then so does the other, after the same reports.
-/

/-- Where two walks stand: the open scopes of each, and names to which those of global variables
that are being initialized belong. -/
structure Stage where
  scopes : List Scope
  scopes' : List Scope
  initializing : List String

/-- Two states are at a stage, and the same has been reported. -/
structure Stage.At (A : Stage) (s s' : ScopeState) : Prop where
  scopes : s.scopes = A.scopes
  scopes' : s'.scopes = A.scopes'
  initializing : s'.initializing = s.initializing
  within : s.initializing ⊆ A.initializing
  reports : s'.reports = s.reports

/-- Two walks end at a stage, or both give up after the same reports. -/
inductive Ends (B : Stage) :
    EStateM.Result ScopeStop ScopeState Unit → EStateM.Result ScopeStop ScopeState Unit → Prop
  | ok {s s' : ScopeState} (h : B.At s s') : Ends B (.ok () s) (.ok () s')
  | tooDeep {s s' : ScopeState} (h : s'.reports = s.reports) :
      Ends B (.error .tooDeep s) (.error .tooDeep s')

/-- Two walks lead from one stage to another and report the same on the way. -/
def Together (A B : Stage) (p p' : Resolver Unit) : Prop := ∀ s s', A.At s s' → Ends B (p s) (p' s')

namespace Together

variable {A B C : Stage} {p p' q q' : Resolver Unit}

theorem pure : Together A A (pure ()) (pure ()) := fun _ _ h => .ok h

/-- Both are nested too deep. -/
theorem tooDeep : Together A B (throw .tooDeep) (throw .tooDeep) := fun _ _ h => .tooDeep h.reports

/-- Two walks, each behind another. -/
theorem bind (hp : Together A B p p') (hq : Together B C q q') :
    Together A C (p >>= fun _ => q) (p' >>= fun _ => q') := by
  intro s s' hs
  have hends := hp s s' hs
  show Ends C (EStateM.bind p (fun _ => q) s) (EStateM.bind p' (fun _ => q') s')
  unfold EStateM.bind
  generalize p s = r at hends
  generalize p' s' = r' at hends
  cases hends with
  | ok h => exact hq _ _ h
  | tooDeep h => exact .tooDeep h

/-- Where the one walk gives up, nothing comes behind the other. -/
theorem tooDeep_bind (h : Together A B p (throw .tooDeep)) :
    Together A C (p >>= fun _ => q) (throw .tooDeep) := by
  intro s s' hs
  have hends : Ends B (p s) (.error .tooDeep s') := h s s' hs
  show Ends C (EStateM.bind p (fun _ => q) s) (.error .tooDeep s')
  unfold EStateM.bind
  generalize p s = r at hends
  cases hends with
  | tooDeep h => exact .tooDeep h

/-- Whichever way both take. -/
theorem ite {c : Prop} [Decidable c] (hp : Together A B p p') (hq : Together A B q q') :
    Together A B (if c then p else q) (if c then p' else q') := by
  split
  · exact hp
  · exact hq

/-- The same walk over each of some things. -/
theorem forM {α : Type} {f f' : α → Resolver Unit} (xs : List α)
    (h : ∀ x ∈ xs, Together A A (f x) (f' x)) : Together A A (xs.forM f) (xs.forM f') := by
  induction xs with
  | nil => exact pure
  | cons x xs ih =>
    exact (h x List.mem_cons_self).bind (ih fun y hy => h y (List.mem_cons_of_mem x hy))

/-!
### Steps

The steps are the same in both walks. What is to be shown is that what they report does not depend
on the empty scopes.
-/

/-- Both report the same. -/
theorem report (place : Location) (e : ScopeError) :
    Together A A (report place e) (report place e) := fun _ _ h =>
  .ok { h with reports := congrArg (· ++ [_]) h.reports }

/-- Both report something, or neither does. -/
theorem reportIf {c : Prop} [Decidable c] (place : Location) (e : ScopeError)
    (h : Together A B p p') :
    Together A B (if c then Resolver.report place e >>= fun _ => p else p)
      (if c then Resolver.report place e >>= fun _ => p' else p') :=
  .ite ((report place e).bind h) h

/-- Both open the same scope. -/
theorem openScope (scope : Scope) :
    Together ⟨S, S', I⟩ ⟨scope :: S, scope :: S', I⟩ (openScope scope) (openScope scope) :=
  fun _ _ h => .ok { h with
    scopes := congrArg (scope :: ·) h.scopes
    scopes' := congrArg (scope :: ·) h.scopes' }

/-- Both leave a scope. -/
theorem closeScope :
    Together ⟨S, S', I⟩ ⟨S.drop 1, S'.drop 1, I⟩ closeScope closeScope := fun _ _ h =>
  .ok { h with
    scopes := congrArg (·.drop 1) h.scopes
    scopes' := congrArg (·.drop 1) h.scopes' }

/-- A scope is closed, whatever was entered into it. -/
theorem closeNames (scope : Scope) (xs : List String) :
    Together ⟨enterNames (scope :: S) xs, enterNames (scope :: S') xs, I⟩ ⟨S, S', I⟩
      Resolver.closeScope Resolver.closeScope := by
  have hclose : Together ⟨enterNames (scope :: S) xs, enterNames (scope :: S') xs, I⟩
      ⟨(enterNames (scope :: S) xs).drop 1, (enterNames (scope :: S') xs).drop 1, I⟩
      Resolver.closeScope Resolver.closeScope := closeScope
  rwa [drop_enterNames, drop_enterNames] at hclose

/-- An empty scope of the tree alone. -/
theorem padded (h : Together ⟨S, [] :: S', I⟩ ⟨S, [] :: S', I⟩ p p') :
    Together ⟨S, S', I⟩ ⟨S, S', I⟩ p
      (Resolver.openScope [] >>= fun _ => p' >>= fun _ => Resolver.closeScope) := by
  intro s s' hs
  have hends := h s { s' with scopes := [] :: s'.scopes }
    { hs with scopes' := congrArg ([] :: ·) hs.scopes' }
  show Ends _ (p s)
    (EStateM.bind p' (fun _ => Resolver.closeScope) { s' with scopes := [] :: s'.scopes })
  unfold EStateM.bind
  generalize p s = r at hends
  generalize p' { s' with scopes := [] :: s'.scopes } = r' at hends
  cases hends with
  | ok h => exact .ok { h with scopes' := congrArg (·.drop 1) h.scopes' }
  | tooDeep h => exact .tooDeep h

/-- The same name goes into both innermost scopes. -/
theorem setInnermost (h : Aligned I S S') (x : String) (ready : Bool) :
    Together ⟨S, S', I⟩ ⟨Scope.enter x ready S, Scope.enter x ready S', I⟩
      (setInnermost x ready) (setInnermost x ready) := by
  rintro ⟨_, i, uses, reports⟩ ⟨_, i', uses', reports'⟩ ⟨rfl, rfl, hi, hwithin, hreports⟩
  cases h with
  | nil => exact .ok ⟨rfl, rfl, hi, hwithin, hreports⟩
  | scope h => exact .ok ⟨rfl, rfl, hi, hwithin, hreports⟩

/-- A name is there already in both innermost scopes, or in neither. -/
theorem declare (h : Aligned I S S') (x : Name) :
    Together ⟨S, S', I⟩ ⟨Scope.enter x.text false S, Scope.enter x.text false S', I⟩
      (declare x) (declare x) := by
  have hset := setInnermost h x.text false
  rintro ⟨_, i, uses, reports⟩ ⟨_, i', uses', reports'⟩ ⟨rfl, rfl, hi, hwithin, hreports⟩
  cases h with
  | nil => exact hset _ _ ⟨rfl, rfl, hi, hwithin, hreports⟩
  | @scope scope S S' _ =>
    have hreport := reportIf (c := scope.contains x.text) x.place .alreadyDeclared hset
    exact hreport _ _ ⟨rfl, rfl, hi, hwithin, hreports⟩

/-- The same of names that are ready at once. -/
theorem declareReady (h : Aligned I S S') (x : Name) :
    Together ⟨S, S', I⟩ ⟨Scope.enter x.text true S, Scope.enter x.text true S', I⟩
      (declareReady x) (declareReady x) := by
  have hdefine := setInnermost (h.enter x.text false) x.text true
  rw [Scope.enter_enter, Scope.enter_enter] at hdefine
  exact (declare h x).bind hdefine

/-- Parameters go into the same scope, one after the other. -/
theorem declareParams (params : List Name) (h : Aligned I S S') :
    Together ⟨S, S', I⟩
      ⟨enterNames S (params.map (·.text)), enterNames S' (params.map (·.text)), I⟩
      (params.forM Resolver.declareReady) (params.forM Resolver.declareReady) := by
  induction params generalizing S S' with
  | nil => exact pure
  | cons x params ih => exact (declareReady h x).bind (ih (h.enter x.text true))

/-- Distances may differ, but they are not reported. -/
theorem resolveUse (kind : UseKind) (x : String) (line : Nat) (id : UseId) :
    Together A A (resolveUse kind x line id) (resolveUse kind x line id) := by
  have hkeeps (s : ScopeState) :
      ∃ uses, Resolver.resolveUse kind x line id s = .ok () { s with uses } := by
    cases hfind : s.scopes.findIdx? (·.contains x) with
    | none => exact ⟨s.uses, congrArg (EStateM.Result.ok ()) (by dsimp only; rw [hfind])⟩
    | some distance => exact ⟨_, congrArg (EStateM.Result.ok ()) (by dsimp only; rw [hfind])⟩
  intro s s' h
  obtain ⟨uses, hrun⟩ := hkeeps s
  obtain ⟨uses', hrun'⟩ := hkeeps s'
  rw [hrun, hrun']
  exact .ok { h with }

/-- The initializer of a global variable begins. -/
theorem beginGlobal (x : String) :
    Together ⟨[], [], I⟩ ⟨[], [], x :: I⟩ (beginInitializer x) (beginInitializer x) := by
  rintro ⟨_, i, uses, reports⟩ ⟨_, _, uses', reports'⟩ ⟨rfl, rfl, rfl, hwithin, hreports⟩
  exact .ok ⟨rfl, rfl, rfl, List.cons_subset_cons x hwithin, hreports⟩

/-- That of a local variable is not noted. -/
theorem beginLocal (scope : Scope) (x : String) :
    Together ⟨scope :: S, scope :: S', I⟩ ⟨scope :: S, scope :: S', I⟩ (beginInitializer x)
      (beginInitializer x) := by
  rintro ⟨_, i, uses, reports⟩ ⟨_, _, uses', reports'⟩ ⟨rfl, rfl, rfl, hwithin, hreports⟩
  exact .ok ⟨rfl, rfl, rfl, hwithin, hreports⟩

/-- The initializer of a variable ends. -/
theorem endInitializer {x : String} (h : ∀ y ∈ J, y ≠ x → y ∈ I) :
    Together ⟨S, S', J⟩ ⟨S, S', I⟩ (endInitializer x) (endInitializer x) := by
  rintro ⟨_, i, uses, reports⟩ ⟨_, _, uses', reports'⟩ ⟨rfl, rfl, rfl, hwithin, hreports⟩
  refine .ok ⟨rfl, rfl, rfl, fun y hy => ?_, hreports⟩
  obtain ⟨hy, hne⟩ := List.mem_filter.mp hy
  exact h y (hwithin hy) (of_decide_eq_true hne)

end Together

/-!
## Readings

Whether a variable is ready is looked up in the innermost scope. An empty scope has nothing that is
not ready, and neither has a settled one.
-/

/-- Whether a variable is ready, given the open scopes. -/
def isReadyIn (initializing : List String) (x : String) : List Scope → Bool
  | [] => !initializing.contains x
  | scope :: _ => scope.get? x != some false

/-- To ask whether a variable is ready changes nothing. -/
theorem isReady_apply (x : String) (s : ScopeState) :
    isReady x s = .ok (isReadyIn s.initializing x s.scopes) s := by
  obtain ⟨scopes, i, uses, reports⟩ := s
  cases scopes <;> rfl

/-- An empty scope hides nothing that is not ready. -/
theorem Padded.isReadyIn_eq {i : List String} (h : Padded I S S') (hi : i ⊆ I) (x : String) :
    isReadyIn i x S' = isReadyIn i x S := by
  cases h with
  | nil => rfl
  | scope h => rfl
  | extra h hsettled =>
    -- An empty scope says that every name is ready, and so does what is around it.
    show true = _
    cases S with
    | nil =>
      have hnone : i = [] := List.subset_nil.mp (hsettled ▸ hi)
      rw [hnone]
      rfl
    | cons scope S => exact (bne_iff_ne.mpr (hsettled x)).symm

/-- A variable that is read in its own initializer is reported in both, or in neither. -/
theorem together_readVariable (h : Padded I S S') (use : VariableUse) :
    Together ⟨S, S', I⟩ ⟨S, S', I⟩ (readVariable use) (readVariable use) := by
  have hresolve {A : Stage} :=
    Together.resolveUse (A := A) .«variable» use.name.text use.name.line use.id
  -- Whether a name is ready is asked in the scopes that are open, so both sides branch alike.
  have happly (s : ScopeState) : readVariable use s =
      (if isReadyIn s.initializing use.name.text s.scopes then
        resolveUse .«variable» use.name.text use.name.line use.id
      else report use.name.place .ownInitializer >>= fun _ =>
        resolveUse .«variable» use.name.text use.name.line use.id) s := by
    show EStateM.bind (isReady use.name.text) _ s = _
    unfold EStateM.bind
    rw [isReady_apply]
  intro s s' hs
  obtain ⟨hscopes, hscopes', hi, hwithin, -⟩ := id hs
  have hready := h.isReadyIn_eq hwithin use.name.text
  rw [happly s, happly s', hi, hscopes, hscopes', hready]
  have hreport {A : Stage} := Together.report (A := A) use.name.place .ownInitializer
  exact Together.ite hresolve (hreport.bind hresolve) s s' hs

/-!
## The rules

If two walks report the same about whatever lies one level further in, then the rules around them do
so, too.
-/

/-- Where a statement can stand: it enters no name into a scope that only the tree has. -/
def Stands (I : List String) (S S' : List Scope) (s : Stmt) : Prop :=
  Aligned I S S' ∨ s.isClosed = true ∧ Padded I S S'

/-- Where a statement stands, the scopes are the same but for empty ones. -/
theorem Stands.padded {s : Stmt} (h : Stands I S S' s) : Padded I S S' :=
  h.elim Aligned.padded And.right

/-- Two walks report the same about whatever they look at. -/
structure Alike (w w' : ScopeWalk) : Prop where
  expr : ∀ (context : ScopeContext) (e : Expr) {I : List String} {S S' : List Scope},
    Padded I S S' → Together ⟨S, S', I⟩ ⟨S, S', I⟩ (w.expr context e) (w'.expr context e)
  stmt : ∀ (context : ScopeContext) (s : Stmt) {I : List String} {S S' : List Scope},
    Stands I S S' s → Settled I S →
      Together ⟨S, S', I⟩ ⟨enterNames S (entered s), enterNames S' (entered s), I⟩
        (w.stmt context s) (w'.stmt context s)

namespace Alike

variable {w w' : ScopeWalk} (h : Alike w w') (context : ScopeContext)
include h

/-- Each statement is looked at in the scopes that those before it leave behind. -/
theorem stmts (ss : List Stmt) (haligned : Aligned I S S') (hsettled : Settled I S) :
    Together ⟨S, S', I⟩
      ⟨enterNames S (ss.flatMap entered), enterNames S' (ss.flatMap entered), I⟩
      (ss.forM (w.stmt context)) (ss.forM (w'.stmt context)) := by
  induction ss generalizing S S' with
  | nil => exact .pure
  | cons s ss ih =>
    have hfirst := h.stmt context s (.inl haligned) hsettled
    have hrest := ih (haligned.enterNames (entered s)) (settled_enterNames hsettled _)
    rw [List.flatMap_cons, enterNames_append, enterNames_append]
    exact hfirst.bind hrest

/-- Statements in a scope of their own, behind names that were entered into it. -/
theorem inScope (xs : List String) (ss : List Stmt) (hpadded : Padded I S S') :
    Together ⟨enterNames ([] :: S) xs, enterNames ([] :: S') xs, I⟩ ⟨S, S', I⟩
      (ss.forM (w.stmt context) >>= fun _ => closeScope)
      (ss.forM (w'.stmt context) >>= fun _ => closeScope) := by
  have haligned : Aligned I ([] :: S) ([] :: S') := .scope hpadded
  have hsettled : Settled I ([] :: S) := fun x => by simp [Bindings.get?]
  have hstmts := h.stmts context ss (haligned.enterNames xs) (settled_enterNames hsettled xs)
  rw [← enterNames_append, ← enterNames_append] at hstmts
  exact hstmts.bind (.closeNames [] _)

/-- The body of a function is looked at in a scope with the parameters. -/
theorem function (params : List Name) (body : List Stmt) (hpadded : Padded I S S') :
    Together ⟨S, S', I⟩ ⟨S, S', I⟩ (w.function context params body)
      (w'.function context params body) := by
  have hparams := Together.declareParams params (.scope hpadded : Aligned I ([] :: S) ([] :: S'))
  have hbody := h.inScope context (params.map (·.text)) body hpadded
  exact (Together.openScope []).bind (hparams.bind hbody)

/-- The body of a block has a scope of its own. -/
theorem block (body : List Stmt) (hpadded : Padded I S S') :
    Together ⟨S, S', I⟩ ⟨S, S', I⟩ (w.stmtRule context (.block body))
      (w'.stmtRule context (.block body)) :=
  (Together.openScope []).bind (h.inScope context [] body hpadded)

/-- Expressions enter no names. -/
theorem exprRule (e : Expr) (hpadded : Padded I S S') :
    Together ⟨S, S', I⟩ ⟨S, S', I⟩ (w.exprRule context e) (w'.exprRule context e) := by
  have hexpr (e : Expr) := h.expr context e hpadded
  cases e with
  | literal value => exact .pure
  | grouping e => exact hexpr e
  | unary op line e => exact hexpr e
  | binary op line left right => exact (hexpr left).bind (hexpr right)
  | logical op line left right => exact (hexpr left).bind (hexpr right)
  | «variable» use => exact together_readVariable hpadded use
  | assign id name value => exact (hexpr value).bind (.resolveUse _ _ _ _)
  | call callee line arguments => exact (hexpr callee).bind (.forM _ fun e _ => hexpr e)
  | get object name => exact hexpr object
  | set object name value => exact (hexpr value).bind (hexpr object)
  | lambda line params body => exact h.function _ params body hpadded
  | this id line =>
    show Together _ _ (ScopeWalk.this context id line) (ScopeWalk.this context id line)
    unfold ScopeWalk.this
    cases context.inClass
    · exact .report _ _
    · exact .resolveUse _ _ _ _
    · exact .resolveUse _ _ _ _
    · exact .report _ _
  | super id line method =>
    show Together _ _ (ScopeWalk.super context id line) (ScopeWalk.super context id line)
    unfold ScopeWalk.super
    cases context.inClass
    · exact .report _ _
    · exact .report _ _
    · exact .resolveUse _ _ _ _
    · exact .report _ _

/-- The name is declared, the initializer is looked at, and then the name is ready. -/
theorem varDeclaration (name : Name) (value : Option Expr) (haligned : Aligned I S S')
    (hsettled : Settled I S) :
    Together ⟨S, S', I⟩ ⟨Scope.enter name.text true S, Scope.enter name.text true S', I⟩
      (w.varDeclaration context name value) (w'.varDeclaration context name value) := by
  have hdeclare := Together.declare haligned name
  have hdefine := Together.setInnermost (haligned.enter name.text false) name.text true
  rw [Scope.enter_enter, Scope.enter_enter] at hdefine
  cases value with
  | none => exact hdeclare.bind hdefine
  | some e =>
    cases haligned with
    | nil =>
      -- The names of global variables that are being initialized were none before.
      refine hdeclare.bind ((Together.beginGlobal name.text).bind
        ((h.expr context e .nil).bind (.bind (.endInitializer ?_) hdefine)))
      intro x hx hne
      exact (List.mem_cons.mp hx).resolve_left hne
    | scope hpadded =>
      exact hdeclare.bind ((Together.beginLocal _ name.text).bind
        ((h.expr context e (.scope hpadded)).bind
          (.bind (.endInitializer fun _ hx _ => hx) hdefine)))

/-- Whether a `return` is misplaced depends on the function around it. -/
theorem returnValue (line : Nat) (value : Option Expr) (hpadded : Padded I S S') :
    Together ⟨S, S', I⟩ ⟨S, S', I⟩ (w.returnValue context line value)
      (w'.returnValue context line value) := by
  unfold Walk.returnValue
  cases value with
  | none => exact .reportIf _ _ .pure
  | some e => exact .reportIf _ _ (.reportIf _ _ (h.expr context e hpadded))

/-- A static method is looked at like a function. -/
theorem staticMethod (f : FunctionDecl) (hpadded : Padded I S S') :
    Together ⟨S, S', I⟩ ⟨S, S', I⟩ (w.staticMethod f) (w'.staticMethod f) :=
  .reportIf _ _ (h.function _ f.params f.body hpadded)

/-- A method is looked at in the scope of `this`. -/
theorem instanceMethod (inClass : ClassContext) (f : FunctionDecl) (hpadded : Padded I S S') :
    Together ⟨S, S', I⟩ ⟨S, S', I⟩ (w.instanceMethod inClass f) (w'.instanceMethod inClass f) :=
  h.function _ f.params f.body hpadded

/-- The methods of instances, in the scope of `this`, and what is looked at behind them. -/
theorem methods (inClass : ClassContext) (fs : List FunctionDecl) (hpadded : Padded I S S')
    {B : Stage} {q q' : Resolver Unit} (hrest : Together ⟨S, S', I⟩ B q q') :
    Together ⟨S, S', I⟩ B
      (openScope [("this", true)] >>= fun _ => fs.forM (w.instanceMethod inClass) >>= fun _ =>
        closeScope >>= fun _ => q)
      (openScope [("this", true)] >>= fun _ => fs.forM (w'.instanceMethod inClass) >>= fun _ =>
        closeScope >>= fun _ => q') :=
  (Together.openScope _).bind
    (.bind (.forM fs fun f _ => h.instanceMethod inClass f (.scope hpadded))
      (.bind .closeScope hrest))

/-- The scope of `super` is there in both, or in neither. -/
theorem classDeclaration (name : Name) (parent : Option VariableUse)
    (methods staticMethods : List FunctionDecl) (haligned : Aligned I S S') :
    Together ⟨S, S', I⟩ ⟨Scope.enter name.text true S, Scope.enter name.text true S', I⟩
      (w.classDeclaration name parent methods staticMethods)
      (w'.classDeclaration name parent methods staticMethods) := by
  have hdeclare := Together.declareReady haligned name
  have hpadded := (haligned.enter name.text true).padded
  have hstatic := Together.forM staticMethods fun f _ => h.staticMethod f hpadded
  unfold ScopeWalk.classDeclaration Walk.classWith
  cases parent with
  | none => exact hdeclare.bind (hstatic.bind (h.methods .«class» methods hpadded .pure))
  | some use =>
    have hsuperclass : Together ⟨_, _, I⟩ ⟨_, _, I⟩ (ScopeWalk.superclass name use)
        (ScopeWalk.superclass name use) :=
      .reportIf _ _ (together_readVariable hpadded use)
    exact hdeclare.bind (hsuperclass.bind (hstatic.bind
      ((Together.openScope _).bind (h.methods .subclass methods (.scope hpadded) .closeScope))))

/-- Whatever the statement is. -/
theorem stmtRule (s : Stmt) (hstands : Stands I S S' s) (hsettled : Settled I S) :
    Together ⟨S, S', I⟩ ⟨enterNames S (entered s), enterNames S' (entered s), I⟩
      (w.stmtRule context s) (w'.stmtRule context s) := by
  have hpadded := hstands.padded
  cases s with
  | expression e => exact h.expr context e hpadded
  | print e => exact h.expr context e hpadded
  | block body => exact h.block context body hpadded
  | returnValue line value => exact h.returnValue context line value hpadded
  | var name value =>
    obtain haligned | ⟨hclosed, -⟩ := hstands
    · exact h.varDeclaration context name value haligned hsettled
    · cases hclosed
  | function f =>
    obtain haligned | ⟨hclosed, -⟩ := hstands
    · have hdeclare := Together.declareReady haligned f.name
      exact hdeclare.bind (h.function _ f.params f.body (haligned.enter _ _).padded)
    · cases hclosed
  | classDecl name parent methods staticMethods =>
    obtain haligned | ⟨hclosed, -⟩ := hstands
    · exact h.classDeclaration name parent methods staticMethods haligned
    · cases hclosed
  | whileDo e s =>
    exact (h.expr context e hpadded).bind (h.stmt context s hstands hsettled)
  | ifThen e s t =>
    refine (h.expr context e hpadded).bind ?_
    cases t with
    | none => exact (h.stmt context s hstands hsettled).bind .pure
    | some t =>
      -- What the one branch enters stands in front of the other.
      obtain ⟨hs, ht⟩ : Stands I S S' s ∧
          Stands I (enterNames S (entered s)) (enterNames S' (entered s)) t := by
        obtain haligned | ⟨hclosed, -⟩ := hstands
        · exact ⟨.inl haligned, .inl (haligned.enterNames _)⟩
        · obtain ⟨hs, ht⟩ := Bool.and_eq_true_iff.mp hclosed
          rw [entered_of_isClosed hs]
          exact ⟨.inr ⟨hs, hpadded⟩, .inr ⟨ht, hpadded⟩⟩
      have hsecond := h.stmt context t ht (settled_enterNames hsettled (entered s))
      rw [← enterNames_append, ← enterNames_append] at hsecond
      exact (h.stmt context s hs hsettled).bind hsecond

end Alike

/-!
## Loops

The tree of a loop opens a scope around each round and around the loop, and the loop itself around
its first clause alone. So the rounds are looked at in one more scope, which is empty.
-/

section Loops

variable {rules : Nat → ScopeWalk} {depth : Nat}
  (hrules : ∀ k, Alike (rules k) (scopeWalk (depth - k))) (context : ScopeContext) (l : ForLoop)
  (hpadded : Padded I S S') (hsettled : Settled I S)
include hrules hpadded hsettled

/-- The body stands as many levels further in as in the tree. -/
theorem together_body (k : Nat) :
    Together ⟨S, S', I⟩ ⟨S, S', I⟩ ((rules k).stmt context l.body)
      ((scopeWalk (depth - k)).stmt context l.body) := by
  have hbody := (hrules k).stmt context l.body (.inr ⟨l.closed, hpadded⟩) hsettled
  rwa [entered_of_isClosed l.closed] at hbody

/-- A round of the tree is looked at as a round of the loop, in an empty scope if there is a last
clause. -/
theorem together_round :
    Together ⟨S, S', I⟩ ⟨S, S', I⟩ (resolveRound rules context l)
      ((scopeWalk depth).stmt context l.roundTree) := by
  cases hincrement : l.increment with
  | none =>
    have hround : resolveRound rules context l = (rules 0).stmt context l.body := by
      simp [resolveRound, hincrement]
    rw [hround, ForLoop.roundTree_of_none hincrement]
    exact together_body hrules context l hpadded hsettled 0
  | some e =>
    have hround : resolveRound rules context l =
        (rules 1).stmt context l.body >>= fun _ =>
          (rules 2).expr context e >>= fun _ => pure () := by
      simp [resolveRound, hincrement]
    rw [hround, ForLoop.roundTree_of_some hincrement]
    -- Without a level for the block, the body is too deep in both walks.
    cases depth with
    | zero => exact (together_body hrules context l hpadded hsettled 1).tooDeep_bind
    | succ depth =>
      have hextra := hpadded.extra hsettled
      have hbody := together_body hrules context l hextra hsettled 1
      have hexpr := (hrules 2).expr context e hextra
      have hexpression : (scopeWalk depth).stmt context (.expression e) =
          (scopeWalk (depth + 1 - 2)).expr context e := by
        cases depth <;> rfl
      rw [← hexpression] at hexpr
      exact (hbody.bind (hexpr.bind .pure)).padded

/-- What the tree repeats is looked at as what the loop repeats. -/
theorem together_rounds :
    Together ⟨S, S', I⟩ ⟨S, S', I⟩ (resolveRounds rules context l)
      ((scopeWalk depth).stmtRule context l.whileTree) := by
  have hround := together_round hrules context l hpadded hsettled
  unfold resolveRounds
  cases hcondition : l.condition with
  | some e =>
    have hwhile : l.whileTree = .whileDo e l.roundTree := by
      simp [ForLoop.whileTree, hcondition]
    rw [hwhile]
    exact ((hrules 0).expr context e hpadded).bind hround
  | none =>
    have hwhile : l.whileTree = .whileDo (.literal (.bool true)) l.roundTree := by
      simp [ForLoop.whileTree, hcondition]
    rw [hwhile]
    -- The condition that the tree has instead is a literal, of which nothing is ever reported.
    cases depth with
    | zero => exact hround
    | succ depth => exact hround

omit hsettled in
/-- What stands in the block around a loop with a first clause. -/
theorem together_first (first : ForInitializer) :
    Together ⟨[] :: S, [] :: S', I⟩
      ⟨enterNames ([] :: S) (entered first.stmt), enterNames ([] :: S') (entered first.stmt), I⟩
      ((rules 0).stmt context first.stmt >>= fun _ =>
        resolveRounds (fun k => rules (k + 1)) context l >>= fun _ => pure ())
      ([first.stmt, l.whileTree].forM ((scopeWalk depth).stmt context)) := by
  have haligned : Aligned I ([] :: S) ([] :: S') := .scope hpadded
  -- The scope of the loop is still empty when its first clause is looked at.
  have hopen : Settled I ([] :: S) := fun x => by simp [Bindings.get?]
  have hfirst := (hrules 0).stmt context first.stmt (.inl haligned) hopen
  cases depth with
  | zero => exact hfirst.tooDeep_bind
  | succ depth =>
    have hdeeper : ∀ k, Alike (rules (k + 1)) (scopeWalk (depth - k)) := fun k => by
      have hrule := hrules (k + 1)
      rwa [Nat.succ_sub_succ] at hrule
    have hrounds := together_rounds hdeeper context l (haligned.enterNames _).padded
      (settled_enterNames hopen (entered first.stmt))
    exact hfirst.bind (hrounds.bind .pure)

/-- **The tree of a loop is looked at as the loop is.** -/
theorem together_loop :
    Together ⟨S, S', I⟩ ⟨S, S', I⟩ (resolveLoop rules context l)
      ((scopeWalk depth).stmtRule context l.tree) := by
  unfold resolveLoop
  cases hfirst : l.initializer with
  | none =>
    rw [ForLoop.tree_of_none hfirst]
    exact together_rounds hrules context l hpadded hsettled
  | some first =>
    rw [ForLoop.tree_of_some hfirst]
    have hstmts := together_first hrules context l hpadded first
    have hloop : Together ⟨S, S', I⟩ ⟨S, S', I⟩ _
        ((scopeWalk depth).stmtRule context (.block [first.stmt, l.whileTree])) :=
      (Together.openScope []).bind (hstmts.bind (.closeNames [] _))
    simpa only [bind_assoc, pure_bind] using hloop

end Loops

/-!
## Programs

The induction is on the levels of nesting. The direct walk of a loop gives up as many of them as the
walk of its tree takes before it comes to the clauses, and `k` counts those that are still to give
up.
-/

/-- **Whatever is read as a loop, the same is reported.** Induction on the levels of nesting. -/
theorem together_walks (reading : Reading) (depth k : Nat) :
    Alike (walks reading depth k) (scopeWalk (depth - k)) := by
  induction depth generalizing k with
  | zero =>
    rw [Nat.zero_sub]
    exact ⟨fun _ _ _ _ _ _ => .tooDeep, fun _ _ _ _ _ _ _ => .tooDeep⟩
  | succ depth ih =>
    cases k with
    | succ k =>
      rw [Nat.succ_sub_succ]
      exact ih k
    | zero =>
      refine ⟨fun context e I S S' hpadded => (ih 0).exprRule context e hpadded,
        fun context s I S S' hstands hsettled => ?_⟩
      show Together _ _ ((walkAround reading (walks reading depth)).stmt context s)
        ((scopeWalk depth).stmtRule context s)
      unfold walkAround
      dsimp only
      cases hread : reading.loop? s with
      | none => exact (ih 0).stmtRule context s hstands hsettled
      -- A loop takes levels for the trees it would be read as, whence the `k`.
      | some l =>
        obtain rfl := reading.tree_of_loop? hread
        rw [entered_of_isClosed l.isClosed_tree]
        exact together_loop ih context l hstands.padded hsettled

/-- **What is reported about a program is what is reported about its tree.** -/
theorem reports_eq (reading : Reading) (depth endLine : Nat) (program : List Stmt) :
    reports reading depth endLine program = (resolve depth endLine program).reports := by
  have hstmts := (together_walks reading depth 0).stmts ⟨.none, .none⟩ program
    (.nil : Aligned [] [] []) rfl
  have hends := hstmts ⟨[], [], [], []⟩ ⟨[], [], [], []⟩ ⟨rfl, rfl, rfl, fun _ h => h, rfl⟩
  unfold reports resolve
  rw [Nat.sub_zero] at hends
  generalize program.forM ((walks reading depth 0).stmt ⟨.none, .none⟩) _ = r at hends
  generalize program.forM ((scopeWalk depth).stmt ⟨.none, .none⟩) _ = r' at hends
  cases hends with
  | ok h => exact h.reports.symm
  | tooDeep h => exact congrArg (· ++ _) h.symm

end LoxLang.Lexical.Direct
