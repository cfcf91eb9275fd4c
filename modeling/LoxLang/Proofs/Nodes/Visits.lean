import LoxLang.Proofs.Nodes.Walking
import LoxLang.Proofs.Placement.Walk

/-!
# The nodes that resolving visits

If the walk over a tree comes to an end it has visited just the nodes of the tree, one after the
other, and has recorded each use of a name once at most; if it gives up, it has visited the first of
these nodes (`resolveNodes_spec`).
-/

namespace LoxLang

open LoxLang.Resolver LoxLang.NodeResolver

/-!
## Entries that a step adds

Of the table of distances only the number of entries for each use matters here. A step adds entries
for the uses it is told to resolve, and for no others.
-/

/-- One state has no entries that another one has not, but for some uses, each of which it may have
once more. -/
def ScopeState.AddsTo (t s : ScopeState) (uses : List UseId) : Prop :=
  ∀ u, (t.uses.map (·.id)).count u ≤ (s.uses.map (·.id)).count u + uses.count u

/-- Where no use is recorded, no entry is added. -/
theorem ScopeState.AddsTo.of_uses_eq {s t : ScopeState} (h : t.uses = s.uses) : t.AddsTo s [] :=
  fun u => by rw [h]; exact Nat.le_add_right _ _

/-- Entries of two ways, one after the other. -/
theorem ScopeState.AddsTo.trans {s t t' : ScopeState} {us vs : List UseId} (h : t.AddsTo s us)
    (h' : t'.AddsTo t vs) : t'.AddsTo s (us ++ vs) := by
  intro u
  have hu := h u
  have hu' := h' u
  rw [List.count_append]
  omega

/-- A step never gives up, and the only entries it adds are those of some uses. -/
def Resolver.Adds {α : Type} (uses : List UseId) (q : Resolver α) : Prop :=
  ∀ s, ∃ a t, q s = .ok a t ∧ t.AddsTo s uses

namespace Resolver

variable {α β : Type}

theorem Adds.pure (a : α) : Adds [] (pure a) := fun s => ⟨a, s, rfl, .of_uses_eq rfl⟩

/-- Two steps in sequence add what each of them adds. -/
theorem Adds.bind {us vs : List UseId} {q : Resolver α} {f : α → Resolver β} (hq : Adds us q)
    (hf : ∀ a, Adds vs (f a)) : Adds (us ++ vs) (q >>= f) := by
  intro s
  obtain ⟨a, t, hrun, ht⟩ := hq s
  obtain ⟨b, t', hrun', ht'⟩ := hf a t
  refine ⟨b, t', ?_, ht.trans ht'⟩
  show EStateM.bind q f s = _
  unfold EStateM.bind
  rw [hrun]
  exact hrun'

/-- Whichever step is taken. -/
theorem Adds.ite {c : Prop} [Decidable c] {us : List UseId} {q q' : Resolver α} (h : Adds us q)
    (h' : Adds us q') : Adds us (if c then q else q') := by
  split
  · exact h
  · exact h'

/-- A step that adds nothing may be repeated. -/
theorem Adds.forM {f : α → Resolver Unit} (h : ∀ a, Adds [] (f a)) (as : List α) :
    Adds [] (as.forM f) := by
  induction as with
  | nil => exact .pure ()
  | cons a as ih => exact (h a).bind fun _ => ih

/-- A change of the state that leaves the uses alone. -/
theorem adds_modify {f : ScopeState → ScopeState} (hf : ∀ s, (f s).uses = s.uses) :
    Adds [] (modify f) := fun s => ⟨(), f s, rfl, .of_uses_eq (hf s)⟩

theorem adds_get : Adds [] (get : Resolver ScopeState) := fun s => ⟨s, s, rfl, .of_uses_eq rfl⟩

/-- To report something is no entry. -/
theorem adds_report (place : Location) (e : ScopeError) : Adds [] (report place e) :=
  adds_modify fun _ => rfl

theorem adds_openScope (scope : Scope) : Adds [] (openScope scope) := adds_modify fun _ => rfl

theorem adds_closeScope : Adds [] closeScope := adds_modify fun _ => rfl

/-- To enter a name in a scope is no entry. -/
theorem adds_setInnermost (name : String) (ready : Bool) : Adds [] (setInnermost name ready) := by
  refine adds_modify fun s => ?_
  split <;> rfl

/-- A declaration is no use. -/
theorem adds_declare (name : Name) : Adds [] (declare name) := by
  have hinnermost : Adds [] innermost? := adds_get.bind fun s => .pure s.scopes.head?
  refine hinnermost.bind fun scope? => ?_
  cases scope? with
  | none => exact adds_setInnermost _ _
  | some scope =>
    exact .ite ((adds_report _ _).bind fun _ => adds_setInnermost _ _) (adds_setInnermost _ _)

/-- Neither is that of a parameter. -/
theorem adds_declareReady (name : Name) : Adds [] (declareReady name) :=
  (adds_declare name).bind fun _ => adds_setInnermost _ _

theorem adds_beginInitializer (name : String) : Adds [] (beginInitializer name) := by
  refine adds_modify fun s => ?_
  split <;> rfl

theorem adds_endInitializer (name : String) : Adds [] (endInitializer name) :=
  adds_modify fun _ => rfl

/-- What a use is looked up for is entered once, or not at all. -/
theorem adds_resolveUse (kind : UseKind) (name : String) (line : Nat) (id : UseId) :
    Adds [id] (resolveUse kind name line id) := by
  intro s
  refine ⟨(), _, rfl, fun u => ?_⟩
  dsimp only
  split
  · exact Nat.le_add_right _ _
  · rw [List.map_cons, ← List.singleton_append, List.count_append]
    exact Nat.le_of_eq (Nat.add_comm _ _)

/-- Reading a variable is a use of its name. -/
theorem adds_readVariable (use : VariableUse) : Adds [use.id] (readVariable use) := by
  have hready : Adds [] (isReady use.name.text) := by
    refine adds_get.bind fun s => ?_
    split
    · exact .pure _
    · exact .pure _
  have huse := adds_resolveUse .«variable» use.name.text use.name.line use.id
  refine hready.bind fun b => ?_
  cases b with
  | true => exact huse
  | false => exact (adds_report _ _).bind fun _ => huse

end Resolver

/-- A step that enters nothing may stand for one that could enter a use. -/
theorem Resolver.Adds.widen {α : Type} {q : Resolver α} (h : Adds [] q) (uses : List UseId) :
    Adds uses q := by
  intro s
  obtain ⟨a, t, hrun, ht⟩ := h s
  exact ⟨a, t, hrun, fun u => Nat.le_trans (ht u) (Nat.le_add_right _ _)⟩

/-- `this` is a use, wherever it stands. -/
theorem ScopeWalk.adds_this (context : ScopeContext) (id : UseId) (line : Nat) :
    Adds [id] (this context id line) := by
  unfold this
  split
  · exact (adds_report _ _).widen _
  · exact (adds_report _ _).widen _
  · exact adds_resolveUse _ _ _ _
  · exact adds_resolveUse _ _ _ _

/-- And so is `super`. -/
theorem ScopeWalk.adds_super (context : ScopeContext) (id : UseId) (line : Nat) :
    Adds [id] (super context id line) := by
  unfold super
  split
  · exact (adds_report _ _).widen _
  · exact (adds_report _ _).widen _
  · exact (adds_report _ _).widen _
  · exact adds_resolveUse _ _ _ _

/-- The name of the superclass is a use. -/
theorem ScopeWalk.adds_superclass (name : Name) (use : VariableUse) :
    Adds [use.id] (superclass name use) :=
  .ite ((adds_report _ _).bind fun _ => adds_readVariable use) (adds_readVariable use)

/-!
## Visits

A walk over nodes goes with one over trees: it ends in the same way, and has left marks for what it
visited and for the entries that were added, in this order.
-/

/-- Two ends of the same kind. One that is no end of its own has visited all nodes with the given
stamps, and any has visited the first of them. -/
inductive Trail (stamps : List Stamp) (s : VisitState) :
    EStateM.Result ScopeStop VisitState Unit → EStateM.Result ScopeStop ScopeState Unit → Prop
  | ok {s' : VisitState} (hvisited : s'.visited = s.visited ++ nodeIds stamps)
    (hadds : s'.scope.AddsTo s.scope (useIds stamps)) :
    Trail stamps s (.ok () s') (.ok () s'.scope)
  | error {e : ScopeStop} {s' : VisitState} {seen : List NodeId} (hseen : seen <+: nodeIds stamps)
    (hvisited : s'.visited = s.visited ++ seen)
    (hadds : s'.scope.AddsTo s.scope (useIds stamps)) :
    Trail stamps s (.error e s') (.error e s'.scope)

/-- A walk does what a plain one does, visits the nodes with the given stamps in their order, and
records no use but theirs. -/
def Visits (stamps : List Stamp) (p : NodeResolver Unit) (q : Resolver Unit) : Prop :=
  ∀ s, Trail stamps s (p s) (q s.scope)

namespace Visits

variable {xs ys : List Stamp} {p p' : NodeResolver Unit} {q q' : Resolver Unit}

/-- One walk behind another. -/
theorem bind (h : Visits xs p q) (h' : Visits ys p' q') :
    Visits (xs ++ ys) (p >>= fun _ => p') (q >>= fun _ => q') := by
  intro s
  have hends := h s
  show Trail (xs ++ ys) s (EStateM.bind p (fun _ => p') s) (EStateM.bind q (fun _ => q') s.scope)
  unfold EStateM.bind
  generalize p s = r at hends
  generalize q s.scope = r' at hends
  cases hends with
  | error hseen hvisited hadds =>
    -- What has been visited so far is the front of what is to be visited in the whole.
    refine .error (hseen.trans ?_) hvisited fun u => ?_
    · rw [nodeIds_append]
      exact List.prefix_append _ _
    · rw [useIds_append, List.count_append]
      exact Nat.le_trans (hadds u) (by omega)
  | @ok s' hvisited hadds =>
    have hends := h' s'
    dsimp only
    generalize p' s' = r at hends
    generalize q' s'.scope = r' at hends
    cases hends with
    | @error _ _ seen hseen hvisited' hadds' =>
      have hseen' : nodeIds xs ++ seen <+: nodeIds (xs ++ ys) := by
        rw [nodeIds_append]
        exact (List.prefix_append_right_inj _).mpr hseen
      refine .error hseen' ?_ ?_
      · rw [hvisited', hvisited, List.append_assoc]
      · rw [useIds_append]
        exact hadds.trans hadds'
    | ok hvisited' hadds' =>
      refine .ok ?_ ?_
      · rw [hvisited', hvisited, nodeIds_append, List.append_assoc]
      · rw [useIds_append]
        exact hadds.trans hadds'

/-- Uses may be recorded later than their nodes are visited. -/
theorem reorder (h : Visits xs p q) (hnodes : nodeIds xs = nodeIds ys)
    (huses : (useIds xs).Perm (useIds ys)) : Visits ys p q := by
  intro s
  have hends := h s
  generalize p s = r at hends
  generalize q s.scope = r' at hends
  have hadds {s' : VisitState} (hs : s'.scope.AddsTo s.scope (useIds xs)) :
      s'.scope.AddsTo s.scope (useIds ys) := fun u => huses.count_eq u ▸ hs u
  cases hends with
  | ok hvisited hs => exact .ok (hnodes ▸ hvisited) (hadds hs)
  | error hseen hvisited hs => exact .error (hnodes ▸ hseen) hvisited (hadds hs)

/-- A node without parts is visited, and nothing else is done. -/
theorem leaf (n : NodeId) : Visits [.node n] (visit n) (pure ()) :=
  fun _ => .ok rfl (.of_uses_eq rfl)

/-- The node at which a rule arrives comes before what stands in it. -/
theorem arrive (n : NodeId) (h : Visits xs p q) :
    Visits (.node n :: xs) (visit n >>= fun _ => p) q := (leaf n).bind h

/-- Where nothing is done, nothing is visited. -/
theorem nothing : Visits [] (pure ()) (pure ()) :=
  fun _ => .ok (List.append_nil _).symm (.of_uses_eq rfl)

/-- Whichever way is taken. -/
theorem ite {c : Prop} [Decidable c] (h : Visits xs p q) (h' : Visits xs p' q') :
    Visits xs (if c then p else p') (if c then q else q') := by
  split
  · exact h
  · exact h'

/-- A walk that stops has visited nothing more. -/
theorem throw (e : ScopeStop) : Visits xs (throw e) (throw e) :=
  fun _ => .error List.nil_prefix (List.append_nil _).symm fun _ => Nat.le_add_right _ _

/-- Steps that record no use are left out of account. -/
theorem quiet {α : Type} {q : Resolver α} (hq : q.Adds []) {f : α → NodeResolver Unit}
    {g : α → Resolver Unit} (h : ∀ a, Visits xs (f a) (g a)) :
    Visits xs (lift q >>= f) (q >>= g) := by
  intro s
  obtain ⟨a, t, hrun, ht⟩ := hq s.scope
  have hends := h a { s with scope := t }
  show Trail xs s (EStateM.bind (lift q) f s) (EStateM.bind q g s.scope)
  unfold EStateM.bind lift
  rw [hrun]
  dsimp only at hends ⊢
  generalize f a { s with scope := t } = r at hends
  generalize g a t = r' at hends
  cases hends with
  | ok hvisited hadds => exact .ok hvisited (ht.trans hadds)
  | error hseen hvisited hadds => exact .error hseen hvisited (ht.trans hadds)

/-- A step of plain resolving visits no node. -/
theorem lifted {q : Resolver Unit} (hnodes : nodeIds xs = []) (hq : q.Adds (useIds xs)) :
    Visits xs (lift q) q := by
  intro s
  obtain ⟨_, t, hrun, ht⟩ := hq s.scope
  unfold lift
  rw [hrun]
  refine .ok ?_ ht
  rw [hnodes, List.append_nil]

/-- A step that adds no entry visits nothing. -/
theorem only {q : Resolver Unit} (hq : q.Adds []) : Visits [] (lift q) q := lifted rfl hq

/-- A step that may add an entry for one use. -/
theorem use {q : Resolver Unit} {id : UseId} (hq : q.Adds [id]) : Visits [.use id] (lift q) q :=
  lifted rfl hq

/-- Steps behind a walk that visit nothing. -/
theorem andThen (h : Visits xs p q) (h' : Visits [] p' q') :
    Visits xs (p >>= fun _ => p') (q >>= fun _ => q') := by
  have hboth := h.bind h'
  rwa [List.append_nil] at hboth

end Visits

/-!
## Rules

If the walks one level further in visit the nodes that they are used on, then so do these. Each rule
visits its own node first.
-/

/-- The walks over nodes one level further in visit what the plain ones walk over. -/
structure NodeWalk.VisitAs (inner : NodeWalk) (plain : ScopeWalk) : Prop where
  expr : ∀ context (e : ExprNode), Visits e.stamps (inner.expr context e)
    (plain.expr context e.tree)
  stmt : ∀ context (s : StmtNode), Visits s.stamps (inner.stmt context s)
    (plain.stmt context s.tree)

namespace NodeWalk

variable {inner : NodeWalk} {plain : ScopeWalk} (h : inner.VisitAs plain) (context : ScopeContext)
include h

/-- Expressions one after the other. -/
theorem visits_exprs (es : List ExprNode) :
    Visits (exprsStamps es) (es.forM (inner.expr context))
      ((exprTrees es).forM (plain.expr context)) := by
  induction es with
  | nil => exact .nothing
  | cons e es ih => exact (h.expr context e).bind ih

/-- Statements one after the other. -/
theorem visits_stmts (ss : List StmtNode) :
    Visits (stmtsStamps ss) (ss.forM (inner.stmt context))
      ((stmtTrees ss).forM (plain.stmt context)) := by
  induction ss with
  | nil => exact .nothing
  | cons s ss ih => exact (h.stmt context s).bind ih

/-- The nodes of the body. Parameters are no nodes. -/
theorem visits_function (params : List Name) (body : List StmtNode) :
    Visits (stmtsStamps body) (inner.function context params body)
      (plain.function context params (stmtTrees body)) :=
  .quiet (adds_openScope _) fun _ => .quiet (.forM adds_declareReady params) fun _ =>
    (visits_stmts h context body).andThen (.only adds_closeScope)

/-- Whatever the expression is. -/
theorem visits_exprRule (e : ExprNode) :
    Visits e.stamps (inner.exprRule context e) (plain.exprRule context e.tree) := by
  cases e with
  | literal n value => exact .leaf n
  | grouping n e => exact .arrive n (h.expr context e)
  | unary n op line e => exact .arrive n (h.expr context e)
  | binary n op line left right =>
    exact .arrive n ((h.expr context left).bind (h.expr context right))
  | logical n op line left right =>
    exact .arrive n ((h.expr context left).bind (h.expr context right))
  | «variable» v => exact .arrive v.node (.use (adds_readVariable v.use))
  | assign n id name value =>
    -- The use is recorded when the value has been walked over.
    have hvalue := (h.expr context value).bind
      (.use (adds_resolveUse .assignment name.text name.line id))
    refine Visits.reorder (.arrive n hvalue) (by simp) ?_
    rw [useIds_node, useIds_append]
    exact List.perm_append_comm
  | call n callee line arguments =>
    exact .arrive n ((h.expr context callee).bind (visits_exprs h context arguments))
  | get n object name => exact .arrive n (h.expr context object)
  | set n object name value =>
    exact .arrive n ((h.expr context value).bind (h.expr context object))
  | lambda n line params body => exact .arrive n (visits_function h _ params body)
  | this n id line => exact .arrive n (.use (ScopeWalk.adds_this context id line))
  | super n id line method => exact .arrive n (.use (ScopeWalk.adds_super context id line))

/-- The initializer, if there is one. -/
theorem visits_varDeclaration (name : Name) (initializer : Option ExprNode) :
    Visits (exprsStamps initializer.toList) (inner.varDeclaration context name initializer)
      (plain.varDeclaration context name (initializer.map ExprNode.tree)) := by
  have hdefine : Visits [] (lift (define name)) (define name) := .only (adds_setInnermost _ _)
  refine .quiet (adds_declare name) fun _ => ?_
  cases initializer with
  | none => exact hdefine
  | some e =>
    refine .quiet (adds_beginInitializer _) fun _ => (h.expr context e).bind ?_
    exact .quiet (adds_endInitializer _) fun _ => hdefine

/-- The value that is returned, if there is one. -/
theorem visits_returnValue (line : Nat) (value : Option ExprNode) :
    Visits (exprsStamps value.toList) (inner.returnValue context line value)
      (plain.returnValue context line (value.map ExprNode.tree)) := by
  cases value with
  | none => exact .ite (.quiet (adds_report _ _) fun _ => .nothing) .nothing
  | some e =>
    have he : Visits (exprsStamps [e]) (inner.expr context e) (plain.expr context e.tree) := by
      simpa using h.expr context e
    have hvalue : Visits (exprsStamps [e])
        (if context.inFunction = .initializer then
          lift (report (Keyword.«return».place line) .returnValueFromInitializer) >>= fun _ =>
            inner.expr context e
        else inner.expr context e)
        (if context.inFunction = .initializer then
          report (Keyword.«return».place line) .returnValueFromInitializer >>= fun _ =>
            plain.expr context e.tree
        else plain.expr context e.tree) := .ite (.quiet (adds_report _ _) fun _ => he) he
    -- Reported or not, the value is visited once.
    exact .ite (.quiet (adds_report _ _) fun _ => hvalue) hvalue

/-- A static method, like a function. -/
theorem visits_staticMethod (f : FunctionNode) :
    Visits f.stamps (inner.staticMethod f) (plain.staticMethod f.tree) := by
  obtain ⟨n, name, params, body⟩ := f
  have hbody := visits_function h ⟨.method, .staticMethod⟩ params body
  exact .arrive n (.ite (.quiet (adds_report _ _) fun _ => hbody) hbody)

/-- A method, in the scope of `this`. -/
theorem visits_instanceMethod (inClass : ClassContext) (f : FunctionNode) :
    Visits f.stamps (inner.instanceMethod inClass f) (plain.instanceMethod inClass f.tree) := by
  obtain ⟨n, name, params, body⟩ := f
  exact .arrive n (visits_function h _ params body)

omit h in
/-- Members one after the other. -/
theorem visits_functions {p : FunctionNode → NodeResolver Unit} {q : FunctionDecl → Resolver Unit}
    (hp : ∀ f : FunctionNode, Visits f.stamps (p f) (q f.tree)) (fs : List FunctionNode) :
    Visits (functionsStamps fs) (fs.forM p) ((functionTrees fs).forM q) := by
  induction fs with
  | nil => exact .nothing
  | cons f fs ih => exact (hp f).bind ih

/-- The superclass, then the static methods, and then the methods. -/
theorem visits_classDeclaration (name : Name) (parent : Option UseNode)
    (methods statics : List FunctionNode) :
    Visits (superclassStamps parent ++ (functionsStamps statics ++ functionsStamps methods))
      (inner.classDeclaration name parent methods statics)
      (plain.classDeclaration name (parent.map (·.use)) (functionTrees methods)
        (functionTrees statics)) := by
  have hstatics := visits_functions (visits_staticMethod h) statics
  have hmethods (inClass : ClassContext) := visits_functions (visits_instanceMethod h inClass)
    methods
  refine .quiet (adds_declareReady name) fun _ => ?_
  -- Static methods are visited before methods of instances, and the superclass before both.
  cases parent with
  | none =>
    exact hstatics.bind (.quiet (adds_openScope _) fun _ =>
      (hmethods .«class»).andThen (.only adds_closeScope))
  | some v =>
    refine Visits.bind (.arrive v.node (.use (ScopeWalk.adds_superclass name v.use)))
      (hstatics.bind ?_)
    refine .quiet (adds_openScope _) fun _ => .quiet (adds_openScope _) fun _ => ?_
    exact (hmethods .subclass).andThen (.quiet adds_closeScope fun _ => .only adds_closeScope)

/-- Whatever the statement is. -/
theorem visits_stmtRule (s : StmtNode) :
    Visits s.stamps (inner.stmtRule context s) (plain.stmtRule context s.tree) := by
  cases s with
  | expression n e => exact .arrive n (h.expr context e)
  | print n e => exact .arrive n (h.expr context e)
  | var n name initializer =>
    rw [StmtNode.stamps_var, StmtNode.tree_var]
    exact .arrive n (visits_varDeclaration h context name initializer)
  -- Opening and closing scopes visits nothing.
  | block n body =>
    exact .arrive n (.quiet (adds_openScope _) fun _ =>
      (visits_stmts h context body).andThen (.only adds_closeScope))
  | ifThen n condition s alternative =>
    cases alternative with
    | none =>
      exact .arrive n ((h.expr context condition).bind ((h.stmt context s).andThen .nothing))
    | some t =>
      exact .arrive n ((h.expr context condition).bind ((h.stmt context s).bind
        (h.stmt context t)))
  | whileDo n condition s => exact .arrive n ((h.expr context condition).bind (h.stmt context s))
  | function f =>
    obtain ⟨n, name, params, body⟩ := f
    exact .arrive n (.quiet (adds_declareReady name) fun _ => visits_function h _ params body)
  | returnValue n line value =>
    rw [StmtNode.stamps_returnValue, StmtNode.tree_returnValue]
    exact .arrive n (visits_returnValue h context line value)
  | classDecl n name parent methods statics =>
    exact .arrive n (visits_classDeclaration h name parent methods statics)

end NodeWalk

/-- Walks of all levels, by induction on them. -/
theorem visitAs_nodeWalk (depth : Nat) : (nodeWalk depth).VisitAs (scopeWalk depth) := by
  induction depth with
  | zero => exact ⟨fun _ _ => .throw _, fun _ _ => .throw _⟩
  | succ depth ih =>
    exact ⟨NodeWalk.visits_exprRule ih, NodeWalk.visits_stmtRule ih⟩

/-! ## Programs -/

/-- **Resolving visits each node once.** Noting the nodes changes nothing. The nodes visited are the
first ones of the program in their order, and all of them if resolving comes to an end. No use is
recorded more often than it stands in the program. -/
theorem resolveNodes_spec (depth endLine : Nat) (program : List StmtNode) :
    let (resolution, visited) := resolveNodes depth endLine program
    resolution = resolve depth endLine (stmtTrees program) ∧
      visited <+: nodeIds (stmtsStamps program) ∧
      (resolution.Finished → visited = nodeIds (stmtsStamps program)) ∧
      ∀ u, (resolution.uses.map (·.id)).count u ≤ (useIds (stmtsStamps program)).count u := by
  have hends := NodeWalk.visits_stmts (visitAs_nodeWalk depth) ⟨.none, .none⟩ program
    ⟨⟨[], [], [], []⟩, []⟩
  unfold resolveNodes resolve
  revert hends
  generalize program.forM ((nodeWalk depth).stmt ⟨.none, .none⟩) ⟨⟨[], [], [], []⟩, []⟩ = r
  generalize (stmtTrees program).forM ((scopeWalk depth).stmt ⟨.none, .none⟩) _ = r'
  intro hends
  have hcount {s : VisitState} (hadds : s.scope.AddsTo ⟨[], [], [], []⟩
      (useIds (stmtsStamps program))) (u : UseId) :
      (s.scope.uses.reverse.map (·.id)).count u ≤ (useIds (stmtsStamps program)).count u := by
    rw [List.map_reverse, List.count_reverse]
    simpa using hadds u
  cases hends with
  | ok hvisited hadds =>
    rw [List.nil_append] at hvisited
    exact ⟨rfl, hvisited ▸ List.prefix_refl _, fun _ => hvisited, hcount hadds⟩
  | @error e s' seen hseen hvisited hadds =>
    -- The levels have run out, and that is reported, so resolving has not come to an end.
    rw [List.nil_append] at hvisited
    cases e
    refine ⟨rfl, hvisited ▸ hseen, fun hfinished => ?_, hcount hadds⟩
    exact absurd (List.mem_append_right _ List.mem_cons_self) (hfinished (.endOfSource endLine))

end LoxLang
