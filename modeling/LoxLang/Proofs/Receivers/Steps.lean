import LoxLang.Proofs.Receivers

/-!
# Steps that keep states genuine

Genuine states are an invariant (`Machine.Genuine.invariant`): each step that changes the state
leads from a genuine state to a later genuine one, provided that what is put into it is there and,
for a function, has an origin. What belongs to the programs belongs to them in all its parts
(`Part.BelongsTo`), and that is all that needs to be known of the text.
-/

namespace LoxLang

open Machine (Later Genuine Written)
open Homed (Extends)

variable {F : FunctionText → Prop} {S : List Scope} {m : Machine}

/-!
## What belongs to the programs

What is asked of the text is asked of each part of it. It goes down to all parts at once, whatever
scopes are open where they stand.
-/

namespace Belongs

/-- The parameters of a function that belongs to the programs are no keywords. -/
theorem isName_of_mem {params : List Name} {fs : List FunctionText}
    (h : Belongs F (parameterOccurrences S params) fs) {x : Name} (hx : x ∈ params) :
    IsName x.text := by
  induction params generalizing S with
  | nil => cases hx
  | cons y ys ih =>
    rcases List.mem_cons.mp hx with rfl | hx
    · exact h.head
    · exact ih h.tail hx

/-- Each function in a list that belongs to the programs belongs to them itself. -/
theorem of_mem {kind : FunctionDecl → FunctionText} {ds : List FunctionDecl}
    (h : Belongs F (functionsOccurrences S ds) (functionsIn kind ds)) {d : FunctionDecl}
    (hd : d ∈ ds) :
    F (kind d) ∧ Belongs F (bodyOccurrences S d.params d.body) (stmtsFunctions d.body) := by
  induction ds with
  | nil => cases hd
  | cons d' ds ih =>
    rw [functionsOccurrences, functionsIn, FunctionDecl.occurrences_eq,
      FunctionDecl.functions_eq] at h
    rcases List.mem_cons.mp hd with rfl | hd
    · exact ⟨h.first, h.others.left⟩
    · exact ih h.others.right hd

end Belongs

/-- A node belongs to the programs, whatever scopes are open where it stands. -/
def Part.BelongsTo (F : FunctionText → Prop) : Part → Prop
  | .expr e => ∃ S, Belongs F (e.occurrences S) e.functions
  | .stmt s => ∃ S, Belongs F (s.occurrences S) s.functions
  | .method f => ∃ S, Belongs F (f.occurrences S) f.functions

theorem Part.BelongsTo.mono {F' : FunctionText → Prop} {p : Part} (h : p.BelongsTo F)
    (hF : ∀ f, F f → F' f) : p.BelongsTo F' := by
  cases p <;> exact h.imp fun _ h => h.mono hF

section Parts

variable {p : Part} {ps qs : List Part}

theorem belongTo_cons (hp : p.BelongsTo F) (hps : ∀ q ∈ ps, q.BelongsTo F) :
    ∀ q ∈ p :: ps, q.BelongsTo F :=
  List.forall_mem_cons.mpr ⟨hp, hps⟩

theorem belongTo_append (hps : ∀ q ∈ ps, q.BelongsTo F) (hqs : ∀ q ∈ qs, q.BelongsTo F) :
    ∀ q ∈ ps ++ qs, q.BelongsTo F :=
  List.forall_mem_append.mpr ⟨hps, hqs⟩

/-- The variable that names a superclass belongs to the programs. -/
theorem belongTo_superclass {name : Name} {parent : Option VariableUse} {fs : List FunctionText}
    (h : Belongs F (superclassOccurrences S name parent) fs) :
    ∀ p ∈ superclassParts parent, p.BelongsTo F := by
  cases parent with
  | none => nofun
  | some use =>
    refine belongTo_cons ⟨S, fun o ho => ?_, nofun⟩ nofun
    rw [Expr.occurrences] at ho
    exact h.written o (List.mem_cons_of_mem _ ho)

end Parts

mutual

/-- All that stands in an expression belongs to the programs if the expression does. -/
theorem Expr.belongTo (e : Expr) {S : List Scope} (h : Belongs F (e.occurrences S) e.functions) :
    ∀ p ∈ e.parts, p.BelongsTo F := by
  have hself : (Part.expr e).BelongsTo F := ⟨S, h⟩
  cases e with
  | literal value => exact belongTo_cons hself nofun
  | grouping e =>
    rw [Expr.occurrences, Expr.functions] at h
    exact belongTo_cons hself (e.belongTo h)
  | unary op line e =>
    rw [Expr.occurrences, Expr.functions] at h
    exact belongTo_cons hself (e.belongTo h)
  | binary op line left right | logical op line left right =>
    rw [Expr.occurrences, Expr.functions] at h
    exact belongTo_cons hself (belongTo_append (left.belongTo h.left) (right.belongTo h.right))
  | «variable» use => exact belongTo_cons hself nofun
  | assign id name value =>
    rw [Expr.occurrences, Expr.functions] at h
    exact belongTo_cons hself (value.belongTo h.front)
  | call callee line arguments =>
    rw [Expr.occurrences, Expr.functions] at h
    exact belongTo_cons hself
      (belongTo_append (callee.belongTo h.left) (exprs_belongTo arguments h.right))
  | get object name =>
    rw [Expr.occurrences, Expr.functions] at h
    exact belongTo_cons hself (object.belongTo h)
  | set object name value =>
    rw [Expr.occurrences, Expr.functions] at h
    exact belongTo_cons hself (belongTo_append (value.belongTo h.left) (object.belongTo h.right))
  -- A lambda has the parts of its body, and its own text is known besides.
  | lambda line params body =>
    rw [Expr.occurrences, Expr.functions] at h
    exact belongTo_cons hself (stmts_belongTo body h.others.back)
  | this id line => exact belongTo_cons hself nofun
  | super id line method => exact belongTo_cons hself nofun

/-- All that stands in a statement belongs to the programs if the statement does. -/
theorem Stmt.belongTo (s : Stmt) {S : List Scope} (h : Belongs F (s.occurrences S) s.functions) :
    ∀ p ∈ s.parts, p.BelongsTo F := by
  have hself : (Part.stmt s).BelongsTo F := ⟨S, h⟩
  cases s with
  | expression e | print e =>
    rw [Stmt.occurrences, Stmt.functions] at h
    exact belongTo_cons hself (e.belongTo h)
  | var name initializer =>
    cases initializer with
    | none => exact belongTo_cons hself nofun
    | some e =>
      rw [Stmt.occurrences, Stmt.functions] at h
      exact belongTo_cons hself (e.belongTo h.tail.tail)
  | block body =>
    rw [Stmt.occurrences, Stmt.functions] at h
    exact belongTo_cons hself (stmts_belongTo body h)
  | ifThen condition s alternative =>
    cases alternative with
    | none =>
      rw [Stmt.occurrences, Stmt.functions] at h
      exact belongTo_cons hself
        (belongTo_append (condition.belongTo h.left) (s.belongTo h.right.tail))
    | some t =>
      rw [Stmt.occurrences, Stmt.functions] at h
      have hbranches := h.right.tail
      exact belongTo_cons hself (belongTo_append (condition.belongTo h.left)
        (belongTo_append (s.belongTo hbranches.left) (t.belongTo hbranches.right.tail)))
  | whileDo condition s =>
    rw [Stmt.occurrences, Stmt.functions] at h
    exact belongTo_cons hself
      (belongTo_append (condition.belongTo h.left) (s.belongTo h.right.tail))
  | function f =>
    rw [Stmt.occurrences, Stmt.functions] at h
    exact belongTo_cons hself (f.belongTo h.others.tail)
  | returnValue line value =>
    cases value with
    | none => exact belongTo_cons hself nofun
    | some e =>
      rw [Stmt.occurrences, Stmt.functions] at h
      exact belongTo_cons hself (e.belongTo h)
  | classDecl name parent methods statics =>
    rw [Stmt.occurrences, Stmt.functions] at h
    -- The name comes first, then the superclass, then the members.
    have hmembers := h.tail.back
    exact belongTo_cons hself (belongTo_append (belongTo_superclass h.tail.front)
      (belongTo_append (members_belongTo statics hmembers.left)
        (members_belongTo methods hmembers.right)))

/-- All that stands in a function belongs to the programs if the function does. -/
theorem FunctionDecl.belongTo (f : FunctionDecl) {S : List Scope}
    (h : Belongs F (f.occurrences S) f.functions) : ∀ p ∈ f.parts, p.BelongsTo F := by
  obtain ⟨name, params, body⟩ := f
  rw [FunctionDecl.occurrences, FunctionDecl.functions] at h
  exact stmts_belongTo body h.back

/-- The same of several expressions. -/
theorem exprs_belongTo (es : List Expr) {S : List Scope}
    (h : Belongs F (exprsOccurrences S es) (exprsFunctions es)) :
    ∀ p ∈ exprsParts es, p.BelongsTo F := by
  cases es with
  | nil => nofun
  | cons e es =>
    rw [exprsOccurrences, exprsFunctions] at h
    exact belongTo_append (e.belongTo h.left) (exprs_belongTo es h.right)

/-- The same of several statements, where scopes grow from one to the next. -/
theorem stmts_belongTo (ss : List Stmt) {S : List Scope}
    (h : Belongs F (stmtsOccurrences S ss) (stmtsFunctions ss)) :
    ∀ p ∈ stmtsParts ss, p.BelongsTo F := by
  cases ss with
  | nil => nofun
  | cons s ss =>
    rw [stmtsOccurrences, stmtsFunctions] at h
    exact belongTo_append (s.belongTo h.left) (stmts_belongTo ss h.right)

/-- The same of the members of a class, be they methods or static methods. -/
theorem members_belongTo {kind : FunctionDecl → FunctionText} (fs : List FunctionDecl)
    {S : List Scope} (h : Belongs F (functionsOccurrences S fs) (functionsIn kind fs)) :
    ∀ p ∈ membersParts fs, p.BelongsTo F := by
  cases fs with
  | nil => nofun
  | cons f fs =>
    rw [functionsOccurrences, functionsIn] at h
    exact belongTo_cons ⟨S, h.others.left⟩
      (belongTo_append (f.belongTo h.others.left) (members_belongTo fs h.others.right))

end

/-! ## Variables -/

namespace Machine.Genuine

/-- A name that is no keyword is bound to a value that is there. -/
theorem define (hm : m.Genuine F) (f : FrameId) {x : String} (hx : IsName x) {v : Value}
    (hv : m.Holds v) :
    { m with frames := m.frames.define f x v }.Genuine F ∧
      Later m { m with frames := m.frames.define f x v } := by
  have hlater : Later m { m with frames := m.frames.define f x v } :=
    ⟨.define m.frames f hx v, id, id, Nat.le_refl _⟩
  refine ⟨hm.frames hlater fun g y u hu => ?_, hlater⟩
  by_cases hf : f < m.frames.size
  · rw [Frames.local?_define _ _ _ _ _ _ hf] at hu
    split at hu
    · next heq =>
      obtain rfl := Option.some.inj hu
      exact .inr ⟨hv, fun hy => absurd (heq.2.trans hy) hx.1⟩
    · exact .inl hu
  -- A frame that does not exist takes no entry, so every variable was there before.
  · left
    have hne : f ≠ g := fun h => by
      have hlt := Frames.lt_size_of_local? _ y hu
      rw [Frames.size_define] at hlt
      exact hf (h ▸ hlt)
    unfold Frames.local? at hu ⊢
    rwa [Frames.frame?_define, if_neg hne] at hu

/-- A frame is made with values that are there. -/
theorem newFrame (hm : m.Genuine F) (g : FrameId) {values : Bindings Value}
    (hvalues : ∀ x v, values.get? x = some v →
      m.Holds v ∧ (x = "this" → ∃ i, v = .object i)) :
    { m with frames := m.frames.push ⟨values, some g⟩ }.Genuine F ∧
      Later m { m with frames := m.frames.push ⟨values, some g⟩ } := by
  have hstep : Later m { m with frames := m.frames.push ⟨values, some g⟩ } :=
    ⟨.push m.frames _, id, id, Nat.le_refl _⟩
  refine ⟨hm.frames hstep fun f x v hv => ?_, hstep⟩
  rw [Frames.local?_push] at hv
  split at hv
  · exact .inr (hvalues x v hv)
  · exact .inl hv

/-!
## Functions, classes and instances

Each of these steps adds to one store and leaves the others alone. Only functions and classes need
to have come from the programs.
-/

/-- A function with an origin is made. -/
theorem newFunction (hm : m.Genuine F) {c : Closure} (horigin : m.Origin F c)
    (hwritten : Written F c) :
    { m with functions := m.functions.push c }.Genuine F ∧
      Later m { m with functions := m.functions.push c } := by
  have hstep : Later m { m with functions := m.functions.push c } := by
    refine ⟨.refl _, fun {id d} hd => ?_, id, Nat.le_refl _⟩
    have hlt := (Array.getElem?_eq_some_iff.mp hd).1
    rw [Array.getElem?_push, if_neg (Nat.ne_of_lt hlt)]
    exact hd
  refine ⟨hm.later hstep (fun f x v hv => .inl hv)
    (fun i object x v hi hx => hstep.holds (hm.fields i object x v hi hx)) (fun id d hd => ?_)
    fun k info hk => .inl hk, hstep⟩
  -- A function of the new state is the new one, or it was there.
  have hpush : (m.functions.push c)[id]? = some d := hd
  rw [Array.getElem?_push] at hpush
  split at hpush
  · obtain rfl := Option.some.inj hpush
    exact .inr ⟨hstep.origin horigin, hwritten⟩
  · exact .inl hpush

/-- A class is made with methods that belong to the programs. -/
theorem newClass (hm : m.Genuine F) {info : ClassInfo}
    (hstatics : ∀ x id, info.staticMethods.get? x = some id → id < m.functions.size)
    (hmethods : ∀ x c, info.methods.get? x = some c → (∃ f, F (.method f) ∧
      c = Evaluator.closureOf f c.frame (f.name.text = initializerName)) ∧ Written F c) :
    { m with classes := m.classes.push info }.Genuine F ∧
      Later m { m with classes := m.classes.push info } := by
  have hstep : Later m { m with classes := m.classes.push info } := by
    refine ⟨.refl _, id, fun {k info'} hk => ?_, Nat.le_refl _⟩
    have hlt := (Array.getElem?_eq_some_iff.mp hk).1
    rw [Array.getElem?_push, if_neg (Nat.ne_of_lt hlt)]
    exact hk
  -- Only the tables of the new class are not known from before.
  refine ⟨hm.later hstep (fun f x v hv => .inl hv)
    (fun i object x v hi hx => hstep.holds (hm.fields i object x v hi hx))
    (fun id c hc => .inl hc) fun k info' hk => ?_, hstep⟩
  have hpush : (m.classes.push info)[k]? = some info' := hk
  rw [Array.getElem?_push] at hpush
  split at hpush
  · obtain rfl := Option.some.inj hpush
    exact .inr ⟨hstatics, hmethods⟩
  · exact .inl hpush

theorem newInstance (hm : m.Genuine F) (k : ClassId) :
    { m with instances := m.instances.push ⟨k, []⟩ }.Genuine F ∧
      Later m { m with instances := m.instances.push ⟨k, []⟩ } := by
  have hstep : Later m { m with instances := m.instances.push ⟨k, []⟩ } :=
    ⟨.refl _, id, id, by simp⟩
  refine ⟨hm.later hstep (fun f x v hv => .inl hv) (fun i object x v hi hx => ?_)
    (fun id c hc => .inl hc) fun k info hk => .inl hk, hstep⟩
  have hpush : (m.instances.push ⟨k, []⟩)[i]? = some object := hi
  rw [Array.getElem?_push] at hpush
  split at hpush
  · -- A new instance has no fields.
    obtain rfl := Option.some.inj hpush
    cases hx
  · exact hstep.holds (hm.fields i object x v hpush hx)

/-- A field is set to a value that is there. -/
theorem setField (hm : m.Genuine F) (i : InstanceId) (x : String) {v : Value}
    (hv : m.Holds v) :
    { m with instances := m.instances.modify i fun object =>
        { object with fields := object.fields.insert x v } }.Genuine F ∧
      Later m { m with instances := m.instances.modify i fun object =>
        { object with fields := object.fields.insert x v } } := by
  have hstep : Later m { m with
      instances := m.instances.modify i fun object =>
        { object with fields := object.fields.insert x v } } :=
    ⟨.refl _, id, id, by simp⟩
  refine ⟨hm.later hstep (fun f x v hv => .inl hv) (fun j object y u hj hy => ?_)
    (fun id c hc => .inl hc) fun k info hk => .inl hk, hstep⟩
  have hmodify : (m.instances.modify i fun object =>
      { object with fields := object.fields.insert x v })[j]? = some object := hj
  rw [Array.getElem?_modify] at hmodify
  -- Either `j` is the instance that is written, or it is as it was.
  split at hmodify
  · obtain ⟨before, hbefore, rfl⟩ := Option.map_eq_some_iff.mp hmodify
    rw [Bindings.get?_insert] at hy
    split at hy
    · obtain rfl := Option.some.inj hy
      exact hstep.holds hv
    · exact hstep.holds (hm.fields j before y u hbefore hy)
  · exact hstep.holds (hm.fields j object y u hmodify hy)

/-!
## The invariant

The steps in terms of the invariant logic. Bindings of `this` are instances, and since no program
can write the name itself, only the binding of a method makes such a binding.
-/

/-- States are genuine, and what is there stays there. -/
def invariant (F : FunctionText → Prop) : Invariant where
  good m := m.Genuine F
  later := Later
  refl := .refl
  trans := .trans
  known p := p.BelongsTo F
  name := IsName
  value := Machine.Holds
  binding m x v := m.Holds v ∧ (x = "this" → ∃ i, v = .object i)
  function m c := m.Origin F c ∧ Written F c
  method m c := ∃ (k : ClassId) (info : ClassInfo) (x : String), m.classes[k]? = some info ∧
    info.methods.get? x = some c

/-- The body of a function declaration or lambda that belongs to the programs. -/
theorem written_lambda {line : Nat} {params : List Name} {body : List Stmt} (f : FrameId)
    (h : (Part.expr (.lambda line params body)).BelongsTo F) :
    F (.lambda params body) ∧ Written F ⟨none, params, body, f, false⟩ := by
  obtain ⟨S, h⟩ := h
  rw [Expr.occurrences, Expr.functions] at h
  exact ⟨h.first, S, h.others⟩

theorem written_function {d : FunctionDecl} (f : FrameId)
    (h : (Part.stmt (.function d)).BelongsTo F) :
    F (.named d) ∧ Written F (Evaluator.closureOf d f false) := by
  obtain ⟨S, h⟩ := h
  rw [Stmt.occurrences, Stmt.functions, FunctionDecl.occurrences_eq,
    FunctionDecl.functions_eq] at h
  exact ⟨h.first, _, h.others.tail⟩

/-- The members of a class declaration that belongs to the programs. -/
theorem written_members {name : Name} {use? : Option VariableUse}
    {methods statics : List FunctionDecl}
    (h : (Part.stmt (.classDecl name use? methods statics)).BelongsTo F) :
    (∀ d ∈ statics, F (.staticMethod d) ∧
      ∃ S, Belongs F (bodyOccurrences S d.params d.body) (stmtsFunctions d.body)) ∧
    ∀ d ∈ methods, F (.method d) ∧
      ∃ S, Belongs F (bodyOccurrences S d.params d.body) (stmtsFunctions d.body) := by
  obtain ⟨S, h⟩ := h
  rw [Stmt.occurrences, Stmt.functions] at h
  have hparts := h.tail.back
  exact ⟨fun d hd => ⟨(hparts.left.of_mem hd).1, _, (hparts.left.of_mem hd).2⟩,
    fun d hd => ⟨(hparts.right.of_mem hd).1, _, (hparts.right.of_mem hd).2⟩⟩

/-- What a node declares or assigns is no keyword. -/
theorem isName_target {p : Part} {name : Name} (h : p.BelongsTo F)
    (htarget : p.target? = some name) : IsName name.text := by
  cases p with
  | expr e =>
    cases e with
    | assign id x value =>
      obtain rfl : x = name := Option.some.inj htarget
      obtain ⟨S, h⟩ := h
      rw [Expr.occurrences, Expr.functions] at h
      exact h.back.head (.inr rfl)
    | _ => cases htarget
  | stmt s =>
    obtain ⟨S, h⟩ := h
    cases s with
    | var x initializer =>
      obtain rfl : x = name := Option.some.inj htarget
      cases initializer <;> rw [Stmt.occurrences, Stmt.functions] at h <;> exact h.head
    | function d =>
      obtain rfl : d.name = name := Option.some.inj htarget
      rw [Stmt.occurrences, Stmt.functions] at h
      exact h.head
    | classDecl x use? methods statics =>
      obtain rfl : x = name := Option.some.inj htarget
      rw [Stmt.occurrences, Stmt.functions] at h
      exact h.head
    | _ => cases htarget
  -- Methods are entered in the tables of their class and bound in no frame.
  | method f => cases htarget

/-- A method that is bound to an instance has come about in the way of methods. -/
theorem origin_bindMethod (hm : m.Genuine F) {c : Closure} {v : Value}
    (hc : (invariant F).method m c) (hv : (invariant F).binding m "this" v) :
    (invariant F).function { m with frames := m.frames.push ⟨[("this", v)], some c.frame⟩ }
      { c with frame := m.frames.size } := by
  obtain ⟨k, info, x, hclass, hmethod⟩ := hc
  obtain ⟨i, rfl⟩ := hv.2 rfl
  refine ⟨.bound k info x c i hclass hmethod rfl ?_ ?_, (hm.methods k info x c hclass hmethod).2⟩
  · rw [Frames.enclosing?_push, if_pos rfl]
  · rw [Frames.local?_push, if_pos rfl]
    rfl

/-- Functions that have been made for static methods are there. -/
theorem lt_functions_of_made {f : FrameId} {statics : List FunctionDecl}
    {ids : Bindings FunctionId} (hmade : List.Forall₂ (fun d b => b.1 = d.name.text ∧
      m.functions[b.2]? = some (Evaluator.closureOf d f false)) statics ids) :
    ∀ b ∈ ids, b.2 < m.functions.size := by
  induction hmade with
  | nil => nofun
  | cons hb _ ih => exact List.forall_mem_cons.mpr ⟨(Array.getElem?_eq_some_iff.mp hb.2).1, ih⟩

/-- The tables of a class declaration that belongs to the programs. -/
theorem newClass_declared (hm : m.Genuine F) {name : Name} {use? : Option VariableUse}
    {parent : Option ClassId} {methods statics : List FunctionDecl} {f g : FrameId}
    {ids : Bindings FunctionId}
    (h : (Part.stmt (.classDecl name use? methods statics)).BelongsTo F)
    (hmade : List.Forall₂ (fun d b => b.1 = d.name.text ∧
      m.functions[b.2]? = some (Evaluator.closureOf d f false)) statics ids) :
    let info : ClassInfo :=
      ⟨name.text, parent, Evaluator.methods g methods, Bindings.insertMany [] ids⟩
    (invariant F).Step m { m with classes := m.classes.push info } := by
  refine hm.newClass (fun x id hx => ?_) fun x c hx => ?_
  -- The tables hold what the declaration made, and nothing else.
  · rcases Bindings.exists_of_get?_insertMany hx with hnone | hmem
    · cases hnone
    · exact lt_functions_of_made hmade _ hmem
  · rcases Bindings.exists_of_get?_insertMany hx with hnone | hmem
    · cases hnone
    · obtain ⟨d, hd, heq⟩ := List.mem_map.mp hmem
      obtain rfl := (Prod.mk.inj heq).2
      obtain ⟨hF, S, hbody⟩ := (written_members h).2 d hd
      exact ⟨⟨d, hF, rfl⟩, S, hbody⟩

end Machine.Genuine

open Machine.Genuine in
/-- Each primitive step keeps states genuine. -/
theorem maintained_genuine (F : FunctionText → Prop) :
    (Machine.Genuine.invariant F).Maintained where
  target h htarget := isName_target h htarget
  lambda {_ _ _ _ f} h _ _ :=
    ⟨.lambda _ _ (written_lambda f h).1 rfl, (written_lambda f h).2⟩
  declared {_ _ f} h _ _ := ⟨.named _ (written_function f h).1 rfl, (written_function f h).2⟩
  staticMethod h hd _ _ :=
    ⟨.staticMethod _ ((written_members h).1 _ hd).1 rfl, ((written_members h).1 _ hd).2⟩
  plain h m := h m
  -- The two entries that evaluation makes itself: `this` is an instance, and `super` says nothing
  -- about `this`.
  this hi := ⟨hi, fun _ => ⟨_, rfl⟩⟩
  super hk := ⟨hk, fun hthis => absurd hthis (by decide)⟩
  bound h := h.1
  value_later hlater hv := hlater.holds hv
  frame_later _ _ := trivial
  method_later hlater := fun ⟨k, info, x, hk, hx⟩ => ⟨k, info, x, hlater.classes hk, hx⟩
  value_current {_ _ v} hv := by cases v <;> exact hv
  body := fun ⟨_, _, hbody⟩ => stmts_belongTo _ hbody.back
  frame_of_function _ := trivial
  frame_of_method _ := trivial
  parameter := fun ⟨_, _, hbody⟩ hx hv =>
    ⟨hv, fun hthis => absurd hthis (hbody.front.isName_of_mem hx).1⟩
  current _ := trivial
  held hm hv := ⟨hm.held _ _ _ hv, fun hx => hm.receivers _ _ (hx ▸ hv)⟩
  field hm hi hx := hm.fields _ _ _ _ hi hx
  functions hm hc := hm.functions _ _ hc
  methods _ hk hx := ⟨_, _, _, hk, hx⟩
  statics hm hk hx := hm.staticMethods _ _ _ _ hk hx
  enter {m f} hm _ := (hm.congr { m with current := f } rfl rfl rfl rfl).1
  comeBack {m m' f} hm hstep := by
    obtain ⟨-, hin⟩ := hm.congr { m with current := f } rfl rfl rfl rfl
    obtain ⟨hback, hout⟩ := hstep.1.congr { m' with current := m.current } rfl rfl rfl rfl
    exact ⟨hback, hin.trans (hstep.2.trans hout)⟩
  define hm hx hv := hm.define _ hx hv
  newFrame hm _ hvalues := ⟨hm.newFrame _ hvalues, trivial⟩
  bindMethod hm hc hv := hm.origin_bindMethod hc hv
  -- A value for something new names the last index of the list it was added to.
  newFunction hm hc := ⟨hm.newFunction hc.1 hc.2, by
    show _ < (Array.push _ _).size
    simp⟩
  newClass hm h _ _ _ _ hmade := ⟨hm.newClass_declared h hmade, by
    show _ < (Array.push _ _).size
    simp⟩
  newInstance hm _ := ⟨hm.newInstance _, by
    show _ < (Array.push _ _).size
    simp⟩
  setField hm hv := hm.setField _ _ hv
  print {m line} hm := hm.congr { m with output := m.output ++ line } rfl rfl rfl rfl
  countReading {m} hm :=
    hm.congr { m with clockReadings := m.clockReadings + 1 } rfl rfl rfl rfl

end LoxLang
