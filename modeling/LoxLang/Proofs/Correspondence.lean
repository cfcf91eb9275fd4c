import Mathlib.Data.List.Forall2
import LoxLang.Proofs.Scoping

/-!
# Trees that correspond

Two trees are often the same but for the lines on which things stand and for the numbers that uses
of names have got. A `Correspondence` says which lines and which numbers go together; `Corresponds`
lifts it to places and trees. Reading, resolving and running do not tell such trees apart; the
modules below this one say so.
-/

namespace LoxLang

/-- Which lines, and which numbers of uses, go together. -/
structure Correspondence where
  line : Nat → Nat → Prop
  use : UseId → UseId → Prop

/-!
## Places

Lines stand in tokens, reports and names, so correspondence is carried to each of them first.
-/

/-- Tokens of the same kind on lines that go together. -/
structure Token.Corresponds (κ : Correspondence) (t t' : Token) : Prop where
  kind : t.kind = t'.kind
  line : κ.line t.line t'.line

/-- Places that go together: tokens, or ends of sources. -/
inductive Location.Corresponds (κ : Correspondence) : Location → Location → Prop
  | token {t t' : Token} (h : t.Corresponds κ t') : Corresponds κ (.token t) (.token t')
  | endOfSource {l l' : Nat} (h : κ.line l l') : Corresponds κ (.endOfSource l) (.endOfSource l')

/-- Reports of the same fault at places that go together. -/
inductive Report.Corresponds (κ : Correspondence) : Report → Report → Prop
  | lexical {l l' : Nat} (h : κ.line l l') (e : LexicalError) :
      Corresponds κ (.lexical l e) (.lexical l' e)
  | located {p p' : Location} (h : p.Corresponds κ p') (e : StaticError) :
      Corresponds κ (.located p e) (.located p' e)

/-- The same name on lines that go together. -/
structure Name.Corresponds (κ : Correspondence) (x x' : Name) : Prop where
  text : x.text = x'.text
  line : κ.line x.line x'.line

/-- Names that go together are reported at places that go together. -/
theorem Name.Corresponds.place {κ : Correspondence} {x x' : Name} (h : x.Corresponds κ x') :
    x.place.Corresponds κ x'.place := by
  refine .token ⟨?_, h.line⟩
  rw [h.text]

/-- A keyword is reported at its line. -/
theorem Keyword.corresponds_place {κ : Correspondence} (k : Keyword) {l l' : Nat}
    (h : κ.line l l') : (k.place l).Corresponds κ (k.place l') := .token ⟨rfl, h⟩

/-- A punctuation mark is reported at its line. -/
theorem Mark.corresponds_place {κ : Correspondence} (m : Mark) {l l' : Nat}
    (h : κ.line l l') : (m.place l).Corresponds κ (m.place l') := .token ⟨rfl, h⟩

/-- The same variable, with numbers that go together. -/
structure VariableUse.Corresponds (κ : Correspondence) (u u' : VariableUse) : Prop where
  id : κ.use u.id u'.id
  name : u.name.Corresponds κ u'.name

/-!
## Trees

One clause for each way to make a tree. Everything is the same but the lines and the numbers of
uses.
-/

mutual

/-- Expressions that are the same but for lines and numbers. -/
inductive Expr.Corresponds (κ : Correspondence) : Expr → Expr → Prop
  | literal (value : Literal) : Expr.Corresponds κ (.literal value) (.literal value)
  | grouping {e e' : Expr} (h : Expr.Corresponds κ e e') :
      Expr.Corresponds κ (.grouping e) (.grouping e')
  | unary {op : UnaryOperator} {l l' : Nat} {e e' : Expr} (hl : κ.line l l')
      (h : Expr.Corresponds κ e e') : Expr.Corresponds κ (.unary op l e) (.unary op l' e')
  | binary {op : BinaryOperator} {l l' : Nat} {left left' right right' : Expr} (hl : κ.line l l')
      (hleft : Expr.Corresponds κ left left') (hright : Expr.Corresponds κ right right') :
      Expr.Corresponds κ (.binary op l left right) (.binary op l' left' right')
  | logical {op : LogicalOperator} {l l' : Nat} {left left' right right' : Expr}
      (hl : κ.line l l') (hleft : Expr.Corresponds κ left left')
      (hright : Expr.Corresponds κ right right') :
      Expr.Corresponds κ (.logical op l left right) (.logical op l' left' right')
  | «variable» {u u' : VariableUse} (h : u.Corresponds κ u') :
      Expr.Corresponds κ (.«variable» u) (.«variable» u')
  | assign {i i' : UseId} {x x' : Name} {e e' : Expr} (hi : κ.use i i')
      (hx : x.Corresponds κ x') (h : Expr.Corresponds κ e e') :
      Expr.Corresponds κ (.assign i x e) (.assign i' x' e')
  | call {callee callee' : Expr} {l l' : Nat} {args args' : List Expr}
      (hcallee : Expr.Corresponds κ callee callee') (hl : κ.line l l')
      (hargs : List.Forall₂ (Expr.Corresponds κ) args args') :
      Expr.Corresponds κ (.call callee l args) (.call callee' l' args')
  | get {e e' : Expr} {x x' : Name} (h : Expr.Corresponds κ e e') (hx : x.Corresponds κ x') :
      Expr.Corresponds κ (.get e x) (.get e' x')
  | set {e e' v v' : Expr} {x x' : Name} (h : Expr.Corresponds κ e e') (hx : x.Corresponds κ x')
      (hv : Expr.Corresponds κ v v') : Expr.Corresponds κ (.set e x v) (.set e' x' v')
  | lambda {l l' : Nat} {params params' : List Name} {body body' : List Stmt} (hl : κ.line l l')
      (hparams : List.Forall₂ (Name.Corresponds κ) params params')
      (hbody : List.Forall₂ (Stmt.Corresponds κ) body body') :
      Expr.Corresponds κ (.lambda l params body) (.lambda l' params' body')
  | this {i i' : UseId} {l l' : Nat} (hi : κ.use i i') (hl : κ.line l l') :
      Expr.Corresponds κ (.this i l) (.this i' l')
  | super {i i' : UseId} {l l' : Nat} {x x' : Name} (hi : κ.use i i') (hl : κ.line l l')
      (hx : x.Corresponds κ x') : Expr.Corresponds κ (.super i l x) (.super i' l' x')

/-- Statements that are the same but for lines and numbers. -/
inductive Stmt.Corresponds (κ : Correspondence) : Stmt → Stmt → Prop
  | expression {e e' : Expr} (h : Expr.Corresponds κ e e') :
      Stmt.Corresponds κ (.expression e) (.expression e')
  | print {e e' : Expr} (h : Expr.Corresponds κ e e') : Stmt.Corresponds κ (.print e) (.print e')
  | var {x x' : Name} {e e' : Option Expr} (hx : x.Corresponds κ x')
      (h : Option.Rel (Expr.Corresponds κ) e e') : Stmt.Corresponds κ (.var x e) (.var x' e')
  | block {body body' : List Stmt} (h : List.Forall₂ (Stmt.Corresponds κ) body body') :
      Stmt.Corresponds κ (.block body) (.block body')
  | ifThen {c c' : Expr} {s s' : Stmt} {t t' : Option Stmt} (hc : Expr.Corresponds κ c c')
      (hs : Stmt.Corresponds κ s s') (ht : Option.Rel (Stmt.Corresponds κ) t t') :
      Stmt.Corresponds κ (.ifThen c s t) (.ifThen c' s' t')
  | whileDo {c c' : Expr} {s s' : Stmt} (hc : Expr.Corresponds κ c c')
      (hs : Stmt.Corresponds κ s s') : Stmt.Corresponds κ (.whileDo c s) (.whileDo c' s')
  | function {f f' : FunctionDecl} (h : FunctionDecl.Corresponds κ f f') :
      Stmt.Corresponds κ (.function f) (.function f')
  | returnValue {l l' : Nat} {e e' : Option Expr} (hl : κ.line l l')
      (h : Option.Rel (Expr.Corresponds κ) e e') :
      Stmt.Corresponds κ (.returnValue l e) (.returnValue l' e')
  | classDecl {x x' : Name} {parent parent' : Option VariableUse}
      {methods methods' statics statics' : List FunctionDecl} (hx : x.Corresponds κ x')
      (hparent : Option.Rel (VariableUse.Corresponds κ) parent parent')
      (hmethods : List.Forall₂ (FunctionDecl.Corresponds κ) methods methods')
      (hstatics : List.Forall₂ (FunctionDecl.Corresponds κ) statics statics') :
      Stmt.Corresponds κ (.classDecl x parent methods statics)
        (.classDecl x' parent' methods' statics')

/-- Functions that are the same but for lines and numbers. -/
inductive FunctionDecl.Corresponds (κ : Correspondence) : FunctionDecl → FunctionDecl → Prop
  | mk {x x' : Name} {params params' : List Name} {body body' : List Stmt}
      (hx : x.Corresponds κ x') (hparams : List.Forall₂ (Name.Corresponds κ) params params')
      (hbody : List.Forall₂ (Stmt.Corresponds κ) body body') :
      FunctionDecl.Corresponds κ ⟨x, params, body⟩ ⟨x', params', body'⟩

end

/-!
## Wider correspondences

What goes together stays together when more does. By induction on trees, along the correspondence of
their parts.
-/

variable {κ κ' : Correspondence}

/-- Lines and numbers that go together in one correspondence do so in another. -/
structure Correspondence.Within (κ κ' : Correspondence) : Prop where
  line : ∀ {l l'}, κ.line l l' → κ'.line l l'
  use : ∀ {i j}, κ.use i j → κ'.use i j

theorem Name.Corresponds.mono (hκ : κ.Within κ') {x x' : Name} (h : x.Corresponds κ x') :
    x.Corresponds κ' x' := ⟨h.text, hκ.line h.line⟩

theorem VariableUse.Corresponds.mono (hκ : κ.Within κ') {u u' : VariableUse}
    (h : u.Corresponds κ u') : u.Corresponds κ' u' := ⟨hκ.use h.id, h.name.mono hκ⟩

mutual

/-- Expressions that go together do so in every wider correspondence. -/
theorem Expr.Corresponds.mono (hκ : κ.Within κ') {e e' : Expr} (h : e.Corresponds κ e') :
    e.Corresponds κ' e' := by
  cases h with
  | literal value => exact .literal value
  | grouping h => exact .grouping (h.mono hκ)
  | unary hl h => exact .unary (hκ.line hl) (h.mono hκ)
  | binary hl h h' => exact .binary (hκ.line hl) (h.mono hκ) (h'.mono hκ)
  | logical hl h h' => exact .logical (hκ.line hl) (h.mono hκ) (h'.mono hκ)
  | «variable» h => exact .«variable» (h.mono hκ)
  | assign hi hx h => exact .assign (hκ.use hi) (hx.mono hκ) (h.mono hκ)
  | call h hl hargs => exact .call (h.mono hκ) (hκ.line hl) (exprs_corresponds_mono hκ hargs)
  | get h hx => exact .get (h.mono hκ) (hx.mono hκ)
  | set h hx hv => exact .set (h.mono hκ) (hx.mono hκ) (hv.mono hκ)
  | lambda hl hparams hbody =>
    exact .lambda (hκ.line hl) (hparams.imp fun _ _ h => h.mono hκ)
      (stmts_corresponds_mono hκ hbody)
  | this hi hl => exact .this (hκ.use hi) (hκ.line hl)
  | super hi hl hx => exact .super (hκ.use hi) (hκ.line hl) (hx.mono hκ)
termination_by structural e

/-- Statements that go together do so in every wider correspondence. -/
theorem Stmt.Corresponds.mono (hκ : κ.Within κ') {s s' : Stmt} (h : s.Corresponds κ s') :
    s.Corresponds κ' s' := by
  cases h with
  | expression h => exact .expression (h.mono hκ)
  | print h => exact .print (h.mono hκ)
  | var hx h =>
    cases h with
    | none => exact .var (hx.mono hκ) .none
    | some h => exact .var (hx.mono hκ) (.some (h.mono hκ))
  | block h => exact .block (stmts_corresponds_mono hκ h)
  | ifThen hc hs ht =>
    cases ht with
    | none => exact .ifThen (hc.mono hκ) (hs.mono hκ) .none
    | some ht => exact .ifThen (hc.mono hκ) (hs.mono hκ) (.some (ht.mono hκ))
  | whileDo hc hs => exact .whileDo (hc.mono hκ) (hs.mono hκ)
  | function h => exact .function (h.mono hκ)
  | returnValue hl h =>
    cases h with
    | none => exact .returnValue (hκ.line hl) .none
    | some h => exact .returnValue (hκ.line hl) (.some (h.mono hκ))
  | classDecl hx hparent hmethods hstatics =>
    refine .classDecl (hx.mono hκ) ?_ (functions_corresponds_mono hκ hmethods)
      (functions_corresponds_mono hκ hstatics)
    cases hparent with
    | none => exact .none
    | some h => exact .some (h.mono hκ)
termination_by structural s

/-- Functions that go together do so in every wider correspondence. -/
theorem FunctionDecl.Corresponds.mono (hκ : κ.Within κ') {f f' : FunctionDecl}
    (h : f.Corresponds κ f') : f.Corresponds κ' f' := by
  obtain ⟨hx, hparams, hbody⟩ := h
  exact ⟨hx.mono hκ, hparams.imp fun _ _ h => h.mono hκ, stmts_corresponds_mono hκ hbody⟩
termination_by structural f

/-- The same of expressions in a row, as the induction on trees needs it. -/
theorem exprs_corresponds_mono (hκ : κ.Within κ') {es es' : List Expr}
    (h : List.Forall₂ (Expr.Corresponds κ) es es') : List.Forall₂ (Expr.Corresponds κ') es es' := by
  cases h with
  | nil => exact .nil
  | cons h hs => exact .cons (h.mono hκ) (exprs_corresponds_mono hκ hs)
termination_by structural es

/-- The same of statements in a row. -/
theorem stmts_corresponds_mono (hκ : κ.Within κ') {ss ss' : List Stmt}
    (h : List.Forall₂ (Stmt.Corresponds κ) ss ss') : List.Forall₂ (Stmt.Corresponds κ') ss ss' := by
  cases h with
  | nil => exact .nil
  | cons h hs => exact .cons (h.mono hκ) (stmts_corresponds_mono hκ hs)
termination_by structural ss

/-- The same of functions in a row. -/
theorem functions_corresponds_mono (hκ : κ.Within κ') {fs fs' : List FunctionDecl}
    (h : List.Forall₂ (FunctionDecl.Corresponds κ) fs fs') :
    List.Forall₂ (FunctionDecl.Corresponds κ') fs fs' := by
  cases h with
  | nil => exact .nil
  | cons h hs => exact .cons (h.mono hκ) (functions_corresponds_mono hκ hs)
termination_by structural fs

end

/-!
## The same lines and numbers

Where no two lines and no two numbers go together, correspondence is equality.
-/

/-- Only a line and itself, and a number and itself, go together. -/
def Correspondence.same : Correspondence := ⟨Eq, Eq⟩

/-- A name is its text and its line. -/
theorem Name.Corresponds.eq {x x' : Name} (h : x.Corresponds .same x') : x = x' := by
  obtain ⟨text, l⟩ := x
  obtain ⟨htext, hl⟩ := h
  cases htext
  cases hl
  rfl

/-- A use is its number and its name. -/
theorem VariableUse.Corresponds.eq {u u' : VariableUse} (h : u.Corresponds .same u') : u = u' := by
  obtain ⟨i, x⟩ := u
  obtain ⟨hi, hx⟩ := h
  cases hi
  cases hx.eq
  rfl

/-- Names in a row are equal one by one. -/
theorem names_eq {xs xs' : List Name} (h : List.Forall₂ (Name.Corresponds .same) xs xs') :
    xs = xs' := by
  rw [← List.forall₂_eq_eq_eq]
  exact h.imp fun _ _ hx => hx.eq

mutual

/-- Expressions that go together are equal. -/
theorem Expr.Corresponds.eq {e e' : Expr} (h : e.Corresponds .same e') : e = e' := by
  cases h with
  | literal value => rfl
  | grouping h => rw [h.eq]
  | unary hl h => cases hl; rw [h.eq]
  | binary hl h h' => cases hl; rw [h.eq, h'.eq]
  | logical hl h h' => cases hl; rw [h.eq, h'.eq]
  | «variable» h => rw [h.eq]
  | assign hi hx h => cases hi; rw [hx.eq, h.eq]
  | call h hl hargs => cases hl; rw [h.eq, exprs_eq hargs]
  | get h hx => rw [h.eq, hx.eq]
  | set h hx hv => rw [h.eq, hx.eq, hv.eq]
  | lambda hl hparams hbody => cases hl; rw [names_eq hparams, stmts_eq hbody]
  | this hi hl => cases hi; cases hl; rfl
  | super hi hl hx => cases hi; cases hl; rw [hx.eq]
termination_by structural e

/-- Statements that go together are equal. -/
theorem Stmt.Corresponds.eq {s s' : Stmt} (h : s.Corresponds .same s') : s = s' := by
  cases h with
  | expression h => rw [h.eq]
  | print h => rw [h.eq]
  | var hx h =>
    cases h with
    | none => rw [hx.eq]
    | some h => rw [hx.eq, h.eq]
  | block h => rw [stmts_eq h]
  | ifThen hc hs ht =>
    cases ht with
    | none => rw [hc.eq, hs.eq]
    | some ht => rw [hc.eq, hs.eq, ht.eq]
  | whileDo hc hs => rw [hc.eq, hs.eq]
  | function h => rw [h.eq]
  | returnValue hl h =>
    cases hl
    cases h with
    | none => rfl
    | some h => rw [h.eq]
  | classDecl hx hparent hmethods hstatics =>
    rw [hx.eq, functions_eq hmethods, functions_eq hstatics]
    cases hparent with
    | none => rfl
    | some h => rw [h.eq]
termination_by structural s

/-- Functions that go together are equal. -/
theorem FunctionDecl.Corresponds.eq {f f' : FunctionDecl} (h : f.Corresponds .same f') :
    f = f' := by
  obtain ⟨hx, hparams, hbody⟩ := h
  rw [hx.eq, names_eq hparams, stmts_eq hbody]
termination_by structural f

/-- The same of expressions in a row. -/
theorem exprs_eq {es es' : List Expr} (h : List.Forall₂ (Expr.Corresponds .same) es es') :
    es = es' := by
  cases h with
  | nil => rfl
  | cons h hs => rw [h.eq, exprs_eq hs]
termination_by structural es

/-- The same of statements in a row. -/
theorem stmts_eq {ss ss' : List Stmt} (h : List.Forall₂ (Stmt.Corresponds .same) ss ss') :
    ss = ss' := by
  cases h with
  | nil => rfl
  | cons h hs => rw [h.eq, stmts_eq hs]
termination_by structural ss

/-- The same of functions in a row. -/
theorem functions_eq {fs fs' : List FunctionDecl}
    (h : List.Forall₂ (FunctionDecl.Corresponds .same) fs fs') : fs = fs' := by
  cases h with
  | nil => rfl
  | cons h hs => rw [h.eq, functions_eq hs]
termination_by structural fs

end

/-!
## A tree and itself

A tree need not go together with itself: each of its lines, and the number of each use in it, has
to. The uses of a tree are among what is met in it.
-/

/-- All lines, and the numbers of the uses among some occurrences, go together with themselves. -/
structure Correspondence.Fixes (κ : Correspondence) (os : List Occurrence) : Prop where
  line : ∀ l, κ.line l l
  id : ∀ v, .use v ∈ os → κ.use v.id v.id

namespace Correspondence.Fixes

variable {os os' : List Occurrence}

theorem left (h : κ.Fixes (os ++ os')) : κ.Fixes os :=
  ⟨h.line, fun v hv => h.id v (List.mem_append_left _ hv)⟩

theorem right (h : κ.Fixes (os ++ os')) : κ.Fixes os' :=
  ⟨h.line, fun v hv => h.id v (List.mem_append_right _ hv)⟩

theorem tail {o : Occurrence} (h : κ.Fixes (o :: os)) : κ.Fixes os :=
  ⟨h.line, fun v hv => h.id v (List.mem_cons_of_mem _ hv)⟩

theorem use {v : Visit} (h : κ.Fixes [.use v]) : κ.use v.id v.id := h.id v List.mem_cons_self

/-- A name has a line and no number. -/
theorem name (h : κ.Fixes os) (x : Name) : x.Corresponds κ x := ⟨rfl, h.line x.line⟩

theorem names (h : κ.Fixes os) (xs : List Name) : List.Forall₂ (Name.Corresponds κ) xs xs :=
  List.forall₂_same.mpr fun x _ => h.name x

end Correspondence.Fixes

mutual

/-- An expression goes together with itself if all lines and the numbers of its uses do. -/
theorem Expr.corresponds_self {S : List Scope} (e : Expr) (h : κ.Fixes (e.occurrences S)) :
    e.Corresponds κ e := by
  cases e with
  | literal value => exact .literal value
  | grouping e => exact .grouping (e.corresponds_self h)
  | unary op l e => exact .unary (h.line l) (e.corresponds_self h)
  | binary op l e e' =>
    exact .binary (h.line l) (e.corresponds_self h.left) (e'.corresponds_self h.right)
  | logical op l e e' =>
    exact .logical (h.line l) (e.corresponds_self h.left) (e'.corresponds_self h.right)
  | «variable» u => exact .«variable» ⟨h.use, h.name u.name⟩
  -- The value stands in front of the use, as it is looked at first.
  | assign i x e =>
    exact .assign h.right.use (h.name x) (e.corresponds_self h.left)
  | call e l args =>
    exact .call (e.corresponds_self h.left) (h.line l) (exprs_corresponds_self args h.right)
  | get e x => exact .get (e.corresponds_self h) (h.name x)
  -- Here, too, the value comes first.
  | set e x v =>
    exact .set (e.corresponds_self h.right) (h.name x) (v.corresponds_self h.left)
  | lambda l params body =>
    exact .lambda (h.line l) (h.names params) (stmts_corresponds_self body h.right)
  | this i l => exact .this h.use (h.line l)
  | super i l x => exact .super h.use (h.line l) (h.name x)

/-- A statement goes together with itself if all lines and the numbers of its uses do. -/
theorem Stmt.corresponds_self {S : List Scope} (s : Stmt) (h : κ.Fixes (s.occurrences S)) :
    s.Corresponds κ s := by
  cases s with
  | expression e => exact .expression (e.corresponds_self h)
  | print e => exact .print (e.corresponds_self h)
  | var x e =>
    cases e with
    | none => exact .var (h.name x) .none
    | some e => exact .var (h.name x) (.some (e.corresponds_self h.tail.tail))
  | block body => exact .block (stmts_corresponds_self body h)
  | ifThen c s t =>
    cases t with
    | none =>
      exact .ifThen (c.corresponds_self h.left) (s.corresponds_self h.right.tail) .none
    | some t =>
      exact .ifThen (c.corresponds_self h.left) (s.corresponds_self h.right.tail.left)
        (.some (t.corresponds_self h.right.tail.right.tail))
  | whileDo c s =>
    exact .whileDo (c.corresponds_self h.left) (s.corresponds_self h.right.tail)
  | function f => exact .function (f.corresponds_self h.tail)
  | returnValue l e =>
    cases e with
    | none => exact .returnValue (h.line l) .none
    | some e => exact .returnValue (h.line l) (.some (e.corresponds_self h))
  -- Static methods come before methods of instances, in which `this` and `super` are visible.
  | classDecl x parent methods statics =>
    have hmembers := h.tail.right
    refine .classDecl (h.name x) ?_ (functions_corresponds_self methods hmembers.right)
      (functions_corresponds_self statics hmembers.left)
    cases parent with
    | none => exact .none
    | some u => exact .some ⟨h.tail.left.tail.use, h.tail.left.tail.name u.name⟩

/-- A function goes together with itself if all lines and the numbers of its uses do. -/
theorem FunctionDecl.corresponds_self {S : List Scope} (f : FunctionDecl)
    (h : κ.Fixes (f.occurrences S)) : f.Corresponds κ f := by
  obtain ⟨x, params, body⟩ := f
  exact ⟨h.name x, h.names params, stmts_corresponds_self body h.right⟩

/-- The same of expressions in a row. -/
theorem exprs_corresponds_self {S : List Scope} (es : List Expr)
    (h : κ.Fixes (exprsOccurrences S es)) : List.Forall₂ (Expr.Corresponds κ) es es := by
  cases es with
  | nil => exact .nil
  | cons e es => exact .cons (e.corresponds_self h.left) (exprs_corresponds_self es h.right)

/-- The same of statements in a row. -/
theorem stmts_corresponds_self {S : List Scope} (ss : List Stmt)
    (h : κ.Fixes (stmtsOccurrences S ss)) : List.Forall₂ (Stmt.Corresponds κ) ss ss := by
  cases ss with
  | nil => exact .nil
  | cons s ss => exact .cons (s.corresponds_self h.left) (stmts_corresponds_self ss h.right)

/-- The same of functions in a row. -/
theorem functions_corresponds_self {S : List Scope} (fs : List FunctionDecl)
    (h : κ.Fixes (functionsOccurrences S fs)) :
    List.Forall₂ (FunctionDecl.Corresponds κ) fs fs := by
  cases fs with
  | nil => exact .nil
  | cons f fs => exact .cons (f.corresponds_self h.left) (functions_corresponds_self fs h.right)

end

end LoxLang
