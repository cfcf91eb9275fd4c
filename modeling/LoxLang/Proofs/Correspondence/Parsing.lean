import LoxLang.Proofs.Correspondence
import LoxLang.Proofs.Mirroring
import LoxLang.Tree.Parsing

/-!
# Reading tokens that correspond

From tokens of the same kinds, whatever their lines, parsing makes trees of the same shape and
reports the same mistakes at the same tokens (`parse_corresponds`). It may begin with different
numbers for the uses of names, as long as those from there on go together.
-/

namespace LoxLang

open LoxLang.Parser Nested

/-- Tokens of the same kinds, on lines that go together. -/
structure Lexed.Corresponds (κ : Correspondence) (l l' : Lexed) : Prop where
  tokens : List.Forall₂ (Token.Corresponds κ) l.tokens l'.tokens
  reports : List.Forall₂ (Report.Corresponds κ) l.reports l'.reports
  endLine : κ.line l.endLine l'.endLine

/-- Parsers that stand at the same token of sources that correspond. All numbers that they will give
go together. -/
structure ParserState.Corresponds (κ : Correspondence) (s s' : ParserState) : Prop where
  rest : List.Forall₂ (Token.Corresponds κ) s.rest s'.rest
  endLine : κ.line s.endLine s'.endLine
  reports : List.Forall₂ (Report.Corresponds κ) s.reports s'.reports
  nextUse : ∀ k, κ.use (s.nextUse + k) (s'.nextUse + k)
  bound : s.bound = s'.bound

/-- Parsers that read the same. -/
abbrev Parser.Mirror (κ : Correspondence) {α : Type} (Q : α → α → Prop) (p p' : Parser α) : Prop :=
  Mirrors (ParserState.Corresponds κ) Eq Q p p'

variable {κ : Correspondence} {α : Type} {Q : α → α → Prop}

/-!
## Single steps

A parser sees the kinds of tokens and not their lines, so it takes the same steps on tokens that go
together. Lines come up again only in what it gives.
-/

/-- The places at which parsers stand go together. -/
theorem mirror_here : Mirror κ (Location.Corresponds κ) here here := by
  intro s s' h
  have hrest := h.rest
  unfold here
  generalize s.rest = rest at hrest
  generalize s'.rest = rest' at hrest
  cases hrest with
  | nil => exact .ok (.endOfSource h.endLine) h
  | cons ht _ => exact .ok (.token ht) h

theorem mirror_bound : Mirror κ Eq Parser.bound Parser.bound := fun _ _ h => .ok h.bound h

/-- The same token is taken, or none. -/
theorem mirror_accept? (f : TokenKind → Option α) :
    Mirror κ (Option.Rel fun a a' => a.1 = a'.1 ∧ κ.line a.2 a'.2) (accept? f) (accept? f) := by
  intro s s' h
  have hrest := h.rest
  unfold accept?
  cases hs : s.rest with
  | nil =>
    rw [hs] at hrest
    rw [List.forall₂_nil_left_iff.mp hrest]
    exact .ok .none h
  | cons t rest =>
    rw [hs] at hrest
    obtain ⟨t', rest', ht, hrest, hs'⟩ := List.forall₂_cons_left_iff.mp hrest
    rw [hs']
    dsimp only
    -- Whether a token is taken depends on its kind alone.
    rw [← ht.kind]
    cases f t.kind with
    | none => exact .ok .none h
    | some a => exact .ok (.some ⟨rfl, ht.line⟩) { h with rest := hrest }

/-- Either nothing is accepted in both, or the same is. -/
theorem cases_of_accepted {a? a?' : Option (α × Nat)}
    (h : Option.Rel (fun a a' => a.1 = a'.1 ∧ κ.line a.2 a'.2) a? a?') :
    (a? = none ∧ a?' = none) ∨
      ∃ a l l', a? = some (a, l) ∧ a?' = some (a, l') ∧ κ.line l l' := by
  cases h with
  | none => exact .inl ⟨rfl, rfl⟩
  | @some a a' h =>
    obtain ⟨a, l⟩ := a
    obtain ⟨a', l'⟩ := a'
    obtain ⟨rfl, hl⟩ := h
    exact .inr ⟨a, l, l', rfl, rfl, hl⟩

/-- A token is told from others by its kind. -/
theorem mirror_isNext (kind : TokenKind) : Mirror κ Eq (isNext kind) (isNext kind) := by
  intro s s' h
  have hrest := h.rest
  refine .ok ?_ h
  generalize s.rest = rest at hrest
  generalize s'.rest = rest' at hrest
  cases hrest with
  | nil => rfl
  | cons ht _ => simp [ht.kind]

/-- As many tokens are left in both. -/
theorem mirror_atEnd : Mirror κ Eq atEnd atEnd := by
  intro s s' h
  have hrest := h.rest
  refine .ok ?_ h
  generalize s.rest = rest at hrest
  generalize s'.rest = rest' at hrest
  cases hrest <;> rfl

/-- Of a token of one kind only the line is given. -/
theorem mirror_acceptKind? (kind : TokenKind) :
    Mirror κ (Option.Rel κ.line) (acceptKind? kind) (acceptKind? kind) := by
  refine (mirror_accept? _).bind fun found found' h => .pure ?_
  cases h with
  | none => exact .none
  | some h => exact .some h.2

/-- The same mistake is reported at places that go together. -/
theorem mirror_report {p p' : Location} (h : p.Corresponds κ p') (e : StaticError) :
    Mirror κ Eq (report p e) (report p' e) := fun _ _ hs =>
  .ok rfl { hs with reports := List.rel_append hs.reports (.cons (.located h e) .nil) }

/-- Both give up with the same mistake. -/
theorem mirror_fail (e : GrammarError) : Mirror κ Q (fail e) (fail e) :=
  mirror_here.bind fun _ _ h => (mirror_report h _).bind_same fun _ => .throw rfl

/-- The mark stands there in both, or is missing in both. -/
theorem mirror_expectMark (m : Mark) (place : MarkPlace) :
    Mirror κ κ.line (expectMark m place) (expectMark m place) := by
  refine (mirror_acceptKind? _).bind fun found found' h => ?_
  cases h with
  | none => exact mirror_fail _
  | some h => exact .pure h

/-- The name stands there in both, or is missing in both. -/
theorem mirror_expectName (role : NameRole) :
    Mirror κ (Name.Corresponds κ) (expectName role) (expectName role) := by
  refine (mirror_accept? _).bind fun found found' h => ?_
  cases h with
  | none => exact mirror_fail _
  | some h => exact .pure ⟨h.1, h.2⟩

/-- Numbers are given in step, and all that will be given go together. -/
theorem mirror_freshUse : Mirror κ κ.use freshUse freshUse := by
  refine fun s s' h => .ok (h.nextUse 0) { h with nextUse := fun k => ?_ }
  show κ.use (s.nextUse + 1 + k) (s'.nextUse + 1 + k)
  rw [Nat.add_right_comm, Nat.add_right_comm s'.nextUse]
  exact h.nextUse (k + 1)

/-- After a mistake, parsing goes on at the same token. -/
theorem mirror_resume {t t' : Token} {ts ts' : List Token} (ht : t.Corresponds κ t')
    (hts : List.Forall₂ (Token.Corresponds κ) ts ts') :
    List.Forall₂ (Token.Corresponds κ) (resume t ts) (resume t' ts') := by
  induction hts generalizing t t' with
  | nil => exact .nil
  | @cons u u' us us' hu hus ih =>
    -- Where parsing takes up again is a matter of kinds.
    have hends : endsStatement t = endsStatement t' := by rw [endsStatement, ht.kind]; rfl
    have hbegins : beginsStatement u = beginsStatement u' := by
      rw [beginsStatement, hu.kind]
      rfl
    rw [resume, resume, hends, hbegins]
    split
    · exact .cons hu hus
    · exact ih hu

/-- The tokens that are skipped are as many in both. -/
theorem mirror_recover : Mirror κ Eq recover recover := by
  refine fun s s' h => .ok rfl { h with rest := ?_ }
  have hrest := h.rest
  generalize s.rest = rest at hrest
  generalize s'.rest = rest' at hrest
  cases hrest with
  | nil => exact .nil
  | cons ht hts => exact mirror_resume ht hts

/-- Whether a function declaration begins is seen from the kinds of two tokens. -/
theorem beginsFunction_of_kinds_eq {ts ts' : List Token} {l l₁ : Nat} {x : String}
    {rest : List Token} (h : ts'.map (·.kind) = ts.map (·.kind))
    (hts : ts = ⟨.keyword .«fun», l⟩ :: ⟨.identifier x, l₁⟩ :: rest) :
    ∃ l' l₁' rest', ts' = ⟨.keyword .«fun», l'⟩ :: ⟨.identifier x, l₁'⟩ :: rest' := by
  subst hts
  obtain ⟨⟨kind, l'⟩, us, rfl, hkind, hus⟩ := List.map_eq_cons_iff.mp h
  obtain ⟨⟨kind₁, l₁'⟩, rest', rfl, hkind₁, -⟩ := List.map_eq_cons_iff.mp hus
  obtain rfl : kind = _ := hkind
  obtain rfl : kind₁ = _ := hkind₁
  exact ⟨l', l₁', rest', rfl⟩

/-- Tokens that go together are of the same kinds. -/
theorem kinds_eq_of_corresponds {ts ts' : List Token}
    (h : List.Forall₂ (Token.Corresponds κ) ts ts') : ts.map (·.kind) = ts'.map (·.kind) := by
  induction h with
  | nil => rfl
  | cons ht _ ih => rw [List.map_cons, List.map_cons, ht.kind, ih]

/-- Two tokens ahead decide, by their kinds. -/
theorem mirror_acceptFunction : Mirror κ Eq acceptFunction acceptFunction := by
  intro s s' h
  have hrest := h.rest
  have hkinds := kinds_eq_of_corresponds hrest
  unfold acceptFunction
  split
  · next hs =>
    obtain ⟨l', l₁', rest', hs'⟩ := beginsFunction_of_kinds_eq hkinds.symm hs
    rw [hs, hs'] at hrest
    rw [hs']
    exact .ok rfl { h with rest := (List.forall₂_cons.mp hrest).2 }
  · next hs =>
    -- The first does not take the keyword here, so neither does the second.
    split
    · next hs' =>
      obtain ⟨l, l₁, rest, heq⟩ := beginsFunction_of_kinds_eq hkinds hs'
      exact absurd heq (hs _ _ _ _)
    · exact .ok rfl h

/-!
## Grammar rules

If the rules one level further in mirror themselves, then so do these. Each case is a sequence of
the steps above.
-/

/-- The rules of the grammar one level further in read the same. -/
structure Nested.Mirror (κ : Correspondence) (inner : Nested) : Prop where
  declaration :
    Parser.Mirror κ (Option.Rel (Stmt.Corresponds κ)) inner.declaration inner.declaration
  statement : Parser.Mirror κ (Stmt.Corresponds κ) inner.statement inner.statement
  expression : Parser.Mirror κ (Expr.Corresponds κ) inner.expression inner.expression
  unary : Parser.Mirror κ (Expr.Corresponds κ) inner.unary inner.unary

/-- What goes together is there in both or in neither. -/
theorem isSome_iff_of_rel {β γ : Type} {T : β → γ → Prop} {b? : Option β} {c? : Option γ}
    (h : Option.Rel T b? c?) : b?.isSome ↔ c?.isSome := by
  cases h <;> rfl

/-- Something is read on a condition, or else nothing, before parsing goes on. -/
theorem mirror_optional {β γ : Type} {T : β → β → Prop} {U : γ → γ → Prop} {p : Parser β}
    {f f' : Option β → Parser γ} {c c' : Prop} [Decidable c] [Decidable c'] (hc : c ↔ c')
    (hp : Mirror κ T p p) (hf : ∀ b b', Option.Rel T b b' → Mirror κ U (f b) (f' b')) :
    Mirror κ U (if c then some <$> p >>= f else pure none >>= f)
      (if c' then some <$> p >>= f' else pure none >>= f') :=
  .ite hc ((hp.map fun _ _ h => .some h).bind hf) ((Mirrors.pure .none).bind hf)

section Lists

variable {inner : Nested} {item : Parser α}

/-- As many items are read. -/
theorem mirror_moreItems (h : Mirror κ Q item item) (tooMany : GrammarError) (fuel count : Nat) :
    Mirror κ (List.Forall₂ Q) (moreItems item tooMany fuel count)
      (moreItems item tooMany fuel count) := by
  induction fuel generalizing count with
  | zero => exact .pure .nil
  | succ fuel ih =>
    refine (mirror_acceptKind? _).bind fun found found' hfound => ?_
    cases hfound with
    | none => exact .pure .nil
    | some _ =>
      -- Whether or not there are too many, the item is read.
      have hrest := h.bind fun x x' hx => (ih (count + 1)).bind fun xs xs' hxs =>
        Mirrors.pure (List.Forall₂.cons hx hxs)
      exact .ite Iff.rfl (mirror_here.bind fun _ _ hp => (mirror_report hp _).bind_same fun _ =>
        hrest) hrest

/-- The first item, and more behind commas. -/
theorem mirror_items (h : Mirror κ Q item item) (tooMany : GrammarError) :
    Mirror κ (List.Forall₂ Q) (items item tooMany) (items item tooMany) := by
  refine (mirror_isNext _).bind_same fun b => .ite Iff.rfl (.pure .nil) ?_
  refine h.bind fun x x' hx => mirror_bound.bind_same fun n => ?_
  exact (mirror_moreItems h tooMany n 1).bind fun xs xs' hxs => .pure (.cons hx hxs)

/-- Parameters go together one by one. -/
theorem mirror_parameters :
    Mirror κ (List.Forall₂ (Name.Corresponds κ)) parameters parameters :=
  (mirror_items (mirror_expectName _) _).bind fun _ _ hxs =>
    (mirror_expectMark _ _).bind fun _ _ _ => .pure hxs

/-- At most one thing, as a list. -/
theorem forall₂_optional {T : α → α → Prop} {a a' : Option α} (h : Option.Rel T a a') :
    List.Forall₂ T a.toList a'.toList := by
  cases h with
  | none => exact .nil
  | some h => exact .cons h .nil

/-- Statements with mistakes are left out in both. -/
theorem mirror_statements (h : inner.Mirror κ) (fuel : Nat) :
    Mirror κ (List.Forall₂ (Stmt.Corresponds κ)) (inner.statements fuel)
      (inner.statements fuel) := by
  induction fuel with
  | zero => exact .pure .nil
  | succ fuel ih =>
    refine (mirror_isNext _).bind_same fun b => .ite Iff.rfl (.pure .nil) ?_
    refine mirror_atEnd.bind_same fun b => .ite Iff.rfl (.pure .nil) ?_
    exact h.declaration.bind fun first first' hfirst => ih.bind fun others others' hothers =>
      .pure (List.rel_append (forall₂_optional hfirst) hothers)

/-- The statements between braces. -/
theorem mirror_block (h : inner.Mirror κ) :
    Mirror κ (List.Forall₂ (Stmt.Corresponds κ)) inner.block inner.block := by
  refine mirror_bound.bind_same fun n => ?_
  exact (mirror_statements h n).bind fun _ _ hbody =>
    (mirror_expectMark _ _).bind fun _ _ _ => .pure hbody

end Lists

section Expressions

variable {inner : Nested} (h : inner.Mirror κ) {l l' : Nat}
include h

/-- A function without a name. -/
theorem mirror_lambda (hl : κ.line l l') :
    Mirror κ (Expr.Corresponds κ) (inner.lambda l) (inner.lambda l') :=
  (mirror_expectMark _ _).bind fun _ _ _ => mirror_parameters.bind fun _ _ hxs =>
    (mirror_expectMark _ _).bind fun _ _ _ => (mirror_block h).bind fun _ _ hbody =>
      .pure (.lambda hl hxs hbody)

/-- The first token decides on the kind of expression. -/
theorem mirror_afterStart (hl : κ.line l l') (start : PrimaryStart) :
    Mirror κ (Expr.Corresponds κ) (inner.afterStart l start) (inner.afterStart l' start) := by
  cases start with
  | literal value => exact .pure (.literal value)
  | name text =>
    exact mirror_freshUse.bind fun _ _ hi => .pure (.«variable» ⟨hi, rfl, hl⟩)
  | parenthesis =>
    exact h.expression.bind fun _ _ he => (mirror_expectMark _ _).bind fun _ _ _ =>
      .pure (.grouping he)
  | lambda => exact mirror_lambda h hl
  | this => exact mirror_freshUse.bind fun _ _ hi => .pure (.this hi hl)
  | super =>
    exact (mirror_expectMark _ _).bind fun _ _ _ => (mirror_expectName _).bind fun _ _ hx =>
      mirror_freshUse.bind fun _ _ hi => .pure (.super hi hl hx)

/-- An expression without operators. -/
theorem mirror_primary : Mirror κ (Expr.Corresponds κ) inner.primary inner.primary := by
  refine (mirror_accept? _).bind fun found found' hfound => ?_
  obtain ⟨rfl, rfl⟩ | ⟨start, l, l', rfl, rfl, hl⟩ := cases_of_accepted hfound
  · exact mirror_fail _
  · exact mirror_afterStart h hl start

/-- What is called, and the arguments. -/
theorem mirror_arguments {e e' : Expr} (he : e.Corresponds κ e') :
    Mirror κ (Expr.Corresponds κ) (inner.arguments e) (inner.arguments e') :=
  (mirror_items h.expression _).bind fun _ _ hargs => (mirror_expectMark _ _).bind fun _ _ hl =>
    .pure (.call he hl hargs)

/-- As many calls and properties follow. -/
theorem mirror_suffixes (fuel : Nat) {e e' : Expr} (he : e.Corresponds κ e') :
    Mirror κ (Expr.Corresponds κ) (inner.suffixes fuel e) (inner.suffixes fuel e') := by
  induction fuel generalizing e e' with
  | zero => exact .pure he
  | succ fuel ih =>
    refine (mirror_acceptKind? _).bind fun _ _ hopen => .ite (isSome_iff_of_rel hopen)
      ((mirror_arguments h he).bind fun _ _ he => ih he) ?_
    exact (mirror_acceptKind? _).bind fun _ _ hdot => .ite (isSome_iff_of_rel hdot)
      ((mirror_expectName _).bind fun _ _ hx => ih (.get he hx)) (.pure he)

/-- Operators in front of an expression. -/
theorem mirror_unaryExpr : Mirror κ (Expr.Corresponds κ) inner.unaryExpr inner.unaryExpr := by
  refine (mirror_accept? _).bind fun found found' hfound => ?_
  obtain ⟨rfl, rfl⟩ | ⟨op, l, l', rfl, rfl, hl⟩ := cases_of_accepted hfound
  · exact (mirror_primary h).bind fun e e' he => mirror_bound.bind_same fun n =>
      mirror_suffixes h n he
  · exact h.unary.bind fun _ _ he => .pure (.unary hl he)

omit h in
/-- Operands are joined in the same order. -/
theorem mirror_chain {operand : Parser Expr}
    (hoperand : Mirror κ (Expr.Corresponds κ) operand operand)
    (operator? : TokenKind → Option α) {join : α → Nat → Expr → Expr → Expr}
    (hjoin : ∀ op {l l' left left' right right'}, κ.line l l' → left.Corresponds κ left' →
      right.Corresponds κ right' →
      (join op l left right).Corresponds κ (join op l' left' right')) :
    Mirror κ (Expr.Corresponds κ) (chain operator? join operand)
      (chain operator? join operand) := by
  -- The accumulator is related on both sides, so the induction on the fuel goes through for any
  -- two.
  have hmore : ∀ fuel {e e'}, e.Corresponds κ e' → Mirror κ (Expr.Corresponds κ)
      (moreOperands operator? join operand fuel e)
      (moreOperands operator? join operand fuel e') := by
    intro fuel
    induction fuel with
    | zero => exact fun he => .pure he
    | succ fuel ih =>
      intro e e' he
      refine (mirror_accept? _).bind fun found found' hfound => ?_
      obtain ⟨rfl, rfl⟩ | ⟨op, l, l', rfl, rfl, hl⟩ := cases_of_accepted hfound
      · exact .pure he
      · exact hoperand.bind fun _ _ hright => ih (hjoin op hl he hright)
  refine hoperand.bind fun e e' he => mirror_bound.bind_same fun n => ?_
  exact hmore n he

/-- All levels of operators. -/
theorem mirror_disjunction :
    Mirror κ (Expr.Corresponds κ) inner.disjunction inner.disjunction := by
  have hbinary : ∀ (op : BinaryOperator) {l l' left left' right right'}, κ.line l l' →
      left.Corresponds κ left' → right.Corresponds κ right' →
      (Expr.binary op l left right).Corresponds κ (.binary op l' left' right') :=
    fun _ _ _ _ _ _ _ => .binary
  have hlogical : ∀ (op : LogicalOperator) {l l' left left' right right'}, κ.line l l' →
      left.Corresponds κ left' → right.Corresponds κ right' →
      (Expr.logical op l left right).Corresponds κ (.logical op l' left' right') :=
    fun _ _ _ _ _ _ _ => .logical
  exact mirror_chain (mirror_chain (mirror_chain (mirror_chain (mirror_chain (mirror_chain
    (mirror_unaryExpr h) _ hbinary) _ hbinary) _ hbinary) _ hbinary) _ hlogical) _ hlogical

omit h in
/-- The same kind of target, or none that can be assigned to. -/
theorem mirror_assignTo {target target' value value' : Expr}
    (htarget : target.Corresponds κ target') (hl : κ.line l l')
    (hvalue : value.Corresponds κ value') :
    Mirror κ (Expr.Corresponds κ) (assignTo target l value) (assignTo target' l' value') := by
  cases htarget with
  | «variable» hu => exact mirror_freshUse.bind fun _ _ hi => .pure (.assign hi hu.name hvalue)
  | get he hx => exact .pure (.set he hx hvalue)
  | _ =>
    refine (mirror_report (Mark.corresponds_place _ hl) _).bind_same fun _ => .pure ?_
    constructor <;> assumption

/-- A value, or a target with a value behind it. -/
theorem mirror_assignment : Mirror κ (Expr.Corresponds κ) inner.assignment inner.assignment := by
  refine (mirror_disjunction h).bind fun target target' htarget =>
    (mirror_acceptKind? _).bind fun found found' hfound => ?_
  cases hfound with
  | none => exact .pure htarget
  | some hl => exact h.expression.bind fun _ _ hvalue => mirror_assignTo htarget hl hvalue

end Expressions

section Statements

variable {inner : Nested} (h : inner.Mirror κ) {l l' : Nat}
include h

theorem mirror_expressionStatement :
    Mirror κ (Stmt.Corresponds κ) inner.expressionStatement inner.expressionStatement :=
  (mirror_assignment h).bind fun _ _ he => (mirror_expectMark _ _).bind fun _ _ _ =>
    .pure (.expression he)

theorem mirror_printStatement :
    Mirror κ (Stmt.Corresponds κ) inner.printStatement inner.printStatement :=
  (mirror_assignment h).bind fun _ _ he => (mirror_expectMark _ _).bind fun _ _ _ =>
    .pure (.print he)

/-- A variable, with an initializer or without. -/
theorem mirror_varDeclaration :
    Mirror κ (Stmt.Corresponds κ) inner.varDeclaration inner.varDeclaration := by
  refine (mirror_expectName _).bind fun x x' hx => (mirror_acceptKind? _).bind fun _ _ hequal => ?_
  exact mirror_optional (isSome_iff_of_rel hequal) (mirror_assignment h) fun e e' he =>
    (mirror_expectMark _ _).bind fun _ _ _ => .pure (.var hx he)

/-- A value may be returned or not. -/
theorem mirror_returnStatement (hl : κ.line l l') :
    Mirror κ (Stmt.Corresponds κ) (inner.returnStatement l) (inner.returnStatement l') := by
  refine (mirror_isNext _).bind_same fun b => ?_
  have hend := fun (e e' : Option Expr) (he : Option.Rel (Expr.Corresponds κ) e e') =>
    (mirror_expectMark .semicolon .afterReturnValue : Mirror κ _ _ _).bind fun _ _ _ =>
      Mirrors.pure (Stmt.Corresponds.returnValue hl he)
  exact .ite Iff.rfl ((Mirrors.pure .none).bind hend)
    (((mirror_assignment h).map fun _ _ he => .some he).bind hend)

/-- A clause is there in both or in neither. -/
theorem mirror_forClause (final : Mark) (place : MarkPlace) :
    Mirror κ (Option.Rel (Expr.Corresponds κ)) (inner.forClause final place)
      (inner.forClause final place) := by
  refine (mirror_isNext _).bind_same fun b => ?_
  have hend := fun (e e' : Option Expr) (he : Option.Rel (Expr.Corresponds κ) e e') =>
    (mirror_expectMark final place : Mirror κ _ _ _).bind fun _ _ _ => Mirrors.pure he
  exact .ite Iff.rfl ((Mirrors.pure .none).bind hend)
    (((mirror_assignment h).map fun _ _ he => .some he).bind hend)

/-- The first clause of a loop. -/
theorem mirror_forInitializer :
    Mirror κ (Option.Rel (Stmt.Corresponds κ)) inner.forInitializer inner.forInitializer := by
  refine (mirror_acceptKind? _).bind fun _ _ hnone => .ite (isSome_iff_of_rel hnone)
    (.pure .none) ?_
  exact (mirror_acceptKind? _).bind fun _ _ hvar => .ite (isSome_iff_of_rel hvar)
    ((mirror_varDeclaration h).map fun _ _ hs => .some hs)
    ((mirror_expressionStatement h).map fun _ _ hs => .some hs)

omit h in
/-- Loops are put together from clauses in the same way. -/
theorem corresponds_forLoop {first first' : Option Stmt}
    {condition condition' last last' : Option Expr} {s s' : Stmt}
    (hfirst : Option.Rel (Stmt.Corresponds κ) first first')
    (hcondition : Option.Rel (Expr.Corresponds κ) condition condition')
    (hlast : Option.Rel (Expr.Corresponds κ) last last') (hs : s.Corresponds κ s') :
    (forLoop first condition last s).Corresponds κ (forLoop first' condition' last' s') := by
  -- A condition that nobody wrote is the same in both.
  have hcond : (condition.getD (.literal (.bool true))).Corresponds κ
      (condition'.getD (.literal (.bool true))) := by
    cases hcondition with
    | none => exact .literal _
    | some h => exact h
  have hloop : (forLoop none condition last s).Corresponds κ
      (forLoop none condition' last' s') := by
    cases hlast with
    | none => exact .whileDo hcond hs
    | some he => exact .whileDo hcond (.block (.cons hs (.cons (.expression he) .nil)))
  cases hfirst with
  | none => exact hloop
  | some h => exact .block (.cons h (.cons hloop .nil))

/-- The clauses, and then the body. -/
theorem mirror_forStatement :
    Mirror κ (Stmt.Corresponds κ) inner.forStatement inner.forStatement :=
  (mirror_expectMark _ _).bind fun _ _ _ => (mirror_forInitializer h).bind fun _ _ hfirst =>
    (mirror_forClause h _ _).bind fun _ _ hcondition => (mirror_forClause h _ _).bind
      fun _ _ hlast => h.statement.bind fun _ _ hs =>
        .pure (corresponds_forLoop hfirst hcondition hlast hs)

/-- An `else` follows in both or in neither. -/
theorem mirror_ifStatement :
    Mirror κ (Stmt.Corresponds κ) inner.ifStatement inner.ifStatement :=
  (mirror_expectMark _ _).bind fun _ _ _ => (mirror_assignment h).bind fun _ _ hc =>
    (mirror_expectMark _ _).bind fun _ _ _ => h.statement.bind fun _ _ hs =>
      (mirror_acceptKind? _).bind fun _ _ helse => mirror_optional (isSome_iff_of_rel helse)
        h.statement fun _ _ ht => .pure (.ifThen hc hs ht)

/-- The condition, and then the body. -/
theorem mirror_whileStatement :
    Mirror κ (Stmt.Corresponds κ) inner.whileStatement inner.whileStatement :=
  (mirror_expectMark _ _).bind fun _ _ _ => (mirror_assignment h).bind fun _ _ hc =>
    (mirror_expectMark _ _).bind fun _ _ _ => h.statement.bind fun _ _ hs =>
      .pure (.whileDo hc hs)

/-- The first token decides on the kind of statement. -/
theorem mirror_afterStatementStart (hl : κ.line l l') (start : StatementStart) :
    Mirror κ (Stmt.Corresponds κ) (inner.afterStatementStart l start)
      (inner.afterStatementStart l' start) := by
  cases start with
  | forLoop => exact mirror_forStatement h
  | ifThen => exact mirror_ifStatement h
  | print => exact mirror_printStatement h
  | block => exact (mirror_block h).bind fun _ _ hbody => .pure (.block hbody)
  | returnValue => exact mirror_returnStatement h hl
  | whileLoop => exact mirror_whileStatement h

/-- All kinds of statements. -/
theorem mirror_statementRule :
    Mirror κ (Stmt.Corresponds κ) inner.statementRule inner.statementRule := by
  refine (mirror_accept? _).bind fun found found' hfound => ?_
  obtain ⟨rfl, rfl⟩ | ⟨start, l, l', rfl, rfl, hl⟩ := cases_of_accepted hfound
  · exact mirror_expressionStatement h
  · exact mirror_afterStatementStart h hl start

/-- A name, parameters and a body. -/
theorem mirror_function (kind : FunctionKind) :
    Mirror κ (FunctionDecl.Corresponds κ) (inner.function kind) (inner.function kind) :=
  (mirror_expectName _).bind fun _ _ hx => (mirror_expectMark _ _).bind fun _ _ _ =>
    mirror_parameters.bind fun _ _ hxs => (mirror_expectMark _ _).bind fun _ _ _ =>
      (mirror_block h).bind fun _ _ hbody => .pure ⟨hx, hxs, hbody⟩

/-- Methods and static methods are sorted in the same way. -/
theorem mirror_methods (fuel : Nat) :
    Mirror κ (fun ms ms' => List.Forall₂ (FunctionDecl.Corresponds κ) ms.1 ms'.1 ∧
      List.Forall₂ (FunctionDecl.Corresponds κ) ms.2 ms'.2) (inner.methods fuel)
      (inner.methods fuel) := by
  induction fuel with
  | zero => exact .pure ⟨.nil, .nil⟩
  | succ fuel ih =>
    refine mirror_atEnd.bind_same fun b => .ite Iff.rfl (.pure ⟨.nil, .nil⟩) ?_
    refine (mirror_isNext _).bind_same fun b => .ite Iff.rfl (.pure ⟨.nil, .nil⟩) ?_
    refine (mirror_acceptKind? _).bind fun _ _ hstatic => (mirror_function h _).bind
      fun _ _ hf => ih.bind fun ms ms' hms => ?_
    exact .ite (isSome_iff_of_rel hstatic) (.pure ⟨hms.1, .cons hf hms.2⟩)
      (.pure ⟨.cons hf hms.1, hms.2⟩)

omit h in
/-- A superclass is named in both or in neither. -/
theorem mirror_superclass :
    Mirror κ (Option.Rel (VariableUse.Corresponds κ)) superclass superclass :=
  (mirror_acceptKind? _).bind fun _ _ hless => .ite (isSome_iff_of_rel hless)
    ((mirror_expectName _).bind fun _ _ hx => mirror_freshUse.bind fun _ _ hi =>
      .pure (.some ⟨hi, hx⟩)) (.pure .none)

/-- A name, perhaps a superclass, and methods. -/
theorem mirror_classDeclaration :
    Mirror κ (Stmt.Corresponds κ) inner.classDeclaration inner.classDeclaration := by
  refine (mirror_expectName _).bind fun _ _ hx => mirror_superclass.bind fun _ _ hparent =>
    (mirror_expectMark _ _).bind fun _ _ _ => mirror_bound.bind_same fun n => ?_
  exact (mirror_methods h n).bind fun _ _ hms => (mirror_expectMark _ _).bind fun _ _ _ =>
    .pure (.classDecl hx hparent hms.1 hms.2)

/-- All kinds of declarations. -/
theorem mirror_declarationRule :
    Mirror κ (Stmt.Corresponds κ) inner.declarationRule inner.declarationRule := by
  refine (mirror_acceptKind? _).bind fun _ _ hclass => .ite (isSome_iff_of_rel hclass)
    (mirror_classDeclaration h) ?_
  refine mirror_acceptFunction.bind_same fun b => .ite Iff.rfl
    ((mirror_function h _).bind fun _ _ hf => .pure (.function hf)) ?_
  exact (mirror_acceptKind? _).bind fun _ _ hvar => .ite (isSome_iff_of_rel hvar)
    (mirror_varDeclaration h) (mirror_statementRule h)

/-- Recovery skips the same tokens. -/
theorem mirror_recovering :
    Mirror κ (Option.Rel (Stmt.Corresponds κ)) inner.recovering inner.recovering := by
  intro s s' hs
  have hrule := mirror_declarationRule h s s' hs
  unfold recovering
  generalize inner.declarationRule s = r at hrule
  generalize inner.declarationRule s' = r' at hrule
  cases hrule with
  | ok hd hs => exact .ok (.some hd) hs
  | @error e _ _ _ he hs =>
    subst he
    cases e with
    | mistake =>
      exact (mirror_recover.bind_same fun _ => .pure .none :
        Mirror κ (Option.Rel (Stmt.Corresponds κ)) _ _) _ _ hs
    | tooDeep => exact .error rfl hs

end Statements

/-!
## Programs

Induction on the levels of nesting ties the knot. Both parsers may enter loops as often, since there
are as many tokens.
-/

/-- All rules mirror themselves, at every depth. -/
theorem mirror_grammar (depth : Nat) : (grammar depth).Mirror κ := by
  induction depth with
  | zero => exact ⟨.throw rfl, .throw rfl, .throw rfl, .throw rfl⟩
  | succ depth ih =>
    exact ⟨mirror_recovering ih, mirror_statementRule ih, mirror_assignment ih,
      mirror_unaryExpr ih⟩

/-- The declarations of a program. -/
theorem mirror_program {rules : Nested} (h : rules.Mirror κ) (fuel : Nat) :
    Mirror κ (List.Forall₂ (Stmt.Corresponds κ)) (program rules fuel) (program rules fuel) := by
  induction fuel with
  | zero => exact .pure .nil
  | succ fuel ih =>
    intro s s' hs
    -- Both sides stop together, since their rests are equally long.
    have hempty : s.rest.isEmpty = s'.rest.isEmpty := by
      have hrest := hs.rest
      generalize s.rest = rest at hrest
      generalize s'.rest = rest' at hrest
      cases hrest <;> rfl
    unfold program
    rw [hempty]
    split
    · exact .ok .nil hs
    · have hfirst := h.declaration s s' hs
      generalize rules.declaration s = r at hfirst
      generalize rules.declaration s' = r' at hfirst
      cases hfirst with
      | ok hfirst hs =>
        have hothers := ih _ _ hs
        dsimp only
        generalize program rules fuel _ = r at hothers
        generalize program rules fuel _ = r' at hothers
        cases hothers with
        | ok hothers hs => exact .ok (List.rel_append (forall₂_optional hfirst) hothers) hs
        | error he hs => exact .error he hs
      -- The report for too deep a nesting stands at corresponding places.
      | error _ hs =>
        exact (mirror_here.bind fun _ _ hp => (mirror_report hp _).bind_same fun _ => .pure .nil :
          Mirror κ (List.Forall₂ (Stmt.Corresponds κ)) _ _) _ _ hs

/-- What parsing gives, up to lines and numbers. -/
structure Parsed.Corresponds (κ : Correspondence) (p p' : Parsed) : Prop where
  statements : List.Forall₂ (Stmt.Corresponds κ) p.statements p'.statements
  reports : List.Forall₂ (Report.Corresponds κ) p.reports p'.reports
  nextUse : ∀ k, κ.use (p.nextUse + k) (p'.nextUse + k)

/-- **Parsing looks at the kinds of tokens only.** Lines and numbers go into trees and reports as
they are. -/
theorem parse_corresponds (depth : Nat) {firstUse firstUse' : Nat} {l l' : Lexed}
    (h : l.Corresponds κ l') (huse : ∀ k, κ.use (firstUse + k) (firstUse' + k)) :
    (parse depth firstUse l).Corresponds κ (parse depth firstUse' l') := by
  unfold parse
  have hlength := h.tokens.length_eq
  have hends := mirror_program (mirror_grammar depth) (l.tokens.length + 1)
    ⟨l.tokens, l.endLine, [], firstUse, l.tokens.length + 1⟩
    ⟨l'.tokens, l'.endLine, [], firstUse', l.tokens.length + 1⟩
    ⟨h.tokens, h.endLine, .nil, huse, rfl⟩
  dsimp only
  -- There are as many tokens in both, so both have the same bound.
  rw [← hlength]
  generalize program _ _ _ = r at hends
  generalize program _ _ _ = r' at hends
  cases hends with
  | ok hss hs => exact ⟨hss, hs.reports, hs.nextUse⟩
  | error _ hs => exact ⟨.nil, hs.reports, hs.nextUse⟩

end LoxLang
