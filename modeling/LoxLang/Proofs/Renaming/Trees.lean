import LoxLang.Proofs.Renaming

/-!
# Trees with other names

How a tree is renamed depends on the names that occur in it only (`stmtsRename_congr`), so where the
new name does not occur, replacing the old name comes to exchanging the two. An exchange is the
easier one to reason about, since no two names become one. Where nothing is chosen and no scope
around is marked, a tree stays as it is (`stmtsRename_none`).
-/

namespace LoxLang

variable {ρ ρ' : Renaming} {S : List Scope} {marks : List Bool} {c : Choice}

/-!
## Renamings that agree

How a tree is renamed is decided at its occurrences. So two renamings that agree on all of them give
the same tree. The proofs go along the trees and the occurrences together.
-/

/-- Two renamings do the same with an occurrence. -/
def Occurrence.Agrees (ρ ρ' : Renaming) : Occurrence → Prop
  | use v => ρ.distance? v.id = ρ'.distance? v.id ∧
    (v.kind = .«variable» ∨ v.kind = .assignment → ρ.names v.name = ρ'.names v.name)
  | declaration x _ => ρ.names x = ρ'.names x
  | body _ | subclass _ _ | initializer _ _ _ => True

/-- Something holds of everything that is met. -/
def Throughout (P : Occurrence → Prop) (os : List Occurrence) : Prop := ∀ o ∈ os, P o

namespace Throughout

variable {P : Occurrence → Prop} {o : Occurrence} {os os' : List Occurrence}

theorem left (h : Throughout P (os ++ os')) : Throughout P os :=
  fun o ho => h o (List.mem_append_left os' ho)

theorem right (h : Throughout P (os ++ os')) : Throughout P os' :=
  fun o ho => h o (List.mem_append_right os ho)

theorem head (h : Throughout P (o :: os)) : P o := h o List.mem_cons_self

theorem tail (h : Throughout P (o :: os)) : Throughout P os :=
  fun o ho => h o (List.mem_cons_of_mem _ ho)

end Throughout

/-- Two renamings do the same with everything that is met. -/
abbrev Renaming.AgreeOn (ρ ρ' : Renaming) : List Occurrence → Prop :=
  Throughout (Occurrence.Agrees ρ ρ')

open Renaming (AgreeOn)

namespace Renaming

/-- A name that both rename in the same way. -/
theorem name_congr {x : Name} (h : ρ.names x.text = ρ'.names x.text) (moved : Bool) :
    ρ.name moved x = ρ'.name moved x := by
  unfold name text
  rw [h]

/-- A use is found in the same scope under both. -/
theorem moves_congr {id : UseId} (h : ρ.distance? id = ρ'.distance? id) :
    ρ.moves marks id = ρ'.moves marks id := by
  unfold moves
  rw [h]

/-- So its name changes under both, or under neither. -/
theorem use_congr {u : VariableUse}
    (h : (Occurrence.use ⟨.«variable», u.name.text, u.name.line, u.id, S⟩).Agrees ρ ρ') :
    ρ.use marks u = ρ'.use marks u := by
  obtain ⟨hdistance, hname⟩ := h
  unfold use
  rw [moves_congr hdistance, name_congr (hname (.inl rfl))]

/-- Parameters are declarations. -/
theorem params_congr {params : List Name} (h : AgreeOn ρ ρ' (parameterOccurrences S params))
    (moved : Bool) : params.map (ρ.name moved) = params.map (ρ'.name moved) := by
  induction params generalizing S with
  | nil => rfl
  | cons x params ih =>
    rw [List.map_cons, List.map_cons, name_congr h.head, ih h.tail]

end Renaming

/-- A function or class that enters the scope of a statement is met as a declaration. -/
theorem Stmt.declaration_of_mem_titles {s : Stmt} {x : String} (h : x ∈ s.titles) (S : List Scope) :
    ∃ S', .declaration x S' ∈ s.occurrences S := by
  cases s with
  | function f =>
    rw [List.mem_singleton.mp h]
    exact ⟨S, List.mem_cons_self⟩
  | classDecl name parent methods statics =>
    rw [List.mem_singleton.mp h]
    exact ⟨S, List.mem_cons_self⟩
  | whileDo condition s =>
    obtain ⟨S', hmem⟩ := declaration_of_mem_titles (s := s) h S
    exact ⟨S', List.mem_append_right _ (List.mem_cons_of_mem _ hmem)⟩
  | ifThen condition s alternative =>
    cases alternative with
    | none =>
      obtain ⟨S', hmem⟩ := declaration_of_mem_titles (s := s) h S
      exact ⟨S', List.mem_append_right _ (List.mem_cons_of_mem _ hmem)⟩
    | some t =>
      rw [titles] at h
      rcases List.mem_append.mp h with h | h
      · obtain ⟨S', hmem⟩ := declaration_of_mem_titles h S
        exact ⟨S', List.mem_append_right _ (List.mem_cons_of_mem _ (List.mem_append_left _ hmem))⟩
      · obtain ⟨S', hmem⟩ := declaration_of_mem_titles h S
        exact ⟨S', List.mem_append_right _ (List.mem_cons_of_mem _
          (List.mem_append_right _ (List.mem_cons_of_mem _ hmem)))⟩
  -- No other statement has titles. What a block declares is not a title of the block.
  | _ => cases h
termination_by structural s

/-- What statements declare is among the occurrences. -/
theorem declaration_of_mem_titles {ss : List Stmt} {x : String}
    (h : x ∈ ss.flatMap Stmt.titles) (S : List Scope) :
    ∃ S', .declaration x S' ∈ stmtsOccurrences S ss := by
  induction ss generalizing S with
  | nil => cases h
  | cons s ss ih =>
    rw [List.flatMap_cons] at h
    rcases List.mem_append.mp h with h | h
    · obtain ⟨S', hmem⟩ := s.declaration_of_mem_titles h S
      exact ⟨S', List.mem_append_left _ hmem⟩
    · obtain ⟨S', hmem⟩ := ih h (s.scopesAfter S)
      exact ⟨S', List.mem_append_right _ hmem⟩

/-- Whether a scope is marked depends on what is declared in it. -/
theorem Renaming.mark_congr {body : List Stmt} (h : AgreeOn ρ ρ' (stmtsOccurrences S body)) :
    ρ.mark c body = ρ'.mark c body := by
  have hall : ∀ x ∈ body.flatMap Stmt.titles, (ρ.names x == x) = (ρ'.names x == x) := by
    intro x hx
    obtain ⟨S', hmem⟩ := declaration_of_mem_titles hx S
    have hname : ρ.names x = ρ'.names x := h _ hmem
    rw [hname]
  unfold mark
  rw [Bool.eq_iff_iff, Bool.and_eq_true, Bool.and_eq_true, List.all_eq_true, List.all_eq_true]
  refine and_congr_right fun _ => forall₂_congr fun x hx => ?_
  rw [hall x hx]

mutual

/-- Expressions. -/
theorem Expr.rename_congr {e : Expr} {S : List Scope} {marks : List Bool} {c : Choice}
    (h : AgreeOn ρ ρ' (e.occurrences S)) : e.rename ρ marks c = e.rename ρ' marks c := by
  cases e with
  | literal value | this id line | super id line x => rfl
  | grouping e | unary op line e | get e x =>
    rw [Expr.occurrences] at h
    rw [Expr.rename, Expr.rename, e.rename_congr h]
  | binary op line left right | logical op line left right =>
    rw [Expr.occurrences] at h
    rw [Expr.rename, Expr.rename, left.rename_congr h.left, right.rename_congr h.right]
  | «variable» u =>
    rw [Expr.occurrences] at h
    rw [Expr.rename, Expr.rename, Renaming.use_congr h.head]
  | assign id x e =>
    rw [Expr.occurrences] at h
    -- The occurrence of the target stands behind those of the value.
    obtain ⟨hdistance, hname⟩ := h.right.head
    dsimp only at hdistance
    rw [Expr.rename, Expr.rename, e.rename_congr h.left, Renaming.moves_congr hdistance,
      Renaming.name_congr (hname (.inr rfl))]
  | call callee line arguments =>
    rw [Expr.occurrences] at h
    rw [Expr.rename, Expr.rename, callee.rename_congr h.left, exprsRename_congr h.right]
  | set e x v =>
    rw [Expr.occurrences] at h
    rw [Expr.rename, Expr.rename, e.rename_congr h.right, v.rename_congr h.left]
  | lambda line params body =>
    rw [Expr.occurrences] at h
    rw [Expr.rename, Expr.rename, Renaming.mark_congr h.right, Renaming.params_congr h.left,
      stmtsRename_congr h.right]
termination_by structural e

/-- Statements. -/
theorem Stmt.rename_congr {s : Stmt} {S : List Scope} {marks : List Bool} {c : Choice}
    (h : AgreeOn ρ ρ' (s.occurrences S)) : s.rename ρ marks c = s.rename ρ' marks c := by
  cases s with
  | expression e | print e =>
    rw [Stmt.occurrences] at h
    rw [Stmt.rename, Stmt.rename, e.rename_congr h]
  | var x initializer =>
    cases initializer with
    | none =>
      rw [Stmt.occurrences] at h
      rw [Stmt.rename, Stmt.rename, Renaming.name_congr h.head]
    | some e =>
      rw [Stmt.occurrences] at h
      rw [Stmt.rename, Stmt.rename, Renaming.name_congr h.head, e.rename_congr h.tail.tail]
  -- The mark of a scope depends on the declarations in it only, on which both renamings agree.
  | block body =>
    rw [Stmt.occurrences] at h
    rw [Stmt.rename, Stmt.rename, Renaming.mark_congr h, stmtsRename_congr h]
  | ifThen condition s alternative =>
    cases alternative with
    | none =>
      rw [Stmt.occurrences] at h
      rw [Stmt.rename, Stmt.rename, condition.rename_congr h.left, s.rename_congr h.right.tail]
    | some t =>
      rw [Stmt.occurrences] at h
      have hbranches : AgreeOn ρ ρ' (s.occurrences S ++ .body t :: t.occurrences S) := h.right.tail
      rw [Stmt.rename, Stmt.rename, condition.rename_congr h.left, s.rename_congr hbranches.left,
        t.rename_congr hbranches.right.tail]
  | whileDo condition s =>
    rw [Stmt.occurrences] at h
    rw [Stmt.rename, Stmt.rename, condition.rename_congr h.left, s.rename_congr h.right.tail]
  | function f =>
    rw [Stmt.occurrences] at h
    rw [Stmt.rename, Stmt.rename, f.rename_congr h.tail]
  | returnValue line value =>
    cases value with
    | none => rfl
    | some e =>
      rw [Stmt.occurrences] at h
      rw [Stmt.rename, Stmt.rename, e.rename_congr h]
  | classDecl x parent methods statics =>
    rw [Stmt.occurrences] at h
    have hrest := h.tail.right
    rw [Stmt.rename, Stmt.rename, functionsRename_congr hrest.left,
      functionsRename_congr hrest.right]
    cases parent with
    | none => rfl
    -- The use of the superclass comes right behind the name of the class.
    | some u =>
      have huse := h.tail.left.tail.head
      rw [Option.map_some, Option.map_some, Renaming.use_congr huse]
termination_by structural s

/-- Functions, with their parameters. -/
theorem FunctionDecl.rename_congr {f : FunctionDecl} {S : List Scope} {marks : List Bool}
    {c : Choice} (h : AgreeOn ρ ρ' (f.occurrences S)) :
    f.rename ρ marks c = f.rename ρ' marks c := by
  obtain ⟨x, params, body⟩ := f
  rw [FunctionDecl.occurrences] at h
  rw [FunctionDecl.rename, FunctionDecl.rename, Renaming.mark_congr h.right,
    Renaming.params_congr h.left, stmtsRename_congr h.right]
termination_by structural f

/-- Lists of expressions. -/
theorem exprsRename_congr {es : List Expr} {S : List Scope} {marks : List Bool} {c : Choice}
    (h : AgreeOn ρ ρ' (exprsOccurrences S es)) :
    exprsRename ρ marks c es = exprsRename ρ' marks c es := by
  cases es with
  | nil => rfl
  | cons e es =>
    rw [exprsOccurrences] at h
    rw [exprsRename, exprsRename, e.rename_congr h.left, exprsRename_congr h.right]
termination_by structural es

/-- Lists of statements, and so programs. -/
theorem stmtsRename_congr {ss : List Stmt} {S : List Scope} {marks : List Bool} {c : Choice}
    (h : AgreeOn ρ ρ' (stmtsOccurrences S ss)) :
    stmtsRename ρ marks c ss = stmtsRename ρ' marks c ss := by
  cases ss with
  | nil => rfl
  | cons s ss =>
    rw [stmtsOccurrences] at h
    rw [stmtsRename, stmtsRename, s.rename_congr h.left, stmtsRename_congr h.right]
termination_by structural ss

/-- The members of a class. -/
theorem functionsRename_congr {fs : List FunctionDecl} {S : List Scope} {marks : List Bool}
    {c : Choice} (h : AgreeOn ρ ρ' (functionsOccurrences S fs)) :
    functionsRename ρ marks c fs = functionsRename ρ' marks c fs := by
  cases fs with
  | nil => rfl
  | cons f fs =>
    rw [functionsOccurrences] at h
    rw [functionsRename, functionsRename, f.rename_congr h.left, functionsRename_congr h.right]
termination_by structural fs

end

/-!
## Renaming nothing

Where nothing is chosen and no scope around is marked, no use is found in a marked scope.
-/

/-- No scope around is marked. -/
def Unmarked (marks : List Bool) : Prop := ∀ b ∈ marks, b = false

namespace Renaming

/-- No use changes its name. -/
theorem moves_of_unmarked (h : Unmarked marks) (id : UseId) : ρ.moves marks id = false := by
  unfold moves
  cases hmark : (ρ.distance? id).bind (marks[·]?) with
  | none => rfl
  | some b =>
    obtain ⟨d, -, hd⟩ := Option.bind_eq_some_iff.mp hmark
    exact h b (List.mem_of_getElem? hd)

@[simp]
theorem mark_none (body : List Stmt) : ρ.mark .none body = false := rfl

/-- No variable does, either. -/
theorem use_of_unmarked (h : Unmarked marks) (u : VariableUse) : ρ.use marks u = u := by
  unfold use
  rw [moves_of_unmarked h, name_false]

/-- Parameters of a function that is not chosen. -/
theorem params_false (params : List Name) : params.map (ρ.name false) = params :=
  List.map_id' params

end Renaming

/-- One more scope without a mark. -/
theorem Unmarked.cons (h : Unmarked marks) : Unmarked (false :: marks) :=
  List.forall_mem_cons.mpr ⟨rfl, h⟩

/-- The scopes for `super` and `this` have no marks. -/
theorem Unmarked.methodMarks (h : Unmarked marks) (parent : Option VariableUse) :
    Unmarked (methodMarks marks parent) := by
  cases parent with
  | none => exact h.cons
  | some u => exact h.cons.cons

theorem Unmarked.headD (h : Unmarked marks) : marks.headD false = false := by
  cases marks with
  | nil => rfl
  | cons b marks => exact h b List.mem_cons_self

mutual

/-- Expressions. -/
theorem Expr.rename_none {e : Expr} {marks : List Bool} (h : Unmarked marks) :
    e.rename ρ marks .none = e := by
  cases e with
  | literal value | this id line | super id line x => rfl
  | grouping e | unary op line e | get e x => rw [Expr.rename, Choice.part_none, e.rename_none h]
  | binary op line left right | logical op line left right =>
    rw [Expr.rename, Choice.part_none, Choice.part_none, left.rename_none h, right.rename_none h]
  | «variable» u => rw [Expr.rename, Renaming.use_of_unmarked h]
  | assign id x e =>
    rw [Expr.rename, Choice.part_none, e.rename_none h, Renaming.moves_of_unmarked h,
      Renaming.name_false]
  | call callee line arguments =>
    rw [Expr.rename, Choice.part_none, Choice.rest_none, callee.rename_none h, exprsRename_none h]
  | set e x v =>
    rw [Expr.rename, Choice.part_none, Choice.part_none, e.rename_none h, v.rename_none h]
  | lambda line params body =>
    rw [Expr.rename, Renaming.mark_none, Renaming.params_false, stmtsRename_none h.cons]
termination_by structural e

/-- Statements. -/
theorem Stmt.rename_none {s : Stmt} {marks : List Bool} (h : Unmarked marks) :
    s.rename ρ marks .none = s := by
  cases s with
  | expression e | print e => rw [Stmt.rename, Choice.part_none, e.rename_none h]
  | var x initializer =>
    cases initializer with
    | none => rw [Stmt.rename, h.headD, Renaming.name_false]
    | some e => rw [Stmt.rename, h.headD, Renaming.name_false, Choice.part_none, e.rename_none h]
  | block body => rw [Stmt.rename, Renaming.mark_none, stmtsRename_none h.cons]
  | ifThen condition s alternative =>
    cases alternative with
    | none =>
      rw [Stmt.rename, Choice.part_none, Choice.part_none, condition.rename_none h, s.rename_none h]
    | some t =>
      rw [Stmt.rename, Choice.part_none, Choice.part_none, Choice.part_none,
        condition.rename_none h, s.rename_none h, t.rename_none h]
  | whileDo condition s =>
    rw [Stmt.rename, Choice.part_none, Choice.part_none, condition.rename_none h, s.rename_none h]
  | function f => rw [Stmt.rename, f.rename_none h]
  | returnValue line value =>
    cases value with
    | none => rfl
    | some e => rw [Stmt.rename, Choice.part_none, e.rename_none h]
  | classDecl x parent methods statics =>
    rw [Stmt.rename, Choice.part_none, Choice.part_none,
      functionsRename_none (h.methodMarks parent), functionsRename_none h]
    cases parent with
    | none => rfl
    | some u => rw [Option.map_some, Renaming.use_of_unmarked h]
termination_by structural s

/-- Functions. -/
theorem FunctionDecl.rename_none {f : FunctionDecl} {marks : List Bool} (h : Unmarked marks) :
    f.rename ρ marks .none = f := by
  obtain ⟨x, params, body⟩ := f
  rw [FunctionDecl.rename, Renaming.mark_none, Renaming.params_false, stmtsRename_none h.cons]
termination_by structural f

theorem exprsRename_none {es : List Expr} {marks : List Bool} (h : Unmarked marks) :
    exprsRename ρ marks .none es = es := by
  cases es with
  | nil => rfl
  | cons e es =>
    rw [exprsRename, Choice.part_none, Choice.rest_none, e.rename_none h, exprsRename_none h]
termination_by structural es

/-- Lists of statements. -/
theorem stmtsRename_none {ss : List Stmt} {marks : List Bool} (h : Unmarked marks) :
    stmtsRename ρ marks .none ss = ss := by
  cases ss with
  | nil => rfl
  | cons s ss =>
    rw [stmtsRename, Choice.part_none, Choice.rest_none, s.rename_none h, stmtsRename_none h]
termination_by structural ss

theorem functionsRename_none {fs : List FunctionDecl} {marks : List Bool} (h : Unmarked marks) :
    functionsRename ρ marks .none fs = fs := by
  cases fs with
  | nil => rfl
  | cons f fs =>
    rw [functionsRename, Choice.part_none, Choice.rest_none, f.rename_none h,
      functionsRename_none h]
termination_by structural fs

end

end LoxLang
