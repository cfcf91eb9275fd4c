import LoxLang.Proofs.Placement.Walk
import LoxLang.Proofs.Receivers

/-!
# Parameters with different names

In a program that is accepted the parameters of each function have different names: they stand at
sites of the tree one after the other, and each is in scope at the next. So the frame of a call
holds a binding for each parameter, in their order, and loses no argument to a later one.
-/

namespace LoxLang

/-!
## Where parameters stand

By recursion on the tree: the functions of a text and its sites are listed along the same way, so
each function has its parameters among the sites.
-/

/-- The parameters of a function. -/
def FunctionText.params : FunctionText → List Name
  | named f | method f | staticMethod f => f.params
  | lambda params _ => params

/-- The parameters of some functions stand at sites among some. -/
def ParametersAt (fs : List FunctionText) (ps : List Site) : Prop :=
  ∀ f ∈ fs, ∃ role L, parameterSites role L [] f.params ⊆ ps

namespace ParametersAt

variable {fs gs : List FunctionText} {ps qs : List Site}

theorem nil : ParametersAt [] ps := fun _ hf => by cases hf

theorem mono (h : ParametersAt fs ps) (hps : ps ⊆ qs) : ParametersAt fs qs := by
  intro f hf
  obtain ⟨role, L, hsites⟩ := h f hf
  exact ⟨role, L, List.Subset.trans hsites hps⟩

theorem append (h : ParametersAt fs ps) (h' : ParametersAt gs qs) :
    ParametersAt (fs ++ gs) (ps ++ qs) := by
  intro f hf
  rcases List.mem_append.mp hf with hf | hf
  · exact h.mono (List.subset_append_left ps qs) f hf
  · exact h'.mono (List.subset_append_right ps qs) f hf

/-- A function, and those in its body. -/
theorem function {f : FunctionText} {params : List Name} (hparams : f.params = params)
    (role : Role) (L : List Layer) (h : ParametersAt fs ps) :
    ParametersAt (f :: fs) (parameterSites role L [] params ++ ps) := by
  intro g hg
  rcases List.mem_cons.mp hg with rfl | hg
  · exact ⟨role, L, hparams ▸ List.subset_append_left _ ps⟩
  · exact h.mono (List.subset_append_right _ ps) g hg

theorem cons (h : ParametersAt fs ps) (p : Site) : ParametersAt fs (p :: ps) :=
  h.mono (List.subset_cons_self p ps)

end ParametersAt

mutual

theorem Expr.parametersAt (L : List Layer) : ∀ e : Expr, ParametersAt e.functions (e.sites L)
  | .literal _ => .nil
  | .grouping e => e.parametersAt L
  | .unary _ _ e => e.parametersAt L
  | .binary _ _ left right => (left.parametersAt L).append (right.parametersAt L)
  | .logical _ _ left right => (left.parametersAt L).append (right.parametersAt L)
  | .«variable» _ => .nil
  | .assign _ _ value => (value.parametersAt L).mono (List.subset_append_left _ _)
  | .call callee _ arguments => (callee.parametersAt L).append (exprs_parametersAt L arguments)
  | .get object _ => object.parametersAt L
  | .set object _ value => (value.parametersAt L).append (object.parametersAt L)
  | .lambda _ _ body => .function rfl _ _ (stmts_parametersAt _ body)
  | .this _ _ => .nil
  | .super _ _ _ => .nil

theorem Stmt.parametersAt (L : List Layer) : ∀ s : Stmt, ParametersAt s.functions (s.sites L)
  | .expression e => e.parametersAt _
  | .print e => e.parametersAt _
  | .var _ none => .nil
  | .var _ (some e) =>
    (((e.parametersAt _).mono (List.subset_append_left _ _)).cons _).cons _
  | .block body => stmts_parametersAt _ body
  | .ifThen condition s none => (condition.parametersAt _).append (s.parametersAt _)
  | .ifThen condition s (some t) =>
    (condition.parametersAt _).append ((s.parametersAt _).append (t.parametersAt _))
  | .whileDo condition s => (condition.parametersAt _).append (s.parametersAt _)
  | .function f => (f.parametersAt (.named f) rfl _ _).cons _
  | .returnValue _ none => .nil
  | .returnValue _ (some e) => (e.parametersAt _).cons _
  | .classDecl _ _ methods staticMethods =>
    (((members_parametersAt .staticMethod (fun _ => rfl) _ _ staticMethods).append
      (members_parametersAt .method (fun _ => rfl) _ _ methods)).mono
        (List.subset_append_right _ _)).cons _

theorem FunctionDecl.parametersAt : ∀ (d : FunctionDecl) (f : FunctionText),
    f.params = d.params → ∀ (role : Role) (L : List Layer),
      ParametersAt (f :: d.functions) (d.sites role L)
  | ⟨_, _, body⟩, _, hparams, role, L => .function hparams role L (stmts_parametersAt _ body)

theorem exprs_parametersAt (L : List Layer) :
    ∀ es : List Expr, ParametersAt (exprsFunctions es) (exprsSites L es)
  | [] => .nil
  | e :: es => (e.parametersAt L).append (exprs_parametersAt L es)

theorem stmts_parametersAt (L : List Layer) :
    ∀ ss : List Stmt, ParametersAt (stmtsFunctions ss) (stmtsSites L ss)
  | [] => .nil
  | s :: ss => (s.parametersAt L).append (stmts_parametersAt (layersBehind s L) ss)

theorem members_parametersAt (kind : FunctionDecl → FunctionText)
    (hkind : ∀ d, (kind d).params = d.params) (role : String → Role) (L : List Layer) :
    ∀ ds : List FunctionDecl, ParametersAt (functionsIn kind ds) (membersSites role L ds)
  | [] => .nil
  | d :: ds => ((d.parametersAt (kind d) (hkind d) _ L).append
      (members_parametersAt kind hkind role L ds)).cons _

end

/-!
## Names that are declared once

A name that is declared again in its layer is reported. Where nothing is reported, each parameter is
therefore none of those before it.
-/

/-- Where nothing is reported, no site declares a name that is in its scope already. -/
theorem fresh_of_reportsAt {initializing : List String} {ps : List Site}
    (h : reportsAt initializing ps = []) {L : List Layer} {x : Name}
    (hmem : ⟨L, .declaration x⟩ ∈ ps) : ∀ l ∈ L.head?, x.text ∉ l.names := by
  induction ps generalizing initializing with
  | nil => cases hmem
  | cons p ps ih =>
    obtain ⟨hhere, hrest⟩ := List.append_eq_nil_iff.mp h
    rcases List.mem_cons.mp hmem with rfl | hmem
    · intro l hl hx
      have hreported : L.head?.any (x.text ∈ ·.names) = true := by
        rw [Option.mem_def.mp hl]
        exact decide_eq_true hx
      simp [Site.reports, Site.errors, hreported] at hhere
    · exact ih hrest hmem

/-- Parameters that are each fresh at their sites have different names. -/
theorem nodup_of_fresh {role : Role} {L : List Layer} {seen xs : List Name}
    (h : ∀ M x, ⟨M, .declaration x⟩ ∈ parameterSites role L seen xs →
      ∀ l ∈ M.head?, x.text ∉ l.names)
    (hseen : (seen.map (·.text)).Nodup) : ((seen ++ xs).map (·.text)).Nodup := by
  induction xs generalizing seen with
  | nil => rwa [List.append_nil]
  | cons x xs ih =>
    rw [List.append_cons]
    refine ih (fun M y hy => h M y (List.mem_cons_of_mem _ hy)) ?_
    -- The layer in which a parameter is declared has the names of those before it.
    have hx : x.text ∉ (Layer.atStart (.function role seen)).names :=
      h _ x List.mem_cons_self _ rfl
    have hnames : (Layer.atStart (.function role seen)).names = seen.map (·.text) := by
      simp [Layer.names, Layer.atStart, Layer.declaredNames]
    rw [hnames] at hx
    rw [List.map_append, List.nodup_append]
    refine ⟨hseen, by simp, fun y hy z hz heq => hx ?_⟩
    obtain rfl : z = x.text := List.mem_singleton.mp hz
    exact heq ▸ hy

/-- In a program that is resolved without a report, the parameters of each function have different
names. -/
theorem distinct_parameters {depth endLine : Nat} {program : List Stmt}
    (hwritten : ∀ o ∈ stmtsOccurrences [] program, o.Written)
    (hreports : (resolve depth endLine program).reports = []) {f : FunctionText}
    (hf : f ∈ stmtsFunctions program) : (f.params.map (·.text)).Nodup := by
  have hfinished : (resolve depth endLine program).Finished := fun place => by
    rw [hreports]
    exact List.not_mem_nil
  rw [resolve_of_finished hwritten hfinished] at hreports
  obtain ⟨role, L, hsites⟩ := stmts_parametersAt [.atStart .program] program f hf
  exact nodup_of_fresh (fun M x hmem => fresh_of_reportsAt hreports (hsites hmem)) List.nodup_nil

/-! ## Bindings -/

namespace Bindings

variable {α : Type}

theorem insert_of_not_mem {bs : Bindings α} {name : String} (h : name ∉ bs.map (·.1)) (a : α) :
    bs.insert name a = bs ++ [(name, a)] := by
  induction bs with
  | nil => rfl
  | cons b bs ih =>
    obtain ⟨hne, hrest⟩ := not_or.mp (fun h' => h (List.mem_cons.mpr h'))
    obtain ⟨key, b⟩ := b
    rw [insert, if_neg (Ne.symm hne), ih hrest]
    rfl

/-- Binding different names anew loses none of them, and keeps their order. -/
theorem insertMany_of_nodup {bs : Bindings α} {more : List (String × α)}
    (h : ((bs ++ more).map (·.1)).Nodup) : bs.insertMany more = bs ++ more := by
  induction more generalizing bs with
  | nil => exact (List.append_nil bs).symm
  | cons b more ih =>
    rw [List.append_cons] at h ⊢
    have hfresh : b.1 ∉ bs.map (·.1) := by
      rw [List.map_append, List.map_append] at h
      have hdisjoint := (List.nodup_append.mp (List.nodup_append.mp h).1).2.2
      exact fun hmem => hdisjoint b.1 hmem b.1 List.mem_cons_self rfl
    rw [← ih h, ← insert_of_not_mem hfresh]
    rfl

end Bindings

end LoxLang
