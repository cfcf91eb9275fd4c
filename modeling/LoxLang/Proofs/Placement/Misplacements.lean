import LoxLang.Proofs.Placement.Walk
import LoxLang.Proofs.Scoping.Recovery

/-!
# What is misplaced

Names and keywords that stand where they must not (`Misplaced`), said in terms of the text alone:
of the layers around a site, and of the innermost function body or member of a class among them.
`placement_reported` says that these are reported one for one, in the order of the text, and that
nothing else is reported but variables read in their own initializers.
-/

namespace LoxLang

/-!
## Innermost layers

Two sorts of layers decide about keywords: bodies of functions about `return`, and members of
classes about `this` and `super`. Of each sort only the innermost layer counts.
-/

/-- Whether a layer is the body of a function. -/
def Layer.isBody (l : Layer) : Bool :=
  match l.kind with
  | .function _ _ => true
  | .program | .block => false

/-- The innermost layer of some sort is the body of a function with a role. -/
def Innermost (sort : Layer → Bool) (L : List Layer) (role : Role) : Prop :=
  ∃ inner l outer params, L = inner ++ l :: outer ∧ (∀ k ∈ inner, sort k = false) ∧
    sort l = true ∧ l.kind = .function role params

variable {sort : Layer → Bool} {l : Layer} {L : List Layer} {role : Role}

theorem innermost_cons_of_sort (h : sort l = true) :
    Innermost sort (l :: L) role ↔ ∃ params, l.kind = .function role params := by
  constructor
  · rintro ⟨inner, k, outer, params, heq, hinner, -, hkind⟩
    cases inner with
    | nil =>
      obtain ⟨rfl, -⟩ := List.cons.inj heq
      exact ⟨params, hkind⟩
    | cons k' inner =>
      obtain ⟨rfl, -⟩ := List.cons.inj heq
      exact absurd h (by simp [hinner l List.mem_cons_self])
  · rintro ⟨params, hkind⟩
    exact ⟨[], l, L, params, rfl, nofun, h, hkind⟩

theorem innermost_cons_of_not_sort (h : sort l = false) :
    Innermost sort (l :: L) role ↔ Innermost sort L role := by
  constructor
  · rintro ⟨inner, k, outer, params, heq, hinner, hk, hkind⟩
    cases inner with
    | nil =>
      obtain ⟨rfl, -⟩ := List.cons.inj heq
      exact absurd hk (by simp [h])
    | cons k' inner =>
      obtain ⟨rfl, hL⟩ := List.cons.inj heq
      have hrest := fun j hj => hinner j (List.mem_cons_of_mem l hj)
      exact ⟨inner, k, outer, params, hL, hrest, hk, hkind⟩
  · rintro ⟨inner, k, outer, params, rfl, hinner, hk, hkind⟩
    exact ⟨l :: inner, k, outer, params, rfl, List.forall_mem_cons.mpr ⟨h, hinner⟩, hk, hkind⟩

theorem not_innermost_nil : ¬Innermost sort [] role := by
  rintro ⟨inner, k, outer, params, heq, -⟩
  exact absurd heq.symm (by simp)

/-!
## Contexts in terms of layers

The walk keeps two enumerations that say what it is in. Here each of their values is said in terms
of the innermost layer of the sort that decides.
-/

theorem Role.context_ne_none (role : Role) : role.context ≠ .none := by
  unfold context
  split <;> simp

theorem Role.context_eq_initializer {role : Role} :
    role.context = .initializer ↔ ∃ subclass, role = .method true subclass := by
  unfold context
  split <;> simp

theorem functionContext_eq_none : functionContext L = .none ↔ ∀ l ∈ L, l.isBody = false := by
  induction L with
  | nil => simp [functionContext]
  | cons l L ih =>
    rw [List.forall_mem_cons, ← ih]
    cases hkind : l.kind with
    | function role params =>
      simp [functionContext, Layer.isBody, hkind, Role.context_ne_none]
    | program | block => simp [functionContext, Layer.isBody, hkind]

theorem functionContext_eq_initializer : functionContext L = .initializer ↔
    ∃ subclass, Innermost Layer.isBody L (.method true subclass) := by
  induction L with
  | nil => simp [functionContext, not_innermost_nil]
  | cons l L ih =>
    cases hkind : l.kind with
    | function role params =>
      have hbody : l.isBody = true := by simp [Layer.isBody, hkind]
      simp only [innermost_cons_of_sort hbody]
      simp [functionContext, hkind, Role.context_eq_initializer]
    | program | block =>
      have hbody : l.isBody = false := by simp [Layer.isBody, hkind]
      simp only [innermost_cons_of_not_sort hbody, ← ih]
      simp [functionContext, hkind]

/-- What a role means for `this` and `super`, if it is that of a member of a class. -/
def Role.classContext? : Role → Option ClassContext
  | function => none
  | method _ false => some .«class»
  | method _ true => some .subclass
  | staticMethod => some .staticMethod

theorem classContext_eq_none : classContext L = .none ↔ ∀ l ∈ L, l.isMember = false := by
  induction L with
  | nil => simp [classContext]
  | cons l L ih =>
    rw [List.forall_mem_cons, ← ih]
    cases hkind : l.kind with
    | function role params =>
      cases role with
      | function => simp [classContext, Layer.isMember, hkind]
      | method isInitializer subclass =>
        cases subclass <;> simp [classContext, Layer.isMember, hkind]
      | staticMethod => simp [classContext, Layer.isMember, hkind]
    | program | block => simp [classContext, Layer.isMember, hkind]

theorem classContext_eq_of_ne_none {c : ClassContext} (hc : c ≠ .none) : classContext L = c ↔
    ∃ role, Innermost Layer.isMember L role ∧ role.classContext? = some c := by
  induction L with
  | nil => simp [classContext, not_innermost_nil, Ne.symm hc]
  | cons l L ih =>
    cases hkind : l.kind with
    | function role params =>
      -- Functions that are no methods are passed over, like blocks.
      cases role with
      | function =>
        have hmember : l.isMember = false := by simp [Layer.isMember, hkind]
        simp only [innermost_cons_of_not_sort hmember, ← ih]
        simp [classContext, hkind]
      | method isInitializer subclass =>
        have hmember : l.isMember = true := by simp [Layer.isMember, hkind]
        simp only [innermost_cons_of_sort hmember]
        cases subclass <;> simp [classContext, hkind, Role.classContext?]
      | staticMethod =>
        have hmember : l.isMember = true := by simp [Layer.isMember, hkind]
        simp only [innermost_cons_of_sort hmember]
        simp [classContext, hkind, Role.classContext?]
    | program | block =>
      have hmember : l.isMember = false := by simp [Layer.isMember, hkind]
      simp only [innermost_cons_of_not_sort hmember, ← ih]
      simp [classContext, hkind]

theorem classContext_eq_staticMethod : classContext L = .staticMethod ↔
    Innermost Layer.isMember L .staticMethod := by
  rw [classContext_eq_of_ne_none (by decide)]
  constructor
  · rintro ⟨role, hinner, hrole⟩
    unfold Role.classContext? at hrole
    split at hrole
    · cases hrole
    · cases hrole
    · cases hrole
    · exact hinner
  · intro hinner
    exact ⟨.staticMethod, hinner, rfl⟩

theorem classContext_eq_class : classContext L = .«class» ↔
    ∃ isInitializer, Innermost Layer.isMember L (.method isInitializer false) := by
  rw [classContext_eq_of_ne_none (by decide)]
  constructor
  · rintro ⟨role, hinner, hrole⟩
    unfold Role.classContext? at hrole
    split at hrole
    · cases hrole
    · next isInitializer => exact ⟨isInitializer, hinner⟩
    · cases hrole
    · cases hrole
  · rintro ⟨isInitializer, hinner⟩
    exact ⟨.method isInitializer false, hinner, rfl⟩

/-!
## What is wrong at a site

One rule for each report. No two of them apply at one site, so a site has at most one thing wrong
with it.
-/

/-- Something stands where it must not. -/
inductive Misplaced : Site → ScopeError → Prop where
  /-- No function, method or lambda is around the statement. -/
  | returnAtTopLevel {L : List Layer} {line : Nat} {hasValue : Bool} :
      (∀ l ∈ L, l.isBody = false) → Misplaced ⟨L, .returnValue line hasValue⟩ .returnAtTopLevel
  | returnValueFromInitializer {L : List Layer} {line : Nat} {subclass : Bool} :
      Innermost Layer.isBody L (.method true subclass) →
        Misplaced ⟨L, .returnValue line true⟩ .returnValueFromInitializer
  | thisOutsideClass {L : List Layer} {name : String} {line : Nat} {id : UseId} :
      (∀ l ∈ L, l.isMember = false) → Misplaced ⟨L, .use .this name line id⟩ .thisOutsideClass
  | thisInStaticMethod {L : List Layer} {name : String} {line : Nat} {id : UseId} :
      Innermost Layer.isMember L .staticMethod →
        Misplaced ⟨L, .use .this name line id⟩ .thisInStaticMethod
  | superOutsideClass {L : List Layer} {name : String} {line : Nat} {id : UseId} :
      (∀ l ∈ L, l.isMember = false) → Misplaced ⟨L, .use .super name line id⟩ .superOutsideClass
  | superInStaticMethod {L : List Layer} {name : String} {line : Nat} {id : UseId} :
      Innermost Layer.isMember L .staticMethod →
        Misplaced ⟨L, .use .super name line id⟩ .superInStaticMethod
  | superWithoutSuperclass {L : List Layer} {name : String} {line : Nat} {id : UseId}
      {isInitializer : Bool} : Innermost Layer.isMember L (.method isInitializer false) →
        Misplaced ⟨L, .use .super name line id⟩ .superWithoutSuperclass
  /-- The innermost scope has the name of a declaration. Parameters and body share one, and the
  program has none. -/
  | alreadyDeclared {l : Layer} {L : List Layer} {name : Name} :
      name.text ∈ l.names → Misplaced ⟨l :: L, .declaration name⟩ .alreadyDeclared
  | inheritsFromItself {L : List Layer} {name parent : Name} :
      name.text = parent.text → Misplaced ⟨L, .superclass name parent⟩ .inheritsFromItself
  | staticInitializer {L : List Layer} {name : Name} :
      name.text = initializerName → Misplaced ⟨L, .member .staticMethod name⟩ .staticInitializer

section Sites

variable {p : Site} {initializing : List String} {e : ScopeError}

/-- What is wrong at a site with `this` is a matter of the innermost member of a class. -/
theorem misplaced_this {name : String} {line : Nat} {id : UseId} :
    Misplaced ⟨L, .use .this name line id⟩ e ↔
      (classContext L = .none ∧ e = .thisOutsideClass) ∨
        (classContext L = .staticMethod ∧ e = .thisInStaticMethod) := by
  rw [classContext_eq_none, classContext_eq_staticMethod]
  constructor
  · intro h
    cases h with
    | thisOutsideClass houtside => exact .inl ⟨houtside, rfl⟩
    | thisInStaticMethod hstatic => exact .inr ⟨hstatic, rfl⟩
  · rintro (⟨houtside, rfl⟩ | ⟨hstatic, rfl⟩)
    · exact .thisOutsideClass houtside
    · exact .thisInStaticMethod hstatic

/-- The same goes for `super`, which a class without a superclass does not have. -/
theorem misplaced_super {name : String} {line : Nat} {id : UseId} :
    Misplaced ⟨L, .use .super name line id⟩ e ↔
      (classContext L = .none ∧ e = .superOutsideClass) ∨
        (classContext L = .staticMethod ∧ e = .superInStaticMethod) ∨
          (classContext L = .«class» ∧ e = .superWithoutSuperclass) := by
  rw [classContext_eq_none, classContext_eq_staticMethod, classContext_eq_class]
  constructor
  · intro h
    cases h with
    | superOutsideClass houtside => exact .inl ⟨houtside, rfl⟩
    | superInStaticMethod hstatic => exact .inr (.inl ⟨hstatic, rfl⟩)
    | superWithoutSuperclass hclass => exact .inr (.inr ⟨⟨_, hclass⟩, rfl⟩)
  · rintro (⟨houtside, rfl⟩ | ⟨hstatic, rfl⟩ | ⟨⟨_, hclass⟩, rfl⟩)
    · exact .superOutsideClass houtside
    · exact .superInStaticMethod hstatic
    · exact .superWithoutSuperclass hclass

theorem misplaced_returnValue {line : Nat} {hasValue : Bool} :
    Misplaced ⟨L, .returnValue line hasValue⟩ e ↔
      (functionContext L = .none ∧ e = .returnAtTopLevel) ∨
        (functionContext L = .initializer ∧ hasValue = true ∧ e = .returnValueFromInitializer) := by
  rw [functionContext_eq_none, functionContext_eq_initializer]
  constructor
  · intro h
    cases h with
    | returnAtTopLevel htop => exact .inl ⟨htop, rfl⟩
    | returnValueFromInitializer hinit => exact .inr ⟨⟨_, hinit⟩, rfl, rfl⟩
  · rintro (⟨htop, rfl⟩ | ⟨⟨_, hinit⟩, rfl, rfl⟩)
    · exact .returnAtTopLevel htop
    · exact .returnValueFromInitializer hinit

theorem misplaced_declaration {name : Name} : Misplaced ⟨L, .declaration name⟩ e ↔
    L.head?.any (name.text ∈ ·.names) = true ∧ e = .alreadyDeclared := by
  constructor
  · intro h
    cases h with
    | alreadyDeclared hname => exact ⟨by simpa using hname, rfl⟩
  · rintro ⟨hname, rfl⟩
    cases L with
    | nil => cases hname
    | cons l L => exact .alreadyDeclared (by simpa using hname)

theorem misplaced_superclass {name parent : Name} :
    Misplaced ⟨L, .superclass name parent⟩ e ↔
      name.text = parent.text ∧ e = .inheritsFromItself := by
  constructor
  · intro h
    cases h with
    | inheritsFromItself hname => exact ⟨hname, rfl⟩
  · rintro ⟨hname, rfl⟩
    exact .inheritsFromItself hname

theorem misplaced_member {name : Name} :
    Misplaced ⟨L, .member role name⟩ e ↔
      (role = .staticMethod ∧ name.text = initializerName) ∧ e = .staticInitializer := by
  constructor
  · intro h
    cases h with
    | staticInitializer hname => exact ⟨⟨rfl, hname⟩, rfl⟩
  · rintro ⟨⟨rfl, hname⟩, rfl⟩
    exact .staticInitializer hname

/-- What is wrong at a site is that something is misplaced there, or that a variable is read in its
own initializer. -/
theorem mem_errors : e ∈ p.errors initializing ∧ e ≠ .ownInitializer ↔ Misplaced p e := by
  obtain ⟨L, item⟩ := p
  cases item with
  | use kind name line id =>
    cases kind with
    -- The only error of a read is the one for its own initializer, which is set apart here.
    | «variable» =>
      constructor
      · rintro ⟨hmem, hne⟩
        simp only [Site.errors] at hmem
        split at hmem
        · exact absurd (List.mem_singleton.mp hmem) hne
        · cases hmem
      · intro h
        cases h
    -- An assignment is never misplaced.
    | assignment =>
      constructor
      · rintro ⟨hmem, -⟩
        cases hmem
      · intro h
        cases h
    | this =>
      rw [misplaced_this]
      simp only [Site.errors]
      cases classContext L <;> simp +contextual
    | super =>
      rw [misplaced_super]
      simp only [Site.errors]
      cases classContext L <;> simp +contextual
  | declaration name =>
    rw [misplaced_declaration]
    simp only [Site.errors]
    split <;> simp +contextual [*]
  | returnValue line hasValue =>
    rw [misplaced_returnValue]
    simp only [Site.errors]
    cases functionContext L <;> cases hasValue <;> simp +contextual
  | superclass name parent =>
    rw [misplaced_superclass]
    simp only [Site.errors]
    split <;> simp +contextual [*]
  | member role name =>
    rw [misplaced_member]
    simp only [Site.errors]
    split <;> simp +contextual [*]
  -- The two ends of an initializer are no places of errors.
  | initializer x | initialized x =>
    constructor
    · rintro ⟨hmem, -⟩
      cases hmem
    · intro h
      cases h

/-- At one site, one thing at most is wrong. -/
theorem errors_cases (p : Site) (initializing : List String) :
    p.errors initializing = [] ∨ ∃ e, p.errors initializing = [e] := by
  unfold Site.errors
  split
  · split <;> simp
  · simp
  · split <;> simp
  · split <;> simp
  · split <;> simp
  · split
    · simp
    · split <;> simp
  · split <;> simp
  · split <;> simp
  · simp
  · simp

theorem misplaced_unique {e' : ScopeError} (h : Misplaced p e) (h' : Misplaced p e') : e = e' := by
  have hmem : e ∈ p.errors [] ∧ _ := mem_errors.mpr h
  have hmem' : e' ∈ p.errors [] ∧ _ := mem_errors.mpr h'
  rcases errors_cases p [] with hnone | ⟨e₀, hone⟩
  · rw [hnone] at hmem
    exact absurd hmem.1 List.not_mem_nil
  · rw [hone, List.mem_singleton] at hmem hmem'
    exact hmem.1.trans hmem'.1.symm

end Sites

/-!
## What is reported

The reports are those about the sites in the order of the text. If those about initializers are left
out, each of the others is that something is misplaced, and each misplaced thing has its report.
-/

/-- Whether a report is that a variable is read in its own initializer. -/
def Report.isOwnInitializer : Report → Bool
  | .located _ (.scope .ownInitializer) => true
  | _ => false

/-- Reports that say of some sites, one for one and in their order, what is misplaced there. -/
inductive Tells : List Site → List Report → Prop where
  | nil : Tells [] []
  | inPlace {p : Site} {ps : List Site} {rs : List Report} :
      (∀ e, ¬Misplaced p e) → Tells ps rs → Tells (p :: ps) rs
  | misplaced {p : Site} {e : ScopeError} {ps : List Site} {rs : List Report} :
      Misplaced p e → Tells ps rs → Tells (p :: ps) (.located p.location (.scope e) :: rs)

theorem isOwnInitializer_located (place : Location) (e : ScopeError) :
    (Report.located place (.scope e)).isOwnInitializer = decide (e = .ownInitializer) := by
  cases e <;> rfl

/-- The reports about sites, without those about initializers, tell what is misplaced. -/
theorem tells_reportsAt (initializing : List String) (ps : List Site) :
    Tells ps ((reportsAt initializing ps).filter fun r => !r.isOwnInitializer) := by
  -- By induction on the sites. Nothing but the reports about initializers depends on those that
  -- are under way.
  induction ps generalizing initializing with
  | nil => exact .nil
  | cons p ps ih =>
    have hrest := ih (p.initializingBehind initializing)
    have hreports : reportsAt initializing (p :: ps) =
        (p.errors initializing).map (fun e => .located p.location (.scope e)) ++
          reportsAt (p.initializingBehind initializing) ps := rfl
    rw [hreports, List.filter_append]
    rcases errors_cases p initializing with hnone | ⟨e, hone⟩
    · rw [hnone]
      apply Tells.inPlace _ hrest
      intro e h
      have hmem : e ∈ p.errors initializing ∧ _ := mem_errors.mpr h
      rw [hnone] at hmem
      exact absurd hmem.1 List.not_mem_nil
    · rw [hone, List.map_singleton]
      by_cases he : e = .ownInitializer
      · rw [List.filter_cons_of_neg (by simp [isOwnInitializer_located, he])]
        apply Tells.inPlace _ hrest
        intro e' h
        have hmem : e' ∈ p.errors initializing ∧ _ := mem_errors.mpr h
        rw [hone, List.mem_singleton] at hmem
        exact absurd (hmem.1.trans he) hmem.2
      · rw [List.filter_cons_of_pos (by simp [isOwnInitializer_located, he])]
        apply Tells.misplaced _ hrest
        exact mem_errors.mp ⟨hone ▸ List.mem_singleton_self e, he⟩

/-- **What is misplaced is reported.** Whatever text a tree was read from: if the tree can be
resolved, which it can with as many levels as its height, then the reports, but for those of
variables in their own initializers, tell one for one what is misplaced in the tree, and of no site
is there more than one thing to tell. -/
theorem placement_reported {depth firstUse : Nat} {source : String} {program : List Stmt}
    (hprogram : (parse depth firstUse (lex source)).statements = program) :
    (∀ levels endLine, stmtsHeight program ≤ levels →
      (resolve levels endLine program).Finished) ∧
    (∀ levels endLine, (resolve levels endLine program).Finished →
      Tells (programSites program)
        ((resolve levels endLine program).reports.filter fun r => !r.isOwnInitializer)) ∧
    ∀ p e e', Misplaced p e → Misplaced p e' → e = e' := by
  have hstretch := stretch_statements depth firstUse source []
  rw [hprogram] at hstretch
  -- What comes from source text has proper names, whatever errors it has.
  have hwritten := hstretch.written
  refine ⟨fun levels endLine h => resolve_finished hwritten endLine h, ?_, ?_⟩
  · intro levels endLine hfinished
    rw [resolve_of_finished hwritten hfinished]
    exact tells_reportsAt [] (programSites program)
  · intro p e e' h h'
    exact misplaced_unique h h'

/-- A class that inherits from itself, with a lambda in its initializer and a function in a static
method: `return` and `this` mean the innermost function and the innermost member. -/
theorem placement_reported_class :
    let program := (parse 20 0 (lex ("class A < A \x7b class init(x, x) \x7b " ++
      "fun f() \x7b this; \x7d \x7d init() \x7b var x = x; fun () \x7b return this; \x7d; " ++
      "return 1; \x7d \x7d return 2; class B \x7b m() \x7b super.m(); \x7d \x7d " ++
      "super.m();"))).statements
    let reports := (resolve 20 1 program).reports.filter fun r => !r.isOwnInitializer
    (resolve 20 1 program).Finished ∧ Tells (programSites program) reports ∧
      reports.map Report.message =
        ["A class can't inherit from itself.", "Init method of a class cannot be static.",
          "Already a variable with this name in this scope.",
          "Can't use 'this' in a static method.",
          "Can't return a value from an initializer.", "Can't return from top-level code.",
          "Can't use 'super' in a class with no superclass.",
          "Can't use 'super' outside of a class."] := by
  intro program reports
  -- Eight reports, and none of them is that the program is nested too deeply.
  have hfinished : (resolve 20 1 program).Finished := by
    have hnone : ∀ r ∈ (resolve 20 1 program).reports, r.message ≠ StaticError.nesting.message := by
      decide +kernel
    exact fun place hmem => hnone _ hmem rfl
  exact ⟨hfinished, (placement_reported rfl).2.1 20 1 hfinished, by decide +kernel⟩

end LoxLang
