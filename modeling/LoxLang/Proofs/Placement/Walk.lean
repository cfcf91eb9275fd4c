import LoxLang.Proofs.Placement.Scopes
import LoxLang.Proofs.Scoping.Height

/-!
# The walk that resolves names, site by site

For each step of the walk that is finished: it has looked at what stands in the tree, and has made
of each site what its layers say (`Saw`), whether or not anything is wrong with it. The walks one
level further in are assumed to do so (`SeesSites`), and `seesSites_scopeWalk` ties the knot by
induction on the levels; `resolve_of_finished` states the outcome for programs.
-/

namespace LoxLang

open LoxLang.Resolver

/-!
## Sites one after the other

What the walk has seen is a list of sites, which is as long as the way from one state to the other.
Two ways in a row make one.
-/

/-- Which initializers are open behind two lists of sites. -/
theorem initializingBehind_append (initializing : List String) (ps qs : List Site) :
    initializingBehind initializing (ps ++ qs) =
      initializingBehind (initializingBehind initializing ps) qs :=
  List.foldl_append

/-- The reports at two lists of sites, the second under what the first has opened. -/
theorem reportsAt_append (initializing : List String) (ps qs : List Site) :
    reportsAt initializing (ps ++ qs) =
      reportsAt initializing ps ++ reportsAt (initializingBehind initializing ps) qs := by
  induction ps generalizing initializing with
  | nil => rfl
  | cons p ps ih =>
    rw [List.cons_append, reportsAt, reportsAt, ih, List.append_assoc]
    rfl

/-- Between two states of the walk some sites were looked at. -/
structure Saw (ps : List Site) (scopes : List Scope) (s s' : ScopeState) : Prop where
  scopes : s'.scopes = scopes
  uses : s'.uses = (ps.filterMap Site.resolved?).reverse ++ s.uses
  initializing : s'.initializing = initializingBehind s.initializing ps
  reports : s'.reports = s.reports ++ reportsAt s.initializing ps

/-- Nothing is seen where nothing is done. -/
theorem Saw.refl (s : ScopeState) : Saw [] s.scopes s s := ⟨rfl, rfl, rfl, (List.append_nil _).symm⟩

/-- What is seen on two ways in a row. -/
theorem Saw.trans {ps qs : List Site} {S S' : List Scope} {s s' s'' : ScopeState}
    (h : Saw ps S s s') (h' : Saw qs S' s' s'') : Saw (ps ++ qs) S' s s'' := by
  refine ⟨h'.scopes, ?_, ?_, ?_⟩
  · rw [h'.uses, h.uses, List.filterMap_append, List.reverse_append, List.append_assoc]
  · rw [h'.initializing, h.initializing, initializingBehind_append]
  · rw [h'.reports, h.reports, h.initializing, reportsAt_append, List.append_assoc]

/-- Scopes are opened and closed without anything being looked at. -/
theorem Saw.rescope {ps : List Site} {S S₁ S₂ : List Scope} {s s' : ScopeState}
    (h : Saw ps S { s with scopes := S₁ } s') : Saw ps S₂ s { s' with scopes := S₂ } :=
  ⟨rfl, h.uses, h.initializing, h.reports⟩

/-!
## Single steps

The steps of the walk that change scopes see nothing; those that look for mistakes see one site
each.
-/

namespace Resolver

/-- What holds behind a step of the walk that is finished, whatever it has reported. -/
abbrev Finishes {α : Type} (p : Resolver α) (Q : ScopeState → α → ScopeState → Prop) : Prop :=
  Unreported (fun _ => []) (fun _ => False) p Q

/-- A change of the state. -/
theorem finishes_modify (f : ScopeState → ScopeState) :
    Finishes (modify f) fun s _ s' => s' = f s :=
  fun _ => ⟨List.prefix_refl _, fun _ => rfl⟩

/-- A report behind the others. -/
theorem finishes_report (place : Location) (e : ScopeError) :
    Finishes (report place e) fun s _ s' =>
      s' = { s with reports := s.reports ++ [.located place (.scope e)] } :=
  finishes_modify _

/-- A scope inside the others. -/
theorem finishes_openScope (scope : Scope) :
    Finishes (openScope scope) fun s _ s' => s' = { s with scopes := scope :: s.scopes } :=
  finishes_modify _

/-- The innermost scope is gone. -/
theorem finishes_closeScope :
    Finishes closeScope fun s _ s' => s' = { s with scopes := s.scopes.drop 1 } :=
  finishes_modify _

/-- A name enters the innermost scope. -/
theorem finishes_setInnermost (name : String) (ready : Bool) :
    Finishes (setInnermost name ready) fun s _ s' =>
      s' = { s with scopes := Scope.enter name ready s.scopes } := by
  refine (finishes_modify _).mono fun s _ s' h => ?_
  rw [h]
  obtain ⟨scopes, initializing, uses, reports⟩ := s
  cases scopes <;> rfl

end Resolver

/-- What happens at a single site. -/
theorem Saw.single {p : Site} {s s' : ScopeState} {S : List Scope} (hscopes : s'.scopes = S)
    (huses : s'.uses = p.resolved?.toList ++ s.uses)
    (hinit : s'.initializing = p.initializingBehind s.initializing)
    (hreports : s'.reports = s.reports ++ p.reports s.initializing) : Saw [p] S s s' := by
  refine ⟨hscopes, ?_, hinit, ?_⟩
  · rw [huses]
    cases h : p.resolved? <;> simp [h]
  · rw [hreports]
    simp [reportsAt]

namespace Resolver

/-- The innermost scope, if there is one. -/
theorem finishes_innermost? :
    Finishes innermost? fun s scope? s' => scope? = s.scopes.head? ∧ s' = s :=
  fun _ => ⟨List.prefix_refl _, fun _ => ⟨rfl, rfl⟩⟩

/-- A declaration is a site, and its name is not ready. -/
theorem finishes_declare (name : Name) :
    Finishes (declare name) fun s _ s' => ∀ L, Fits L s.scopes →
      Saw [⟨L, .declaration name⟩] (Scope.enter name.text false s.scopes) s s' := by
  have hset := finishes_setInnermost name.text false
  -- Behind a scope that was looked up, whether it has the name already decides about the report.
  refine (finishes_innermost?.bind (?_ : ∀ scope? : Option Scope, Finishes _ fun s _ s' =>
    s' = { s with
      scopes := Scope.enter name.text false s.scopes
      reports := s.reports ++ if scope?.any (·.contains name.text) then
        [.located name.place (.scope .alreadyDeclared)] else [] })).mono ?_
  · intro scope?
    cases scope? with
    | none =>
      refine hset.mono fun s _ s' h => ?_
      rw [h]
      simp
    | some scope =>
      refine (Unreported.ite (fun _ => (finishes_report _ _).bind fun _ => hset)
        fun _ => hset).mono ?_
      rintro s _ _ (⟨hmem, _, _, rfl, rfl⟩ | ⟨hnew, rfl⟩)
      · simp [hmem]
      · simp [hnew]
  · rintro s _ _ ⟨_, _, ⟨rfl, rfl⟩, rfl⟩ L hfits
    refine Saw.single rfl rfl rfl ?_
    rw [hfits.head_contains]
    simp only [Site.reports, Site.errors]
    split <;> rfl

/-- A declaration is a site, and its name is ready. -/
theorem finishes_declareReady (name : Name) :
    Finishes (declareReady name) fun s _ s' => ∀ L, Fits L s.scopes →
      Saw [⟨L, .declaration name⟩] (Scope.enter name.text true s.scopes) s s' := by
  refine ((finishes_declare name).bind fun _ => finishes_setInnermost name.text true).mono ?_
  rintro s _ _ ⟨_, s₁, hsaw, rfl⟩ L hfits
  have hsaw := hsaw L hfits
  have hscopes : Scope.enter name.text true s₁.scopes = Scope.enter name.text true s.scopes := by
    rw [hsaw.scopes, Scope.enter_enter]
  exact ⟨hscopes, hsaw.uses, hsaw.initializing, hsaw.reports⟩

/-- The distance of a use is noted. -/
theorem finishes_resolveUse (kind : UseKind) (name : String) (line : Nat) (id : UseId) :
    Finishes (resolveUse kind name line id) fun s _ s' =>
      s' = { s with uses :=
        ((Scope.distance? s.scopes name).map (⟨kind, name, line, ·, id⟩)).toList ++ s.uses } := by
  refine (finishes_modify _).mono fun s _ s' h => ?_
  rw [h, Scope.distance?]
  cases s.scopes.findIdx? (·.contains name) <;> rfl

/-- Whether a name can be read is told by the layers at the site. -/
theorem finishes_isReady (name : String) :
    Finishes (isReady name) fun s b s' => s' = s ∧ ∀ L, Fits L s.scopes →
      b = !Site.isEarly s.initializing L name := by
  rintro ⟨scopes, initializing, uses, reports⟩
  cases scopes with
  -- No scope is open exactly at top level, where the list of globals is asked.
  | nil =>
    refine ⟨List.prefix_refl _, fun _ => ⟨rfl, fun L hfits => ?_⟩⟩
    have htop : atTopLevel L = true := hfits.isEmpty_eq_atTopLevel.symm
    simp [Site.isEarly, htop]
  | cons scope outer =>
    refine ⟨List.prefix_refl _, fun _ => ⟨rfl, fun L hfits => ?_⟩⟩
    have htop : atTopLevel L = false := hfits.isEmpty_eq_atTopLevel.symm
    have hown := hfits.get?_eq_false name
    show (Bindings.get? scope name != some false) = _
    by_cases h : ownVariable? L = some name
    · simp [Site.isEarly, htop, h, hown.mpr h]
    · simp [Site.isEarly, htop, h, mt hown.mp h]

/-- A read is a site. -/
theorem finishes_readVariable (use : VariableUse) :
    Finishes (Resolver.readVariable use) fun s _ s' => ∀ L, Fits L s.scopes → IsName use.name.text →
      Saw [⟨L, .use .«variable» use.name.text use.name.line use.id⟩] s.scopes s s' := by
  have hresolve := finishes_resolveUse .«variable» use.name.text use.name.line use.id
  refine ((finishes_isReady use.name.text).bind fun b => Unreported.ite (fun _ => hresolve)
    fun _ => (finishes_report _ _).bind fun _ => hresolve).mono ?_
  rintro _ _ s' ⟨b, s, ⟨rfl, hready⟩, hrest⟩ L hfits hname
  have hearly := hready L hfits
  -- Whether or not it is reported, the use gets its distance.
  have huses : ((Scope.distance? s.scopes use.name.text).map
      (⟨.«variable», use.name.text, use.name.line, ·, use.id⟩)).toList =
        (⟨L, .use .«variable» use.name.text use.name.line use.id⟩ : Site).resolved?.toList := by
    rw [hfits.distance?_eq hname]
    rfl
  rcases hrest with ⟨hb, rfl⟩ | ⟨hb, _, _, rfl, rfl⟩
  · refine Saw.single rfl (by rw [← huses]) rfl ?_
    simp_all [Site.reports, Site.errors]
  · refine Saw.single rfl (by rw [← huses]) rfl ?_
    simp_all [Site.reports, Site.errors, Site.location]

end Resolver

/-!
## Rules of the walk

If the rules one level further in see the sites of a tree, whatever layers stand for the scopes,
then so do these.
-/

/-- The open scopes are those of some layers, and so are the functions and classes that the walk
knows to be around it. -/
structure Stands (L : List Layer) (context : ScopeContext) (S : List Scope) : Prop where
  fits : Fits L S
  inFunction : context.inFunction = functionContext L
  inClass : context.inClass = classContext L

/-- A step looks at some sites, which depend on the layers, and leaves the scopes as they are. -/
abbrev Sees (context : ScopeContext) (p : Resolver Unit) (os : List Scope → List Occurrence)
    (ps : List Layer → List Site) : Prop :=
  Finishes p fun s _ s' => ∀ L, Stands L context s.scopes → (∀ o ∈ os s.scopes, o.Written) →
    Saw (ps L) s.scopes s s'

/-- The walks one level further in look at what stands in the tree. -/
structure SeesSites (inner : ScopeWalk) : Prop where
  expr : ∀ context e, Sees context (inner.expr context e) (Expr.occurrences · e) (Expr.sites · e)
  stmt : ∀ context st, Finishes (inner.stmt context st) fun s _ s' => ∀ L,
    Stands L context s.scopes → Rests L → (∀ o ∈ st.occurrences s.scopes, o.Written) →
      Saw (st.sites L) (st.scopesAfter s.scopes) s s'

variable {inner : ScopeWalk} {context : ScopeContext} {L : List Layer} {S : List Scope}

/-!
### Lists

Statements in a row are walked in layers that grow by what each of them declares. The layers keep
their kinds, so what function and class a place is in stays the same.
-/

/-- Nothing is seen in nothing. -/
theorem sees_pure : Sees context (pure ()) (fun _ => []) fun _ => [] := by
  refine (Unreported.pure ()).mono ?_
  rintro _ _ s ⟨-, rfl⟩ L - -
  exact .refl s

/-- The sites of two parts in a row. -/
theorem sees_pair {p q : Resolver Unit} {os os' : List Scope → List Occurrence}
    {ps ps' : List Layer → List Site} (hp : Sees context p os ps) (hq : Sees context q os' ps') :
    Sees context (do p; q) (fun S => os S ++ os' S) fun L => ps L ++ ps' L := by
  refine (hp.bind fun _ => hq).mono ?_
  rintro s _ s'' ⟨_, s', hfirst, hrest⟩ L hstands hwritten
  have hsaw := hfirst L hstands fun o ho => hwritten o (List.mem_append_left _ ho)
  -- The first step has left the scopes as they were, so the second stands in the same layers.
  rw [hsaw.scopes] at hrest
  exact hsaw.trans (hrest L hstands fun o ho => hwritten o (List.mem_append_right _ ho))

/-- The sites of expressions in a row. -/
theorem sees_exprs (h : SeesSites inner) (context : ScopeContext) (es : List Expr) :
    Sees context (es.forM (inner.expr context)) (exprsOccurrences · es) (exprsSites · es) := by
  induction es with
  | nil => exact sees_pure
  | cons e es ih => exact sees_pair (h.expr context e) ih

/-- What function a place is in does not depend on the names of the innermost layer. -/
theorem functionContext_modifyHead (f : Layer → Layer) (hkind : ∀ l, (f l).kind = l.kind)
    (L : List Layer) : functionContext (L.modifyHead f) = functionContext L := by
  cases L with
  | nil => rfl
  | cons l L => simp [functionContext, hkind]

/-- What class a place is in does not depend on the names of the innermost layer. -/
theorem classContext_modifyHead (f : Layer → Layer) (hkind : ∀ l, (f l).kind = l.kind)
    (L : List Layer) : classContext (L.modifyHead f) = classContext L := by
  cases L with
  | nil => rfl
  | cons l L => simp [classContext, hkind]

/-- What a statement declares is a name if it was written. -/
theorem Stmt.isName_of_written {st : Stmt} {scopes : List Scope}
    (h : ∀ o ∈ st.occurrences scopes, o.Written) : ∀ x ∈ st.declaredName?, IsName x := by
  intro x hx
  have hmem : .declaration x scopes ∈ st.occurrences scopes := by
    cases st with
    | var name initializer =>
      obtain rfl : name.text = x := Option.some.inj hx
      cases initializer <;> simp [Stmt.occurrences]
    | function f =>
      obtain rfl : f.name.text = x := Option.some.inj hx
      simp [Stmt.occurrences]
    | classDecl name parent methods staticMethods =>
      obtain rfl : name.text = x := Option.some.inj hx
      simp [Stmt.occurrences]
    | _ => cases hx
  exact h (.declaration x scopes) hmem

/-- The layers inside of a statement stand for the scopes there. -/
theorem Stands.within {st : Stmt} (h : Stands L context S) (hrests : Rests L)
    (hname : ∀ x ∈ st.declaredName?, IsName x) :
    Stands (layersWithin st L) context (st.scopesWithin S) :=
  ⟨h.fits.within hrests hname,
    h.inFunction.trans (functionContext_modifyHead (Layer.within st) (fun _ => rfl) L).symm,
    h.inClass.trans (classContext_modifyHead (Layer.within st) (fun _ => rfl) L).symm⟩

/-- The layers behind a statement stand for the scopes there. -/
theorem Stands.behind {st : Stmt} (h : Stands L context S) (hrests : Rests L)
    (hname : ∀ x ∈ st.declaredName?, IsName x) :
    Stands (layersBehind st L) context (st.scopesAfter S) :=
  ⟨h.fits.behind hrests hname,
    h.inFunction.trans (functionContext_modifyHead (Layer.behind st) (fun _ => rfl) L).symm,
    h.inClass.trans (classContext_modifyHead (Layer.behind st) (fun _ => rfl) L).symm⟩

/-- Each statement is seen in the layers behind those before it. -/
theorem finishes_stmts (h : SeesSites inner) (context : ScopeContext) (ss : List Stmt) :
    Finishes (ss.forM (inner.stmt context)) fun s _ s' => ∀ L, Stands L context s.scopes → Rests L →
      (∀ o ∈ stmtsOccurrences s.scopes ss, o.Written) →
        Saw (stmtsSites L ss) (ss.foldl (fun S st => st.scopesAfter S) s.scopes) s s' := by
  induction ss with
  | nil =>
    refine (Unreported.pure ()).mono ?_
    rintro _ _ s ⟨-, rfl⟩ L - - -
    exact .refl s
  | cons st ss ih =>
    -- What follows a statement stands behind it, in the scopes that it leaves and in its layer.
    refine ((h.stmt context st).bind fun _ => ih).mono ?_
    rintro s _ s'' ⟨_, s', hfirst, hrest⟩ L hstands hrests hwritten
    rw [stmtsOccurrences] at hwritten
    have hown : ∀ o ∈ st.occurrences s.scopes, o.Written :=
      fun o ho => hwritten o (List.mem_append_left _ ho)
    have hsaw := hfirst L hstands hrests hown
    rw [hsaw.scopes] at hrest
    exact hsaw.trans (hrest _ (hstands.behind hrests (Stmt.isName_of_written hown))
      (rests_behind st L) fun o ho => hwritten o (List.mem_append_right _ ho))

/-!
### Functions

A function opens one layer for its parameters and its body, in the scopes that its role opens around
it. The parameters enter the layer one by one, each of them a site.
-/

/-- A parameter enters the innermost layer and the innermost scope. -/
theorem Fits.parameter {role : Role} {seen : List Name}
    (h : Fits (.atStart (.function role seen) :: L) S) {x : Name} (hx : IsName x.text) :
    Fits (.atStart (.function role (seen ++ [x])) :: L) (Scope.enter x.text true S) := by
  cases h with
  | program hkind => cases hkind
  | block hkind => cases hkind
  | function hkind hscope hrest =>
    cases hkind
    refine .function rfl (hscope.insert nofun hx true ?_ rfl) hrest
    simp [Layer.names, Layer.atStart, Layer.declaredNames]

/-- Each parameter is seen behind those before it. -/
theorem finishes_parameters (params : List Name) :
    Finishes (params.forM declareReady) fun s _ s' => ∀ role seen L,
      Fits (.atStart (.function role seen) :: L) s.scopes →
        (∀ o ∈ parameterOccurrences s.scopes params, o.Written) →
          Saw (parameterSites role L seen params) (Scope.enterAll s.scopes params) s s' ∧
            Fits (.atStart (.function role (seen ++ params)) :: L)
              (Scope.enterAll s.scopes params) := by
  induction params with
  | nil =>
    refine (Unreported.pure ()).mono ?_
    rintro _ _ s ⟨-, rfl⟩ role seen L hfits -
    rw [List.append_nil]
    exact ⟨.refl s, hfits⟩
  | cons x params ih =>
    refine ((finishes_declareReady x).bind fun _ => ih).mono ?_
    rintro s _ s'' ⟨_, s', hfirst, hrest⟩ role seen L hfits hwritten
    have hx : IsName x.text := hwritten _ List.mem_cons_self
    have hsaw := hfirst _ hfits
    -- The other parameters are declared in the scope that holds this one already.
    rw [hsaw.scopes] at hrest
    obtain ⟨hsaws, hfits'⟩ := hrest role (seen ++ [x]) L (hfits.parameter hx)
      fun o ho => hwritten o (List.mem_cons_of_mem _ ho)
    rw [List.append_assoc] at hfits'
    exact ⟨hsaw.trans hsaws, hfits'⟩

/-- The scope of a function is closed again, whatever entered it. -/
theorem finishes_function (h : SeesSites inner) (context : ScopeContext) (params : List Name)
    (body : List Stmt) :
    Finishes (inner.function context params body) fun s _ s' => ∀ role L S,
      s.scopes = role.scopes ++ S → Fits L S → context.inFunction = role.context →
        context.inClass = classContext (.atStart (.function role params) :: L) →
          (∀ o ∈ parameterOccurrences ([] :: s.scopes) params ++
            stmtsOccurrences (Scope.enterAll ([] :: s.scopes) params) body, o.Written) →
          Saw (parameterSites role L [] params ++
            stmtsSites (.atStart (.function role params) :: L) body) s.scopes s s' := by
  refine ((finishes_openScope []).bind fun _ => (finishes_parameters params).bind fun _ =>
    (finishes_stmts h context body).bind fun _ => finishes_closeScope).mono ?_
  rintro s _ _ ⟨_, _, rfl, _, s₁, hparams, _, s₂, hbody, rfl⟩ role L S hscopes hfits hfunction
    hclass hwritten
  -- The parameters enter the layer of the function one by one, as they enter its scope.
  have hinside : Fits (.atStart (.function role []) :: L) ([] :: s.scopes) := by
    rw [hscopes]
    exact hfits.inFunction role
  obtain ⟨hsaw, hfits'⟩ := hparams role [] L hinside
    fun o ho => hwritten o (List.mem_append_left _ ho)
  rw [hsaw.scopes] at hbody
  have hsaws := hsaw.trans (hbody _ ⟨hfits', hfunction, hclass⟩ nofun
    fun o ho => hwritten o (List.mem_append_right _ ho))
  have hclosed : s₂.scopes.drop 1 = s.scopes := by
    rw [hsaws.scopes, drop_foldl_scopesAfter, Scope.drop_enterAll]
    rfl
  rw [hclosed]
  exact hsaws.rescope

/-- The body of a function that is declared, with the layers of its role around it. -/
theorem finishes_functionDecl (h : SeesSites inner) (context : ScopeContext) (f : FunctionDecl) :
    Finishes (inner.function context f.params f.body) fun s _ s' => ∀ role L S,
      s.scopes = role.scopes ++ S → Fits L S → context.inFunction = role.context →
        context.inClass = classContext (.atStart (.function role f.params) :: L) →
          (∀ o ∈ f.occurrences s.scopes, o.Written) → Saw (f.sites role L) s.scopes s s' := by
  obtain ⟨name, params, body⟩ := f
  exact finishes_function h context params body

/-!
### Expressions

A use is a site, whether or not it is reported, and whether or not it has a distance. The layers
around it tell both.
-/

/-- A use that may not stand where it stands. -/
theorem sees_misplaced {kind : UseKind} {name : String} {line : Nat} {id : UseId}
    {os : List Scope → List Occurrence} (place : Location) (e : ScopeError)
    (hplace : ∀ L, context.inClass = classContext L →
      (⟨L, .use kind name line id⟩ : Site).distance? = none ∧
        ∀ initializing, (⟨L, .use kind name line id⟩ : Site).reports initializing =
          [.located place (.scope e)]) :
    Sees context (report place e) os fun L => [⟨L, .use kind name line id⟩] := by
  refine (finishes_report place e).mono ?_
  rintro s _ _ rfl L hstands -
  obtain ⟨hdistance, hreports⟩ := hplace L hstands.inClass
  refine Saw.single rfl ?_ rfl ?_
  · simp [Site.resolved?, hdistance]
  · rw [hreports]

/-- A use that may stand where it stands. -/
theorem sees_resolveUse {kind : UseKind} {name : String} {line : Nat} {id : UseId}
    {os : List Scope → List Occurrence}
    (hplace : ∀ L S, Stands L context S → (∀ o ∈ os S, o.Written) →
      Scope.distance? S name = (⟨L, .use kind name line id⟩ : Site).distance? ∧
        ∀ initializing, (⟨L, .use kind name line id⟩ : Site).reports initializing = []) :
    Sees context (resolveUse kind name line id) os fun L => [⟨L, .use kind name line id⟩] := by
  refine (finishes_resolveUse kind name line id).mono ?_
  rintro s _ _ rfl L hstands hwritten
  obtain ⟨hdistance, hreports⟩ := hplace L s.scopes hstands hwritten
  refine Saw.single rfl ?_ rfl ?_
  · simp [Site.resolved?, hdistance]
  · simp [hreports]

/-- The keyword `this` is a site. -/
theorem sees_this (context : ScopeContext) (id : UseId) (line : Nat) :
    Sees context (ScopeWalk.this context id line) (fun S => [.use ⟨.this, "this", line, id, S⟩])
      fun L => [⟨L, .use .this "this" line id⟩] := by
  unfold ScopeWalk.this
  -- The context of the walk is the one the layers give, so each case is decided by the layers as
  -- well.
  cases hclass : context.inClass with
  | none =>
    refine sees_misplaced _ _ fun L hL => ⟨thisDistance?_eq_none (.inl ?_), fun _ => ?_⟩
    · exact hL.symm.trans hclass
    · simp [Site.reports, Site.errors, Site.location, ← hL, hclass]
  | staticMethod =>
    refine sees_misplaced _ _ fun L hL => ⟨thisDistance?_eq_none (.inr ?_), fun _ => ?_⟩
    · exact hL.symm.trans hclass
    · simp [Site.reports, Site.errors, Site.location, ← hL, hclass]
  | «class» =>
    refine sees_resolveUse fun L S hstands _ =>
      ⟨hstands.fits.distance?_this (.inl ?_), fun _ => ?_⟩
    · exact hstands.inClass.symm.trans hclass
    · simp [Site.reports, Site.errors, ← hstands.inClass, hclass]
  | subclass =>
    refine sees_resolveUse fun L S hstands _ =>
      ⟨hstands.fits.distance?_this (.inr ?_), fun _ => ?_⟩
    · exact hstands.inClass.symm.trans hclass
    · simp [Site.reports, Site.errors, ← hstands.inClass, hclass]

/-- The keyword `super` is a site. -/
theorem sees_super (context : ScopeContext) (id : UseId) (line : Nat) :
    Sees context (ScopeWalk.super context id line) (fun S => [.use ⟨.super, "super", line, id, S⟩])
      fun L => [⟨L, .use .super "super" line id⟩] := by
  -- Outside of subclasses, there is no distance, and each case has its own message.
  have hnone {L : List Layer} (hL : context.inClass = classContext L)
      (hclass : context.inClass ≠ .subclass) : superDistance? L = none :=
    superDistance?_eq_none fun h => hclass (hL.trans h)
  unfold ScopeWalk.super
  cases hclass : context.inClass with
  | none =>
    refine sees_misplaced _ _ fun L hL => ⟨hnone hL (by simp [hclass]), fun _ => ?_⟩
    simp [Site.reports, Site.errors, Site.location, ← hL, hclass]
  | staticMethod =>
    refine sees_misplaced _ _ fun L hL => ⟨hnone hL (by simp [hclass]), fun _ => ?_⟩
    simp [Site.reports, Site.errors, Site.location, ← hL, hclass]
  | «class» =>
    refine sees_misplaced _ _ fun L hL => ⟨hnone hL (by simp [hclass]), fun _ => ?_⟩
    simp [Site.reports, Site.errors, Site.location, ← hL, hclass]
  | subclass =>
    refine sees_resolveUse fun L S hstands _ =>
      ⟨hstands.fits.distance?_super (hstands.inClass.symm.trans hclass), fun _ => ?_⟩
    simp [Site.reports, Site.errors, ← hstands.inClass, hclass]

/-- A read is a site, in whatever context. -/
theorem sees_readVariable (context : ScopeContext) (use : VariableUse) :
    Sees context (readVariable use)
      (fun S => [.use ⟨.«variable», use.name.text, use.name.line, use.id, S⟩])
      fun L => [⟨L, .use .«variable» use.name.text use.name.line use.id⟩] := by
  refine (finishes_readVariable use).mono fun s _ s' hsaw L hstands hwritten => ?_
  exact hsaw L hstands.fits (hwritten _ List.mem_cons_self (.inl rfl))

/-- Expressions, part by part. -/
theorem sees_exprRule (h : SeesSites inner) (context : ScopeContext) (e : Expr) :
    Sees context (inner.exprRule context e) (Expr.occurrences · e) (Expr.sites · e) := by
  cases e with
  | literal value => exact sees_pure
  | grouping e => exact h.expr context e
  | unary op line e => exact h.expr context e
  | binary op line left right => exact sees_pair (h.expr context left) (h.expr context right)
  | logical op line left right => exact sees_pair (h.expr context left) (h.expr context right)
  | «variable» use => exact sees_readVariable context use
  | assign id name value =>
    have huse : Sees context (resolveUse .assignment name.text name.line id)
        (fun S => [.use ⟨.assignment, name.text, name.line, id, S⟩])
        fun L => [⟨L, .use .assignment name.text name.line id⟩] :=
      sees_resolveUse fun L S hstands hwritten =>
        ⟨hstands.fits.distance?_eq (hwritten _ List.mem_cons_self (.inr rfl)), fun _ => rfl⟩
    -- The value is walked first, as it is evaluated first.
    exact sees_pair (h.expr context value) huse
  | call callee line arguments =>
    exact sees_pair (h.expr context callee) (sees_exprs h context arguments)
  | get object name => exact h.expr context object
  | set object name value => exact sees_pair (h.expr context value) (h.expr context object)
  | lambda line params body =>
    refine (finishes_function h ⟨.function, context.inClass⟩ params body).mono ?_
    intro s _ s' hsaw L hstands hwritten
    exact hsaw .function L s.scopes rfl hstands.fits rfl hstands.inClass hwritten
  | this id line => exact sees_this context id line
  | super id line method => exact sees_super context id line

/-!
### Statements

What a statement declares enters the layer around it, for the parts of the statement as well as for
what stands behind it. A variable is not ready within its own initializer.
-/

/-- A statement of which it is shown how it is walked. -/
abbrev SeesStmt (context : ScopeContext) (p : Resolver Unit) (st : Stmt) : Prop :=
  Finishes p fun s _ s' => ∀ L, Stands L context s.scopes → Rests L →
    (∀ o ∈ st.occurrences s.scopes, o.Written) → Saw (st.sites L) (st.scopesAfter s.scopes) s s'

/-- What stands in a statement that declares nothing is walked in the same scopes. -/
theorem Stands.inside {st : Stmt} (h : Stands L context S) (hrests : Rests L)
    (hst : st.declaredName? = none) : Stands (layersWithin st L) context S := by
  have hscopes : st.scopesWithin S = S := by
    cases st <;> first | rfl | simp [Stmt.declaredName?] at hst
  have hwithin := h.within hrests fun x hx => absurd (hst.symm.trans hx) (by simp)
  rwa [hscopes] at hwithin

/-- The rule for a statement that consists of an expression. -/
theorem seesStmt_of_expr {p : Resolver Unit} {e : Expr} {st : Stmt}
    (h : Sees context p (Expr.occurrences · e) (Expr.sites · e)) (hst : st.declaredName? = none)
    (hafter : ∀ S, st.scopesAfter S = S) (hoccurrences : ∀ S, st.occurrences S = e.occurrences S)
    (hsites : ∀ L, st.sites L = e.sites (layersWithin st L)) : SeesStmt context p st := by
  refine h.mono fun s _ s' hsaw L hstands hrests hwritten => ?_
  rw [hafter, hsites]
  rw [hoccurrences] at hwritten
  exact hsaw _ (hstands.inside hrests hst) hwritten

/-- The beginning of an initializer is a site. -/
theorem finishes_beginInitializer (name : String) :
    Finishes (beginInitializer name) fun s _ s' => ∀ L, Fits L s.scopes →
      Saw [⟨L, .initializer name⟩] s.scopes s s' := by
  refine (finishes_modify _).mono ?_
  rintro s _ _ rfl L hfits
  have htop := hfits.isEmpty_eq_atTopLevel
  cases hempty : s.scopes.isEmpty with
  | true =>
    refine Saw.single rfl rfl ?_ (List.append_nil _).symm
    simp [Site.initializingBehind, ← htop, hempty]
  | false =>
    refine Saw.single rfl rfl ?_ (List.append_nil _).symm
    simp [Site.initializingBehind, ← htop, hempty]

/-- The end of an initializer is a site. -/
theorem finishes_endInitializer (name : String) :
    Finishes (endInitializer name) fun s _ s' => ∀ L,
      Saw [⟨L, .initialized name⟩] s.scopes s s' := by
  refine (finishes_modify _).mono ?_
  rintro s _ _ rfl L
  exact Saw.single rfl rfl rfl (List.append_nil _).symm

/-- The name is declared, then the initializer is seen, and then the name is ready. -/
theorem seesStmt_varDeclaration (h : SeesSites inner) (context : ScopeContext) (name : Name)
    (initializer : Option Expr) :
    SeesStmt context (inner.varDeclaration context name initializer) (.var name initializer) := by
  have hdefine := finishes_setInnermost name.text true
  cases initializer with
  | none =>
    refine (finishes_declareReady name).mono fun s _ s' hsaw L hstands _ _ => ?_
    exact hsaw L hstands.fits
  | some e =>
    refine ((finishes_declare name).bind fun _ => (finishes_beginInitializer name.text).bind
      fun _ => (h.expr context e).bind fun _ => (finishes_endInitializer name.text).bind
        fun _ => hdefine).mono ?_
    rintro s _ _ ⟨_, s₁, hdeclare, _, s₂, hbegin, _, s₃, he, _, s₄, hend, rfl⟩ L hstands hrests
      hwritten
    -- While the initializer is walked, its name is in scope and not ready yet.
    have hwithin : Stands (layersWithin (.var name (some e)) L) context
        (Scope.enter name.text false s.scopes) :=
      hstands.within hrests (Stmt.isName_of_written hwritten)
    have hdeclare := hdeclare L hstands.fits
    rw [hdeclare.scopes] at hbegin
    have hbegin := hbegin _ hwithin.fits
    rw [hbegin.scopes] at he
    have he := he _ hwithin fun o ho =>
      hwritten o (List.mem_cons_of_mem _ (List.mem_cons_of_mem _ ho))
    rw [he.scopes] at hend
    have hend := hend (layersWithin (.var name (some e)) L)
    have hsaw := hdeclare.trans (hbegin.trans (he.trans hend))
    have hscopes : Scope.enter name.text true s₄.scopes = Scope.enter name.text true s.scopes := by
      rw [hsaw.scopes, Scope.enter_enter]
    exact ⟨hscopes, hsaw.uses, hsaw.initializing, hsaw.reports⟩

/-- Whether something may be returned is told by the layers. -/
theorem seesStmt_returnValue (h : SeesSites inner) (context : ScopeContext) (line : Nat)
    (value : Option Expr) :
    SeesStmt context (inner.returnValue context line value) (.returnValue line value) := by
  cases value with
  | none =>
    refine (Unreported.ite (fun _ => finishes_report _ _) fun _ => Unreported.pure ()).mono ?_
    rintro s _ s' hpassed L hstands hrests -
    have hinside : Stands (layersWithin (.returnValue line none) L) context s.scopes :=
      hstands.inside hrests rfl
    rcases hpassed with ⟨hnone, rfl⟩ | ⟨hsome, -, rfl⟩
    · refine Saw.single rfl rfl rfl ?_
      simp [Site.reports, Site.errors, Site.location, ← hinside.inFunction, hnone]
    · refine Saw.single rfl rfl rfl ?_
      simp [Site.reports, Site.errors, Site.location, ← hinside.inFunction, hsome]
  | some e =>
    have hvalue := Unreported.ite (c := context.inFunction = .initializer)
      (fun _ => (finishes_report (Keyword.«return».place line) .returnValueFromInitializer).bind
        fun _ => h.expr context e) fun _ => h.expr context e
    refine (Unreported.ite (fun _ => (finishes_report _ _).bind fun _ => hvalue)
      fun _ => hvalue).mono ?_
    rintro s _ s' hpassed L hstands hrests hwritten
    have hinside : Stands (layersWithin (.returnValue line (some e)) L) context s.scopes :=
      hstands.inside hrests rfl
    have hfunction := hinside.inFunction
    -- One report at most: where there is no function around, there is no initializer either.
    rcases hpassed with ⟨hnone, _, s₁, rfl, hrest⟩ | ⟨hsome, hrest⟩
    · rcases hrest with ⟨hinit, -⟩ | ⟨-, hsaw⟩
      · exact absurd (hnone.symm.trans hinit) (by simp)
      · refine (Saw.single rfl rfl rfl ?_).trans (hsaw _ hinside hwritten)
        simp [Site.reports, Site.errors, Site.location, ← hfunction, hnone]
    · rcases hrest with ⟨hinit, _, s₁, rfl, hsaw⟩ | ⟨hinit, hsaw⟩
      · refine (Saw.single rfl rfl rfl ?_).trans (hsaw _ hinside hwritten)
        simp [Site.reports, Site.errors, Site.location, ← hfunction, hinit]
      · refine (Saw.single rfl rfl rfl ?_).trans (hsaw _ hinside hwritten)
        simp [Site.reports, Site.errors, ← hfunction, hsome, hinit]

/-- A block is a layer. -/
theorem seesStmt_block (h : SeesSites inner) (context : ScopeContext) (body : List Stmt) :
    SeesStmt context (inner.stmtRule context (.block body)) (.block body) := by
  refine ((finishes_openScope []).bind fun _ => (finishes_stmts h context body).bind
    fun _ => finishes_closeScope).mono ?_
  rintro s _ _ ⟨_, _, rfl, _, s₂, hbody, rfl⟩ L hstands hrests hwritten
  have hinside : Stands (layersWithin (.block body) L) context s.scopes :=
    hstands.inside hrests rfl
  have hsaw := hbody _ ⟨hinside.fits.inBlock, hinside.inFunction, hinside.inClass⟩ nofun hwritten
  have hclosed : s₂.scopes.drop 1 = s.scopes := by
    rw [hsaw.scopes, drop_foldl_scopesAfter]
    rfl
  rw [hclosed]
  exact hsaw.rescope

/-- A statement that a condition governs leaves the scopes as they are. -/
theorem finishes_body (h : SeesSites inner) (context : ScopeContext) (st : Stmt) :
    Finishes (inner.stmt context st) fun s _ s' => ∀ L, Stands L context s.scopes → Rests L →
      (∀ o ∈ Occurrence.body st :: st.occurrences s.scopes, o.Written) →
        Saw (st.sites L) s.scopes s s' := by
  refine (h.stmt context st).mono fun s _ s' hst L hstands hrests hwritten => ?_
  have hbody : st.declares = false := hwritten _ List.mem_cons_self
  have hsaw := hst L hstands hrests fun o ho => hwritten o (List.mem_cons_of_mem _ ho)
  rwa [Stmt.scopesAfter_of_not_declares hbody] at hsaw

/-- A branch that declares something does so in the scope around it. -/
theorem seesStmt_ifThen (h : SeesSites inner) (context : ScopeContext) (condition : Expr)
    (consequence : Stmt) (alternative : Option Stmt) :
    SeesStmt context (inner.stmtRule context (.ifThen condition consequence alternative))
      (.ifThen condition consequence alternative) := by
  cases alternative with
  | none =>
    refine (Unreported.bind (h.expr context condition) fun _ =>
      (finishes_body h context consequence).bind fun _ => Unreported.pure ()).mono ?_
    rintro s _ s' ⟨_, s₁, hcondition, _, s₂, hbody, -, rfl⟩ L hstands hrests hwritten
    -- A condition and its branches open no scope, so all of them stand in the same layers.
    have hinside : Stands (layersWithin (.ifThen condition consequence none) L) context s.scopes :=
      hstands.inside hrests rfl
    have hsaw := hcondition _ hinside fun o ho => hwritten o (List.mem_append_left _ ho)
    rw [hsaw.scopes] at hbody
    exact hsaw.trans (hbody _ hinside (rests_within rfl L)
      fun o ho => hwritten o (List.mem_append_right _ ho))
  | some st =>
    refine (Unreported.bind (h.expr context condition) fun _ =>
      (finishes_body h context consequence).bind fun _ => finishes_body h context st).mono ?_
    rintro s _ s' ⟨_, s₁, hcondition, _, s₂, hbody, hother⟩ L hstands hrests hwritten
    have hinside : Stands (layersWithin (.ifThen condition consequence (some st)) L) context
        s.scopes := hstands.inside hrests rfl
    have hsaw := hcondition _ hinside fun o ho => hwritten o (List.mem_append_left _ ho)
    rw [hsaw.scopes] at hbody
    have hwritten' : ∀ o ∈ (.body consequence :: consequence.occurrences s.scopes) ++
        (.body st :: st.occurrences s.scopes), o.Written :=
      fun o ho => hwritten o (List.mem_append_right _ ho)
    have hsaw' := hbody _ hinside (rests_within rfl L)
      fun o ho => hwritten' o (List.mem_append_left _ ho)
    rw [hsaw'.scopes] at hother
    exact hsaw.trans (hsaw'.trans (hother _ hinside (rests_within rfl L)
      fun o ho => hwritten' o (List.mem_append_right _ ho)))

/-- A body that declares something does so in the scope around it. -/
theorem seesStmt_whileDo (h : SeesSites inner) (context : ScopeContext) (condition : Expr)
    (body : Stmt) :
    SeesStmt context (inner.stmtRule context (.whileDo condition body))
      (.whileDo condition body) := by
  refine ((h.expr context condition).bind fun _ => finishes_body h context body).mono ?_
  rintro s _ s' ⟨_, s₁, hcondition, hbody⟩ L hstands hrests hwritten
  have hinside : Stands (layersWithin (.whileDo condition body) L) context s.scopes :=
    hstands.inside hrests rfl
  have hsaw := hcondition _ hinside fun o ho => hwritten o (List.mem_append_left _ ho)
  rw [hsaw.scopes] at hbody
  exact hsaw.trans (hbody _ hinside (rests_within rfl L)
    fun o ho => hwritten o (List.mem_append_right _ ho))

/-!
### Classes

The superclass, the static methods and the other members, in the order in which they are walked. The
scopes for `this` and `super` are opened around the members that have them, and so they belong to
the roles of these.
-/

/-- A superclass is read, and may not be the class itself. -/
theorem sees_superclass (context : ScopeContext) (name : Name) (use : VariableUse) :
    Sees context (ScopeWalk.superclass name use) (superclassOccurrences · name (some use))
      (superclassSites · name (some use)) := by
  have hread := sees_readVariable context use
  refine (Unreported.ite (fun _ => (finishes_report _ _).bind fun _ => hread)
    fun _ => hread).mono ?_
  rintro s _ s' hpassed L hstands hwritten
  have hwritten' := fun o ho => hwritten o (List.mem_cons_of_mem _ ho)
  rcases hpassed with ⟨heq, _, s₁, rfl, hsaw⟩ | ⟨hne, hsaw⟩
  · refine (Saw.single rfl rfl rfl ?_).trans (hsaw L hstands hwritten')
    simp [Site.reports, Site.errors, Site.location, heq]
  · refine (Saw.single rfl rfl rfl ?_).trans (hsaw L hstands hwritten')
    simp [Site.reports, Site.errors, hne]

/-- Members of a class are walked in the same scopes one after the other. -/
theorem finishes_members {p : FunctionDecl → Resolver Unit} (role : String → Role)
    (scopes : List Scope → List Scope)
    (hp : ∀ f, Finishes (p f) fun s _ s' => ∀ L S, Fits L S → s.scopes = scopes S →
      (∀ o ∈ f.occurrences s.scopes, o.Written) →
        Saw (⟨L, .member (role f.name.text) f.name⟩ :: f.sites (role f.name.text) L) s.scopes s s')
    (fs : List FunctionDecl) :
    Finishes (fs.forM p) fun s _ s' => ∀ L S, Fits L S → s.scopes = scopes S →
      (∀ o ∈ functionsOccurrences s.scopes fs, o.Written) →
        Saw (membersSites role L fs) s.scopes s s' := by
  induction fs with
  | nil =>
    refine (Unreported.pure ()).mono ?_
    rintro _ _ s ⟨-, rfl⟩ L S - - -
    exact .refl s
  | cons f fs ih =>
    refine ((hp f).bind fun _ => ih).mono ?_
    rintro s _ s' ⟨_, s₁, hfirst, hrest⟩ L S hfits hscopes hwritten
    rw [functionsOccurrences] at hwritten
    have hsaw := hfirst L S hfits hscopes fun o ho => hwritten o (List.mem_append_left _ ho)
    -- A member leaves the scopes as they were, so the next one starts in the same.
    rw [hsaw.scopes] at hrest
    exact hsaw.trans (hrest L S hfits hscopes fun o ho => hwritten o (List.mem_append_right _ ho))

/-- A static method is seen as a member, and then its body. -/
theorem finishes_staticMethod (h : SeesSites inner) (f : FunctionDecl) :
    Finishes (inner.staticMethod f) fun s _ s' => ∀ L S, Fits L S → s.scopes = S →
      (∀ o ∈ f.occurrences s.scopes, o.Written) →
        Saw (⟨L, .member .staticMethod f.name⟩ :: f.sites .staticMethod L) s.scopes s s' := by
  have hbody := finishes_functionDecl h ⟨.method, .staticMethod⟩ f
  refine (Unreported.ite (fun _ => (finishes_report _ _).bind fun _ => hbody)
    fun _ => hbody).mono ?_
  rintro s _ s' hpassed L S hfits hscopes hwritten
  rcases hpassed with ⟨heq, _, s₁, rfl, hsaw⟩ | ⟨hne, hsaw⟩
  · refine (Saw.single rfl rfl rfl ?_).trans (hsaw .staticMethod L S hscopes hfits rfl rfl hwritten)
    simp [Site.reports, Site.errors, Site.location, heq]
  · refine (Saw.single rfl rfl rfl ?_).trans (hsaw .staticMethod L S hscopes hfits rfl rfl hwritten)
    simp [Site.reports, Site.errors, hne]

/-- A method is seen as a member, and then its body. -/
theorem finishes_instanceMethod (h : SeesSites inner) (parent : Option VariableUse)
    (f : FunctionDecl) :
    Finishes (inner.instanceMethod (if parent.isSome then .subclass else .«class») f)
      fun s _ s' => ∀ L S, Fits L S → s.scopes = methodScopes S parent →
        (∀ o ∈ f.occurrences s.scopes, o.Written) →
          Saw (⟨L, .member (Role.ofMethod parent.isSome f.name.text) f.name⟩ ::
            f.sites (Role.ofMethod parent.isSome f.name.text) L) s.scopes s s' := by
  refine (finishes_functionDecl h _ f).mono ?_
  intro s _ s' hsaw L S hfits hscopes hwritten
  have hrole : s.scopes = (Role.ofMethod parent.isSome f.name.text).scopes ++ S := by
    rw [hscopes]
    cases parent <;> rfl
  have hsaw := hsaw _ L S hrole hfits (by unfold Role.ofMethod Role.context; split <;> simp_all)
    rfl hwritten
  exact (Saw.single rfl rfl rfl (by simp [Site.reports, Site.errors, Role.ofMethod])).trans hsaw

/-- The methods of a class are walked in scopes of their own, which are closed again. -/
theorem sees_methods (h : SeesSites inner) (context : ScopeContext) (parent : Option VariableUse)
    (methods : List FunctionDecl) :
    Sees context (do
        if parent.isSome then
          openScope [("super", true)]
        openScope [("this", true)]
        methods.forM (inner.instanceMethod (if parent.isSome then .subclass else .«class»))
        closeScope
        if parent.isSome then
          closeScope)
      (fun S => functionsOccurrences (methodScopes S parent) methods)
      (membersSites (Role.ofMethod parent.isSome) · methods) := by
  have hmethods := finishes_members (Role.ofMethod parent.isSome) (methodScopes · parent)
    (finishes_instanceMethod h parent) methods
  cases parent with
  | none =>
    refine ((finishes_openScope _).bind fun _ => hmethods.bind fun _ => finishes_closeScope.bind
      fun _ => Unreported.pure ()).mono ?_
    rintro s _ _ ⟨_, _, rfl, _, s₁, hsaw, _, _, rfl, -, rfl⟩ L hstands hwritten
    have hsaw := hsaw L s.scopes hstands.fits rfl hwritten
    rw [hsaw.scopes]
    exact hsaw.rescope
  | some use =>
    refine ((finishes_openScope _).bind fun _ => (finishes_openScope _).bind fun _ => hmethods.bind
      fun _ => finishes_closeScope.bind fun _ => finishes_closeScope).mono ?_
    rintro s _ _ ⟨_, _, rfl, _, _, rfl, _, s₁, hsaw, _, _, rfl, rfl⟩ L hstands hwritten
    have hsaw := hsaw L s.scopes hstands.fits rfl hwritten
    -- Both scopes are closed, and below them nothing has changed.
    simp only [hsaw.scopes]
    exact ⟨rfl, hsaw.uses, hsaw.initializing, hsaw.reports⟩

/-- Static methods come before the methods of instances. -/
theorem sees_staticMethods (h : SeesSites inner) (context : ScopeContext)
    (staticMethods : List FunctionDecl) :
    Sees context (staticMethods.forM inner.staticMethod) (functionsOccurrences · staticMethods)
      (membersSites (fun _ => .staticMethod) · staticMethods) := by
  have hstatics :=
    finishes_members (fun _ => .staticMethod) id (finishes_staticMethod h) staticMethods
  exact hstatics.mono fun s _ s' hsaw L hstands => hsaw L s.scopes hstands.fits rfl

/-- A class is declared, and then its members are seen. -/
theorem seesStmt_classDeclaration (h : SeesSites inner) (context : ScopeContext) (name : Name)
    (parent : Option VariableUse) (methods staticMethods : List FunctionDecl) :
    SeesStmt context (inner.classDeclaration name parent methods staticMethods)
      (.classDecl name parent methods staticMethods) := by
  refine ((finishes_declareReady name).bind fun _ => (?_ : Sees context _
    (classBody name parent methods staticMethods) fun L => superclassSites L name parent ++
      (membersSites (fun _ => .staticMethod) L staticMethods ++
        membersSites (Role.ofMethod parent.isSome) L methods))).mono ?_
  -- Superclass, static methods and methods are walked in this order.
  · have hrest := sees_pair (sees_staticMethods h context staticMethods)
      (sees_methods h context parent methods)
    cases parent with
    | none => exact hrest
    | some use => exact sees_pair (sees_superclass context name use) hrest
  · rintro s _ s' ⟨_, s₁, hdeclare, hbody⟩ L hstands hrests hwritten
    have hdeclare := hdeclare L hstands.fits
    rw [hdeclare.scopes] at hbody
    have hwithin := hstands.within hrests (Stmt.isName_of_written hwritten)
    exact hdeclare.trans (hbody _ hwithin fun o ho => hwritten o (List.mem_cons_of_mem _ ho))

/-- A function is declared, and then its body is seen. -/
theorem seesStmt_function (h : SeesSites inner) (context : ScopeContext) (f : FunctionDecl) :
    SeesStmt context (inner.stmtRule context (.function f)) (.function f) := by
  refine ((finishes_declareReady f.name).bind fun _ =>
    finishes_functionDecl h ⟨.function, context.inClass⟩ f).mono ?_
  rintro s _ s' ⟨_, s₁, hdeclare, hbody⟩ L hstands hrests hwritten
  have hdeclare := hdeclare L hstands.fits
  rw [hdeclare.scopes] at hbody
  have hwithin := hstands.within hrests (Stmt.isName_of_written hwritten)
  exact hdeclare.trans (hbody .function _ _ rfl hwithin.fits rfl hwithin.inClass
    fun o ho => hwritten o (List.mem_cons_of_mem _ ho))

/-- Statements, part by part. -/
theorem seesStmt_stmtRule (h : SeesSites inner) (context : ScopeContext) (st : Stmt) :
    SeesStmt context (inner.stmtRule context st) st := by
  cases st with
  | expression e =>
    exact seesStmt_of_expr (h.expr context e) rfl (fun _ => rfl) (fun _ => rfl) fun _ => rfl
  | print e =>
    exact seesStmt_of_expr (h.expr context e) rfl (fun _ => rfl) (fun _ => rfl) fun _ => rfl
  | var name initializer => exact seesStmt_varDeclaration h context name initializer
  | block body => exact seesStmt_block h context body
  | ifThen condition s alternative => exact seesStmt_ifThen h context condition s alternative
  | whileDo condition s => exact seesStmt_whileDo h context condition s
  | function f => exact seesStmt_function h context f
  | returnValue line value => exact seesStmt_returnValue h context line value
  | classDecl name parent methods staticMethods =>
    exact seesStmt_classDeclaration h context name parent methods staticMethods

/-!
## Tying the knot

Induction on the levels of nesting.
-/

/-- The walk sees the sites of each tree, at every depth. -/
theorem seesSites_scopeWalk (depth : Nat) : SeesSites (scopeWalk depth) := by
  induction depth with
  | zero => exact ⟨fun _ _ => Unreported.throw (by simp), fun _ _ => Unreported.throw (by simp)⟩
  | succ depth ih => exact ⟨sees_exprRule ih, seesStmt_stmtRule ih⟩

/-!
## Programs

A program is seen without any layer around it. What is nested too deep ends the walk, which then has
not finished.
-/

/-- **What is resolved, and what is reported.** If the walk over a program comes to its end, the
resolved uses are those with a distance in the text, and the reports are those about its sites, one
after the other. -/
theorem resolve_of_ok {depth : Nat} {program : List Stmt} {s : ScopeState}
    (hwritten : ∀ o ∈ stmtsOccurrences [] program, o.Written) (endLine : Nat)
    (hrun : program.forM ((scopeWalk depth).stmt ⟨.none, .none⟩) ⟨[], [], [], []⟩ = .ok () s) :
    resolve depth endLine program =
      ⟨(programSites program).filterMap Site.resolved?, reportsAt [] (programSites program)⟩ := by
  have hsees := finishes_stmts (seesSites_scopeWalk depth) ⟨.none, .none⟩ program ⟨[], [], [], []⟩
  rw [hrun] at hsees
  have hsaw := hsees.2 rfl [.atStart .program] ⟨.program rfl, rfl, rfl⟩ nofun hwritten
  unfold resolve
  rw [hrun]
  simp [hsaw.uses, hsaw.reports, programSites]

/-- What is reported about a site is no matter of nesting. -/
theorem nesting_not_mem_reportsAt (place : Location) (initializing : List String)
    (ps : List Site) : .located place .nesting ∉ reportsAt initializing ps := by
  induction ps generalizing initializing with
  | nil => exact List.not_mem_nil
  | cons p ps ih =>
    intro hmem
    rcases List.mem_append.mp hmem with hmem | hmem
    · obtain ⟨e, -, heq⟩ := List.mem_map.mp hmem
      cases heq
    · exact ih _ hmem

/-- Nothing is nested too deeply. -/
def Resolution.Finished (r : Resolution) : Prop := ∀ place, .located place .nesting ∉ r.reports

/-- A walk that finishes gives the distances at all sites, and the reports at all sites. -/
theorem resolve_of_finished {depth endLine : Nat} {program : List Stmt}
    (hwritten : ∀ o ∈ stmtsOccurrences [] program, o.Written)
    (h : (resolve depth endLine program).Finished) :
    resolve depth endLine program =
      ⟨(programSites program).filterMap Site.resolved?, reportsAt [] (programSites program)⟩ := by
  cases hrun : program.forM ((scopeWalk depth).stmt ⟨.none, .none⟩) ⟨[], [], [], []⟩ with
  | ok _ s => exact resolve_of_ok hwritten endLine hrun
  | error e s =>
    have hnesting : .located (.endOfSource endLine) .nesting ∈
        (resolve depth endLine program).reports := by
      unfold resolve
      rw [hrun]
      exact List.mem_append_right _ (List.mem_singleton.mpr rfl)
    exact absurd hnesting (h _)

/-- With as many levels as its height, every program can be resolved. -/
theorem resolve_finished {depth : Nat} {program : List Stmt}
    (hwritten : ∀ o ∈ stmtsOccurrences [] program, o.Written) (endLine : Nat)
    (h : stmtsHeight program ≤ depth) : (resolve depth endLine program).Finished := by
  obtain ⟨_, s, hrun⟩ := completes_program h ⟨[], [], [], []⟩
  rw [resolve_of_ok hwritten endLine hrun]
  exact fun place => nesting_not_mem_reportsAt place [] (programSites program)

end LoxLang
