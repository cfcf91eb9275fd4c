import LoxLang.Proofs.Scoping

/-!
# Sites in a tree

Whatever is looked at when names are resolved stands at a site of the tree: in statements of the
program, of a block or of a function, one around the other (`Layer`). `sites` lists what stands in a
tree in the order in which it is looked at, each with the layers around it, and says nothing about
how names are resolved.

Distances and errors are then a matter of the layers alone: `Site.distance?` is the distance of a
use, and `Site.errors` is what is wrong at a site. Only for readings of global variables does it
matter what was met before, which `initializingBehind` keeps account of.
-/

namespace LoxLang

/-!
## Layers

What is around a place: the program, blocks, and functions with their kinds, from the innermost
outwards. Each layer knows the names declared in it so far, and whose initializer the place is in.
-/

/-- What a function is for. Methods of instances know whether they initialize, and whether their
class has a superclass. -/
inductive Role where
  | function
  | method (isInitializer subclass : Bool)
  | staticMethod
deriving DecidableEq, Repr

/-- The scopes that stand just around a function: those that hold `this` and `super`. -/
def Role.scopes : Role → List Scope
  | function | staticMethod => []
  | method _ false => [[("this", true)]]
  | method _ true => [[("this", true)], [("super", true)]]

/-- What a function is for the statements in it. -/
def Role.context : Role → FunctionContext
  | function => .function
  | method true _ => .initializer
  | method false _ | staticMethod => .method

/-- The role of a method of instances. -/
def Role.ofMethod (subclass : Bool) (name : String) : Role :=
  method (name = initializerName) subclass

/-- The name that a statement declares. -/
def Stmt.declaredName? : Stmt → Option String
  | .var name _ => some name.text
  | .function f => some f.name.text
  | .classDecl name _ _ _ => some name.text
  | _ => none

/-- The variable whose initializer stands in a statement. -/
def Stmt.initializes? : Stmt → Option String
  | .var name (some _) => some name.text
  | _ => none

/-- What the statements of a layer belong to. -/
inductive LayerKind where
  | program
  | block
  /-- The body of a function, which shares a scope with the parameters. -/
  | function (role : Role) (params : List Name)
deriving DecidableEq, Repr

/-- Statements that a site stands among: those before it, and the one that it stands in unless it is
in front of the next one. -/
structure Layer where
  kind : LayerKind
  before : List Stmt
  here? : Option Stmt

namespace Layer

/-- A layer at its beginning. -/
def atStart (kind : LayerKind) : Layer := ⟨kind, [], none⟩

/-- The names that are declared by the statements that stand before a site or contain it. -/
def declaredNames (l : Layer) : List String :=
  (l.before ++ l.here?.toList).filterMap Stmt.declaredName?

/-- The names in the scope of a layer, as far as a site can see them: the parameters, and what has
been declared. Globals are in no scope. -/
def names (l : Layer) : List String :=
  match l.kind with
  | .program => []
  | .block => l.declaredNames
  | .function _ params => params.map (·.text) ++ l.declaredNames

/-- How many scopes a layer has. The scopes of `this` and `super` belong to the methods in them. -/
def scopes (l : Layer) : Nat :=
  match l.kind with
  | .program => 0
  | .block => 1
  | .function role _ => role.scopes.length + 1

/-- The layer for what stands in a statement. -/
def within (s : Stmt) (l : Layer) : Layer := { l with here? := some s }

/-- The layer for what stands behind a statement. -/
def behind (s : Stmt) (l : Layer) : Layer := { l with before := l.before ++ [s], here? := none }

/-- The variable in whose initializer a site stands. -/
def ownVariable? (l : Layer) : Option String := l.here?.bind Stmt.initializes?

/-- Whether a layer is the body of a member of a class. -/
def isMember (l : Layer) : Bool :=
  match l.kind with
  | .function .function _ => false
  | .function _ _ => true
  | .program | .block => false

end Layer

/-- The layers for what stands in a statement. -/
def layersWithin (s : Stmt) (L : List Layer) : List Layer := L.modifyHead (Layer.within s)

/-- The layers for what stands behind a statement. -/
def layersBehind (s : Stmt) (L : List Layer) : List Layer := L.modifyHead (Layer.behind s)

/-- Whether something stands in no block and in no function. -/
def atTopLevel : List Layer → Bool
  | [] => false
  | l :: _ => l.kind = .program

/-- The variable in whose initializer something stands, with no function in between. -/
def ownVariable? : List Layer → Option String
  | [] => none
  | l :: _ => l.ownVariable?

/-- The kind of the innermost function around something. -/
def functionContext : List Layer → FunctionContext
  | [] => .none
  | l :: L =>
    match l.kind with
    | .function role _ => role.context
    | .program | .block => functionContext L

/-- What the innermost member of a class around something makes of `this` and `super`. -/
def classContext : List Layer → ClassContext
  | [] => .none
  | l :: L =>
    match l.kind with
    | .function (.method _ subclass) _ => if subclass then .subclass else .«class»
    | .function .staticMethod _ => .staticMethod
    | .function .function _ | .program | .block => classContext L

/-! ## Distances -/

/-- The distance to a scope, found at the innermost layer that decides about it: `stop?` gives the
distance from the scope of that layer, or says that there is none. -/
def distanceTo? (stop? : Layer → Option (Option Nat)) : List Layer → Option Nat
  | [] => none
  | l :: L =>
    match stop? l with
    | some d? => d?
    | none => (distanceTo? stop? L).map (l.scopes + ·)

/-- A layer that has a name holds it in its own scope. -/
def stopsAtName? (name : String) (l : Layer) : Option (Option Nat) :=
  if name ∈ l.names then some (some 0) else none

/-- The scope of `this` lies just around a method, and static methods have none. -/
def stopsAtThis? (l : Layer) : Option (Option Nat) :=
  match l.kind with
  | .function (.method _ _) _ => some (some 1)
  | .function .staticMethod _ => some none
  | .function .function _ | .program | .block => none

/-- The scope of `super` lies just around that of `this`, if the class has a superclass. -/
def stopsAtSuper? (l : Layer) : Option (Option Nat) :=
  match l.kind with
  | .function (.method _ subclass) _ => some (if subclass then some 2 else none)
  | .function .staticMethod _ => some none
  | .function .function _ | .program | .block => none

/-- The distance to the scope of the innermost layer that holds a name. -/
def nameDistance? (name : String) : List Layer → Option Nat := distanceTo? (stopsAtName? name)

/-- The distance to the scope of `this`. -/
def thisDistance? : List Layer → Option Nat := distanceTo? stopsAtThis?

/-- The distance to the scope of `super`. -/
def superDistance? : List Layer → Option Nat := distanceTo? stopsAtSuper?

/-!
## Sites

A site is something that can be wrong or has a distance, with the layers around it. The sites of a
program are listed in the order in which resolving comes by.
-/

/-- What stands at a site. -/
inductive Item where
  | use (kind : UseKind) (name : String) (line : Nat) (id : UseId)
  /-- A name that enters the innermost scope. -/
  | declaration (name : Name)
  | returnValue (line : Nat) (hasValue : Bool)
  /-- A class that names another one as its superclass. -/
  | superclass (name parent : Name)
  | member (role : Role) (name : Name)
  /-- The initializer of a variable begins. -/
  | initializer (name : String)
  /-- The initializer of a variable is over. -/
  | initialized (name : String)
deriving DecidableEq, Repr

/-- Something that stands in a tree, and the layers around it from the innermost outwards. -/
structure Site where
  layers : List Layer
  item : Item

/-- The parameters of a function. -/
def parameterSites (role : Role) (L : List Layer) : List Name → List Name → List Site
  | _, [] => []
  | seen, x :: xs => ⟨.atStart (.function role seen) :: L, .declaration x⟩ ::
      parameterSites role L (seen ++ [x]) xs

/-- The superclass of a class. -/
def superclassSites (L : List Layer) (name : Name) : Option VariableUse → List Site
  | none => []
  | some use => [⟨L, .superclass name use.name⟩,
      ⟨L, .use .«variable» use.name.text use.name.line use.id⟩]

mutual

/-- What stands in an expression. -/
def Expr.sites (L : List Layer) : Expr → List Site
  | .literal _ => []
  | .grouping e => e.sites L
  | .unary _ _ e => e.sites L
  | .binary _ _ left right => left.sites L ++ right.sites L
  | .logical _ _ left right => left.sites L ++ right.sites L
  | .«variable» use => [⟨L, .use .«variable» use.name.text use.name.line use.id⟩]
  | .assign id name value => value.sites L ++ [⟨L, .use .assignment name.text name.line id⟩]
  | .call callee _ arguments => callee.sites L ++ exprsSites L arguments
  | .get object _ => object.sites L
  | .set object _ value => value.sites L ++ object.sites L
  | .lambda _ params body =>
    parameterSites .function L [] params ++
      stmtsSites (.atStart (.function .function params) :: L) body
  | .this id line => [⟨L, .use .this "this" line id⟩]
  | .super id line _ => [⟨L, .use .super "super" line id⟩]

/-- What stands in a statement, given the layers in front of it. -/
def Stmt.sites (L : List Layer) : Stmt → List Site
  | .expression e => e.sites (layersWithin (.expression e) L)
  | .print e => e.sites (layersWithin (.print e) L)
  | .var name none => [⟨L, .declaration name⟩]
  | .var name (some e) =>
    ⟨L, .declaration name⟩ ::
      ⟨layersWithin (.var name (some e)) L, .initializer name.text⟩ ::
        (e.sites (layersWithin (.var name (some e)) L) ++
          [⟨layersWithin (.var name (some e)) L, .initialized name.text⟩])
  | .block body => stmtsSites (.atStart .block :: layersWithin (.block body) L) body
  | .ifThen condition s none =>
    condition.sites (layersWithin (.ifThen condition s none) L) ++
      s.sites (layersWithin (.ifThen condition s none) L)
  | .ifThen condition s (some t) =>
    condition.sites (layersWithin (.ifThen condition s (some t)) L) ++
      (s.sites (layersWithin (.ifThen condition s (some t)) L) ++
        t.sites (layersWithin (.ifThen condition s (some t)) L))
  | .whileDo condition s =>
    condition.sites (layersWithin (.whileDo condition s) L) ++
      s.sites (layersWithin (.whileDo condition s) L)
  | .function f => ⟨L, .declaration f.name⟩ :: f.sites .function (layersWithin (.function f) L)
  | .returnValue line none => [⟨layersWithin (.returnValue line none) L, .returnValue line false⟩]
  | .returnValue line (some e) =>
    ⟨layersWithin (.returnValue line (some e)) L, .returnValue line true⟩ ::
      e.sites (layersWithin (.returnValue line (some e)) L)
  | .classDecl name parent methods staticMethods =>
    ⟨L, .declaration name⟩ ::
      (superclassSites (layersWithin (.classDecl name parent methods staticMethods) L) name
          parent ++
        (membersSites (fun _ => .staticMethod)
            (layersWithin (.classDecl name parent methods staticMethods) L) staticMethods ++
          membersSites (Role.ofMethod parent.isSome)
            (layersWithin (.classDecl name parent methods staticMethods) L) methods))

/-- What stands in a function, given what it is for and the layers around it. -/
def FunctionDecl.sites (role : Role) (L : List Layer) : FunctionDecl → List Site
  | ⟨_, params, body⟩ =>
    parameterSites role L [] params ++ stmtsSites (.atStart (.function role params) :: L) body

/-- What stands in expressions. -/
def exprsSites (L : List Layer) : List Expr → List Site
  | [] => []
  | e :: es => e.sites L ++ exprsSites L es

/-- What stands in statements one after the other. -/
def stmtsSites (L : List Layer) : List Stmt → List Site
  | [] => []
  | s :: ss => s.sites L ++ stmtsSites (layersBehind s L) ss

/-- What stands in members of a class, whose roles depend on their names. -/
def membersSites (role : String → Role) (L : List Layer) : List FunctionDecl → List Site
  | [] => []
  | f :: fs => ⟨L, .member (role f.name.text) f.name⟩ ::
      (f.sites (role f.name.text) L ++ membersSites role L fs)

end

/-- What stands in a program. -/
def programSites (program : List Stmt) : List Site := stmtsSites [.atStart .program] program

/-!
## What is said of a site

For each site there is its distance and what is reported there, both by its layers. Only a read at
top level depends on more, on the initializers that have begun and ended before it.
-/

namespace Site

/-- The distance of a use to what it means, if that is local. -/
def distance? (p : Site) : Option Nat :=
  match p.item with
  | .use .«variable» name _ _ | .use .assignment name _ _ => nameDistance? name p.layers
  | .use .this _ _ _ => thisDistance? p.layers
  | .use .super _ _ _ => superDistance? p.layers
  | _ => none

/-- The entry of a use among the resolved ones. -/
def resolved? (p : Site) : Option Resolved :=
  match p.item with
  | .use kind name line id => p.distance?.map (⟨kind, name, line, ·, id⟩)
  | _ => none

/-- The global names whose initializers are being looked at behind a site. That a variable has been
initialized ends it for all variables of the name. -/
def initializingBehind (initializing : List String) (p : Site) : List String :=
  match p.item with
  | .initializer x => if atTopLevel p.layers then x :: initializing else initializing
  | .initialized x => initializing.filter (· ≠ x)
  | _ => initializing

/-- Whether a variable that is read at a site is not ready there, given the global names whose
initializers are being looked at. -/
def isEarly (initializing : List String) (layers : List Layer) (name : String) : Bool :=
  if atTopLevel layers then initializing.contains name else ownVariable? layers = some name

/-- What is wrong at a site, given the global names whose initializers are being looked at. -/
def errors (initializing : List String) (p : Site) : List ScopeError :=
  match p.item with
  | .use .«variable» name _ _ =>
    if isEarly initializing p.layers name then [.ownInitializer] else []
  | .use .assignment _ _ _ => []
  | .use .this _ _ _ =>
    match classContext p.layers with
    | .none => [.thisOutsideClass]
    | .staticMethod => [.thisInStaticMethod]
    | .«class» | .subclass => []
  | .use .super _ _ _ =>
    match classContext p.layers with
    | .none => [.superOutsideClass]
    | .staticMethod => [.superInStaticMethod]
    | .«class» => [.superWithoutSuperclass]
    | .subclass => []
  | .declaration name =>
    if p.layers.head?.any (name.text ∈ ·.names) then [.alreadyDeclared] else []
  | .returnValue _ hasValue =>
    if functionContext p.layers = .none then [.returnAtTopLevel]
    else if hasValue ∧ functionContext p.layers = .initializer then [.returnValueFromInitializer]
    else []
  | .superclass name parent => if name.text = parent.text then [.inheritsFromItself] else []
  | .member role name =>
    if role = .staticMethod ∧ name.text = initializerName then [.staticInitializer] else []
  | .initializer _ | .initialized _ => []

/-- Where the errors at a site are reported. -/
def location (p : Site) : Location :=
  match p.item with
  | .use .this _ line _ => Keyword.this.place line
  | .use .super _ line _ => Keyword.super.place line
  | .use _ name line _ => Name.place ⟨name, line⟩
  | .declaration name | .superclass _ name | .member _ name => name.place
  | .returnValue line _ => Keyword.«return».place line
  | .initializer x | .initialized x => Name.place ⟨x, 0⟩

/-- The reports about a site. -/
def reports (initializing : List String) (p : Site) : List Report :=
  (p.errors initializing).map fun e => .located p.location (.scope e)

end Site

/-- The global names whose initializers are being looked at behind some sites. -/
def initializingBehind (initializing : List String) (ps : List Site) : List String :=
  ps.foldl Site.initializingBehind initializing

/-- The reports about some sites, given the global names whose initializers are being looked at in
front of them. -/
def reportsAt : List String → List Site → List Report
  | _, [] => []
  | initializing, p :: ps =>
    p.reports initializing ++ reportsAt (p.initializingBehind initializing) ps

end LoxLang
