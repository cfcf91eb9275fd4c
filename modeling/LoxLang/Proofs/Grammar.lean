import LoxLang.Tree.Parsing

/-!
# The grammar of the language

What the language is, as a grammar: `Derives levels phrase first tokens next` says that `tokens`
are a way to write down `phrase`, with at most `levels` levels of nesting. A phrase is a
nonterminal together with the tree that it stands for, so a derivation says at once which tokens
are legal and which tree they mean. Uses of names are numbered from `first` on in the order in
which they are read, and `next` is the first number left over.

Nothing here refers to the parser. Operators with two operands are left-recursive rules, one level
for each precedence; assignment is right-recursive. That an `else` belongs to the nearest `if` is
said by the flag of a statement phrase: a statement is *open* if an `else` behind it would belong to
an `if` inside it, and what stands before an `else` must not be open.
-/

namespace LoxLang

/-- A keyword at a line. -/
abbrev Keyword.token (k : Keyword) (line : Nat) : Token := ⟨.keyword k, line⟩

/-- A mark at a line. -/
abbrev Mark.token (m : Mark) (line : Nat) : Token := ⟨.mark m, line⟩

/-- The token of a name. -/
abbrev Name.token (x : Name) : Token := ⟨.identifier x.text, x.line⟩

/-- The value that a token stands for when it is an expression of its own. -/
def TokenKind.constant? : TokenKind → Option Literal
  | .keyword .«true» => some (.bool true)
  | .keyword .«false» => some (.bool false)
  | .keyword .nil => some .nil
  | kind => kind.literal?

/-- The levels of operators with two operands, from the loosest to the tightest. -/
inductive Level where
  | disjunction | conjunction | equality | comparison | term | factor
deriving DecidableEq, Repr

/-- The operators of a level: the token of each, and how it joins two operands at its line. -/
def Level.operators : Level → List (TokenKind × (Nat → Expr → Expr → Expr))
  | disjunction => [.or].map fun op => (op.token, .logical op)
  | conjunction => [.and].map fun op => (op.token, .logical op)
  | equality => [.notEqual, .equal].map fun op => (op.token, .binary op)
  | comparison =>
    [.greater, .greaterEqual, .less, .lessEqual].map fun op => (op.token, .binary op)
  | term => [.subtract, .add].map fun op => (op.token, .binary op)
  | factor => [.divide, .multiply].map fun op => (op.token, .binary op)

/-- The tree of a `for` loop. Without a condition the loop runs on; the last clause is done after
each round; the first clause has a block of its own around the loop. -/
def loopTree (first : Option Stmt) (condition last : Option Expr) (body : Stmt) : Stmt :=
  let condition := condition.getD (.literal (.bool true))
  match first, last with
  | none, none => .whileDo condition body
  | none, some last => .whileDo condition (.block [body, .expression last])
  | some first, none => .block [first, .whileDo condition body]
  | some first, some last => .block [first, .whileDo condition (.block [body, .expression last])]

/-- A nonterminal of the grammar, with the tree that it stands for. -/
inductive Phrase where
  | primary (e : Expr)
  | call (e : Expr)
  | unary (e : Expr)
  | chain (l : Level) (e : Expr)
  | expression (e : Expr)
  /-- The arguments of a call, between its parentheses. -/
  | arguments (es : List Expr)
  /-- Further arguments, each behind a comma. -/
  | moreArguments (es : List Expr)
  /-- The parameters of a function, between its parentheses. -/
  | parameters (xs : List Name)
  /-- Further parameters, each behind a comma. -/
  | moreParameters (xs : List Name)
  /-- A variable declaration behind its keyword. -/
  | «variable» (s : Stmt)
  /-- The first clause of a `for` loop, with its semicolon. -/
  | initializer (s : Option Stmt)
  /-- An expression that may be missing. -/
  | clause (e : Option Expr)
  /-- A statement that declares nothing. It is open if it ends in an `if` without an `else`. -/
  | statement (isOpen : Bool) (s : Stmt)
  | declaration (s : Stmt)
  | declarations (ss : List Stmt)
  /-- A function or method from its name on. -/
  | function (f : FunctionDecl)
  /-- The body of a class: methods of instances, and those of the class behind `class`. -/
  | members (methods staticMethods : List FunctionDecl)

/-- The phrase that the operands of a level are. -/
def Level.operand : Level → Expr → Phrase
  | disjunction => .chain conjunction
  | conjunction => .chain equality
  | equality => .chain comparison
  | comparison => .chain term
  | term => .chain factor
  | factor => .unary

open Mark in
/-- How phrases are written. -/
inductive Derives : Nat → Phrase → UseId → List Token → UseId → Prop where
  -- Expressions without operators.
  | literal {d n line : Nat} {kind : TokenKind} {value : Literal}
      (hkind : kind.constant? = some value) :
      Derives d (.primary (.literal value)) n [⟨kind, line⟩] n
  | «variable» {d n : Nat} {x : Name} :
      Derives d (.primary (.«variable» ⟨n, x⟩)) n [x.token] (n + 1)
  | grouping {d n m lineL lineR : Nat} {ts : List Token} {e : Expr}
      (he : Derives d (.expression e) n ts m) :
      Derives (d + 1) (.primary (.grouping e)) n
        (leftParen.token lineL :: (ts ++ [rightParen.token lineR])) m
  | lambda {d n m line lineL lineR lineB lineE : Nat} {xs : List Name} {body : List Stmt}
      {ts ts' : List Token} (hxs : Derives d (.parameters xs) n ts n)
      (hlen : xs.length ≤ maxArguments) (hbody : Derives d (.declarations body) n ts' m) :
      Derives d (.primary (.lambda line xs body)) n
        (Keyword.«fun».token line :: leftParen.token lineL :: (ts ++
          rightParen.token lineR :: leftBrace.token lineB :: (ts' ++ [rightBrace.token lineE]))) m
  | this {d n line : Nat} :
      Derives d (.primary (.this n line)) n [Keyword.this.token line] (n + 1)
  | super {d n line lineD : Nat} {method : Name} :
      Derives d (.primary (.super n line method)) n
        [Keyword.super.token line, dot.token lineD, method.token] (n + 1)
  -- Calls and properties.
  | primary {d n m : Nat} {ts : List Token} {e : Expr} (he : Derives d (.primary e) n ts m) :
      Derives d (.call e) n ts m
  | call {d n m k lineL line : Nat} {ts ts' : List Token} {callee : Expr} {es : List Expr}
      (hcallee : Derives d (.call callee) n ts m) (hes : Derives d (.arguments es) m ts' k)
      (hlen : es.length ≤ maxArguments) :
      Derives d (.call (.call callee line es)) n
        (ts ++ leftParen.token lineL :: (ts' ++ [rightParen.token line])) k
  | get {d n m lineD : Nat} {ts : List Token} {object : Expr} {x : Name}
      (hobject : Derives d (.call object) n ts m) :
      Derives d (.call (.get object x)) n (ts ++ [dot.token lineD, x.token]) m
  | noArguments {d n : Nat} : Derives d (.arguments []) n [] n
  | arguments {d n m k : Nat} {ts ts' : List Token} {e : Expr} {es : List Expr}
      (he : Derives d (.expression e) n ts m) (hes : Derives (d + 1) (.moreArguments es) m ts' k) :
      Derives (d + 1) (.arguments (e :: es)) n (ts ++ ts') k
  | noMoreArguments {d n : Nat} : Derives d (.moreArguments []) n [] n
  | moreArguments {d n m k line : Nat} {ts ts' : List Token} {e : Expr} {es : List Expr}
      (he : Derives d (.expression e) n ts m) (hes : Derives (d + 1) (.moreArguments es) m ts' k) :
      Derives (d + 1) (.moreArguments (e :: es)) n (comma.token line :: (ts ++ ts')) k
  -- Operators.
  | suffixed {d n m : Nat} {ts : List Token} {e : Expr} (he : Derives d (.call e) n ts m) :
      Derives d (.unary e) n ts m
  | unary {d n m line : Nat} {ts : List Token} {op : UnaryOperator} {e : Expr}
      (he : Derives d (.unary e) n ts m) :
      Derives (d + 1) (.unary (.unary op line e)) n (⟨op.token, line⟩ :: ts) m
  | operand {d n m : Nat} {ts : List Token} {l : Level} {e : Expr}
      (he : Derives d (l.operand e) n ts m) : Derives d (.chain l e) n ts m
  | joined {d n m k line : Nat} {ts ts' : List Token} {l : Level} {kind : TokenKind}
      {join : Nat → Expr → Expr → Expr} {left right : Expr}
      (hleft : Derives d (.chain l left) n ts m) (hop : (kind, join) ∈ l.operators)
      (hright : Derives d (l.operand right) m ts' k) :
      Derives d (.chain l (join line left right)) n (ts ++ ⟨kind, line⟩ :: ts') k
  | value {d n m : Nat} {ts : List Token} {e : Expr}
      (he : Derives d (.chain .disjunction e) n ts m) : Derives d (.expression e) n ts m
  | assign {d n m line : Nat} {ts : List Token} {x : Name} {e : Expr}
      (he : Derives d (.expression e) (n + 1) ts m) :
      Derives (d + 1) (.expression (.assign m x e)) n (x.token :: equal.token line :: ts) (m + 1)
  | set {d n m k lineD line : Nat} {ts ts' : List Token} {object e : Expr} {x : Name}
      (hobject : Derives (d + 1) (.call object) n ts m) (he : Derives d (.expression e) m ts' k) :
      Derives (d + 1) (.expression (.set object x e)) n
        (ts ++ dot.token lineD :: x.token :: equal.token line :: ts') k
  -- Parameters.
  | noParameters {d n : Nat} : Derives d (.parameters []) n [] n
  | parameters {d n : Nat} {ts : List Token} {x : Name} {xs : List Name}
      (hxs : Derives d (.moreParameters xs) n ts n) :
      Derives d (.parameters (x :: xs)) n (x.token :: ts) n
  | noMoreParameters {d n : Nat} : Derives d (.moreParameters []) n [] n
  | moreParameters {d n line : Nat} {ts : List Token} {x : Name} {xs : List Name}
      (hxs : Derives d (.moreParameters xs) n ts n) :
      Derives d (.moreParameters (x :: xs)) n (comma.token line :: x.token :: ts) n
  -- Statements.
  | effect {d n m line : Nat} {ts : List Token} {e : Expr}
      (he : Derives d (.expression e) n ts m) :
      Derives d (.statement false (.expression e)) n (ts ++ [semicolon.token line]) m
  | print {d n m lineP line : Nat} {ts : List Token} {e : Expr}
      (he : Derives d (.expression e) n ts m) :
      Derives d (.statement false (.print e)) n
        (Keyword.print.token lineP :: (ts ++ [semicolon.token line])) m
  | block {d n m lineL lineR : Nat} {ts : List Token} {ss : List Stmt}
      (hss : Derives d (.declarations ss) n ts m) :
      Derives d (.statement false (.block ss)) n
        (leftBrace.token lineL :: (ts ++ [rightBrace.token lineR])) m
  | returnValue {d n m lineR line : Nat} {ts : List Token} {e : Option Expr}
      (he : Derives d (.clause e) n ts m) :
      Derives d (.statement false (.returnValue lineR e)) n
        (Keyword.«return».token lineR :: (ts ++ [semicolon.token line])) m
  | whileDo {d n m k lineW lineL lineR : Nat} {ts ts' : List Token} {o : Bool} {e : Expr}
      {s : Stmt} (he : Derives (d + 1) (.expression e) n ts m)
      (hs : Derives d (.statement o s) m ts' k) :
      Derives (d + 1) (.statement o (.whileDo e s)) n
        (Keyword.«while».token lineW :: leftParen.token lineL :: (ts ++
          rightParen.token lineR :: ts')) k
  | ifThen {d n m k lineI lineL lineR : Nat} {ts ts' : List Token} {o : Bool} {e : Expr}
      {s : Stmt} (he : Derives (d + 1) (.expression e) n ts m)
      (hs : Derives d (.statement o s) m ts' k) :
      Derives (d + 1) (.statement true (.ifThen e s none)) n
        (Keyword.«if».token lineI :: leftParen.token lineL :: (ts ++
          rightParen.token lineR :: ts')) k
  | ifElse {d n m k j lineI lineL lineR lineE : Nat} {ts ts' ts'' : List Token} {o : Bool}
      {e : Expr} {s s' : Stmt} (he : Derives (d + 1) (.expression e) n ts m)
      (hs : Derives d (.statement false s) m ts' k) (hs' : Derives d (.statement o s') k ts'' j) :
      Derives (d + 1) (.statement o (.ifThen e s (some s'))) n
        (Keyword.«if».token lineI :: leftParen.token lineL :: (ts ++
          rightParen.token lineR :: (ts' ++ Keyword.«else».token lineE :: ts''))) j
  | forLoop {d n m k j i lineF lineL lineS lineR : Nat} {ts ts' ts'' body : List Token} {o : Bool}
      {first : Option Stmt} {condition last : Option Expr} {s : Stmt}
      (hfirst : Derives (d + 1) (.initializer first) n ts m)
      (hcondition : Derives (d + 1) (.clause condition) m ts' k)
      (hlast : Derives (d + 1) (.clause last) k ts'' j)
      (hs : Derives d (.statement o s) j body i) :
      Derives (d + 1) (.statement o (loopTree first condition last s)) n
        (Keyword.«for».token lineF :: leftParen.token lineL :: (ts ++ (ts' ++
          semicolon.token lineS :: (ts'' ++ rightParen.token lineR :: body)))) i
  | noInitializer {d n line : Nat} : Derives d (.initializer none) n [semicolon.token line] n
  | variableInitializer {d n m line : Nat} {ts : List Token} {s : Stmt}
      (hs : Derives d (.«variable» s) n ts m) :
      Derives d (.initializer (some s)) n (Keyword.var.token line :: ts) m
  | effectInitializer {d n m line : Nat} {ts : List Token} {e : Expr}
      (he : Derives d (.expression e) n ts m) :
      Derives d (.initializer (some (.expression e))) n (ts ++ [semicolon.token line]) m
  | noClause {d n : Nat} : Derives d (.clause none) n [] n
  | clause {d n m : Nat} {ts : List Token} {e : Expr} (he : Derives d (.expression e) n ts m) :
      Derives d (.clause (some e)) n ts m
  -- Declarations.
  | variableNil {d n line : Nat} {x : Name} :
      Derives d (.«variable» (.var x none)) n [x.token, semicolon.token line] n
  | variableValue {d n m lineE line : Nat} {ts : List Token} {x : Name} {e : Expr}
      (he : Derives d (.expression e) n ts m) :
      Derives d (.«variable» (.var x (some e))) n
        (x.token :: equal.token lineE :: (ts ++ [semicolon.token line])) m
  | function {d n m lineL lineR lineB lineE : Nat} {ts ts' : List Token} {x : Name}
      {xs : List Name} {body : List Stmt} (hxs : Derives d (.parameters xs) n ts n)
      (hlen : xs.length ≤ maxArguments) (hbody : Derives d (.declarations body) n ts' m) :
      Derives d (.function ⟨x, xs, body⟩) n
        (x.token :: leftParen.token lineL :: (ts ++
          rightParen.token lineR :: leftBrace.token lineB :: (ts' ++ [rightBrace.token lineE]))) m
  | noMembers {d n : Nat} : Derives d (.members [] []) n [] n
  | method {d n m k : Nat} {ts ts' : List Token} {f : FunctionDecl}
      {methods staticMethods : List FunctionDecl} (hf : Derives d (.function f) n ts m)
      (hrest : Derives d (.members methods staticMethods) m ts' k) :
      Derives d (.members (f :: methods) staticMethods) n (ts ++ ts') k
  | staticMethod {d n m k line : Nat} {ts ts' : List Token} {f : FunctionDecl}
      {methods staticMethods : List FunctionDecl} (hf : Derives d (.function f) n ts m)
      (hrest : Derives d (.members methods staticMethods) m ts' k) :
      Derives d (.members methods (f :: staticMethods)) n
        (Keyword.«class».token line :: (ts ++ ts')) k
  | statement {d n m : Nat} {ts : List Token} {o : Bool} {s : Stmt}
      (hs : Derives d (.statement o s) n ts m) : Derives d (.declaration s) n ts m
  | variableDecl {d n m line : Nat} {ts : List Token} {s : Stmt}
      (hs : Derives d (.«variable» s) n ts m) :
      Derives d (.declaration s) n (Keyword.var.token line :: ts) m
  | functionDecl {d n m line : Nat} {ts : List Token} {f : FunctionDecl}
      (hf : Derives d (.function f) n ts m) :
      Derives d (.declaration (.function f)) n (Keyword.«fun».token line :: ts) m
  | classDecl {d n m lineC lineL lineR : Nat} {ts : List Token} {x : Name}
      {methods staticMethods : List FunctionDecl}
      (hmembers : Derives d (.members methods staticMethods) n ts m) :
      Derives d (.declaration (.classDecl x none methods staticMethods)) n
        (Keyword.«class».token lineC :: x.token :: leftBrace.token lineL :: (ts ++
          [rightBrace.token lineR])) m
  | subclassDecl {d n m lineC lineB lineL lineR : Nat} {ts : List Token} {x y : Name}
      {methods staticMethods : List FunctionDecl}
      (hmembers : Derives d (.members methods staticMethods) (n + 1) ts m) :
      Derives d (.declaration (.classDecl x (some ⟨n, y⟩) methods staticMethods)) n
        (Keyword.«class».token lineC :: x.token :: less.token lineB :: y.token ::
          leftBrace.token lineL :: (ts ++ [rightBrace.token lineR])) m
  | noDeclarations {d n : Nat} : Derives d (.declarations []) n [] n
  | declarations {d n m k : Nat} {ts ts' : List Token} {s : Stmt} {ss : List Stmt}
      (hs : Derives d (.declaration s) n ts m) (hss : Derives (d + 1) (.declarations ss) m ts' k) :
      Derives (d + 1) (.declarations (s :: ss)) n (ts ++ ts') k

end LoxLang
