import LoxLang.Proofs.Lexical.Calls

/-!
# Expressions and statements with frames and with cells

Agreeing evaluators agree around one more level of a tree. One lemma for each rule says so, and by
induction on the levels the two evaluators agree.
-/

namespace LoxLang.Lexical

variable {T : Distances} {P : Visit → Prop} {inner : LoxLang.Evaluator} {inner' : Evaluator}
  {β β' : Links} {m m' : Machine} {w w' : Store} {S : List Scope} {ρ : Environment} {place : Place}
  {host : Host}

open Simulates

/-!
## Expressions

Parts are evaluated from left to right on both sides, each in the states that the one before it has
left.
-/

theorem Simulates.orFail {α : Type} (h : Related T P β m w) (spot : Location)
    (r : Except RuntimeError α) :
    Simulates T P none (LoxLang.Run.orFail spot r) (Run.orFail spot r) β m w Same := by
  cases r with
  | ok a => exact pure a a h rfl
  | error e => exact fail h spot e

/-- A function made at the present place. -/
theorem Simulates.lambda {params : List Name} {body : List Stmt} (h : Related T P β m w)
    (hchain : Chain β m.frames m.current S ρ) (hfine : Fine T P (bodyOccurrences S params body)) :
    Simulates T P none (LoxLang.Evaluator.lambda params body)
      (do return .function (← Run.newFunction ⟨none, params, body, ρ, false⟩)) β m w Same := by
  have hclosure : ClosureRelated T P β m.frames [] ⟨none, params, body, m.current, false⟩
      ⟨none, params, body, ρ, false⟩ :=
    ⟨rfl, rfl, rfl, rfl, S, hchain, hfine, nofun⟩
  have hp : LoxLang.Evaluator.lambda params body m =
      (do return Value.function (← LoxLang.Run.newFunction
        ⟨none, params, body, m.current, false⟩) : LoxLang.Run Value) m := rfl
  refine Simulates.congr ?_ hp rfl
  refine bind (newFunction h hclosure) ?_
  rintro f _ β' m' w' hlater rfl
  exact pure _ _ hlater.related rfl

namespace Agrees

theorem unary (h : Agrees T P inner inner') {op : UnaryOperator} {line : Nat} {e : Expr}
    (hrel : Related T P β m w) (hchain : Chain β m.frames m.current S ρ)
    (hfine : Fine T P (e.occurrences S)) :
    Simulates T P none (inner.exprRule host (.unary op line e))
      (inner'.exprRule host ρ (.unary op line e)) β m w Same := by
  refine bind (h.eval hrel hchain hfine) ?_
  rintro v _ β' m' w' hlater rfl
  exact orFail hlater.related _ _

theorem binary (h : Agrees T P inner inner') {op : BinaryOperator} {line : Nat} {e e' : Expr}
    (hrel : Related T P β m w) (hchain : Chain β m.frames m.current S ρ)
    (hfine : Fine T P (e.occurrences S ++ e'.occurrences S)) :
    Simulates T P none (inner.exprRule host (.binary op line e e'))
      (inner'.exprRule host ρ (.binary op line e e')) β m w Same := by
  refine bind (h.eval hrel hchain hfine.left) ?_
  rintro v _ β' m' w' hlater rfl
  refine bind (h.eval hlater.related (hlater.chain hchain) hfine.right) ?_
  rintro v' _ β'' m'' w'' hlater' rfl
  exact orFail hlater'.related _ _

theorem logical (h : Agrees T P inner inner') {op : LogicalOperator} {line : Nat} {e e' : Expr}
    (hrel : Related T P β m w) (hchain : Chain β m.frames m.current S ρ)
    (hfine : Fine T P (e.occurrences S ++ e'.occurrences S)) :
    Simulates T P none (inner.exprRule host (.logical op line e e'))
      (inner'.exprRule host ρ (.logical op line e e')) β m w Same := by
  refine bind (h.eval hrel hchain hfine.left) ?_
  rintro v _ β' m' w' hlater rfl
  split
  · exact pure _ _ hlater.related rfl
  · exact h.eval hlater.related (hlater.chain hchain) hfine.right

theorem assign (h : Agrees T P inner inner') {id : UseId} {name : Name} {e : Expr}
    (hrel : Related T P β m w) (hchain : Chain β m.frames m.current S ρ)
    (hfine : Fine T P ((Expr.assign id name e).occurrences S)) :
    Simulates T P none (inner.exprRule host (.assign id name e))
      (inner'.exprRule host ρ (.assign id name e)) β m w Same := by
  rw [Expr.occurrences] at hfine
  refine bind (h.eval hrel hchain hfine.left) ?_
  rintro v _ β' m' w' hlater rfl
  refine bind (writeVariable name.line hlater.related (hlater.chain hchain) hfine.right.head rfl rfl
    v) ?_
  rintro _ _ β'' m'' w'' hlater' -
  exact pure v v hlater'.related rfl

theorem callExpr (h : Agrees T P inner inner') {callee : Expr} {line : Nat} {es : List Expr}
    (hrel : Related T P β m w) (hchain : Chain β m.frames m.current S ρ)
    (hfine : Fine T P (callee.occurrences S ++ exprsOccurrences S es)) :
    Simulates T P none (inner.exprRule host (.call callee line es))
      (inner'.exprRule host ρ (.call callee line es)) β m w Same := by
  refine bind (h.eval hrel hchain hfine.left) ?_
  rintro v _ β' m' w' hlater rfl
  refine bind (h.evalAll hlater.related (hlater.chain hchain) hfine.right) ?_
  rintro vs _ β'' m'' w'' hlater' rfl
  exact h.call hlater'.related _

theorem getExpr (h : Agrees T P inner inner') {object : Expr} {name : Name}
    (hrel : Related T P β m w) (hchain : Chain β m.frames m.current S ρ)
    (hfine : Fine T P (object.occurrences S)) :
    Simulates T P none (inner.exprRule host (.get object name))
      (inner'.exprRule host ρ (.get object name)) β m w Same := by
  refine bind (h.eval hrel hchain hfine) ?_
  rintro v _ β' m' w' hlater rfl
  cases v with
  | object i => exact property hlater.related i name
  | «class» c => exact staticProperty hlater.related c name
  | _ => exact fail hlater.related name.place .noProperties

theorem setExpr (h : Agrees T P inner inner') {object value : Expr} {name : Name}
    (hrel : Related T P β m w) (hchain : Chain β m.frames m.current S ρ)
    (hfine : Fine T P (value.occurrences S ++ object.occurrences S)) :
    Simulates T P none (inner.exprRule host (.set object name value))
      (inner'.exprRule host ρ (.set object name value)) β m w Same := by
  refine bind (h.eval hrel hchain hfine.right) ?_
  rintro v _ β' m' w' hlater rfl
  cases v with
  | object i =>
    refine bind (h.eval hlater.related (hlater.chain hchain) hfine.left) ?_
    rintro u _ β'' m'' w'' hlater' rfl
    refine bind (setField hlater'.related i name.text u) ?_
    rintro _ _ β₃ m₃ w₃ hlater'' -
    exact pure u u hlater''.related rfl
  | _ => exact fail hlater.related name.place .noFields

/-- Every expression. -/
theorem exprRule (h : Agrees T P inner inner') {e : Expr} (hrel : Related T P β m w)
    (hchain : Chain β m.frames m.current S ρ) (hfine : Fine T P (e.occurrences S)) :
    Simulates T P none (inner.exprRule host e) (inner'.exprRule host ρ e) β m w Same := by
  cases e with
  | literal value => exact pure (Value.ofLiteral value) _ hrel rfl
  | grouping e =>
    rw [Expr.occurrences] at hfine
    exact h.eval hrel hchain hfine
  | unary op line e =>
    rw [Expr.occurrences] at hfine
    exact h.unary hrel hchain hfine
  | binary op line left right =>
    rw [Expr.occurrences] at hfine
    exact h.binary hrel hchain hfine
  | logical op line left right =>
    rw [Expr.occurrences] at hfine
    exact h.logical hrel hchain hfine
  | «variable» use =>
    rw [Expr.occurrences] at hfine
    exact readVariable use.name.line hrel hchain hfine.head rfl (.inl rfl)
  | assign id name value => exact h.assign hrel hchain hfine
  | call callee line arguments =>
    rw [Expr.occurrences] at hfine
    exact h.callExpr hrel hchain hfine
  | get object name =>
    rw [Expr.occurrences] at hfine
    exact h.getExpr hrel hchain hfine
  | set object name value =>
    rw [Expr.occurrences] at hfine
    exact h.setExpr hrel hchain hfine
  | lambda line params body =>
    rw [Expr.occurrences] at hfine
    exact lambda hrel hchain hfine
  | this id line =>
    rw [Expr.occurrences] at hfine
    exact readVariable line hrel hchain hfine.head rfl (.inr ⟨rfl, rfl⟩)
  | super id line method =>
    rw [Expr.occurrences] at hfine
    exact superExpr hrel hchain hfine.head rfl rfl rfl method

/-!
## Statements

The body of a loop or branch declares nothing where it stands, so the place behind it is the same as
before.
-/

/-- A block is executed in a frame of its own. -/
theorem block (h : Agrees T P inner inner') {body : List Stmt} (hrel : Related T P β m w)
    (hchain : Chain β m.frames m.current S ρ) (hfine : Fine T P (stmtsOccurrences ([] :: S) body)) :
    Simulates T P none (inner.block body) (inner'.execAll (.inside ρ) body) β m w Same := by
  obtain ⟨hlater, hpos⟩ := hrel.newFrame hchain
  have hframe : Simulates T P none (LoxLang.Run.newFrame m.current []) (Pure.pure ()) β m w
      fun f _ β' fs' => m.frames.size ≤ f ∧ Position β' fs' f ([] :: S) (.inside ρ) :=
    of_ok m.frames.size () rfl rfl hlater ⟨Nat.le_refl _, hpos⟩
  have hbody : Simulates T P none
      (LoxLang.Run.newFrame m.current [] >>= fun f => LoxLang.Run.inFrame f (inner.execAll body))
      (Pure.pure () >>= fun _ => inner'.execAll (.inside ρ) body) β m w Same := by
    -- The frame of the block has been made just now, so nothing outside refers to it.
    refine bind_made hframe ?_
    rintro f _ β' m' w' hlater ⟨hsize, hpos⟩
    have hrel' := hlater.related
    have hrel'' : Related T P β' { m' with current := f } w' :=
      ⟨hrel'.frames, hrel'.functions, hrel'.classes, hrel'.instances, hrel'.output,
        hrel'.clockReadings, hrel'.distances⟩
    exact ⟨f, hsize, inFrame (h.execAll hrel'' hpos hfine)⟩
  exact hbody.congr rfl rfl

/-- A statement that declares nothing leaves the place as it is. -/
theorem exec_body (h : Agrees T P inner inner') {s : Stmt} (hrel : Related T P β m w)
    (hpos : Position β m.frames m.current S place) (hdeclares : s.declares = false)
    (hfine : Fine T P (s.occurrences S)) :
    Simulates T P none (inner.exec s) (inner'.exec place s) β m w fun c r _ _ => c = r.1 := by
  have hs := h.exec hrel hpos hfine
  rw [hdeclares] at hs
  exact hs.mono fun _ _ _ _ hQ => hQ.1

/-- So it does not matter whether the place behind it is looked at. -/
theorem complete (h : Agrees T P inner inner') {s : Stmt} (hrel : Related T P β m w)
    (hpos : Position β m.frames m.current S place)
    (hfine : Fine T P (.body s :: s.occurrences S)) :
    Simulates T P none (inner.exec s) (inner'.complete place s) β m w Same := by
  have hbody := h.exec_body hrel hpos hfine.head.written hfine.tail
  have hboth : Simulates T P none (id <$> inner.exec s) (Prod.fst <$> inner'.exec place s)
      β m w Same := hbody.map fun _ _ _ _ hQ => hQ
  exact hboth.congr (by simp) rfl

theorem ifThen (h : Agrees T P inner inner') {condition : Expr} {consequence : Stmt}
    {alternative : Option Stmt} (hrel : Related T P β m w)
    (hpos : Position β m.frames m.current S place)
    (hfine : Fine T P ((Stmt.ifThen condition consequence alternative).occurrences S)) :
    Simulates T P none
      (Completion.endings.ifThen inner.eval inner.exec condition consequence alternative)
      (inner'.ifThen place condition consequence alternative) β m w Same := by
  cases alternative with
  | none =>
    rw [Stmt.occurrences] at hfine
    refine bind (h.eval hrel hpos.chain hfine.left) ?_
    rintro v _ β' m' w' hlater rfl
    split
    · exact h.complete hlater.related (hlater.position hpos) hfine.right
    · exact pure Completion.normal Completion.normal hlater.related rfl
  | some s =>
    rw [Stmt.occurrences] at hfine
    refine bind (h.eval hrel hpos.chain hfine.left) ?_
    rintro v _ β' m' w' hlater rfl
    -- The occurrences of both branches are those of the statements, each under the mark of a body.
    have hfine' : Fine T P ((.body consequence :: consequence.occurrences S) ++
        (.body s :: s.occurrences S)) := hfine.right
    split
    · exact h.complete hlater.related (hlater.position hpos) hfine'.left
    · exact h.complete hlater.related (hlater.position hpos) hfine'.right

/-- Whatever the number of iterations, each leaves the place as it is. -/
theorem loop (h : Agrees T P inner inner') {condition : Expr} {body : Stmt}
    (hrel : Related T P β m w) (hpos : Position β m.frames m.current S place)
    (hfine : Fine T P (condition.occurrences S ++ .body body :: body.occurrences S)) (n : Nat) :
    Simulates T P none (Completion.endings.loop inner.eval inner.exec condition body n)
      (inner'.loop place condition body n) β m w Same := by
  -- Round by round. Each starts at the same position, as bodies give back their place.
  induction n generalizing β m w with
  | zero => exact throw hrel nofun
  | succ n ih =>
    refine bind (h.eval hrel hpos.chain hfine.left) ?_
    rintro v _ β' m' w' hlater rfl
    have hpos' := hlater.position hpos
    split
    · refine bind (h.complete hlater.related hpos' hfine.right) ?_
      rintro c _ β'' m'' w'' hlater' rfl
      cases c with
      | normal => exact ih hlater'.related (hlater'.position hpos')
      | returned u => exact pure _ _ hlater'.related rfl
    · exact pure Completion.normal Completion.normal hlater.related rfl

theorem returnValue (h : Agrees T P inner inner') {line : Nat} {value : Option Expr}
    (hrel : Related T P β m w) (hchain : Chain β m.frames m.current S ρ)
    (hfine : Fine T P ((Stmt.returnValue line value).occurrences S)) :
    Simulates T P none (Completion.endings.returnValue inner.eval value)
      (inner'.returnValue ρ value) β m w Same := by
  cases value with
  | none => exact pure (Completion.returned .nil) _ hrel rfl
  | some e =>
    rw [Stmt.occurrences] at hfine
    refine bind (h.eval hrel hchain hfine) ?_
    rintro v _ β' m' w' hlater rfl
    exact pure _ _ hlater.related rfl

end Agrees

end LoxLang.Lexical
