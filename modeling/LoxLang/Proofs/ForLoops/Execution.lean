import LoxLang.Proofs.ForLoops

/-!
# The trees of `for` loops do what the loops do

The tree of a loop has up to two blocks that the loop has not. They make no difference: a statement
that declares nothing does the same in a block of its own, and gives back its place
(`stays_evaluator`). So one round of the tree is one round of the loop (`complete_roundTree`), by
induction all rounds are (`loop_eq_rounds`), and with the first clause in front the tree is executed
as the loop is, on every level of nesting (`stmtRule_tree`). The two ways to evaluate are then the
same (`levels_eq`).
-/

namespace LoxLang.Lexical

open Direct

variable {host : Host} {inner : Evaluator}

@[simp] theorem Place.environment_inside (environment : Environment) :
    (Place.inside environment).environment = environment := rfl

/-!
## Statements that declare nothing

If a statement ends normally and declares nothing, then the place behind it is the place it stood
at. Loops, blocks and branches can be treated as if they gave a completion only.
-/

/-- Statements that declare nothing end in the same way wherever the same is visible, and give back
their place. -/
def Evaluator.Stays (inner : Evaluator) : Prop :=
  ∀ (place : Place) (s : Stmt), s.isClosed = true →
    inner.exec place s = (fun c => (c, place)) <$> inner.complete (.inside place.environment) s

namespace Evaluator.Stays

variable {s : Stmt} {e : Expr}

/-- How a statement that declares nothing ends, wherever the same is visible. -/
theorem complete (h : inner.Stays) (hs : s.isClosed = true) (place : Place) :
    inner.complete place s = inner.complete (.inside place.environment) s := by
  show (do return (← inner.exec place s).1) = _
  rw [h place s hs]
  simp

theorem ifThen (h : inner.Stays) {t : Option Stmt} (hs : (Stmt.ifThen e s t).isClosed = true)
    (place : Place) :
    inner.ifThen place e s t = inner.ifThen (.inside place.environment) e s t := by
  unfold Evaluator.ifThen Endings.ifThen
  cases t with
  | none =>
    have hs : s.isClosed = true := hs
    rw [h.complete hs]
    rfl
  | some t =>
    obtain ⟨hs, ht⟩ : s.isClosed = true ∧ t.isClosed = true := by
      simpa [Stmt.isClosed] using hs
    dsimp only
    rw [h.complete hs, h.complete ht]
    rfl

theorem loop (h : inner.Stays) (hs : s.isClosed = true) (place : Place) (iterations : Nat) :
    inner.loop place e s iterations = inner.loop (.inside place.environment) e s iterations := by
  unfold Evaluator.loop
  -- Each round starts where the one before it did, since the body gives back its place.
  induction iterations with
  | zero => rfl
  | succ iterations ih =>
    unfold Endings.loop
    rw [h.complete hs, ih]
    rfl

theorem around (h : inner.Stays) : (inner.around host).Stays := by
  intro place s hs
  show inner.stmtRule host place s = _ <$> (inner.stmtRule host (.inside place.environment) s >>= _)
  cases s with
  | var | function | classDecl => cases hs
  | expression e => simp [stmtRule]
  | print e => simp [stmtRule]
  | block body => simp [stmtRule]
  | returnValue line value => simp [stmtRule]
  | ifThen e s t => simp [stmtRule, h.ifThen hs place]
  | whileDo e s =>
    have hs : s.isClosed = true := hs
    simp [stmtRule, h.loop hs place]

end Evaluator.Stays

theorem stays_evaluator (host : Host) (depth : Nat) : (evaluator host depth).Stays := by
  induction depth with
  | zero => exact fun _ _ _ => rfl
  | succ depth ih => exact ih.around

/-!
## Rounds

One round of the `while` loop is the body and, if there is one, the last clause. The block around
the two makes an environment that nothing is added to.
-/

theorem exec_expression (host : Host) (depth : Nat) (place : Place) (e : Expr) :
    (evaluator host depth).exec place (.expression e) =
      (do
        let _ ← (evaluator host (depth - 1)).eval place.environment e
        return (.normal, place)) := by
  cases depth <;> rfl

/-- A block of a statement that declares nothing and an expression. -/
theorem execAll_pair {s : Stmt} (hs : s.isClosed = true) (host : Host) (depth : Nat)
    (place : Place) (e : Expr) :
    (evaluator host depth).execAll place [s, .expression e] =
      Completion.endings.andThen ((evaluator host depth).complete (.inside place.environment) s) do
        step (evaluator host (depth - 1)) place.environment (some e)
        return .normal := by
  unfold Evaluator.execAll
  rw [stays_evaluator host depth place s hs, bind_map_left]
  refine bind_congr fun completion => ?_
  cases completion with
  | returned v => rfl
  | normal =>
    show (evaluator host depth).execAll place [.expression e] = _
    unfold Evaluator.execAll
    rw [exec_expression]
    simp [step, Evaluator.execAll]

/-- A round of the tree is a round of the loop. -/
theorem complete_roundTree (host : Host) (depth : Nat) (place : Place) (l : ForLoop) :
    (evaluator host depth).complete place l.roundTree =
      Direct.round (fun k => evaluator host (depth - k)) place.environment l := by
  unfold Direct.round
  cases hincrement : l.increment with
  | none =>
    rw [ForLoop.roundTree_of_none hincrement]
    refine ((stays_evaluator host depth).complete l.closed place).trans ?_
    refine (bind_pure _).symm.trans (bind_congr fun completion => ?_)
    cases completion <;> rfl
  | some e =>
    rw [ForLoop.roundTree_of_some hincrement]
    -- On the last level neither the block nor the body in it is executed.
    cases depth with
    | zero => rfl
    | succ depth =>
      have hpair := execAll_pair l.closed host depth (.inside place.environment) e
      show (do
        let r ← (do return (← (evaluator host depth).execAll (.inside place.environment)
          [l.body, .expression e], place))
        return r.1) = _
      rw [hpair]
      simp only [bind_assoc, pure_bind, bind_pure]
      rfl

/-- The condition that a loop is given where it has none holds. -/
theorem eval_condition (host : Host) (depth : Nat) (environment : Environment)
    (condition : Option Expr) :
    (do return (← (evaluator host (depth + 1)).eval environment
        (condition.getD (.literal (.bool true)))).isTruthy) =
      holds (evaluator host (depth + 1)) environment condition := by
  cases condition <;> rfl

/-- The rounds of the tree are the rounds of the loop. -/
theorem loop_eq_rounds (host : Host) (depth : Nat) (place : Place) (l : ForLoop)
    (iterations : Nat) :
    (evaluator host depth).loop place (l.condition.getD (.literal (.bool true))) l.roundTree
        iterations =
      rounds (fun k => evaluator host (depth - k)) place.environment l iterations := by
  induction iterations with
  | zero => rfl
  | succ iterations ih =>
    unfold Evaluator.loop rounds
    cases depth with
    | zero =>
      -- Nothing can be done on the last level, be there a condition or not.
      simp only [Nat.zero_sub]
      cases l.condition <;> rfl
    | succ depth =>
      have hholds := eval_condition host depth place.environment l.condition
      rw [Nat.sub_zero, ← hholds, bind_assoc]
      refine bind_congr fun v => ?_
      rw [pure_bind]
      split
      · rw [complete_roundTree]
        exact congrArg (Completion.endings.andThen _) ih
      · rfl

/-!
## Loops

The outer block of the tree makes the environment of the loop, which the first clause extends. The
levels that the blocks take are made up for by counting.
-/

/-- The first clause of a loop is executed to its end, and leads to the scope of the loop. -/
theorem exec_first (host : Host) (depth : Nat) (environment : Environment)
    (first : ForInitializer) :
    (evaluator host depth).exec (.inside environment) first.stmt =
      (fun environment => (.normal, .inside environment)) <$>
        start (evaluator host depth) environment first := by
  unfold start
  cases depth with
  -- Without levels both run out at once.
  | zero => rfl
  | succ depth =>
    cases first with
    | expression e =>
      show (evaluator host depth).stmtRule host _ (.expression e) =
        _ <$> ((evaluator host depth).stmtRule host _ (.expression e) >>= _)
      simp [Evaluator.stmtRule]
    | var name value =>
      show (evaluator host depth).stmtRule host _ (.var name value) =
        _ <$> ((evaluator host depth).stmtRule host _ (.var name value) >>= _)
      cases value <;> simp [Evaluator.stmtRule, Evaluator.var, Run.declare]

theorem stmtRule_whileTree (host : Host) (depth : Nat) (place : Place) (l : ForLoop) :
    (evaluator host depth).stmtRule host place l.whileTree =
      (do
        return (← rounds (fun k => evaluator host (depth - k)) place.environment l
          host.iterations, place)) := by
  have hrounds := loop_eq_rounds host depth place l host.iterations
  rw [← hrounds]
  rfl

/-- The block around a loop with a first clause. -/
theorem execAll_first (host : Host) (depth : Nat) (environment : Environment) (l : ForLoop)
    (first : ForInitializer) :
    (evaluator host depth).execAll (.inside environment) [first.stmt, l.whileTree] =
      (do
        let environment ← start (evaluator host depth) environment first
        rounds (fun k => evaluator host (depth - (k + 1))) environment l host.iterations) := by
  unfold Evaluator.execAll
  rw [exec_first, bind_map_left]
  -- The loop stands a level further in than the block, so without levels nothing is executed.
  cases depth with
  | zero => rfl
  | succ depth =>
    refine bind_congr fun environment => ?_
    show (evaluator host (depth + 1)).execAll (.inside environment) [l.whileTree] = _
    have hwhile := stmtRule_whileTree host depth (.inside environment) l
    unfold Evaluator.execAll
    show (evaluator host depth).stmtRule host (.inside environment) l.whileTree >>= _ = _
    rw [hwhile, bind_assoc]
    simp only [Nat.succ_sub_succ]
    refine (bind_congr fun completion => ?_).trans (bind_pure _)
    cases completion <;> rfl

/-- **The tree of a loop does what the loop does.** -/
theorem stmtRule_tree (host : Host) (depth : Nat) (place : Place) (l : ForLoop) :
    (evaluator host depth).stmtRule host place l.tree =
      forLoop host (fun k => evaluator host (depth - k)) place l := by
  unfold forLoop
  cases hfirst : l.initializer with
  | none =>
    rw [ForLoop.tree_of_none hfirst]
    exact stmtRule_whileTree host depth place l
  | some first =>
    have hblock := execAll_first host depth place.environment l first
    rw [ForLoop.tree_of_some hfirst]
    show (do return (← (evaluator host depth).execAll (.inside place.environment)
      [first.stmt, l.whileTree], place)) = _
    rw [hblock, bind_assoc]
    rfl

/-- A loop gives back its place. -/
theorem forLoop_eq_map (host : Host) (rules : Nat → Evaluator) (place : Place) (l : ForLoop) :
    ∃ p : Run Completion, forLoop host rules place l = (fun c => (c, place)) <$> p := by
  unfold forLoop
  cases l.initializer with
  | none => exact ⟨_, (map_eq_pure_bind _ _).symm⟩
  | some first =>
    refine ⟨start (rules 0) place.environment first >>= fun environment =>
      rounds (fun k => rules (k + 1)) environment l host.iterations, ?_⟩
    simp only [map_eq_pure_bind, bind_assoc]

/-! ## Evaluation -/

/-- **Evaluation is the same whatever is read as a loop.** Induction on the levels of nesting. -/
theorem levels_eq (host : Host) (reading : Reading) (depth k : Nat) :
    levels host reading depth k = evaluator host (depth - k) := by
  induction depth generalizing k with
  | zero => rw [Nat.zero_sub]; rfl
  | succ depth ih =>
    cases k with
    | succ k => rw [Nat.succ_sub_succ]; exact ih k
    | zero =>
      have hrules : levels host reading depth = fun k => evaluator host (depth - k) := funext ih
      -- The only rule that differs is for what is read as a loop, and its tree does the same.
      have hexec : stmtRule host reading (fun k => evaluator host (depth - k)) =
          (evaluator host depth).stmtRule host := by
        funext place s
        unfold stmtRule
        cases hread : reading.loop? s with
        | none => rfl
        | some l =>
          rw [← reading.tree_of_loop? hread]
          exact (stmtRule_tree host depth place l).symm
      show around host reading (levels host reading depth) = (evaluator host depth).around host
      rw [hrules]
      unfold around
      rw [hexec]
      rfl

end LoxLang.Lexical
