import LoxLang.Proofs.Nodes.Accounts

/-!
# Building the rules of the grammar

Each rule that makes nodes reads what the plain rule reads and keeps its stamps together, up to
whole programs (`parseNodes_spec`).
-/

namespace LoxLang

open LoxLang.Parser LoxLang.NodeParser

/-- The rules of nodes one level further in build what the plain ones do. -/
structure NodeRules.BuildAs (inner : NodeRules) (plain : Nested) : Prop where
  declaration : Builds [] inner.declaration plain.declaration (Option.map StmtNode.tree)
    fun s => stmtsStamps s.toList
  statement : Builds [] inner.statement plain.statement StmtNode.tree StmtNode.stamps
  expression : Builds [] inner.expression plain.expression ExprNode.tree ExprNode.stamps
  unary : Builds [] inner.unary plain.unary ExprNode.tree ExprNode.stamps

namespace NodeRules

variable {α : Type} {inner : NodeRules} {plain : Nested} (h : inner.BuildAs plain)

section Lists

include h

/-- The arguments that were read are at hand while further ones are read. -/
theorem builds_moreArguments (fuel count : Nat) :
    Builds [] (inner.moreArguments fuel count)
      (Nested.moreItems plain.expression .tooManyArguments fuel count) exprTrees exprsStamps := by
  induction fuel generalizing count with
  | zero => exact .pure rfl (.refl _)
  | succ fuel ih =>
    refine (Builds.sure (sure_acceptKind? _) _).bind_same fun found => ?_
    cases found with
    | none => exact .pure rfl (.refl _)
    | some line =>
      -- Whether there are too many is reported before the next argument is read.
      have hrest : Builds []
          (do
            let x ← inner.expression
            let xs ← holding x.stamps (inner.moreArguments fuel (count + 1))
            return x :: xs)
          (do
            let x ← plain.expression
            let xs ← Nested.moreItems plain.expression .tooManyArguments fuel (count + 1)
            return x :: xs) exprTrees exprsStamps :=
        h.expression.bind fun x => ((ih (count + 1)).holding x.stamps).bind fun xs =>
          .pure rfl (.refl _)
      exact .ite ((Builds.sure sure_here _).bind_same fun _ =>
        (Builds.sure (sure_report _ _) _).bind_same fun _ => hrest) hrest

/-- The arguments of a call. -/
theorem builds_argumentList :
    Builds [] inner.argumentList (Nested.items plain.expression .tooManyArguments) exprTrees
      exprsStamps := by
  refine (Builds.sure (sure_isNext _) _).bind_same fun _ => .ite (.pure rfl (.refl _)) ?_
  exact h.expression.bind fun x => (Builds.sure sure_bound _).bind_same fun _ =>
    ((builds_moreArguments h _ 1).holding x.stamps).bind fun xs => .pure rfl (.refl _)

/-- The statements that were read are at hand while further ones are read. -/
theorem builds_statements (fuel : Nat) :
    Builds [] (inner.statements fuel) (plain.statements fuel) stmtTrees stmtsStamps := by
  induction fuel with
  | zero => exact .pure rfl (.refl _)
  | succ fuel ih =>
    refine (Builds.sure (sure_isNext _) _).bind_same fun _ => .ite (.pure rfl (.refl _)) ?_
    refine (Builds.sure sure_atEnd _).bind_same fun _ => .ite (.pure rfl (.refl _)) ?_
    refine h.declaration.bind fun first => (ih.holding _).bind fun others => .pure ?_ ?_
    · rw [stmtTrees_append, stmtTrees_toList]
    · rw [stmtsStamps_append]

/-- The statements between braces. -/
theorem builds_block : Builds [] inner.block plain.block stmtTrees stmtsStamps :=
  (Builds.sure sure_bound _).bind_same fun _ => (builds_statements h _).bind fun _ =>
    (Builds.silent_holding (silent_expectMark _ _) _).bind_same fun _ => .pure rfl (.refl _)

end Lists

/-!
## Expressions

A part that has been read is at hand while the next one is read. If that fails, it is dropped.
-/

section Expressions

include h

/-- A function without a name. Parameters have no stamps. -/
theorem builds_lambda (line : Nat) :
    Builds [] (inner.lambda line) (plain.lambda line) ExprNode.tree ExprNode.stamps :=
  (Builds.silent (silent_expectMark _ _)).bind_same fun _ =>
    (Builds.silent silent_parameters).bind_same fun _ =>
      (Builds.silent (silent_expectMark _ _)).bind_same fun _ =>
        (builds_block h).bind fun _ => .make (fun _ => rfl) fun _ => .refl _

/-- How an expression goes on depends on the token that it starts with. -/
theorem builds_afterStart (line : Nat) (start : Nested.PrimaryStart) :
    Builds [] (inner.afterStart line start) (plain.afterStart line start) ExprNode.tree
      ExprNode.stamps := by
  cases start with
  | literal value =>
    show Builds [] (make (ExprNode.literal · value)) (pure (Expr.literal value)) _ _
    exact .make (fun _ => rfl) fun _ => .refl _
  | name text =>
    exact (Builds.freshUse _).bind_same fun _ => .make (fun _ => rfl) fun _ => .refl _
  -- While the closing parenthesis is looked for, the tree inside is held, since it is lost if there
  -- is none.
  | parenthesis =>
    exact h.expression.bind fun _ => (Builds.silent_holding (silent_expectMark _ _) _).bind_same
      fun _ => .make (fun _ => rfl) fun _ => .refl _
  | lambda => exact builds_lambda h line
  | this => exact (Builds.freshUse _).bind_same fun _ => .make (fun _ => rfl) fun _ => .refl _
  | super =>
    exact (Builds.silent (silent_expectMark _ _)).bind_same fun _ =>
      (Builds.silent (silent_expectName _)).bind_same fun _ =>
        (Builds.freshUse _).bind_same fun _ => .make (fun _ => rfl) fun _ => .refl _

/-- An expression without operators. -/
theorem builds_primary :
    Builds [] inner.primary plain.primary ExprNode.tree ExprNode.stamps := by
  refine (Builds.sure (sure_accept? _) _).bind_same fun found => ?_
  cases found with
  | none => exact .fail _
  | some found => exact builds_afterStart h found.2 found.1

/-- The callee is at hand while the arguments are read. -/
theorem builds_arguments (callee : ExprNode) :
    Builds callee.stamps (inner.arguments callee) (plain.arguments callee.tree) ExprNode.tree
      ExprNode.stamps :=
  ((builds_argumentList h).holding callee.stamps).bind fun _ =>
    (Builds.silent_holding (silent_expectMark _ _) _).bind_same fun _ =>
      .make (fun _ => rfl) fun _ => .refl _

/-- Calls and properties behind an expression. -/
theorem builds_suffixes (fuel : Nat) (e : ExprNode) :
    Builds e.stamps (inner.suffixes fuel e) (plain.suffixes fuel e.tree) ExprNode.tree
      ExprNode.stamps := by
  induction fuel generalizing e with
  | zero => exact .pure rfl (.refl _)
  | succ fuel ih =>
    refine (Builds.sure (sure_acceptKind? _) _).bind_same fun _ => .ite
      ((builds_arguments h e).bind ih) ?_
    refine (Builds.sure (sure_acceptKind? _) _).bind_same fun _ => .ite ?_ (.pure rfl (.refl _))
    exact (Builds.silent_holding (silent_expectName _) _).bind_same fun name =>
      .making fun n => ih (.get n e name)

/-- Operators in front of an expression. -/
theorem builds_unaryExpr :
    Builds [] inner.unaryExpr plain.unaryExpr ExprNode.tree ExprNode.stamps := by
  refine (Builds.sure (sure_accept? _) _).bind_same fun found => ?_
  cases found with
  | none =>
    exact (builds_primary h).bind fun e => (Builds.sure sure_bound _).bind_same fun _ =>
      builds_suffixes h _ e
  | some found => exact h.unary.bind fun _ => .make (fun _ => rfl) fun _ => .refl _

omit h in
/-- Joined to what stands before it, an operand becomes part of one node. -/
theorem builds_chain {operand : NodeParser ExprNode} {plainOperand : Parser Expr}
    (hoperand : Builds [] operand plainOperand ExprNode.tree ExprNode.stamps)
    (operator? : TokenKind → Option α)
    {join : NodeId → α → Nat → ExprNode → ExprNode → ExprNode}
    {plainJoin : α → Nat → Expr → Expr → Expr}
    (htree : ∀ n op line left right,
      (join n op line left right).tree = plainJoin op line left.tree right.tree)
    (hstamps : ∀ n op line left right,
      (join n op line left right).stamps = .node n :: (left.stamps ++ right.stamps)) :
    Builds [] (chain operator? join operand) (Nested.chain operator? plainJoin plainOperand)
      ExprNode.tree ExprNode.stamps := by
  have hmore (fuel : Nat) (e : ExprNode) :
      Builds e.stamps (moreOperands operator? join operand fuel e)
        (Nested.moreOperands operator? plainJoin plainOperand fuel e.tree) ExprNode.tree
        ExprNode.stamps := by
    induction fuel generalizing e with
    | zero => exact .pure rfl (.refl _)
    | succ fuel ih =>
      refine (Builds.sure (sure_accept? _) _).bind_same fun found => ?_
      cases found with
      | none => exact .pure rfl (.refl _)
      | some found =>
        refine (hoperand.holding e.stamps).bind fun right => .making fun n => ?_
        -- The operands go into one node, which is the operand at hand from here on.
        rw [← htree n]
        exact (ih (join n found.1 found.2 e right)).perm (by rw [hstamps])
  exact hoperand.bind fun first => (Builds.sure sure_bound _).bind_same fun _ => hmore _ first

/-- All levels of precedence. -/
theorem builds_disjunction :
    Builds [] inner.disjunction plain.disjunction ExprNode.tree ExprNode.stamps :=
  builds_chain (builds_chain (builds_chain (builds_chain (builds_chain (builds_chain
    (builds_unaryExpr h) _ (fun _ _ _ _ _ => rfl) fun _ _ _ _ _ => rfl)
    _ (fun _ _ _ _ _ => rfl) fun _ _ _ _ _ => rfl) _ (fun _ _ _ _ _ => rfl) fun _ _ _ _ _ => rfl)
    _ (fun _ _ _ _ _ => rfl) fun _ _ _ _ _ => rfl) _ (fun _ _ _ _ _ => rfl) fun _ _ _ _ _ => rfl)
    _ (fun _ _ _ _ _ => rfl) fun _ _ _ _ _ => rfl

omit h in
/-- The node of the target is dropped, and its name gets a use of its own. -/
theorem builds_assignTo (target value : ExprNode) (line : Nat) :
    Builds (target.stamps ++ value.stamps) (assignTo target line value)
      (Nested.assignTo target.tree line value.tree) ExprNode.tree ExprNode.stamps := by
  have hinvalid (e : ExprNode) : Builds (e.stamps ++ value.stamps)
      (do
        lift (report (Mark.equal.place line) (.grammar .invalidAssignmentTarget))
        drop value.stamps
        return e)
      (do
        report (Mark.equal.place line) (.grammar .invalidAssignmentTarget)
        return e.tree) ExprNode.tree ExprNode.stamps :=
    (Builds.sure (sure_report _ _) _).bind_same fun _ =>
      .dropping List.perm_append_comm (.pure rfl (.refl _))
  cases target with
  | «variable» v =>
    exact .dropping (.refl _) ((Builds.freshUse _).bind_same fun _ =>
      .make (fun _ => rfl) fun _ => .refl _)
  | get n object name =>
    -- The object stays at hand: it goes into the assignment.
    refine .dropping (F := [.node n]) (.refl _) (.make (fun _ => rfl) fun m => ?_)
    exact List.perm_append_comm.cons _
  | _ => exact hinvalid _

/-- An expression, and perhaps a value behind it. -/
theorem builds_assignment :
    Builds [] inner.assignment plain.assignment ExprNode.tree ExprNode.stamps := by
  refine (builds_disjunction h).bind fun target =>
    (Builds.sure (sure_acceptKind? _) _).bind_same fun found => ?_
  cases found with
  | none => exact .pure rfl (.refl _)
  | some line =>
    exact (h.expression.holding target.stamps).bind fun value => builds_assignTo target value line

end Expressions

/-!
## Statements

The rule for loops makes nodes that stand for no token, and drops none.
-/

section Statements

include h

/-- An expression where there could be none. -/
theorem builds_someAssignment :
    Builds [] (some <$> inner.assignment) (some <$> plain.assignment) (Option.map ExprNode.tree)
      fun e => exprsStamps e.toList :=
  (builds_assignment h).map (fun _ => rfl) fun _ => by simp

/-- An expression up to the semicolon. -/
theorem builds_expressionStatement :
    Builds [] inner.expressionStatement plain.expressionStatement StmtNode.tree StmtNode.stamps :=
  (builds_assignment h).bind fun _ =>
    (Builds.silent_holding (silent_expectMark _ _) _).bind_same fun _ =>
      .make (fun _ => rfl) fun _ => .refl _

/-- The same behind `print`. -/
theorem builds_printStatement :
    Builds [] inner.printStatement plain.printStatement StmtNode.tree StmtNode.stamps :=
  (builds_assignment h).bind fun _ =>
    (Builds.silent_holding (silent_expectMark _ _) _).bind_same fun _ =>
      .make (fun _ => rfl) fun _ => .refl _

/-- A value that may be left out. -/
theorem builds_returnStatement (line : Nat) :
    Builds [] (inner.returnStatement line) (plain.returnStatement line) StmtNode.tree
      StmtNode.stamps := by
  have hrest (e : Option ExprNode) : Builds (exprsStamps e.toList)
      (do
        let _ ← holding (exprsStamps e.toList) (lift (expectMark .semicolon .afterReturnValue))
        make (StmtNode.returnValue · line e))
      (do
        let _ ← expectMark .semicolon .afterReturnValue
        return Stmt.returnValue line (e.map ExprNode.tree)) StmtNode.tree StmtNode.stamps :=
    (Builds.silent_holding (silent_expectMark _ _) _).bind_same fun _ =>
      .make (fun n => StmtNode.tree_returnValue n line e)
        fun n => .of_eq (StmtNode.stamps_returnValue n line e)
  exact (Builds.sure (sure_isNext _) _).bind_same fun _ => .ite
    (Builds.bind (.pure (a := none) rfl (.refl _)) hrest) ((builds_someAssignment h).bind hrest)

/-- A name, and perhaps an initializer. -/
theorem builds_varDeclaration :
    Builds [] inner.varDeclaration plain.varDeclaration StmtNode.tree StmtNode.stamps := by
  refine (Builds.silent (silent_expectName _)).bind_same fun name => ?_
  have hrest (e : Option ExprNode) : Builds (exprsStamps e.toList)
      (do
        let _ ← holding (exprsStamps e.toList) (lift (expectMark .semicolon .afterVariable))
        make (StmtNode.var · name e))
      (do
        let _ ← expectMark .semicolon .afterVariable
        return Stmt.var name (e.map ExprNode.tree)) StmtNode.tree StmtNode.stamps :=
    (Builds.silent_holding (silent_expectMark _ _) _).bind_same fun _ =>
      .make (fun n => StmtNode.tree_var n name e) fun n => .of_eq (StmtNode.stamps_var n name e)
  exact (Builds.sure (sure_acceptKind? _) _).bind_same fun _ => .ite
    ((builds_someAssignment h).bind hrest) (Builds.bind (.pure (a := none) rfl (.refl _)) hrest)

/-- The condition and the branches. -/
theorem builds_ifStatement :
    Builds [] inner.ifStatement plain.ifStatement StmtNode.tree StmtNode.stamps := by
  refine (Builds.silent (silent_expectMark _ _)).bind_same fun _ =>
    (builds_assignment h).bind fun condition =>
      (Builds.silent_holding (silent_expectMark _ _) _).bind_same fun _ =>
        (h.statement.holding condition.stamps).bind fun s =>
          (Builds.sure (sure_acceptKind? _) _).bind_same fun _ => ?_
  -- In the end, the statement owns its own stamp and those of all its parts.
  have hrest (t : Option StmtNode) :
      Builds (condition.stamps ++ s.stamps ++ stmtsStamps t.toList)
        (make (StmtNode.ifThen · condition s t))
        (pure (Stmt.ifThen condition.tree s.tree (t.map StmtNode.tree))) StmtNode.tree
        StmtNode.stamps :=
    .make (fun n => StmtNode.tree_ifThen n condition s t) fun n => by
      rw [StmtNode.stamps_ifThen, List.append_assoc]
  have hsome : Builds (condition.stamps ++ s.stamps)
      (some <$> holding (condition.stamps ++ s.stamps) inner.statement)
      (some <$> plain.statement) (Option.map StmtNode.tree)
      fun t => condition.stamps ++ s.stamps ++ stmtsStamps t.toList :=
    (h.statement.holding _).map (fun _ => rfl) fun _ => by simp
  have hnone : Builds (condition.stamps ++ s.stamps) (pure none) (pure none)
      (Option.map StmtNode.tree)
      fun t => condition.stamps ++ s.stamps ++ stmtsStamps t.toList := .pure rfl (by simp)
  exact .ite (hsome.bind hrest) (hnone.bind hrest)

/-- The condition and the body. -/
theorem builds_whileStatement :
    Builds [] inner.whileStatement plain.whileStatement StmtNode.tree StmtNode.stamps :=
  (Builds.silent (silent_expectMark _ _)).bind_same fun _ =>
    (builds_assignment h).bind fun condition =>
      (Builds.silent_holding (silent_expectMark _ _) _).bind_same fun _ =>
        (h.statement.holding condition.stamps).bind fun _ => .make (fun _ => rfl) fun _ => .refl _

omit h in
/-- The last clause goes behind the body, into a block. -/
theorem builds_loopBody (F : List Stamp) (last : Option ExprNode) (s : StmtNode) :
    Builds (F ++ (exprsStamps last.toList ++ s.stamps)) (loopBody last s)
      (pure ((last.map ExprNode.tree).elim s.tree fun e => .block [s.tree, .expression e]))
      StmtNode.tree fun body => F ++ body.stamps := by
  cases last with
  | none => exact .pure rfl (.refl _)
  | some e =>
    refine .making fun n => .make (fun _ => rfl) fun m => List.perm_iff_count.mpr fun x => ?_
    simp only [StmtNode.stamps, stmtsStamps, exprsStamps, Option.toList_some, List.count_append,
      List.count_cons, List.count_nil]
    omega

omit h in
/-- Without a condition there is one that holds. -/
theorem builds_loopCondition (F : List Stamp) (condition : Option ExprNode) :
    Builds (F ++ exprsStamps condition.toList) (loopCondition condition)
      (pure ((condition.map ExprNode.tree).getD (.literal (.bool true)))) ExprNode.tree
      fun e => F ++ e.stamps := by
  cases condition with
  | none =>
    show Builds _ (make (ExprNode.literal · (.bool true))) _ _ _
    exact .make (fun _ => rfl) fun n => by simp
  | some e => exact .pure rfl (by simp)

omit h in
/-- The first clause goes in front of the loop, into a block. -/
theorem builds_behindInitializer (first : Option StmtNode) (loop : StmtNode) :
    Builds (stmtsStamps first.toList ++ loop.stamps) (behindInitializer first loop)
      (pure ((first.map StmtNode.tree).elim loop.tree fun s => .block [s, loop.tree]))
      StmtNode.tree StmtNode.stamps := by
  cases first with
  | none => exact .pure rfl (.refl _)
  | some s =>
    show Builds _ (make (StmtNode.block · [s, loop])) _ _ _
    exact .make (fun _ => rfl) fun n => by simp

omit h in
/-- The nodes that a `for` loop is written with. -/
theorem builds_forLoop (first : Option StmtNode) (condition last : Option ExprNode)
    (s : StmtNode) :
    Builds (stmtsStamps first.toList ++ exprsStamps condition.toList ++ exprsStamps last.toList ++
        s.stamps)
      (forLoop first condition last s)
      (pure (Nested.forLoop (first.map StmtNode.tree) (condition.map ExprNode.tree)
        (last.map ExprNode.tree) s.tree)) StmtNode.tree StmtNode.stamps := by
  have hplain : (pure (Nested.forLoop (first.map StmtNode.tree) (condition.map ExprNode.tree)
        (last.map ExprNode.tree) s.tree) : Parser Stmt) = (do
      let body ← pure ((last.map ExprNode.tree).elim s.tree fun e =>
        .block [s.tree, .expression e])
      let condition ← pure ((condition.map ExprNode.tree).getD (.literal (.bool true)))
      pure ((first.map StmtNode.tree).elim (.whileDo condition body) fun s =>
        .block [s, .whileDo condition body])) := by
    cases first <;> cases last <;> rfl
  rw [hplain]
  have hbody := (builds_loopBody (stmtsStamps first.toList ++ exprsStamps condition.toList) last s)
  refine (hbody.bind fun body => ?_).perm (.of_eq (by rw [List.append_assoc _ _ s.stamps]))
  -- The condition is made with the first clause and the body at hand.
  have hcondition := builds_loopCondition (stmtsStamps first.toList ++ body.stamps) condition
  refine (hcondition.bind fun e => .making fun n => ?_).perm ?_
  · refine (builds_behindInitializer first (.whileDo n e body)).perm ?_
    rw [StmtNode.stamps]
    refine List.perm_middle.trans (List.Perm.cons _ ?_)
    rw [List.append_assoc]
    exact List.perm_append_comm.append_left _
  · rw [List.append_assoc, List.append_assoc]
    exact List.perm_append_comm.append_left _

/-- A declaration, an expression, or nothing. -/
theorem builds_forInitializer :
    Builds [] inner.forInitializer plain.forInitializer (Option.map StmtNode.tree)
      fun s => stmtsStamps s.toList := by
  refine (Builds.sure (sure_acceptKind? _) _).bind_same fun _ => .ite (.pure rfl (.refl _)) ?_
  exact (Builds.sure (sure_acceptKind? _) _).bind_same fun _ => .ite
    ((builds_varDeclaration h).map (fun _ => rfl) fun _ => by simp)
    ((builds_expressionStatement h).map (fun _ => rfl) fun _ => by simp)

/-- A clause that may be left out. -/
theorem builds_forClause (final : Mark) (place : MarkPlace) :
    Builds [] (inner.forClause final place) (plain.forClause final place)
      (Option.map ExprNode.tree) fun e => exprsStamps e.toList := by
  have hrest (e : Option ExprNode) : Builds (exprsStamps e.toList)
      (do
        let _ ← holding (exprsStamps e.toList) (lift (expectMark final place))
        return e)
      (do
        let _ ← expectMark final place
        return e.map ExprNode.tree) (Option.map ExprNode.tree) fun e => exprsStamps e.toList :=
    (Builds.silent_holding (silent_expectMark _ _) _).bind_same fun _ => .pure rfl (.refl _)
  exact (Builds.sure (sure_isNext _) _).bind_same fun _ => .ite
    (Builds.bind (.pure (a := none) rfl (.refl _)) hrest) ((builds_someAssignment h).bind hrest)

/-- All clauses and the body, made into a loop. -/
theorem builds_forStatement :
    Builds [] inner.forStatement plain.forStatement StmtNode.tree StmtNode.stamps :=
  (Builds.silent (silent_expectMark _ _)).bind_same fun _ =>
    (builds_forInitializer h).bind fun first =>
      ((builds_forClause h _ _).holding _).bind fun condition =>
        ((builds_forClause h _ _).holding _).bind fun last =>
          (h.statement.holding _).bind (builds_forLoop first condition last)

/-- How a statement goes on depends on the token that it starts with. -/
theorem builds_afterStatementStart (line : Nat) (start : Nested.StatementStart) :
    Builds [] (inner.afterStatementStart line start) (plain.afterStatementStart line start)
      StmtNode.tree StmtNode.stamps := by
  cases start with
  | forLoop => exact builds_forStatement h
  | ifThen => exact builds_ifStatement h
  | print => exact builds_printStatement h
  | block => exact (builds_block h).bind fun _ => .make (fun _ => rfl) fun _ => .refl _
  | returnValue => exact builds_returnStatement h line
  | whileLoop => exact builds_whileStatement h

/-- Any statement that is no declaration. -/
theorem builds_statementRule :
    Builds [] inner.statementRule plain.statementRule StmtNode.tree StmtNode.stamps := by
  refine (Builds.sure (sure_accept? _) _).bind_same fun found => ?_
  cases found with
  | none => exact builds_expressionStatement h
  | some found => exact builds_afterStatementStart h found.2 found.1

/-!
## Declarations

Functions and classes. A declaration with a mistake is dropped with all that it is made of.
-/

/-- A name, parameters and a body. -/
theorem builds_function (kind : FunctionKind) :
    Builds [] (inner.function kind) (plain.function kind) FunctionNode.tree
      FunctionNode.stamps :=
  (Builds.silent (silent_expectName _)).bind_same fun _ =>
    (Builds.silent (silent_expectMark _ _)).bind_same fun _ =>
      (Builds.silent silent_parameters).bind_same fun _ =>
        (Builds.silent (silent_expectMark _ _)).bind_same fun _ =>
          (builds_block h).bind fun _ => .make (fun _ => rfl) fun _ => .refl _

/-- The members that were read are at hand while further ones are read. -/
theorem builds_methods (fuel : Nat) :
    Builds [] (inner.methods fuel) (plain.methods fuel)
      (fun fs => (functionTrees fs.1, functionTrees fs.2))
      fun fs => functionsStamps fs.2 ++ functionsStamps fs.1 := by
  induction fuel with
  | zero => exact .pure rfl (.refl _)
  | succ fuel ih =>
    refine (Builds.sure sure_atEnd _).bind_same fun _ => .ite (.pure rfl (.refl _)) ?_
    refine (Builds.sure (sure_isNext _) _).bind_same fun _ => .ite (.pure rfl (.refl _)) ?_
    refine (Builds.sure (sure_acceptKind? _) _).bind_same fun isStatic =>
      (builds_function h .method).bind fun f => (ih.holding f.stamps).bind fun fs => ?_
    refine .ite (.pure rfl ?_) (.pure rfl ?_)
    · exact .of_eq (List.append_assoc _ _ _)
    · exact List.perm_append_comm_assoc _ _ _

omit h in
/-- The name of the superclass is a use. -/
theorem builds_superclass :
    Builds [] superclass Nested.superclass (Option.map (·.use)) superclassStamps :=
  (Builds.sure (sure_acceptKind? _) _).bind_same fun _ => .ite
    ((Builds.silent (silent_expectName _)).bind_same fun _ =>
      (Builds.freshUse _).bind_same fun _ => .make (fun _ => rfl) fun _ => .refl _)
    (.pure rfl (.refl _))

/-- The superclass and the members. -/
theorem builds_classDeclaration :
    Builds [] inner.classDeclaration plain.classDeclaration StmtNode.tree StmtNode.stamps :=
  (Builds.silent (silent_expectName _)).bind_same fun _ => builds_superclass.bind fun parent =>
    (Builds.silent_holding (silent_expectMark _ _) _).bind_same fun _ =>
      (Builds.sure sure_bound _).bind_same fun _ =>
        ((builds_methods h _).holding (superclassStamps parent)).bind fun _ =>
          (Builds.silent_holding (silent_expectMark _ _) _).bind_same fun _ =>
            .make (fun _ => rfl) fun _ => .refl _

/-- Any declaration or statement. -/
theorem builds_declarationRule :
    Builds [] inner.declarationRule plain.declarationRule StmtNode.tree StmtNode.stamps := by
  refine (Builds.sure (sure_acceptKind? _) _).bind_same fun _ => .ite (builds_classDeclaration h) ?_
  refine (Builds.sure sure_acceptFunction _).bind_same fun _ => .ite
    ((builds_function h .function).bind fun _ => .pure rfl (.refl _)) ?_
  exact (Builds.sure (sure_acceptKind? _) _).bind_same fun _ => .ite (builds_varDeclaration h)
    (builds_statementRule h)

/-- What a statement with a mistake was made of has been dropped when it is given up. -/
theorem builds_recovering :
    Builds [] inner.recovering plain.recovering (Option.map StmtNode.tree)
      fun s => stmtsStamps s.toList := by
  intro s
  have hrule := builds_declarationRule h s
  unfold recovering Nested.recovering
  generalize inner.declarationRule s = r at hrule
  generalize plain.declarationRule s.parser = r' at hrule
  cases hrule with
  | ok hd => exact .ok (hd.perm (.refl _) (by simp))
  -- What a rule had at hand when it gave up has been dropped by then.
  | @error e s' hs =>
    cases e with
    | tooDeep => exact .error hs
    | mistake =>
      have hrecover : Builds [] (do lift recover; return none) (do recover; return none)
          (Option.map StmtNode.tree) fun s => stmtsStamps s.toList :=
        (Builds.sure sure_recover _).bind_same fun _ => .pure rfl (.refl _)
      exact (hrecover s').later hs

end Statements

end NodeRules

/-!
## Programs

Rules of all levels build what the plain ones do, and so does the parsing of a program.
-/

/-- By induction on the levels. -/
theorem buildAs_nodeGrammar (depth : Nat) : (nodeGrammar depth).BuildAs (grammar depth) := by
  induction depth with
  | zero => exact ⟨.throw _, .throw _, .throw _, .throw _⟩
  | succ depth ih =>
    exact ⟨NodeRules.builds_recovering ih, NodeRules.builds_statementRule ih,
      NodeRules.builds_assignment ih, NodeRules.builds_unaryExpr ih⟩

/-- Declaration after declaration, with recovery from mistakes in between. -/
theorem builds_nodeProgram {rules : NodeRules} {plain : Nested} (h : rules.BuildAs plain)
    (fuel : Nat) :
    Builds [] (nodeProgram rules fuel) (program plain fuel) stmtTrees stmtsStamps := by
  induction fuel with
  | zero => exact .pure rfl (.refl _)
  | succ fuel ih =>
    intro s
    have hfirst := h.declaration s
    unfold nodeProgram program
    by_cases hempty : s.parser.rest.isEmpty = true
    · rw [if_pos hempty, if_pos hempty]
      exact .ok (.refl (.refl _) s)
    · rw [if_neg hempty, if_neg hempty]
      generalize rules.declaration s = r at hfirst
      generalize plain.declaration s.parser = r' at hfirst
      cases hfirst with
      | @ok first s' hfirst =>
        -- The statements read so far are held while the others are read.
        have hothers := (ih.holding (stmtsStamps first.toList) s').later hfirst
        dsimp only
        generalize holding _ (nodeProgram rules fuel) s' = r at hothers
        generalize program plain fuel s'.parser = r' at hothers
        cases hothers with
        | @ok others s'' hothers =>
          dsimp only
          rw [← stmtTrees_toList, ← stmtTrees_append]
          exact .ok (hothers.perm (.refl _) (.of_eq (stmtsStamps_append _ _).symm))
        | error hothers => exact .error hothers
      | @error e s' hs =>
        have hreport : Builds [] (do lift (report (← lift here) .nesting); return [])
            (do report (← here) .nesting; return []) stmtTrees stmtsStamps :=
          (Builds.sure sure_here _).bind_same fun _ =>
            (Builds.sure (sure_report _ _) _).bind_same fun _ => .pure rfl (.refl _)
        exact (hreport s').later hs

/-- **Each node is at one place.** Without identities, the trees that are made are those that
parsing gives. All stamps that are given on the way are on these trees or were dropped, each of them
once. -/
theorem parseNodes_spec (depth firstUse firstNode : Nat) (lexed : Lexed) :
    let made := parseNodes depth firstUse firstNode lexed
    let parsed := parse depth firstUse lexed
    stmtTrees made.statements = parsed.statements ∧
      ∀ x : Stamp, (stmtsStamps made.statements).count x + made.dropped.count x +
        x.given firstNode firstUse = x.given made.nextNode parsed.nextUse := by
  intro made parsed
  -- The law of the whole parser, from a state in which nothing was given and nothing dropped.
  have hends := builds_nodeProgram (buildAs_nodeGrammar depth) (lexed.tokens.length + 1)
    ⟨⟨lexed.tokens, lexed.endLine, [], firstUse, lexed.tokens.length + 1⟩, firstNode, []⟩
  simp only [made, parsed]
  unfold parseNodes parse
  dsimp only at hends ⊢
  generalize nodeProgram _ _ _ = r at hends
  generalize program _ _ _ = r' at hends
  cases hends with
  | ok h => exact ⟨rfl, fun x => by simpa [NodeState.given] using h x⟩
  | error h => exact ⟨rfl, fun x => by simpa [NodeState.given] using h x⟩

end LoxLang
