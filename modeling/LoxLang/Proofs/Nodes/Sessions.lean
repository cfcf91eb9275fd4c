import LoxLang.Proofs.Correspondence.Sessions
import LoxLang.Proofs.Nodes.Rules
import LoxLang.Proofs.Nodes.Visits
import LoxLang.Proofs.Scoping.Recovery
import LoxLang.Proofs.Sessions
import Mathlib.Data.List.Nodup

/-!
# Nodes of a session

A session that keeps the nodes of all its texts, also of those that it refused. The account of
stamps runs on over the texts (`NodeSession.Accounted`), so no node is at two places, and nodes of
different texts are different. Hence a use of a name has one entry in the table of distances, and
entering the uses of a new program leaves all earlier entries as they are
(`node_identity_sound`).
-/

namespace LoxLang

/-!
## Distinct stamps

Identities and numbers of uses are two ways to tell nodes apart, each of them sound if the stamps
are. From this alone follows what resolving does on a tree.
-/

theorem nodup_nodeIds {stamps : List Stamp} (h : stamps.Nodup) : (nodeIds stamps).Nodup := by
  refine List.Nodup.filterMap (fun x y n hx hy => ?_) h
  cases x <;> cases y <;> cases hx <;> cases hy
  rfl

theorem nodup_useIds {stamps : List Stamp} (h : stamps.Nodup) : (useIds stamps).Nodup := by
  refine List.Nodup.filterMap (fun x y u hx hy => ?_) h
  cases x <;> cases y <;> cases hx <;> cases hy
  rfl

theorem mem_useIds {stamps : List Stamp} {u : UseId} : u ∈ useIds stamps ↔ .use u ∈ stamps := by
  unfold useIds
  rw [List.mem_filterMap]
  constructor
  · rintro ⟨x, hx, hu⟩
    cases x with
    | node n => cases hu
    | use v =>
      cases hu
      exact hx
  · exact fun h => ⟨.use u, h, rfl⟩

/-- What resolving does on a tree, with however many levels. It finds out what it does without
looking at the nodes; it visits the nodes in their order, none of them twice, and all of them unless
the levels run out; and it makes one entry at most for each use of a name in the tree. -/
structure ResolvedOnce (levels endLine : Nat) (program : List StmtNode) : Prop where
  same : (resolveNodes levels endLine program).1 = resolve levels endLine (stmtTrees program)
  order : (resolveNodes levels endLine program).2 <+: nodeIds (stmtsStamps program)
  once : (resolveNodes levels endLine program).2.Nodup
  all : (resolve levels endLine (stmtTrees program)).Finished →
    (resolveNodes levels endLine program).2 = nodeIds (stmtsStamps program)
  entries : ((resolve levels endLine (stmtTrees program)).uses.map (·.id)).Nodup
  uses : ∀ u ∈ (resolve levels endLine (stmtTrees program)).uses,
    .use u.id ∈ stmtsStamps program

theorem resolvedOnce (levels endLine : Nat) {program : List StmtNode}
    (h : (stmtsStamps program).Nodup) : ResolvedOnce levels endLine program := by
  obtain ⟨hsame, horder, hall, hcount⟩ := resolveNodes_spec levels endLine program
  rw [hsame] at hall hcount
  refine ⟨hsame, horder, (nodup_nodeIds h).sublist horder.sublist, hall, ?_, fun u hu => ?_⟩
  · rw [List.nodup_iff_count_le_one]
    exact fun u => Nat.le_trans (hcount u) (List.nodup_iff_count_le_one.mp (nodup_useIds h) u)
  · rw [← mem_useIds, ← List.count_pos_iff]
    exact Nat.lt_of_lt_of_le (List.count_pos_iff.mpr (List.mem_map_of_mem hu)) (hcount u.id)

/-! ## Tables -/

/-- All entries of a table stand in another one as they are. -/
def Distances.KeptIn (table table' : Distances) : Prop :=
  ∀ (i : UseId) (d : Nat), table[i]? = some d → table'[i]? = some d

/-- The uses of a program are new to a table: none has an entry yet, and when they are entered each
gets its own one, and no earlier entry is touched. -/
structure Distances.NewIn (table : Distances) (uses : List Resolved) : Prop where
  absent : ∀ u ∈ uses, table[u.id]? = none
  entered : ∀ u ∈ uses, (table.insertAll uses)[u.id]? = some u.distance
  kept : table.KeptIn (table.insertAll uses)

theorem Distances.newIn {table : Distances} {uses : List Resolved}
    (habsent : ∀ u ∈ uses, table[u.id]? = none) (hnodup : (uses.map (·.id)).Nodup) :
    table.NewIn uses := by
  refine ⟨habsent, fun u hu => getElem?_insertAll_of_mem hnodup hu, fun i d hd => ?_⟩
  rw [getElem?_insertAll_of_ne, hd]
  rintro u hu rfl
  rw [habsent u hu] at hd
  cases hd

/-!
## Sessions

The session beside which the nodes are kept is the plain one. Counting stamps gives the invariant:
each stamp that has been given is somewhere once, and no other stamp is anywhere.
-/

/-- A session and the nodes it has made: the trees of all texts so far, and what was dropped. -/
structure NodeSession where
  session : Session
  nextNode : NodeId
  programs : List (List StmtNode)
  dropped : List Stamp

namespace NodeSession

/-- A session in which nothing has run. -/
def initial : NodeSession := ⟨.initial, 0, [], []⟩

/-- Forgets that there were errors. -/
def reset (s : NodeSession) : NodeSession := { s with session := s.session.reset }

/-- What is made of a source text. -/
def parse (depth : Nat) (s : NodeSession) (source : String) : ParsedNodes :=
  parseNodes depth s.session.nextUse s.nextNode (lex source)

/-- Runs a source text. What is made of it is kept, whatever is wrong with it. -/
def run (host : Host) (depth : Nat) (s : NodeSession) (source : String) :
    Transcript × NodeSession :=
  let made := s.parse depth source
  let (t, session) := s.session.run host depth source
  (t, ⟨session, made.nextNode, s.programs ++ [made.statements], made.dropped ++ s.dropped⟩)

/-- Leads a session through steps. -/
def play (host : Host) (depth : Nat) :
    NodeSession → List SessionStep → List Transcript × NodeSession :=
  playSteps (run host depth) reset

/-- The stamps of all nodes that were made, in the trees and of what was dropped. -/
def stamps (s : NodeSession) : List Stamp := s.programs.flatMap stmtsStamps ++ s.dropped

/-- Keeping the nodes changes nothing. -/
theorem play_session (host : Host) (depth : Nat) (s : NodeSession) (steps : List SessionStep) :
    (s.play host depth steps).1 = (s.session.play host depth steps).1 ∧
      (s.play host depth steps).2.session = (s.session.play host depth steps).2 := by
  exact playSteps_agree (Φ := fun (s : NodeSession) s' => s.session = s')
    (fun _ _ h => congrArg Session.reset h) (fun _ _ _ h => h ▸ ⟨rfl, rfl⟩) rfl steps

/-- Each stamp that was given is at one place, and no other one is anywhere. All numbers that the
session refers to have been given. -/
structure Accounted (s : NodeSession) : Prop where
  stamps : ∀ x : Stamp, s.stamps.count x = x.given s.nextNode s.session.nextUse
  numbered : s.session.Numbered

theorem accounted_initial : initial.Accounted := by
  refine ⟨fun x => ?_, Session.numbered_initial⟩
  cases x <;> rfl

namespace Accounted

variable {s : NodeSession} (h : s.Accounted) (host : Host) (depth : Nat)
include h

theorem nodup : s.stamps.Nodup := by
  rw [List.nodup_iff_count_le_one]
  exact fun x => Nat.le_trans (Nat.le_of_eq (h.stamps x)) (x.given_le _ _)

theorem reset : s.reset.Accounted := ⟨h.stamps, h.numbered.reset⟩

theorem run (source : String) : (s.run host depth source).2.Accounted := by
  refine ⟨fun x => ?_, h.numbered.run host depth source⟩
  obtain ⟨-, hcount⟩ := parseNodes_spec depth s.session.nextUse s.nextNode (lex source)
  have hx := hcount x
  have hold := h.stamps x
  -- Numbers that a refused text has used are used up all the same.
  have hnext : (s.session.run host depth source).2.nextUse =
      (LoxLang.parse depth s.session.nextUse (lex source)).nextUse := by
    by_cases ha : s.session.Accepts depth source
    · rw [Session.run_of_accepts host ha]
    · obtain ⟨reports, hrun, -⟩ := Session.run_of_not_accepts host ha
      rw [hrun]
  unfold NodeSession.run NodeSession.stamps NodeSession.parse
  unfold NodeSession.stamps at hold
  dsimp only
  rw [hnext, ← hx, List.flatMap_append, List.flatMap_singleton]
  simp only [List.count_append] at hold ⊢
  omega

theorem play (steps : List SessionStep) : (s.play host depth steps).2.Accounted :=
  playSteps_keeps (fun _ h => h.reset) (fun _ source h => h.run host depth source) h steps

omit h in
/-- The stamps of a new tree have not been given before. -/
theorem not_given (source : String) {x : Stamp}
    (hx : x ∈ stmtsStamps (s.parse depth source).statements) :
    x.given s.nextNode s.session.nextUse = 0 := by
  obtain ⟨-, hcount⟩ := parseNodes_spec depth s.session.nextUse s.nextNode (lex source)
  have hx' := hcount x
  have hpos := List.count_pos_iff.mpr hx
  have hle := x.given_le (s.parse depth source).nextNode
    (LoxLang.parse depth s.session.nextUse (lex source)).nextUse
  unfold NodeSession.parse at hpos hle
  omega

theorem nodup_statements (source : String) :
    (stmtsStamps (s.parse depth source).statements).Nodup := by
  have hall := (h.run ⟨fun _ => 0, 0⟩ depth source).nodup
  unfold NodeSession.run NodeSession.stamps at hall
  dsimp only at hall
  rw [List.flatMap_append, List.flatMap_singleton] at hall
  exact (List.nodup_append.mp (List.nodup_append.mp hall).1).2.1

/-- The uses of a new program are new to the table. -/
theorem newIn (levels endLine : Nat) (source : String) :
    s.session.machine.distances.NewIn
      (resolve levels endLine (stmtTrees (s.parse depth source).statements)).uses := by
  have honce := resolvedOnce levels endLine (h.nodup_statements depth source)
  refine Distances.newIn (fun u hu => h.numbered.fresh u.id (Nat.not_lt.mp fun hlt => ?_))
    honce.entries
  have hnot : (if u.id < s.session.nextUse then 1 else 0) = 0 :=
    not_given depth source (honce.uses u hu)
  rw [if_pos hlt] at hnot
  cases hnot

/-- A run enters the uses of its program into the table if it accepts it, and else leaves the table
alone. -/
theorem distances_run (source : String) :
    let uses := (resolve depth (lex source).endLine
      (stmtTrees (s.parse depth source).statements)).uses
    let behind := (s.run host depth source).2.session.machine.distances
    (s.session.Accepts depth source → behind = s.session.machine.distances.insertAll uses) ∧
      s.session.machine.distances.KeptIn behind := by
  intro uses behind
  have htrees := (parseNodes_spec depth s.session.nextUse s.nextNode (lex source)).1
  have haccepted (ha : s.session.Accepts depth source) :
      behind = s.session.machine.distances.insertAll uses := by
    simp only [behind, uses]
    unfold NodeSession.run NodeSession.parse
    dsimp only
    rw [Session.run_of_accepts host ha, htrees]
    exact Session.distances_executeProgram host depth _ _ _ _
  refine ⟨haccepted, ?_⟩
  -- The table changes only if the source is executed, and then it is extended by new uses.
  by_cases ha : s.session.Accepts depth source
  · rw [haccepted ha]
    exact (h.newIn depth depth (lex source).endLine source).kept
  · obtain ⟨reports, hrun, -⟩ := Session.run_of_not_accepts host ha
    have hsame : behind = s.session.machine.distances := by
      simp only [behind]
      unfold NodeSession.run
      dsimp only
      rw [hrun]
    rw [hsame]
    exact fun _ _ hd => hd

theorem kept_play (steps : List SessionStep) :
    s.session.machine.distances.KeptIn
      (s.play host depth steps).2.session.machine.distances := by
  have hkept := playSteps_keeps (Φ := fun s' : NodeSession => s'.Accounted ∧
    s.session.machine.distances.KeptIn s'.session.machine.distances)
    (fun _ h' => ⟨h'.1.reset, h'.2⟩) (fun s' source h' => ⟨h'.1.run host depth source,
      fun i d hd => (h'.1.distances_run host depth source).2 i d (h'.2 i d hd)⟩)
    ⟨h, fun _ _ hd => hd⟩ steps
  exact hkept.2

end Accounted

end NodeSession

/-- **The identity of a node is a sound key.** In every session each stamp that was given to a node,
its identity and the number of the use that it is, is at one place: on a tree of one of the texts
or among what was dropped, the targets of assignments and the statements with mistakes. So no node
is at two places of the trees, and nodes of different texts are different.

Without the identities, a new tree is the one that parsing gives, with one identity for each of its
parts. Resolving it visits each of its nodes once if it comes to an end, which it does with as many
levels as the tree is high, and else the first of them; and it makes one entry at most for each.
These entries are new to the table of the session. Entering them touches no other entry, and what is
in the table once stays there in all later runs. -/
theorem node_identity_sound (host : Host) (depth : Nat) (steps : List SessionStep) :
    let s := (NodeSession.initial.play host depth steps).2
    let table := s.session.machine.distances
    s.session = (Session.initial.play host depth steps).2 ∧
    s.stamps.Nodup ∧
    (∀ x : Stamp, x ∈ s.stamps ↔ x.given s.nextNode s.session.nextUse = 1) ∧
    (∀ source, let program := (s.parse depth source).statements
      stmtTrees program = (parse depth s.session.nextUse (lex source)).statements ∧
      (nodeIds (stmtsStamps program)).length = (stmtsParts (stmtTrees program)).length ∧
      (∀ levels endLine, ResolvedOnce levels endLine program ∧
        (stmtsHeight (stmtTrees program) ≤ levels →
          (resolve levels endLine (stmtTrees program)).Finished) ∧
        table.NewIn (resolve levels endLine (stmtTrees program)).uses) ∧
      (s.session.Accepts depth source →
        (s.run host depth source).2.session.machine.distances =
          table.insertAll (resolve depth (lex source).endLine (stmtTrees program)).uses)) ∧
    ∀ more, table.KeptIn (s.play host depth more).2.session.machine.distances := by
  intro s table
  -- All that follows from the account of stamps, which is kept by every step.
  have haccounted : s.Accounted := NodeSession.accounted_initial.play host depth steps
  refine ⟨(NodeSession.play_session host depth .initial steps).2, haccounted.nodup, fun x => ?_,
    fun source => ?_, haccounted.kept_play host depth⟩
  -- Each stamp is there as often as it has been given, and it was given once at most.
  · rw [← List.count_pos_iff, haccounted.stamps x]
    have hle := x.given_le s.nextNode s.session.nextUse
    omega
  · have htrees := (parseNodes_spec depth s.session.nextUse s.nextNode (lex source)).1
    refine ⟨htrees, length_nodeIds_stmts _, fun levels endLine => ⟨?_, fun hheight => ?_, ?_⟩,
      (haccounted.distances_run host depth source).1⟩
    · exact resolvedOnce levels endLine (haccounted.nodup_statements depth source)
    · -- Names in a tree that was read are no keywords, so that the walk comes to an end.
      have hwritten := (stretch_statements depth s.session.nextUse source []).written
      rw [← htrees] at hwritten
      exact resolve_finished hwritten endLine hheight
    · exact haccounted.newIn depth levels endLine source

/-- A statement with a mistake, which drops the two uses of `a` in it, and then an assignment to a
property, of which the node of the target is dropped and its object stays. -/
theorem node_identity_sound_recovered :
    let host : Host := ⟨fun _ => 0, 9⟩
    let s := (NodeSession.initial.play host 40 [.run "{ var a; a = a +; }", .reset]).2
    let source := "{ var b; b.x = b; }"
    let program := (s.parse 40 source).statements
    s.stamps = [.node 3, .node 0, .node 1, .use 0, .node 2, .use 1] ∧
      (s.parse 40 source).dropped = [.node 6] ∧
      ResolvedOnce 40 1 program ∧
      (resolveNodes 40 1 program).2 = [10, 4, 9, 8, 7, 5] ∧
      s.session.machine.distances.NewIn (resolve 40 1 (stmtTrees program)).uses ∧
      (s.run host 40 source).2.session.machine.distances.toList = [(2, 0), (3, 0)] := by
  intro host s source program
  -- The first source is refused, and the numbers it has used up are not given again.
  obtain ⟨-, -, -, hparse, -⟩ :=
    node_identity_sound host 40 [.run "{ var a; a = a +; }", .reset]
  obtain ⟨-, -, hresolved, -⟩ := hparse source
  obtain ⟨honce, -, hnew⟩ := hresolved 40 1
  exact ⟨by decide +kernel, by decide +kernel, honce, by decide +kernel, hnew, by decide +kernel⟩

end LoxLang
