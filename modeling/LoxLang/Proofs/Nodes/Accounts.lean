import LoxLang.Proofs.Advancing
import LoxLang.Proofs.Nodes.Making

/-!
# Accounts of stamps

A parser that makes nodes reads what the plain one reads, and it keeps its stamps together: each one
that it owns or gives is in the end either on the tree that it hands on or noted as dropped, and it
is there once (`Accounts`). This holds however the parser ends; one that gives up hands on nothing.

`Builds` says both. It has a rule for each way of putting parsers together, so that the rules of the
grammar are compared part by part.
-/

namespace LoxLang

open LoxLang.Parser LoxLang.NodeParser

variable {α β γ δ : Type}

/-!
## Steps that number no use

Only one step of parsing gives away a number. All others leave the numbers alone, and those that
never give up can be looked at without regard to how they end.
-/

namespace Parser

/-- However it ends, a parser numbers no use. -/
def Silent (p : Parser α) : Prop := ∀ s, (stateOf (p s)).nextUse = s.nextUse

/-- A parser never gives up, and it numbers no use. -/
def Sure (p : Parser α) : Prop := ∀ s, ∃ a t, p s = .ok a t ∧ t.nextUse = s.nextUse

/-- What never gives up has one way to end. -/
theorem Sure.silent {p : Parser α} (h : p.Sure) : p.Silent := by
  intro s
  obtain ⟨a, t, hrun, ht⟩ := h s
  rw [hrun]
  exact ht

theorem Sure.pure (a : α) : Sure (pure a) := fun s => ⟨a, s, rfl, rfl⟩

/-- Two such steps, one after the other. -/
theorem Sure.bind {p : Parser α} {f : α → Parser β} (hp : p.Sure) (hf : ∀ a, (f a).Sure) :
    (p >>= f).Sure := by
  intro s
  obtain ⟨a, t, hrun, ht⟩ := hp s
  obtain ⟨b, u, hrun', hu⟩ := hf a t
  exact ⟨b, u, (bind_of_ok hrun).trans hrun', hu.trans ht⟩

/-- Two such parsers, one after the other. If the first one gives up, that is all. -/
theorem Silent.bind {p : Parser α} {f : α → Parser β} (hp : p.Silent) (hf : ∀ a, (f a).Silent) :
    (p >>= f).Silent := by
  intro s
  have hs := hp s
  cases hrun : p s with
  | ok a t =>
    rw [hrun] at hs
    rw [bind_of_ok hrun]
    exact (hf a t).trans hs
  | error e t =>
    rw [hrun] at hs
    rw [bind_of_error hrun]
    exact hs

/-- Whichever is taken. -/
theorem Silent.ite {c : Prop} [Decidable c] {p q : Parser α} (hp : p.Silent) (hq : q.Silent) :
    Silent (if c then p else q) := by
  split
  · exact hp
  · exact hq

/-- Giving a result is no step. -/
theorem Silent.pure (a : α) : Silent (pure a) := (Sure.pure a).silent

theorem sure_here : here.Sure := fun s => ⟨s.location, s, here_eq s, rfl⟩

theorem sure_bound : bound.Sure := fun s => ⟨s.bound, s, rfl, rfl⟩

theorem sure_isNext (kind : TokenKind) : (isNext kind).Sure := fun s => ⟨_, s, rfl, rfl⟩

theorem sure_atEnd : atEnd.Sure := fun s => ⟨_, s, rfl, rfl⟩

/-- A mistake is noted, and parsing goes on. -/
theorem sure_report (place : Location) (e : StaticError) : (report place e).Sure :=
  fun _ => ⟨(), _, rfl, rfl⟩

theorem sure_recover : recover.Sure := fun _ => ⟨(), _, rfl, rfl⟩

/-- A token is taken, or left. -/
theorem sure_accept? (f : TokenKind → Option α) : (accept? f).Sure := by
  intro s
  rcases accept?_cases f s with ⟨t, rest, a, -, -, hrun⟩ | ⟨hrun, -⟩
  · exact ⟨_, _, hrun, rfl⟩
  · exact ⟨_, _, hrun, rfl⟩

theorem sure_acceptKind? (kind : TokenKind) : (acceptKind? kind).Sure :=
  (sure_accept? _).bind fun _ => .pure _

/-- Two tokens ahead are looked at. -/
theorem sure_acceptFunction : Nested.acceptFunction.Sure := by
  intro s
  unfold Nested.acceptFunction
  split
  · exact ⟨true, _, rfl, rfl⟩
  · exact ⟨false, s, rfl, rfl⟩

/-- Giving up numbers no use. -/
theorem silent_fail (e : GrammarError) : (fail e : Parser α).Silent := by
  intro s
  rw [fail_eq]
  rfl

/-- A mark that must be there is no use. -/
theorem silent_expectMark (m : Mark) (place : MarkPlace) : (expectMark m place).Silent := by
  refine (sure_acceptKind? _).silent.bind fun found => ?_
  cases found with
  | none => exact silent_fail _
  | some line => exact .pure line

/-- Neither is a name that is declared. -/
theorem silent_expectName (role : NameRole) : (expectName role).Silent := by
  refine (sure_accept? _).silent.bind fun found => ?_
  cases found with
  | none => exact silent_fail _
  | some found => exact .pure _

/-- Items that are no uses, behind commas. -/
theorem silent_moreItems {item : Parser α} (h : item.Silent) (tooMany : GrammarError)
    (fuel count : Nat) : (Nested.moreItems item tooMany fuel count).Silent := by
  induction fuel generalizing count with
  | zero => exact .pure _
  | succ fuel ih =>
    refine (sure_acceptKind? _).silent.bind fun found => ?_
    cases found with
    | none => exact .pure _
    | some line =>
      have hrest := h.bind fun x => (ih (count + 1)).bind fun xs => Silent.pure (x :: xs)
      exact .ite (sure_here.silent.bind fun _ => (sure_report _ _).silent.bind fun _ => hrest) hrest

/-- Parameters are no uses. -/
theorem silent_parameters : Nested.parameters.Silent := by
  have hname := silent_expectName .parameter
  have hitems : (Nested.items (expectName .parameter) .tooManyParameters).Silent :=
    (sure_isNext _).silent.bind fun _ => .ite (.pure _) (hname.bind fun _ =>
      sure_bound.silent.bind fun _ => (silent_moreItems hname _ _ _).bind fun _ => .pure _)
  exact hitems.bind fun _ => (silent_expectMark _ _).bind fun _ => .pure _

end Parser

/-!
## Accounts

All stamps below the next ones have been given. In each state they are told apart by where they are:
at hand, on a tree that was handed on, or dropped.
-/

/-- How often a stamp has been given: once, if it is below the next one of its kind. -/
def Stamp.given (nextNode nextUse : Nat) : Stamp → Nat
  | node (i : Nat) => if i < nextNode then 1 else 0
  | use (i : Nat) => if i < nextUse then 1 else 0

/-- A stamp is given once at most. -/
theorem Stamp.given_le (nextNode nextUse : Nat) (x : Stamp) : x.given nextNode nextUse ≤ 1 := by
  cases x <;> simp only [given] <;> split <;> omega

/-- A number is below the next one if it is below this one or is this one. -/
theorem below_succ (i n : Nat) :
    (if i < n + 1 then 1 else 0) = (if i < n then 1 else 0) + if n = i then 1 else 0 := by
  split <;> split <;> split <;> omega

/-- With the next node one more stamp is given. -/
theorem Stamp.given_succ_node (n u : Nat) (x : Stamp) :
    x.given (n + 1) u = x.given n u + [Stamp.node n].count x := by
  cases x with
  | node i => simpa [given, List.count_cons] using below_succ i n
  | use i => simp [given]

/-- With the next use one more stamp is given. -/
theorem Stamp.given_succ_use (n u : Nat) (x : Stamp) :
    x.given n (u + 1) = x.given n u + [Stamp.use u].count x := by
  cases x with
  | node i => simp [given]
  | use i => simpa [given, List.count_cons] using below_succ i u

/-- How often a stamp has been given in a state. -/
def NodeState.given (s : NodeState) (x : Stamp) : Nat := x.given s.nextNode s.parser.nextUse

/-- What was owned in one state, and what has been given up to another one, is kept there or has
been dropped. -/
def Accounts (own : List Stamp) (s s' : NodeState) (kept : List Stamp) : Prop :=
  ∀ x, kept.count x + s'.dropped.count x + s.given x =
    own.count x + s.dropped.count x + s'.given x

namespace Accounts

variable {own own' kept kept' F : List Stamp} {s s' s'' : NodeState}

/-- Nothing happens to the stamps. -/
theorem refl (h : kept.Perm own) (s : NodeState) : Accounts own s s kept := by
  intro x
  rw [h.count_eq]

/-- What is at hand behind one way is at hand in front of the next. -/
theorem trans (h : Accounts own s s' own') (h' : Accounts own' s' s'' kept) :
    Accounts own s s'' kept := by
  intro x
  have hx := h x
  have hx' := h' x
  omega

/-- In what order stamps are at hand does not matter. -/
theorem perm (h : Accounts own s s' kept) (hown : own.Perm own') (hkept : kept.Perm kept') :
    Accounts own' s s' kept' := by
  intro x
  rw [← hown.count_eq, ← hkept.count_eq]
  exact h x

/-- What is at hand besides stays at hand. -/
theorem frame (h : Accounts [] s s' kept) (F : List Stamp) : Accounts F s s' (F ++ kept) := by
  intro x
  have hx := h x
  rw [List.count_nil] at hx
  rw [List.count_append]
  omega

/-- What is at hand may be dropped. -/
theorem drop (h : Accounts own s s' (F ++ kept)) :
    Accounts own s { s' with dropped := F ++ s'.dropped } kept := by
  intro x
  have hx := h x
  rw [List.count_append] at hx
  show kept.count x + (F ++ s'.dropped).count x + s.given x = _ + s'.given x
  rw [List.count_append]
  omega

/-- A step that numbers no use leaves the accounts as they are. -/
theorem step (own : List Stamp) (s : NodeState) {t : ParserState}
    (ht : t.nextUse = s.parser.nextUse) : Accounts own s { s with parser := t } own := by
  intro x
  unfold NodeState.given
  dsimp only
  rw [ht]

/-- A node that is made is at hand. -/
theorem make (own : List Stamp) (s : NodeState) :
    Accounts own s { s with nextNode := s.nextNode + 1 } (.node s.nextNode :: own) := by
  intro x
  unfold NodeState.given
  dsimp only
  rw [Stamp.given_succ_node, ← List.singleton_append, List.count_append]
  omega

/-- A use that is numbered is at hand. -/
theorem number (own : List Stamp) (s : NodeState) :
    Accounts own s { s with parser := { s.parser with nextUse := s.parser.nextUse + 1 } }
      (.use s.parser.nextUse :: own) := by
  intro x
  unfold NodeState.given
  dsimp only
  rw [Stamp.given_succ_use, ← List.singleton_append, List.count_append]
  omega

end Accounts

/-!
## Building

`Builds` compares a parser of nodes with a plain one, and keeps the accounts. What a parser has at
hand is what was made of the tokens in front of it.
-/

/-- Two ends of the same kind. The result of the plain parser is that of the other one without
identities, and the accounts are in order. -/
inductive Books (own : List Stamp) (s : NodeState) (tree : α → β) (kept : α → List Stamp) :
    EStateM.Result ParserStop NodeState α → EStateM.Result ParserStop ParserState β → Prop
  | ok {a : α} {s' : NodeState} (h : Accounts own s s' (kept a)) :
    Books own s tree kept (.ok a s') (.ok (tree a) s'.parser)
  | error {e : ParserStop} {s' : NodeState} (h : Accounts own s s' []) :
    Books own s tree kept (.error e s') (.error e s'.parser)

/-- With nodes of some stamps at hand, a parser of nodes reads what a plain one reads, and keeps the
stamps together. -/
def Builds (own : List Stamp) (p : NodeParser α) (q : Parser β) (tree : α → β)
    (kept : α → List Stamp) : Prop := ∀ s, Books own s tree kept (p s) (q s.parser)

/-- What happened before the parser began belongs to its accounts. -/
theorem Books.later {own own' : List Stamp} {s s' : NodeState} {tree : α → β}
    {kept : α → List Stamp} {r : EStateM.Result ParserStop NodeState α}
    {r' : EStateM.Result ParserStop ParserState β} (h : Books own' s' tree kept r r')
    (hs : Accounts own s s' own') : Books own s tree kept r r' := by
  cases h with
  | ok h => exact .ok (hs.trans h)
  | error h => exact .error (hs.trans h)

namespace Builds

variable {own own' : List Stamp} {p : NodeParser α} {q : Parser β} {tree : α → β}
  {kept : α → List Stamp}

/-- A node is handed on, with the stamps that are at hand. -/
theorem pure {a : α} {b : β} (htree : tree a = b) (hkept : (kept a).Perm own) :
    Builds own (pure a) (pure b) tree kept := by
  subst htree
  exact fun s => .ok (.refl hkept s)

/-- Giving up, with nothing at hand. -/
theorem throw (e : ParserStop) : Builds [] (throw e) (throw e) tree kept :=
  fun s => .error (.refl (.refl _) s)

/-- What the first parser hands on is at hand for the second one. -/
theorem bind {f : α → NodeParser γ} {g : β → Parser δ} {tree' : γ → δ} {kept' : γ → List Stamp}
    (hp : Builds own p q tree kept)
    (hf : ∀ a, Builds (kept a) (f a) (g (tree a)) tree' kept') :
    Builds own (p >>= f) (q >>= g) tree' kept' := by
  intro s
  have hends := hp s
  show Books own s tree' kept' (EStateM.bind p f s) (EStateM.bind q g s.parser)
  unfold EStateM.bind
  generalize p s = r at hends
  generalize q s.parser = r' at hends
  cases hends with
  | ok h => exact (hf _ _).later h
  | error h => exact .error h

/-- A step of plain parsing hands on its result as it is. -/
theorem bind_same {p : NodeParser α} {q : Parser α} {f : α → NodeParser γ} {g : α → Parser δ}
    {tree' : γ → δ} {kept' : γ → List Stamp} (hp : Builds own p q (fun a => a) kept)
    (hf : ∀ a, Builds (kept a) (f a) (g a) tree' kept') :
    Builds own (p >>= f) (q >>= g) tree' kept' := hp.bind hf

/-- A result that is made into another one with the same stamps. -/
theorem map {f : α → γ} {g : β → δ} {tree' : γ → δ} {kept' : γ → List Stamp}
    (hp : Builds own p q tree kept) (htree : ∀ a, tree' (f a) = g (tree a))
    (hkept : ∀ a, (kept' (f a)).Perm (kept a)) :
    Builds own (f <$> p) (g <$> q) tree' kept' :=
  hp.bind fun a => pure (htree a) (hkept a)

/-- Whichever is taken. -/
theorem ite {c : Prop} [Decidable c] {p' : NodeParser α} {q' : Parser β}
    (h : Builds own p q tree kept) (h' : Builds own p' q' tree kept) :
    Builds own (if c then p else p') (if c then q else q') tree kept := by
  split
  · exact h
  · exact h'

theorem perm (h : Builds own p q tree kept) (hown : own.Perm own') :
    Builds own' p q tree kept :=
  fun s => (h s).later (.refl hown s)

/-- What a rule has at hand while a part of it goes on. -/
theorem holding (h : Builds [] p q tree kept) (F : List Stamp) :
    Builds F (holding F p) q tree fun a => F ++ kept a := by
  intro s
  have hends := h s
  unfold NodeParser.holding
  generalize p s = r at hends
  generalize q s.parser = r' at hends
  cases hends with
  | ok h => exact .ok (h.frame F)
  | error h => exact .error (h.frame F).drop

/-- A step that makes no node and never gives up. -/
theorem sure {q : Parser α} (h : q.Sure) (own : List Stamp) :
    Builds own (lift q) q (fun a => a) fun _ => own := by
  intro s
  obtain ⟨a, t, hrun, ht⟩ := h s.parser
  unfold lift
  rw [hrun]
  exact .ok (.step own s ht)

/-- A step that makes no node. -/
theorem silent {q : Parser α} (h : q.Silent) : Builds [] (lift q) q (fun a => a) fun _ => [] := by
  intro s
  have hs := h s.parser
  unfold lift
  cases hrun : q s.parser with
  | ok a t =>
    rw [hrun] at hs
    exact .ok (.step [] s hs)
  | error e t =>
    rw [hrun] at hs
    exact .error (.step [] s hs)

/-- A step that makes no node, with something at hand. -/
theorem silent_holding {q : Parser α} (h : q.Silent) (own : List Stamp) :
    Builds own (NodeParser.holding own (lift q)) q (fun a => a) fun _ => own := by
  intro s
  have hends := (silent h).holding own s
  generalize NodeParser.holding own (lift q) s = r at hends
  generalize q s.parser = r' at hends
  cases hends with
  | ok h => exact .ok (h.perm (.refl _) (by rw [List.append_nil]))
  | error h => exact .error h

/-- A mistake is reported, and nothing is made. -/
theorem fail (e : GrammarError) : Builds [] (lift (Parser.fail e)) (Parser.fail e) tree kept := by
  intro s
  unfold lift
  rw [fail_eq, fail_eq]
  exact .error (.step [] s rfl)

/-- The number that is given is at hand. -/
theorem freshUse (own : List Stamp) :
    Builds own (lift Parser.freshUse) Parser.freshUse (fun u => u) fun u => .use u :: own :=
  fun s => .ok (.number own s)

/-- A node that is made counts to what is at hand. -/
theorem making {node : NodeId → γ} {f : γ → NodeParser α}
    (h : ∀ n, Builds (.node n :: own) (f (node n)) q tree kept) :
    Builds own (make node >>= f) q tree kept :=
  fun s => (h s.nextNode { s with nextNode := s.nextNode + 1 }).later (.make own s)

/-- The node that a rule makes of all that it has at hand. -/
theorem make {node : NodeId → α} {b : β} (htree : ∀ n, tree (node n) = b)
    (hkept : ∀ n, (kept (node n)).Perm (.node n :: own)) :
    Builds own (make node) (Pure.pure b) tree kept := by
  have hnode : Builds own (NodeParser.make node >>= Pure.pure) (Pure.pure b) tree kept :=
    making fun n => pure (htree n) (hkept n)
  exact hnode

/-- What is dropped is at hand no longer. -/
theorem dropping {F : List Stamp} (hown : own.Perm (F ++ own')) {f : Unit → NodeParser α}
    (h : Builds own' (f ()) q tree kept) : Builds own (drop F >>= f) q tree kept := by
  intro s
  have haccounts : Accounts own s { s with dropped := F ++ s.dropped } own' :=
    (Accounts.refl hown.symm s).drop
  exact (h { s with dropped := F ++ s.dropped }).later haccounts

end Builds

end LoxLang
