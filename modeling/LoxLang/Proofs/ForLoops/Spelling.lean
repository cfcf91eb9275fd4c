import LoxLang.Proofs.ForLoops
import LoxLang.Proofs.Grammar.Soundness

/-!
# How `for` loops are written

What is parsed behind the keyword `for` is the tree of a loop, and the clauses of the loop are those
that are written there (`forLoop_of_derives`). Its body is a statement, and statements declare
nothing where they stand (`Derives.fits`), so what is in front of a loop and behind it sees nothing
of the body.
-/

namespace LoxLang

open LoxLang.Parser Nested

variable {d n m : Nat} {ts : List Token}

/-! ## Clauses and bodies -/

/-- What the grammar makes of the parts of a loop: the first clause is a variable declaration or an
expression, and the body declares nothing. -/
def Phrase.Fits : Phrase → Prop
  | .«variable» s => ∃ name value, s = .var name value
  | .initializer s => ∃ first : Option ForInitializer, first.map ForInitializer.stmt = s
  | .statement _ s => s.isClosed = true
  | _ => True

theorem isClosed_loopTree (first : Option Stmt) (condition last : Option Expr) {s : Stmt}
    (hs : s.isClosed = true) : (loopTree first condition last s).isClosed = true := by
  cases first with
  | some first => cases last <;> rfl
  | none =>
    cases last with
    | none => exact hs
    | some last => rfl

theorem Derives.fits {ph : Phrase} (h : Derives d ph n ts m) : ph.Fits := by
  induction h with
  | effect | print | block | returnValue => rfl
  | whileDo _ _ _ ih => exact ih
  | ifThen _ _ _ ih => exact ih
  | ifElse _ _ _ _ ih ih' => exact Bool.and_eq_true_iff.mpr ⟨ih, ih'⟩
  | forLoop _ _ _ _ _ _ _ ih => exact isClosed_loopTree _ _ _ ih
  | noInitializer => exact ⟨none, rfl⟩
  | variableInitializer _ ih =>
    obtain ⟨name, value, rfl⟩ := ih
    exact ⟨some (.var name value), rfl⟩
  | @effectInitializer _ _ _ _ _ e => exact ⟨some (.expression e), rfl⟩
  | variableNil | variableValue => exact ⟨_, _, rfl⟩
  | _ => trivial

/-!
## Loops

Which tokens a loop is written with, clause by clause, and what tree is parsed from them. Since a
derivation is unique, the parser has no other choice.
-/

open Mark in
/-- The tokens of a loop behind its keyword. -/
inductive ForLoop.Spelled (l : ForLoop) : Nat → Bool → UseId → List Token → UseId → Prop
  | clauses {d n m k j i lineL lineS lineR : Nat} {ts ts' ts'' body : List Token} {o : Bool}
      (hfirst : Derives (d + 1) (.initializer (l.initializer.map ForInitializer.stmt)) n ts m)
      (hcondition : Derives (d + 1) (.clause l.condition) m ts' k)
      (hincrement : Derives (d + 1) (.clause l.increment) k ts'' j)
      (hbody : Derives d (.statement o l.body) j body i) :
      Spelled l (d + 1) o n
        (leftParen.token lineL :: (ts ++ (ts' ++
          semicolon.token lineS :: (ts'' ++ rightParen.token lineR :: body)))) i

/-- No expression begins with the keyword `for`. -/
theorem Derives.head_ne_for {e : Expr} {line : Nat} {rest : List Token} :
    ¬Derives d (.expression e) n (Keyword.«for».token line :: rest) m := by
  intro h
  obtain ⟨t, rest', hts, hstarts, -⟩ := h.beginsProperly
  obtain ⟨rfl, -⟩ := List.cons.inj hts
  cases hstarts

/-- **What stands behind the keyword `for` is a loop**, with the clauses that are written there. -/
theorem forLoop_of_derives {o : Bool} {s : Stmt} {line : Nat}
    (h : Derives d (.statement o s) n (Keyword.«for».token line :: ts) m) :
    ∃ l : ForLoop, l.tree = s ∧ l.Spelled d o n ts m := by
  generalize hall : Keyword.«for».token line :: ts = all at h
  cases h with
  | effect he =>
    -- The tokens of an expression are never none, so `for` would be the first of them.
    obtain ⟨t, rest, rfl, -⟩ := he.beginsProperly
    obtain ⟨rfl, -⟩ := List.cons.inj hall
    exact absurd he Derives.head_ne_for
  | print | block | returnValue | whileDo | ifThen | ifElse => cases hall
  | @forLoop _ _ _ _ _ _ _ _ _ _ _ _ _ _ _ first condition last body hfirst hcondition hlast
      hbody =>
    obtain ⟨-, rfl⟩ := List.cons.inj hall
    obtain ⟨first, rfl⟩ := hfirst.fits
    refine ⟨⟨first, condition, last, body, hbody.fits⟩, ?_, .clauses hfirst hcondition hlast hbody⟩
    exact forLoop_eq_loopTree _ _ _ _

/-- A statement that begins with the keyword `for` and is read without a report is a loop. -/
theorem forLoop_of_statementRule {s s' : ParserState} {x : Stmt} {line : Nat} {rest : List Token}
    (hs : s.rest = Keyword.«for».token line :: rest)
    (hrun : (grammar d).statementRule s = .ok x s') (hreports : s'.reports = s.reports) :
    ∃ l : ForLoop, l.tree = x ∧ ∃ o ts, rest = ts ++ s'.rest ∧
      l.Spelled d o s.nextUse ts s'.nextUse := by
  have hreads := reads_statementRule (sound_grammar d) s
  rw [hrun] at hreads
  obtain ⟨o, ts, hts, hderives, -⟩ := hreads.2 hreports
  obtain ⟨t, ts, rfl, -⟩ := hderives.beginsProperly
  -- Some token was passed, so it is the keyword.
  rw [hs, List.cons_append] at hts
  obtain ⟨rfl, rfl⟩ := List.cons.inj hts
  obtain ⟨l, htree, hspelled⟩ := forLoop_of_derives hderives
  exact ⟨l, htree, o, ts, rfl, hspelled⟩

end LoxLang
