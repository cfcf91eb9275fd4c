/-!
# Bindings

Names with something bound to each, in the order in which the names were first bound.
-/

namespace LoxLang

/-- Names with what is bound to them. -/
abbrev Bindings (α : Type) := List (String × α)

namespace Bindings

variable {α : Type}

/-- What is bound to a name. -/
def get? : Bindings α → String → Option α
  | [], _ => none
  | (key, a) :: rest, name => if key = name then some a else get? rest name

/-- Binds a name, in the place of what was bound to it before. -/
def insert : Bindings α → String → α → Bindings α
  | [], name, a => [(name, a)]
  | (key, b) :: rest, name, a =>
    if key = name then (key, a) :: rest else (key, b) :: insert rest name a

/-- Whether something is bound to a name. -/
def contains (bs : Bindings α) (name : String) : Bool := (bs.get? name).isSome

/-- Binds names in their order, so that the last of several equal names counts. -/
def insertMany (bs : Bindings α) (more : List (String × α)) : Bindings α :=
  more.foldl (fun bs (name, a) => bs.insert name a) bs

/-- The bindings sorted by name, in the order of code points. -/
def sorted (bs : Bindings α) : Bindings α := bs.mergeSort fun a b => a.1 ≤ b.1

theorem get?_insert (bs : Bindings α) (name : String) (a : α) (other : String) :
    (bs.insert name a).get? other = if name = other then some a else bs.get? other := by
  induction bs with
  | nil => simp [insert, get?]
  | cons b rest ih =>
    obtain ⟨key, b⟩ := b
    by_cases h : key = name
    · subst h
      by_cases h' : key = other <;> simp [insert, get?, h']
    · by_cases h' : key = other
      · subst h'
        simp [insert, get?, h, Ne.symm h]
      · simp [insert, get?, h, h', ih]

end Bindings

end LoxLang
