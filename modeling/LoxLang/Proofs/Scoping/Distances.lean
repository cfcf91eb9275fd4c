import LoxLang.Proofs.Scoping.Source

/-!
# Tables of distances

A session keeps one table of distances for all its programs. The uses of a program are entered with
numbers that no use had before, so each finds its own distance and no earlier entry is touched.
-/

namespace LoxLang

namespace Distances

theorem getElem?_insert (table : Distances) (i j : UseId) (d : Nat) :
    (table.insert i d)[j]? = if i = j then some d else table[j]? := by
  rw [Std.TreeMap.getElem?_insert]
  by_cases h : i = j <;> simp [h]

theorem getElem?_insertAll_of_ne {table : Distances} {uses : List Resolved} {i : UseId}
    (h : ∀ u ∈ uses, u.id ≠ i) : (table.insertAll uses)[i]? = table[i]? := by
  induction uses generalizing table with
  | nil => rfl
  | cons u uses ih =>
    have hstep : (Distances.insertAll (table.insert u.id u.distance) uses)[i]? = _ :=
      ih fun u' hu' => h u' (List.mem_cons_of_mem _ hu')
    rw [getElem?_insert, if_neg (h u List.mem_cons_self)] at hstep
    exact hstep

theorem getElem?_insertAll_of_mem {table : Distances} {uses : List Resolved} {u : Resolved}
    (hnodup : (uses.map (·.id)).Nodup) (hu : u ∈ uses) :
    (table.insertAll uses)[u.id]? = some u.distance := by
  induction uses generalizing table with
  | nil => cases hu
  | cons u' uses ih =>
    rw [List.map_cons, List.nodup_cons] at hnodup
    rcases List.mem_cons.mp hu with rfl | hu
    -- No later entry has this number, so the entry is not replaced.
    · have hne : ∀ u' ∈ uses, u'.id ≠ u.id := fun u' hu' heq =>
        hnodup.1 (heq ▸ List.mem_map_of_mem hu')
      have hstep : (Distances.insertAll (table.insert u.id u.distance) uses)[u.id]? = _ :=
        getElem?_insertAll_of_ne hne
      rw [getElem?_insert, if_pos rfl] at hstep
      exact hstep
    · exact ih hnodup.2 hu

/-!
### Tables of a program

Entries are entered one after the other, a later one over an earlier one of the same number. With
different numbers none is lost.
-/

variable {α : Type} {entry : α → Option Resolved} {id? : α → Option UseId}

/-- The numbers of the entries are among all numbers. -/
theorem sublist_ids (hid : ∀ a u, entry a = some u → id? a = some u.id) (as : List α) :
    ((as.filterMap entry).map (·.id)).Sublist (as.filterMap id?) := by
  induction as with
  | nil => exact .slnil
  | cons a as ih =>
    cases hentry : entry a with
    | some u =>
      rw [List.filterMap_cons_some hentry, List.filterMap_cons_some (hid a u hentry)]
      exact ih.cons_cons u.id
    | none =>
      rw [List.filterMap_cons_none hentry]
      -- What has no entry may still have a number.
      cases hnumber : id? a with
      | none => rwa [List.filterMap_cons_none hnumber]
      | some i =>
        rw [List.filterMap_cons_some hnumber]
        exact ih.cons i

/-- If all numbers are different and the table is new to one of them, then what has this number
finds its own entry there, or none. -/
theorem getElem?_insertAll_filterMap (hid : ∀ a u, entry a = some u → id? a = some u.id)
    {as : List α} (hnodup : (as.filterMap id?).Nodup) {table : Distances} {a : α} {i : UseId}
    (hnew : table[i]? = none) (ha : a ∈ as) (hi : id? a = some i) :
    (table.insertAll (as.filterMap entry))[i]? = (entry a).map (·.distance) := by
  cases hentry : entry a with
  | some u =>
    obtain rfl : u.id = i := Option.some.inj ((hid a u hentry).symm.trans hi)
    exact getElem?_insertAll_of_mem (hnodup.sublist (sublist_ids hid as))
      (List.mem_filterMap.mpr ⟨a, ha, hentry⟩)
  | none =>
    rw [getElem?_insertAll_of_ne]
    · exact hnew
    · -- Another entry with this number is impossible, because the numbers are all different.
      intro u hu heq
      obtain ⟨as₁, as₂, rfl⟩ := List.append_of_mem ha
      rw [List.filterMap_append, List.filterMap_cons_none hentry, ← List.filterMap_append] at hu
      have hmem := (sublist_ids hid (as₁ ++ as₂)).subset (List.mem_map_of_mem hu)
      rw [List.filterMap_append, List.filterMap_cons_some hi] at hnodup
      have hnot := List.perm_middle.nodup_iff.mp hnodup
      rw [List.nodup_cons, ← List.filterMap_append] at hnot
      exact hnot.1 (heq ▸ hmem)

end Distances

namespace Stretch

variable {n m : Nat} {os : List Occurrence} {table : Distances} {v : Visit} {i : Nat}

theorem id_mem (hv : .use v ∈ os) : v.id ∈ os.filterMap Occurrence.id? :=
  List.mem_filterMap.mpr ⟨.use v, hv, rfl⟩

theorem id?_of_resolved? (o : Occurrence) (u : Resolved) (h : o.resolved? = some u) :
    o.id? = some u.id := by
  cases o with
  | use v =>
    obtain ⟨d, -, rfl⟩ := Option.map_eq_some_iff.mp h
    rfl
  | _ => cases h

/-- The numbers of the resolved uses are among those of all uses. -/
theorem sublist_ids (os : List Occurrence) :
    ((os.filterMap Occurrence.resolved?).map (·.id)).Sublist (os.filterMap Occurrence.id?) :=
  Distances.sublist_ids id?_of_resolved? os

/-- Each use of a program finds its own distance in the table that the program was entered into. -/
theorem getElem?_insertAll (h : Stretch n m os) (hnew : ∀ i : Nat, n ≤ i → table[i]? = none)
    (hv : .use v ∈ os) :
    (table.insertAll (os.filterMap Occurrence.resolved?))[v.id]? = v.distance? := by
  have hfound := Distances.getElem?_insertAll_filterMap id?_of_resolved? h.nodup
    (hnew _ (h.range _ (id_mem hv)).1) hv rfl
  rw [hfound]
  simp [Occurrence.resolved?, Visit.resolved?, Option.map_map, Function.comp_def]

/-- Entering a program touches no use with another number. -/
theorem getElem?_insertAll_of_lt (h : Stretch n m os) (hi : i < n ∨ m ≤ i) :
    (table.insertAll (os.filterMap Occurrence.resolved?))[i]? = table[i]? := by
  refine Distances.getElem?_insertAll_of_ne fun u hu heq => ?_
  have hmem := (sublist_ids os).subset (List.mem_map_of_mem hu)
  rw [heq] at hmem
  have := h.range i hmem
  omega

end Stretch

end LoxLang
