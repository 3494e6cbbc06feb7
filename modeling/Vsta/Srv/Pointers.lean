import Vsta.Hash
import Mathlib.Data.List.Count
import Mathlib.Data.List.Flatten
import Mathlib.Tactic.SplitIfs

/-!
# Pointers from a table

The structs of a table hold pointers, each none, one or several. `pointers` is the number of those
to an address, over the whole table; below is what the operations on the table do to it.
-/

set_option autoImplicit false

namespace Vsta.Srv

variable {α : Type} {p : α → List ULong} {table : Hash α} {key a : ULong} {val : α}

/-- The pointers of a table to an address. -/
def pointers (ptrs : α → List ULong) (table : Hash α) (a : ULong) : ℕ :=
  (table.flatMap fun node => ptrs node.2).count a

@[simp] theorem pointers_nil : pointers p [] a = 0 := rfl

theorem pointers_insert (key : ULong) (val : α) :
    pointers p (table.insert key val) a = (p val).count a + pointers p table a := by
  rw [pointers, Hash.insert, List.flatMap_cons, List.count_append, pointers]

theorem pointers_delete (found : table.lookup key = some val) :
    pointers p table a = (p val).count a + pointers p (table.delete key) a := by
  have parts := (Hash.perm_delete found).flatMap_right fun node => p node.2
  rw [pointers, parts.count_eq, List.flatMap_cons, List.count_append, pointers]

/-- What changes keeps its pointers. -/
theorem pointers_mapVals {change : ULong → α → α} (same : ∀ k v, p (change k v) = p v) :
    pointers p (table.mapVals change) a = pointers p table a := by
  rw [pointers, Hash.mapVals, List.flatMap_map, pointers]
  simp only [same]

/-- One struct changes. -/
theorem pointers_modify (distinct : table.Distinct) (found : table.lookup key = some val)
    (change : α → α) : pointers p (table.modify key change) a + (p val).count a =
      pointers p table a + (p (change val)).count a := by
  have found' : (table.modify key change).lookup key = some (change val) := by
    rw [Hash.lookup_modify, if_pos rfl, found]
    rfl
  rw [pointers_delete found', distinct.delete_modify, pointers_delete found]
  omega

theorem pointers_pos (found : table.lookup key = some val) (points : a ∈ p val) :
    0 < pointers p table a := by
  have more := List.count_pos_iff.mpr points
  rw [pointers_delete found]
  omega

/-- Nothing that can be found points there. -/
theorem pointers_eq_zero (distinct : table.Distinct)
    (nobody : ∀ k v, table.lookup k = some v → a ∉ p v) : pointers p table a = 0 := by
  rw [pointers, List.count_eq_zero, List.mem_flatMap]
  rintro ⟨⟨k, v⟩, member, points⟩
  exact nobody k v (distinct.lookup_of_mem member) points

/-- Something points to an address with a pointer. -/
theorem exists_of_pointers_pos (distinct : table.Distinct) (some_ : 0 < pointers p table a) :
    ∃ k v, table.lookup k = some v ∧ a ∈ p v := by
  rw [pointers, List.count_pos_iff, List.mem_flatMap] at some_
  obtain ⟨⟨k, v⟩, member, points⟩ := some_
  exact ⟨k, v, distinct.lookup_of_mem member, points⟩

end Vsta.Srv
