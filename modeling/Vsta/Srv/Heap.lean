import Vsta.Hash
import Mathlib.Data.List.Count
import Mathlib.Tactic.SplitIfs

/-!
# Structs that are allocated and freed

A server keeps structs in memory that it gets from `malloc` and gives back with `free`. `Ledger`
says of the table of those that are there that each address was freed as often as it was handed out,
once less while a struct is there: no struct is freed twice, and one that is gone was freed.
-/

set_option autoImplicit false

namespace Vsta.Srv

variable {α : Type} {nodes : Hash α} {a : ULong} {n : α}

/-- What was handed out, what was freed, and what is there agree. -/
def Ledger (nodes : Hash α) (made freed : List ULong) : Prop :=
  ∀ a, made.count a = freed.count a + if (nodes.lookup a).isSome then 1 else 0

variable {made freed : List ULong}

/-- A struct is allocated where there is none. -/
theorem Ledger.alloc (ledger : Ledger nodes made freed) (fresh : nodes.lookup a = none) (n : α) :
    Ledger (nodes.insert a n) (a :: made) freed := by
  intro b
  rw [Hash.lookup_insert, List.count_cons, ledger b]
  by_cases same : b = a
  · subst same
    simp [fresh]
  · simp [same, Ne.symm same]

/-- A struct that is there is freed. -/
theorem Ledger.free (ledger : Ledger nodes made freed) (distinct : nodes.Distinct)
    (there : nodes.lookup a = some n) : Ledger (nodes.delete a) made (a :: freed) := by
  intro b
  rw [distinct.lookup_delete, List.count_cons, ledger b]
  by_cases same : b = a
  · subst same
    simp [there]
  · simp [same, Ne.symm same]

/-- A struct is allocated and freed again. -/
theorem Ledger.undo (ledger : Ledger nodes made freed) (a : ULong) :
    Ledger nodes (a :: made) (a :: freed) := by
  intro b
  rw [List.count_cons, List.count_cons, ledger b]
  omega

/-- A struct changes. -/
theorem Ledger.modify (ledger : Ledger nodes made freed) (a : ULong) (change : α → α) :
    Ledger (nodes.modify a change) made freed := by
  intro b
  rw [ledger b, Hash.lookup_modify]
  by_cases same : b = a
  · simp [same]
  · simp [same]

end Vsta.Srv
