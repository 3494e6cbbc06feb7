import Mathlib.Logic.Function.Iterate
import Mathlib.Data.List.Nodup
import Mathlib.Data.List.Range

/-!
# Following links

A link leads from each cell to the next, and some cells are ends. A `Chain` is what a walk from a
cell passes until the first end. It need not exist: a walk can go round for ever. Where it exists
it is the only one, its cells are those that the links reach one after the other, and no cell is
passed twice.
-/

set_option autoImplicit false

namespace Linked

variable {Cell : Type*} (next : Cell → Cell) (ends : Cell → Prop)

/-- The cells from one to the first end. -/
inductive Chain : Cell → List Cell → Prop
  | last {x : Cell} (stop : ends x) : Chain x [x]
  | link {x : Cell} {rest : List Cell} (goes : ¬ends x) (tail : Chain (next x) rest) :
      Chain x (x :: rest)

variable {next ends} {x : Cell} {cells : List Cell}

namespace Chain

theorem ne_nil (chain : Chain next ends x cells) : cells ≠ [] := by
  cases chain <;> exact List.cons_ne_nil _ _

/-- There is one chain from a cell. -/
theorem unique {other : List Cell} (one : Chain next ends x cells)
    (two : Chain next ends x other) : cells = other := by
  induction one generalizing other with
  | last stop =>
      cases two with
      | last _ => rfl
      | link goes _ => exact absurd stop goes
  | link goes tail ih =>
      cases two with
      | last stop => exact absurd stop goes
      | link _ tail' => rw [ih tail']

/-- The cells are those that the links reach. -/
theorem getElem_eq (chain : Chain next ends x cells) {i : ℕ} (inside : i < cells.length) :
    cells[i] = next^[i] x := by
  induction chain generalizing i with
  | last stop =>
      obtain rfl : i = 0 := Nat.lt_one_iff.mp inside
      rfl
  | link goes tail ih =>
      cases i with
      | zero => rfl
      | succ i =>
          rw [List.getElem_cons_succ, Function.iterate_succ_apply]
          exact ih (Nat.lt_of_succ_lt_succ inside)

/-- The last cell is an end. -/
theorem ends_last (chain : Chain next ends x cells) : ends (next^[cells.length - 1] x) := by
  induction chain with
  | last stop => exact stop
  | link goes tail ih =>
      obtain ⟨more, size⟩ := Nat.exists_eq_succ_of_ne_zero (List.length_pos_iff.mpr tail.ne_nil).ne'
      rw [size] at ih
      rw [List.length_cons, size]
      exact ih

/-- A walk that comes to an end has a chain. -/
theorem of_iterate {k : ℕ} (stops : ends (next^[k] x)) :
    ∃ cells, Chain next ends x cells ∧ cells.length ≤ k + 1 := by
  induction k generalizing x with
  | zero => exact ⟨[x], .last stops, le_rfl⟩
  | succ k ih =>
      by_cases here : ends x
      · exact ⟨[x], .last here, Nat.le_add_left 1 (k + 1)⟩
      · obtain ⟨rest, tail, short⟩ := ih stops
        exact ⟨x :: rest, .link here tail, Nat.succ_le_succ short⟩

/-- From each cell of a chain goes a chain that is no longer. -/
theorem of_mem (chain : Chain next ends x cells) {y : Cell} (member : y ∈ cells) :
    ∃ rest, Chain next ends y rest ∧ rest.length ≤ cells.length := by
  induction chain with
  | last stop =>
      obtain rfl := List.mem_singleton.mp member
      exact ⟨_, .last stop, le_rfl⟩
  | link goes tail ih =>
      rcases List.mem_cons.mp member with rfl | behind
      · exact ⟨_, .link goes tail, le_rfl⟩
      · obtain ⟨rest, from_, short⟩ := ih behind
        exact ⟨rest, from_, short.trans (Nat.le_succ _)⟩

/-- **No cell is passed twice.** -/
theorem nodup (chain : Chain next ends x cells) : cells.Nodup := by
  induction chain with
  | last stop => exact List.nodup_singleton _
  | link goes tail ih =>
      refine List.nodup_cons.mpr ⟨fun again => ?_, ih⟩
      obtain ⟨rest, from_, short⟩ := tail.of_mem again
      have same := from_.unique (.link goes tail)
      rw [same, List.length_cons] at short
      exact absurd short (Nat.not_succ_le_self _)

/-- What holds of the cells of a chain, by the links that reach them. -/
theorem forall_iff (chain : Chain next ends x cells) {holds : Cell → Prop} :
    (∀ y ∈ cells, holds y) ↔ ∀ i < cells.length, holds (next^[i] x) := by
  constructor
  · intro all i inside
    rw [← chain.getElem_eq inside]
    exact all _ (List.getElem_mem inside)
  · intro all y member
    obtain ⟨i, inside, rfl⟩ := List.mem_iff_getElem.mp member
    rw [chain.getElem_eq inside]
    exact all i inside

end Chain

end Linked
