import Mathlib.Logic.Function.Basic
import Mathlib.Data.Nat.ModEq

/-!
# A queue in a ring of places

A queue is kept in a ring of `n` places, from a head on. Items come behind the last one and leave at
the head. `Holds` says which places hold which items; all others are free.
-/

set_option autoImplicit false

namespace Ring

variable {Item : Type*} {n head : ℕ} {places : ℕ → Option Item} {queue : List Item} {item : Item}

/-- The items of a queue stand in the ring from the head on. -/
structure Holds (n : ℕ) (places : ℕ → Option Item) (head : ℕ) (queue : List Item) : Prop where
  fits : queue.length ≤ n
  inside : head < n
  places : ∀ i < n, places ((head + i) % n) = queue[i]?

theorem place_injective {i j : ℕ} (first : i < n) (second : j < n)
    (same : (head + i) % n = (head + j) % n) : i = j :=
  Nat.ModEq.eq_of_lt_of_lt (Nat.ModEq.add_left_cancel' head same) first second

namespace Holds

theorem nil (positive : 0 < n) : Holds n (fun _ => (none : Option Item)) 0 [] :=
  ⟨Nat.zero_le n, positive, fun _ _ => rfl⟩

theorem at_head (holds : Holds n places head queue) : places head = queue.head? := by
  have first := holds.places 0 (Nat.zero_lt_of_lt holds.inside)
  rw [Nat.add_zero, Nat.mod_eq_of_lt holds.inside] at first
  rw [first, List.head?_eq_getElem?]

/-- The place behind the last item is free just when there is one. -/
theorem free_iff (holds : Holds n places head queue) :
    places ((head + queue.length) % n) = none ↔ queue.length < n := by
  constructor
  · intro free
    refine lt_of_le_of_ne holds.fits fun full => ?_
    rw [full, Nat.add_mod_right, Nat.mod_eq_of_lt holds.inside, holds.at_head,
      List.head?_eq_none_iff] at free
    subst free
    exact absurd (full ▸ holds.inside) (Nat.not_lt_zero _)
  · intro more
    rw [holds.places _ more, List.getElem?_eq_none le_rfl]

/-- An item comes. -/
theorem push (holds : Holds n places head queue)
    (free : places ((head + queue.length) % n) = none) :
    Holds n (Function.update places ((head + queue.length) % n) (some item)) head
      (queue ++ [item]) := by
  have more := holds.free_iff.mp free
  refine ⟨by rw [List.length_append]; exact more, holds.inside, fun i small => ?_⟩
  by_cases here : i = queue.length
  · subst here
    rw [Function.update_self, List.getElem?_concat_length]
  · rw [Function.update_of_ne fun same => here (place_injective small more same), holds.places i small]
    rcases Nat.lt_or_gt_of_ne here with before | behind
    · rw [List.getElem?_append_left before]
    · rw [List.getElem?_eq_none behind.le, List.getElem?_eq_none]
      rw [List.length_append]
      exact behind

/-- The first item leaves. -/
theorem pop (holds : Holds n places head (item :: queue)) :
    Holds n (Function.update places head none) ((head + 1) % n) queue := by
  have positive : 0 < n := Nat.zero_lt_of_lt holds.inside
  refine ⟨(Nat.le_succ _).trans holds.fits, Nat.mod_lt _ positive, fun i small => ?_⟩
  have place : ((head + 1) % n + i) % n = (head + (i + 1)) % n := by
    rw [Nat.mod_add_mod, Nat.add_assoc, Nat.add_comm 1 i]
  rw [place]
  by_cases last : i + 1 = n
  · rw [last, Nat.add_mod_right, Nat.mod_eq_of_lt holds.inside, Function.update_self,
      List.getElem?_eq_none]
    have fits := holds.fits
    rw [List.length_cons] at fits
    omega
  · have small' : i + 1 < n := lt_of_le_of_ne small last
    rw [Function.update_of_ne, holds.places _ small', List.getElem?_cons_succ]
    intro same
    have first : (head + (i + 1)) % n = (head + 0) % n := by
      rw [same, Nat.add_zero, Nat.mod_eq_of_lt holds.inside]
    exact absurd (place_injective small' positive first) (Nat.succ_ne_zero i)

end Holds

end Ring
