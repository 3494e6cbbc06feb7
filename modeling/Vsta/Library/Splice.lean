import Mathlib.Logic.Function.Basic
import Mathlib.Data.Nat.Notation
import Mathlib.Tactic.SplitIfs

/-!
# Moving stretches of memory

A memory is a function from places to contents. `splice` copies a stretch of one memory to a place
in another. What is moved does not depend on the contents (`splice_map`), so that a program that
only moves its contents can be run on symbols for them.
-/

set_option autoImplicit false

namespace Splice

variable {α β : Type*}

/-- `len` places of `src` from `at_` on, copied to the places of `dst` from `to_` on. -/
def splice (src : ℕ → α) (at_ : ℕ) (dst : ℕ → α) (to_ len : ℕ) : ℕ → α :=
  fun i => if to_ ≤ i ∧ i < to_ + len then src (at_ + (i - to_)) else dst i

variable {src dst : ℕ → α} {at_ to_ len i : ℕ}

theorem splice_inside (least : to_ ≤ i) (most : i < to_ + len) :
    splice src at_ dst to_ len i = src (at_ + (i - to_)) := if_pos ⟨least, most⟩

theorem splice_outside (out : i < to_ ∨ to_ + len ≤ i) :
    splice src at_ dst to_ len i = dst i := if_neg (by omega)

@[simp] theorem splice_zero : splice src at_ dst to_ 0 = dst :=
  funext fun _ => splice_outside (by omega)

/-- Moving commutes with every change of the contents. -/
theorem splice_map (h : α → β) :
    splice (h ∘ src) at_ (h ∘ dst) to_ len = h ∘ splice src at_ dst to_ len := by
  funext i
  rw [Function.comp_apply, splice, splice]
  split_ifs <;> rfl

end Splice
