import Mathlib.Data.BitVec

/-!
# Lists threaded through a memory of bytes

A free list keeps the address of its next element in the first bytes of each element. `Linked`
says which elements the list behind an address has. It depends on those bytes only
(`Linked.frame`), so a write that leaves them alone leaves the list alone.
-/

set_option autoImplicit false

namespace Threaded

/-- Bytes by address. -/
abbrev Mem := ℕ → BitVec 8

/-- Bytes of an address that is kept in memory. -/
def width : ℕ := 4

/-- The address kept at `a`, its low byte first. -/
def load (mem : Mem) (a : ℕ) : ℕ :=
  (mem a).toNat + 256 * ((mem (a + 1)).toNat + 256 * ((mem (a + 2)).toNat +
    256 * (mem (a + 3)).toNat))

/-- Keeps the address `v` at `a`. -/
def store (mem : Mem) (a v : ℕ) : Mem := fun x =>
  if a ≤ x ∧ x < a + width then BitVec.ofNat 8 (v / 256 ^ (x - a)) else mem x

/-- Copies the `n` bytes at `src` to `dst`. -/
def copy (mem : Mem) (src dst n : ℕ) : Mem := fun x =>
  if dst ≤ x ∧ x < dst + n then mem (src + (x - dst)) else mem x

/-- Clears `n` bytes at `a`. -/
def clear (mem : Mem) (a n : ℕ) : Mem := fun x =>
  if a ≤ x ∧ x < a + n then 0 else mem x

/-- The list behind `head` has these elements. -/
def Linked (mem : Mem) : ℕ → List ℕ → Prop
  | head, [] => head = 0
  | head, a :: rest => head = a ∧ a ≠ 0 ∧ Linked mem (load mem a) rest

variable {mem mem' : Mem} {a v x n src dst head : ℕ} {l : List ℕ}

theorem store_outside (outside : x < a ∨ a + width ≤ x) : store mem a v x = mem x :=
  if_neg (by omega)

theorem copy_outside (outside : x < dst ∨ dst + n ≤ x) : copy mem src dst n x = mem x :=
  if_neg (by omega)

theorem copy_inside {i : ℕ} (inside : i < n) : copy mem src dst n (dst + i) = mem (src + i) := by
  rw [copy, if_pos (by omega), Nat.add_sub_cancel_left]

theorem clear_outside (outside : x < a ∨ a + n ≤ x) : clear mem a n x = mem x :=
  if_neg (by omega)

theorem load_store (small : v < 2 ^ 32) : load (store mem a v) a = v := by
  have byte (i : ℕ) (below : i < width) :
      (store mem a v (a + i)).toNat = v / 256 ^ i % 256 := by
    rw [store, if_pos (by omega), Nat.add_sub_cancel_left, BitVec.toNat_ofNat]
  have first := byte 0 (by decide)
  have second := byte 1 (by decide)
  have third := byte 2 (by decide)
  have fourth := byte 3 (by decide)
  simp only [Nat.add_zero] at first
  rw [load, first, second, third, fourth]
  omega

/-- What is kept at an address depends on its own bytes. -/
theorem load_congr (same : ∀ x, a ≤ x → x < a + width → mem' x = mem x) :
    load mem' a = load mem a := by
  rw [width] at same
  rw [load, load, same a (by omega) (by omega), same (a + 1) (by omega) (by omega),
    same (a + 2) (by omega) (by omega), same (a + 3) (by omega) (by omega)]

/-- A list stays as it is where the first bytes of its elements do. -/
theorem Linked.frame (linked : Linked mem head l)
    (same : ∀ a ∈ l, ∀ x, a ≤ x → x < a + width → mem' x = mem x) : Linked mem' head l := by
  induction l generalizing head with
  | nil => exact linked
  | cons a rest ih =>
      obtain ⟨is, some_, behind⟩ := linked
      refine ⟨is, some_, ?_⟩
      rw [load_congr (same a List.mem_cons_self)]
      exact ih behind fun b inside => same b (List.mem_cons_of_mem _ inside)

/-- A list is empty exactly when its head is NULL. -/
theorem Linked.nil_iff (linked : Linked mem head l) : head = 0 ↔ l = [] := by
  cases l with
  | nil => exact ⟨fun _ => rfl, fun _ => linked⟩
  | cons a rest =>
      obtain ⟨rfl, some_, -⟩ := linked
      exact ⟨fun none_ => absurd none_ some_, nofun⟩

/-- An element put in front of a list. -/
theorem Linked.push (linked : Linked mem head l) (small : head < 2 ^ 32) (some_ : a ≠ 0)
    (apart : ∀ b ∈ l, a + width ≤ b ∨ b + width ≤ a) : Linked (store mem a head) a (a :: l) := by
  refine ⟨rfl, some_, ?_⟩
  rw [load_store small]
  refine linked.frame fun b inside x low high => store_outside ?_
  have := apart b inside
  omega

end Threaded
