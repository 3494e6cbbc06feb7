import Mathlib.Data.List.Basic
import Mathlib.Order.Basic
import Mathlib.Algebra.Order.Group.Nat
import Mathlib.Tactic.Common

/-!
# A region of a store, kept in memory and written back

A region of a store is kept in memory, and changed there. A map says for each unit of the region
whether it was changed (`dirty`), and a flush writes the units that were, in runs of neighbours.
While the region `Agree`s with the memory outside the dirty units, a flush makes it agree everywhere
(`Agree.flush`), and touches nothing outside the region (`flush_outside`).
-/

set_option autoImplicit false

namespace WriteBack

variable {β : Type*}

/-! ## Writing a range -/

/-- A range of the store is overwritten. -/
def put (store : ℕ → β) (start count : ℕ) (bytes : ℕ → β) : ℕ → β := fun a =>
  if start ≤ a ∧ a < start + count then bytes (a - start) else store a

theorem put_inside {store bytes : ℕ → β} {start count i : ℕ} (inside : i < count) :
    put store start count bytes (start + i) = bytes i := by
  rw [put, if_pos ⟨by omega, by omega⟩, Nat.add_sub_cancel_left]

theorem put_outside {store bytes : ℕ → β} {start count a : ℕ}
    (outside : a < start ∨ start + count ≤ a) : put store start count bytes a = store a := by
  rw [put, if_neg (by omega)]

theorem put_congr {store bytes bytes' : ℕ → β} {start count : ℕ}
    (same : ∀ i < count, bytes i = bytes' i) :
    put store start count bytes = put store start count bytes' := by
  funext a
  rw [put, put]
  split_ifs with inside
  · exact same _ (by omega)
  · rfl

theorem put_zero {store bytes : ℕ → β} {start : ℕ} : put store start 0 bytes = store := by
  funext a
  exact put_outside (by omega)

/-- Two writes one behind the other are one. -/
theorem put_append {store bytes : ℕ → β} {start count more : ℕ} :
    put (put store start count bytes) (start + count) more (fun i => bytes (count + i)) =
      put store start (count + more) bytes := by
  funext a
  simp only [put]
  split_ifs with second first whole first
  · congr 1
    omega
  · omega
  · rfl
  · omega
  · omega
  · rfl

/-! ## Runs of dirty units -/

section Runs

variable (dirty : ℕ → Bool) (joins : ℕ → ℕ → Bool) (size : ℕ)

/-- How far a run that starts at `x` and has `cnt` units goes on. -/
def runLength (x : ℕ) : ℕ → ℕ → ℕ
  | 0, cnt => cnt
  | fuel + 1, cnt =>
      if x + cnt < size ∧ dirty (x + cnt) = true ∧ joins x (x + cnt) = true then
        runLength x fuel (cnt + 1)
      else cnt

/-- The runs of dirty units from `x` on. A run ends before a unit that it cannot be joined with. -/
def runs : ℕ → ℕ → List (ℕ × ℕ)
  | 0, _ => []
  | fuel + 1, x =>
      if x < size then
        if dirty x then
          let cnt := runLength dirty joins size x size 1
          (x, cnt) :: runs fuel (x + cnt)
        else runs fuel (x + 1)
      else []

variable {dirty joins size}

/-- The units of a run after the first are dirty and joined with it. -/
theorem runLength_spec (dirty : ℕ → Bool) (joins : ℕ → ℕ → Bool) (size x fuel cnt : ℕ) : cnt ≤ runLength dirty joins size x fuel cnt ∧
    ∀ j, cnt ≤ j → j < runLength dirty joins size x fuel cnt →
      x + j < size ∧ dirty (x + j) = true ∧ joins x (x + j) = true := by
  induction fuel generalizing cnt with
  | zero => exact ⟨le_refl _, fun j low high => absurd high (not_lt.mpr low)⟩
  | succ fuel ih =>
      rw [runLength]
      split_ifs with goes
      · refine ⟨(Nat.le_succ _).trans (ih (cnt + 1)).1, fun j low high => ?_⟩
        rcases Nat.eq_or_lt_of_le low with rfl | low
        · exact goes
        · exact (ih (cnt + 1)).2 j low high
      · exact ⟨le_refl _, fun j low high => absurd high (not_lt.mpr low)⟩

/-- A run is not empty, and all its units are dirty and joined with the first. -/
theorem mem_runs {fuel x : ℕ} {r : ℕ × ℕ} (member : r ∈ runs dirty joins size fuel x) :
    0 < r.2 ∧ ∀ j, r.1 ≤ j → j < r.1 + r.2 →
      j < size ∧ dirty j = true ∧ (j = r.1 ∨ joins r.1 j = true) := by
  induction fuel generalizing x with
  | zero => exact absurd member List.not_mem_nil
  | succ fuel ih =>
      rw [runs] at member
      split_ifs at member with inside marked
      · rcases List.mem_cons.mp member with rfl | member
        · obtain ⟨some_, spec⟩ := runLength_spec dirty joins size x size 1
          refine ⟨some_, fun j low high => ?_⟩
          rcases Nat.eq_or_lt_of_le low with rfl | low
          · exact ⟨inside, marked, .inl rfl⟩
          · obtain ⟨within, changed, joined⟩ := spec (j - x) (by omega) (by simp only at high; omega)
            rw [Nat.add_sub_cancel' (by omega)] at within changed joined
            exact ⟨within, changed, .inr joined⟩
        · exact ih member
      · exact ih member
      · exact absurd member List.not_mem_nil

/-- A dirty unit is in a run. -/
theorem exists_run {fuel x j : ℕ} (enough : size ≤ x + fuel) (low : x ≤ j) (high : j < size)
    (changed : dirty j = true) :
    ∃ r ∈ runs dirty joins size fuel x, r.1 ≤ j ∧ j < r.1 + r.2 := by
  induction fuel generalizing x with
  | zero => omega
  | succ fuel ih =>
      rw [runs, if_pos (by omega)]
      have some_ := (runLength_spec dirty joins size x size 1).1
      split_ifs with marked
      · by_cases here : j < x + runLength dirty joins size x size 1
        · exact ⟨_, List.mem_cons_self, low, here⟩
        · obtain ⟨r, member, inside⟩ := ih (x := x + runLength dirty joins size x size 1)
            (by omega) (by omega)
          exact ⟨r, List.mem_cons_of_mem _ member, inside⟩
      · have other : j ≠ x := by
          rintro rfl
          exact marked changed
        exact ih (by omega) (by omega)

end Runs

/-! ## The flush -/

variable {unit base len size : ℕ} {dirty : ℕ → Bool} {joins : ℕ → ℕ → Bool}
  {view store : ℕ → β}

/-- The store has at `base` what is in memory, except in the dirty units. -/
def Agree (unit base len : ℕ) (dirty : ℕ → Bool) (view store : ℕ → β) : Prop :=
  ∀ i < len, dirty (i / unit) = false → store (base + i) = view i

/-- Runs of units are written from memory. -/
def flush (unit base : ℕ) (view : ℕ → β) (store : ℕ → β) (rs : List (ℕ × ℕ)) : ℕ → β :=
  rs.foldl (fun store r => put store (base + r.1 * unit) (r.2 * unit) fun i =>
    view (r.1 * unit + i)) store

@[simp] theorem flush_nil : flush unit base view store [] = store := rfl

@[simp] theorem flush_cons (r : ℕ × ℕ) (rs : List (ℕ × ℕ)) :
    flush unit base view store (r :: rs) = flush unit base view
      (put store (base + r.1 * unit) (r.2 * unit) fun i => view (r.1 * unit + i)) rs := rfl

/-- A run covers a place of the region when it covers its unit. -/
theorem covers_iff (positive : 0 < unit) {r : ℕ × ℕ} {i : ℕ} :
    (r.1 ≤ i / unit ∧ i / unit < r.1 + r.2) ↔
      r.1 * unit ≤ i ∧ i < r.1 * unit + r.2 * unit := by
  rw [Nat.le_div_iff_mul_le positive, Nat.div_lt_iff_lt_mul positive, Nat.add_mul]

/-- What no run covers is left as it is. -/
theorem flush_uncovered (positive : 0 < unit) {rs : List (ℕ × ℕ)} {i : ℕ}
    (none_ : ∀ r ∈ rs, ¬(r.1 ≤ i / unit ∧ i / unit < r.1 + r.2)) :
    flush unit base view store rs (base + i) = store (base + i) := by
  induction rs generalizing store with
  | nil => rfl
  | cons r rs ih =>
      rw [flush_cons, ih fun q member => none_ q (List.mem_cons_of_mem _ member)]
      have off := none_ r List.mem_cons_self
      rw [covers_iff positive] at off
      exact put_outside (by omega)

/-- What a run covers is written. -/
theorem flush_covered (positive : 0 < unit) {rs : List (ℕ × ℕ)} {i : ℕ}
    (some_ : ∃ r ∈ rs, r.1 ≤ i / unit ∧ i / unit < r.1 + r.2) :
    flush unit base view store rs (base + i) = view i := by
  induction rs generalizing store with
  | nil =>
      obtain ⟨r, member, -⟩ := some_
      exact absurd member List.not_mem_nil
  | cons r rs ih =>
      rw [flush_cons]
      by_cases later : ∃ q ∈ rs, q.1 ≤ i / unit ∧ i / unit < q.1 + q.2
      · exact ih later
      · obtain ⟨q, member, here⟩ := some_
        rcases List.mem_cons.mp member with rfl | member
        · rw [flush_uncovered positive fun q member covers => later ⟨q, member, covers⟩]
          rw [covers_iff positive] at here
          rw [show base + i = base + q.1 * unit + (i - q.1 * unit) by omega,
            put_inside (by omega), Nat.add_sub_cancel' here.1]
        · exact absurd ⟨q, member, here⟩ later

/-- Nothing is written outside the units of the runs. -/
theorem flush_outside {rs : List (ℕ × ℕ)} {a : ℕ} (within : ∀ r ∈ rs, r.1 + r.2 ≤ size)
    (outside : a < base ∨ base + size * unit ≤ a) :
    flush unit base view store rs a = store a := by
  induction rs generalizing store with
  | nil => rfl
  | cons r rs ih =>
      rw [flush_cons, ih fun q member => within q (List.mem_cons_of_mem _ member)]
      have fits : r.1 * unit + r.2 * unit ≤ size * unit := by
        rw [← Nat.add_mul]
        exact Nat.mul_le_mul_right _ (within r List.mem_cons_self)
      exact put_outside (by omega)

/-- A clean unit is left as it is. -/
theorem flush_clean (positive : 0 < unit) {fuel i : ℕ} (clean : dirty (i / unit) = false) :
    flush unit base view store (runs dirty joins size fuel 0) (base + i) = store (base + i) := by
  refine flush_uncovered positive fun r member covers => ?_
  have changed := ((mem_runs member).2 _ covers.1 covers.2).2.1
  rw [clean] at changed
  exact Bool.false_ne_true changed

/-- **A flush of the dirty runs makes the store agree with memory everywhere.** -/
theorem Agree.flush (agree : Agree unit base len dirty view store) (positive : 0 < unit)
    (marks : ∀ j, dirty j = true → j < size) :
    ∀ i < len, flush unit base view store (runs dirty joins size size 0) (base + i) = view i := by
  intro i inside
  cases changed : dirty (i / unit) with
  | true =>
      exact flush_covered positive (exists_run (by omega) (Nat.zero_le _) (marks _ changed) changed)
  | false => rw [flush_clean positive changed, agree i inside changed]

end WriteBack
