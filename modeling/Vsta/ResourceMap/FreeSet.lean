import Vsta.Library.Extents
import Vsta.Library.Runs
import Vsta.ResourceMap.Rmap

/-!
# A resource map is a set of integers

The used slots of a map stand for the set of the integers that are free (`free`). One lemma for each
scan says what it does to that set: `allocFrom_spec`, `freeFrom_spec`, `grabFrom_spec`.
-/

set_option autoImplicit false

namespace Vsta.ResourceMap

open Extents

/-- The run of integers of a slot. -/
def Slot.extent (r : Slot) : Extent ℕ := ⟨r.rOff.toNat, r.rOff.toNat + r.rSize.toNat⟩

/-- The integers that are free. -/
def free (slots : List Slot) : Set ℕ := cells (slots.map Slot.extent)

/-- The integers of a request. -/
def range (off size : Uint) : Set ℕ := Set.Ico off.toNat (off.toNat + size.toNat)

/-- The slots are non-empty, strictly ascending, disjoint and not adjacent, and they hold
32-bit integers above 0. -/
structure Sound (slots : List Slot) : Prop where
  apart : Apart (slots.map Slot.extent)
  low : ∀ r ∈ slots, 0 < r.rOff.toNat
  high : ∀ r ∈ slots, r.rOff.toNat + r.rSize.toNat ≤ 2 ^ 32

@[simp] theorem free_nil : free [] = ∅ := cells_nil

@[simp] theorem free_cons (r : Slot) (rest : List Slot) :
    free (r :: rest) = r.extent.cells ∪ free rest := by
  simp [free]

theorem mem_slot {r : Slot} {x : ℕ} :
    x ∈ r.extent.cells ↔ r.rOff.toNat ≤ x ∧ x < r.rOff.toNat + r.rSize.toNat := Iff.rfl

theorem mem_range {off size : Uint} {x : ℕ} :
    x ∈ range off size ↔ off.toNat ≤ x ∧ x < off.toNat + size.toNat := Iff.rfl

theorem sound_nil : Sound [] := ⟨apart_nil, by simp, by simp⟩

theorem sound_cons {r : Slot} {rest : List Slot} :
    Sound (r :: rest) ↔ (0 < r.rSize.toNat ∧ 0 < r.rOff.toNat ∧
      r.rOff.toNat + r.rSize.toNat ≤ 2 ^ 32 ∧
      ∀ x ∈ free rest, r.rOff.toNat + r.rSize.toNat < x) ∧ Sound rest := by
  constructor
  · intro sound
    obtain ⟨nonempty, beyond, rest_⟩ := apart_cons.mp sound.apart
    refine ⟨⟨by simpa [Slot.extent] using nonempty, sound.low r (by simp), sound.high r (by simp),
      beyond⟩, rest_, fun q member => sound.low q (by simp [member]),
      fun q member => sound.high q (by simp [member])⟩
  · rintro ⟨⟨nonempty, low, high, beyond⟩, rest_⟩
    refine ⟨apart_cons.mpr ⟨by simpa [Slot.extent] using nonempty, beyond, rest_.apart⟩, ?_, ?_⟩
    · intro q member
      rcases List.mem_cons.mp member with rfl | member
      · exact low
      · exact rest_.low q member
    · intro q member
      rcases List.mem_cons.mp member with rfl | member
      · exact high
      · exact rest_.high q member

/-- The slots `after` hold what `before` holds but for `taken`, and are at most
`extra` slots more. -/
structure Removes (before : List Slot) (taken : Set ℕ) (after : List Slot) (extra : ℕ) :
    Prop where
  sound : Sound after
  free : taken ⊆ free before
  left : ResourceMap.free after = ResourceMap.free before \ taken
  length : after.length ≤ before.length + extra

theorem Removes.cons {r : Slot} {rest after : List Slot} {taken : Set ℕ} {extra : ℕ}
    (sound : Sound (r :: rest)) (removes : Removes rest taken after extra) :
    Removes (r :: rest) taken (r :: after) extra := by
  refine ⟨?_, ?_, ?_, by simpa [Nat.add_right_comm] using removes.length⟩
  · obtain ⟨⟨nonempty, low, high, beyond⟩, _⟩ := sound_cons.mp sound
    refine sound_cons.mpr ⟨⟨nonempty, low, high, fun x inside => beyond x ?_⟩, removes.sound⟩
    rw [removes.left] at inside
    exact inside.1
  · rw [free_cons]
    exact removes.free.trans Set.subset_union_right
  · rw [free_cons, removes.left]
    exact sound.apart.cells_diff removes.free

/-- A slot of which the front, the back or the middle is taken. -/
theorem removes_of_split {r : Slot} {rest after : List Slot} {taken : Set ℕ} {extra : ℕ}
    (sound : Sound (r :: rest)) (split : Sound after) (inside : taken ⊆ r.extent.cells)
    (left : free after = (r.extent.cells \ taken) ∪ free rest)
    (length : after.length ≤ rest.length + 1 + extra) : Removes (r :: rest) taken after extra := by
  refine ⟨split, ?_, ?_, by simpa using length⟩
  · rw [free_cons]
    exact inside.trans Set.subset_union_left
  · have behind : free rest \ taken = free rest :=
      (sound.apart.disjoint.symm.mono_right inside).sdiff_eq_left
    rw [left, free_cons, Set.union_sdiff_distrib, behind]

/-- The lowest integers of a slot are taken. -/
theorem removes_front {r : Slot} {rest : List Slot} {size : Uint} (sound : Sound (r :: rest))
    (smaller : size.toNat < r.rSize.toNat) :
    Removes (r :: rest) (range r.rOff size) (⟨r.rOff + size, r.rSize - size⟩ :: rest) 0 := by
  obtain ⟨⟨nonempty, low, high, beyond⟩, rest_⟩ := sound_cons.mp sound
  have off : (r.rOff + size).toNat = r.rOff.toNat + size.toNat := by
    rw [BitVec.toNat_add]; omega
  have len : (r.rSize - size).toNat = r.rSize.toNat - size.toNat := by
    rw [BitVec.toNat_sub]; omega
  refine removes_of_split sound (sound_cons.mpr ⟨⟨?_, ?_, ?_, ?_⟩, rest_⟩) ?_ ?_ (by simp)
  · simp only [len]; omega
  · simp only [off]; omega
  · simp only [off, len]; omega
  · intro x inside
    have := beyond x inside
    simp only [off, len]; omega
  · intro x inside
    rw [mem_range] at inside
    rw [mem_slot]; omega
  · rw [free_cons]
    congr 1
    ext x
    simp only [Set.mem_sdiff, mem_slot, mem_range, off, len]; omega

/-- A slot is taken whole. -/
theorem removes_whole {r : Slot} {rest : List Slot} {size : Uint} (sound : Sound (r :: rest))
    (same : size.toNat = r.rSize.toNat) :
    Removes (r :: rest) (range r.rOff size) (collapse (r :: rest)) 0 := by
  obtain ⟨_, rest_⟩ := sound_cons.mp sound
  have whole : range r.rOff size = r.extent.cells := by
    ext x
    rw [mem_range, mem_slot]; omega
  refine removes_of_split sound rest_ whole.le ?_ (by simp [collapse])
  simp [collapse, whole]

/-- The highest integers of a slot are taken. -/
theorem removes_back {r : Slot} {rest : List Slot} {off size : Uint} (sound : Sound (r :: rest))
    (above : r.rOff.toNat < off.toNat)
    (end_ : off.toNat + size.toNat = r.rOff.toNat + r.rSize.toNat) :
    Removes (r :: rest) (range off size) (⟨r.rOff, r.rSize - size⟩ :: rest) 0 := by
  obtain ⟨⟨nonempty, low, high, beyond⟩, rest_⟩ := sound_cons.mp sound
  have len : (r.rSize - size).toNat = r.rSize.toNat - size.toNat := by
    rw [BitVec.toNat_sub]; omega
  refine removes_of_split sound (sound_cons.mpr ⟨⟨?_, low, ?_, ?_⟩, rest_⟩) ?_ ?_ (by simp)
  · simp only [len]; omega
  · simp only [len]; omega
  · intro x inside
    have := beyond x inside
    simp only [len]; omega
  · intro x inside
    rw [mem_range] at inside
    rw [mem_slot]; omega
  · rw [free_cons]
    congr 1
    ext x
    simp only [Set.mem_sdiff, mem_slot, mem_range, len]; omega

/-- Integers from the middle of a slot are taken and the slot is split. -/
theorem removes_middle {r : Slot} {rest : List Slot} {off size : Uint} (sound : Sound (r :: rest))
    (above : r.rOff.toNat < off.toNat) (positive : 0 < size.toNat)
    (below : off.toNat + size.toNat < r.rOff.toNat + r.rSize.toNat)
    (top : r.rOff.toNat + r.rSize.toNat < 2 ^ 32) :
    Removes (r :: rest) (range off size) (⟨r.rOff, off - r.rOff⟩ ::
      ⟨off + size, r.rOff + r.rSize - (off + size)⟩ :: rest) 1 := by
  obtain ⟨⟨nonempty, low, high, beyond⟩, rest_⟩ := sound_cons.mp sound
  have rtop : (off + size).toNat = off.toNat + size.toNat := by
    rw [BitVec.toNat_add]; omega
  have lower : (off - r.rOff).toNat = off.toNat - r.rOff.toNat := by
    rw [BitVec.toNat_sub]; omega
  have upper : (r.rOff + r.rSize - (off + size)).toNat =
      r.rOff.toNat + r.rSize.toNat - (off.toNat + size.toNat) := by
    simp only [BitVec.toNat_sub, BitVec.toNat_add]; omega
  have second : Sound (⟨off + size, r.rOff + r.rSize - (off + size)⟩ :: rest) := by
    refine sound_cons.mpr ⟨⟨?_, ?_, ?_, ?_⟩, rest_⟩
    · simp only [upper]; omega
    · simp only [rtop]; omega
    · simp only [rtop, upper]; omega
    · intro x inside
      have := beyond x inside
      simp only [rtop, upper]; omega
  refine removes_of_split sound (sound_cons.mpr ⟨⟨?_, low, ?_, ?_⟩, second⟩) ?_ ?_ (by simp)
  · simp only [lower]; omega
  · simp only [lower]; omega
  · intro x inside
    simp only [free_cons, Set.mem_union, mem_slot, rtop, upper] at inside
    simp only [lower]
    rcases inside with here | behind
    · omega
    · have := beyond x behind
      omega
  · intro x inside
    rw [mem_range] at inside
    rw [mem_slot]; omega
  · rw [free_cons, free_cons, ← Set.union_assoc]
    congr 1
    ext x
    simp only [Set.mem_union, Set.mem_sdiff, mem_slot, mem_range, rtop, lower, upper]; omega

/-- A full map loses what lies below the range. -/
theorem removes_below {r : Slot} {rest : List Slot} {off size : Uint} (sound : Sound (r :: rest))
    (inside : r.rOff.toNat ≤ off.toNat)
    (below : off.toNat + size.toNat < r.rOff.toNat + r.rSize.toNat)
    (top : r.rOff.toNat + r.rSize.toNat < 2 ^ 32) :
    Removes (r :: rest) (Set.Ico r.rOff.toNat (off.toNat + size.toNat))
      (⟨off + size, r.rOff + r.rSize - (off + size)⟩ :: rest) 0 := by
  have size_ : (off - r.rOff + size).toNat = off.toNat - r.rOff.toNat + size.toNat := by
    simp only [BitVec.toNat_sub, BitVec.toNat_add]; omega
  have taken : Set.Ico r.rOff.toNat (off.toNat + size.toNat) =
      range r.rOff (off - r.rOff + size) := by
    rw [range, size_]
    congr 1
    omega
  have offset : off + size = r.rOff + (off - r.rOff + size) := by bv_omega
  have length : r.rOff + r.rSize - (off + size) = r.rSize - (off - r.rOff + size) := by bv_omega
  rw [taken, length, offset]
  exact removes_front sound (by omega)

/-- The first slot that is large enough gives its lowest integers away. -/
theorem allocFrom_spec (size : Uint) {slots : List Slot} (sound : Sound slots) :
    match allocFrom size slots with
    | none => ∀ r ∈ slots, r.rSize < size
    | some (idx, after) => 0 < idx.toNat ∧ Removes slots (range idx size) after 0 := by
  induction slots with
  | nil => simp [allocFrom]
  | cons r rest ih =>
      obtain ⟨⟨_, low, _, _⟩, rest_⟩ := sound_cons.mp sound
      simp only [allocFrom]
      split_ifs with fits larger
      · exact ⟨low, removes_front sound larger⟩
      · simp only [BitVec.lt_def, BitVec.le_def] at fits larger
        exact ⟨low, removes_whole sound (by omega)⟩
      · have found := ih rest_
        cases scan : allocFrom size rest with
        | none =>
            rw [scan] at found
            intro q member
            rcases List.mem_cons.mp member with rfl | member
            · simpa [BitVec.lt_def, BitVec.le_def] using fits
            · exact found q member
        | some result =>
            rw [scan] at found
            exact ⟨found.1, found.2.cons sound⟩

/-- The slots `after` hold what `before` holds and the integers `given`, and are at most
`extra` slots more. -/
structure Adds (before : List Slot) (given : Set ℕ) (after : List Slot) (extra : ℕ) : Prop where
  sound : Sound after
  free : ResourceMap.free after = ResourceMap.free before ∪ given
  length : after.length ≤ before.length + extra

theorem Adds.cons {r : Slot} {rest after : List Slot} {given : Set ℕ} {extra : ℕ}
    (sound : Sound (r :: rest)) (beyond : ∀ x ∈ given, r.rOff.toNat + r.rSize.toNat < x)
    (adds : Adds rest given after extra) : Adds (r :: rest) given (r :: after) extra := by
  refine ⟨?_, ?_, by simpa [Nat.add_right_comm] using adds.length⟩
  · obtain ⟨⟨nonempty, low, high, behind⟩, _⟩ := sound_cons.mp sound
    refine sound_cons.mpr ⟨⟨nonempty, low, high, fun x inside => ?_⟩, adds.sound⟩
    rw [adds.free] at inside
    exact inside.elim (behind x) (beyond x)
  · rw [free_cons, free_cons, adds.free, Set.union_assoc]

/-- A range in front of all slots, with a gap, takes a slot of its own. -/
theorem makespace_spec {full : Bool} {off size : Uint} {slots : List Slot} (sound : Sound slots)
    (low : 0 < off.toNat) (positive : 0 < size.toNat) (high : off.toNat + size.toNat ≤ 2 ^ 32)
    (beyond : ∀ x ∈ free slots, off.toNat + size.toNat < x) :
    match makespace full ⟨off, size⟩ slots with
    | none => full = true
    | some after => Adds slots (range off size) after (!full).toNat := by
  cases full with
  | true => simp [makespace]
  | false =>
      refine ⟨sound_cons.mpr ⟨⟨positive, low, high, beyond⟩, sound⟩, ?_, by simp⟩
      rw [free_cons, Set.union_comm]
      rfl

/-- What lies in front of the first slot lies in front of all. -/
theorem Sound.beyond {r : Slot} {rest : List Slot} (sound : Sound (r :: rest)) {x y : ℕ}
    (before : y < r.rOff.toNat) (inside : x ∈ free (r :: rest)) : y < x := by
  obtain ⟨⟨nonempty, _, _, behind⟩, _⟩ := sound_cons.mp sound
  rw [free_cons] at inside
  rcases inside with here | there
  · rw [mem_slot] at here
    omega
  · have := behind x there
    omega

/-- A range that starts where a slot ends makes the slot longer, up to the next one. -/
theorem grown_spec {r : Slot} {rest : List Slot} {off size : Uint} (sound : Sound (r :: rest))
    (abuts : r.rOff.toNat + r.rSize.toNat = off.toNat) (high : off.toNat + size.toNat ≤ 2 ^ 32)
    (beyond : ∀ x ∈ free rest, off.toNat + size.toNat < x) :
    Adds (r :: rest) (range off size) (⟨r.rOff, r.rSize + size⟩ :: rest) 0 := by
  obtain ⟨⟨nonempty, low, _, _⟩, rest_⟩ := sound_cons.mp sound
  have len : (r.rSize + size).toNat = r.rSize.toNat + size.toNat := by
    rw [BitVec.toNat_add]; omega
  refine ⟨sound_cons.mpr ⟨⟨?_, low, ?_, fun x inside => ?_⟩, rest_⟩, ?_, by simp⟩
  · simp only [len]; omega
  · simp only [len]; omega
  · have := beyond x inside
    simp only [len]; omega
  · rw [free_cons, free_cons, Set.union_right_comm]
    congr 1
    ext x
    simp only [Set.mem_union, mem_slot, mem_range, len]; omega

/-- A range that starts where a slot ends and ends where the next one starts joins the two. -/
theorem joined_spec {r next : Slot} {above : List Slot} {off size : Uint}
    (sound : Sound (r :: next :: above)) (abuts : r.rOff.toNat + r.rSize.toNat = off.toNat)
    (meets : off.toNat + size.toNat = next.rOff.toNat) :
    Adds (r :: next :: above) (range off size)
      (⟨r.rOff, r.rSize + size + next.rSize⟩ :: above) 0 := by
  obtain ⟨⟨nonempty, low, _, _⟩, rest_⟩ := sound_cons.mp sound
  obtain ⟨⟨_, _, high, beyond⟩, above_⟩ := sound_cons.mp rest_
  have len : (r.rSize + size + next.rSize).toNat =
      r.rSize.toNat + size.toNat + next.rSize.toNat := by
    simp only [BitVec.toNat_add]; omega
  refine ⟨sound_cons.mpr ⟨⟨?_, low, ?_, fun x inside => ?_⟩, above_⟩, ?_, by simp⟩
  · simp only [len]; omega
  · simp only [len]; omega
  · have := beyond x inside
    simp only [len]; omega
  · rw [free_cons, free_cons, free_cons, Set.union_right_comm, ← Set.union_assoc]
    congr 1
    ext x
    simp only [Set.mem_union, mem_slot, mem_range, len]; omega

/-- A range that ends where a slot starts makes the slot start with it. -/
theorem padded_spec {r : Slot} {rest : List Slot} {off size : Uint} (sound : Sound (r :: rest))
    (low : 0 < off.toNat) (meets : off.toNat + size.toNat = r.rOff.toNat) :
    Adds (r :: rest) (range off size) (⟨off, r.rSize + size⟩ :: rest) 0 := by
  obtain ⟨⟨nonempty, _, high, beyond⟩, rest_⟩ := sound_cons.mp sound
  have len : (r.rSize + size).toNat = r.rSize.toNat + size.toNat := by
    rw [BitVec.toNat_add]; omega
  refine ⟨sound_cons.mpr ⟨⟨?_, low, ?_, fun x inside => ?_⟩, rest_⟩, ?_, by simp⟩
  · simp only [len]; omega
  · simp only [len]; omega
  · have := beyond x inside
    simp only [len]; omega
  · rw [free_cons, free_cons, Set.union_right_comm]
    congr 1
    ext x
    simp only [Set.mem_union, mem_slot, mem_range, len]; omega

/-- `rmap_free` adds the range it is given, or finds the map full. -/
theorem freeFrom_spec (full : Bool) {off size : Uint} {slots : List Slot} (sound : Sound slots)
    (low : 0 < off.toNat) (positive : 0 < size.toNat) (high : off.toNat + size.toNat ≤ 2 ^ 32)
    (taken : Disjoint (range off size) (free slots)) :
    match freeFrom full off size slots with
    | none => full = true
    | some after => Adds slots (range off size) after (!full).toNat := by
  have off_ : off.toNat ∈ range off size := mem_range.mpr ⟨le_refl _, by omega⟩
  have grows : ∀ {after : List Slot}, Adds slots (range off size) after 0 →
      Adds slots (range off size) after (!full).toNat :=
    fun adds => ⟨adds.sound, adds.free, adds.length.trans (by omega)⟩
  induction slots with
  | nil => exact makespace_spec sound low positive high (by simp)
  | cons r rest ih =>
      obtain ⟨⟨nonempty, lowest, highest, beyond⟩, rest_⟩ := sound_cons.mp sound
      have outside : ¬(r.rOff.toNat ≤ off.toNat ∧ off.toNat < r.rOff.toNat + r.rSize.toNat) :=
        fun inside => Set.disjoint_left.mp taken off_ (by rw [free_cons]; exact .inl inside)
      simp only [freeFrom]
      split_ifs with abuts meets before
      · have abuts : r.rOff.toNat + r.rSize.toNat = off.toNat := by
          have := congrArg BitVec.toNat abuts
          rw [BitVec.toNat_add] at this; omega
        cases rest with
        | nil => exact grows (grown_spec sound abuts high (by simp))
        | cons next above =>
            obtain ⟨⟨nextNonempty, nextLow, _, _⟩, _⟩ := sound_cons.mp rest_
            have first : next.rOff.toNat ∈ free (next :: above) := by
              rw [free_cons]
              exact .inl (mem_slot.mpr ⟨le_refl _, by omega⟩)
            have after := beyond _ first
            have apart : next.rOff.toNat ∉ range off size := fun inside =>
              Set.disjoint_left.mp taken inside (by rw [free_cons]; exact .inr first)
            rw [mem_range] at apart
            have len : (r.rSize + size).toNat = r.rSize.toNat + size.toNat := by
              rw [BitVec.toNat_add]; omega
            dsimp only
            split_ifs with meets
            · have := congrArg BitVec.toNat meets
              rw [BitVec.toNat_add, len] at this
              exact grows (joined_spec sound abuts (by omega))
            · refine grows (grown_spec sound abuts high fun x inside =>
                rest_.beyond (Nat.lt_of_le_of_ne (by omega) fun same => meets ?_) inside)
              apply BitVec.eq_of_toNat_eq
              rw [BitVec.toNat_add, len]; omega
      · have := congrArg BitVec.toNat meets
        rw [BitVec.toNat_add] at this
        exact grows (padded_spec sound low (by omega))
      · have apart : r.rOff.toNat ∉ range off size := fun inside =>
          Set.disjoint_left.mp taken inside (by
            rw [free_cons]; exact .inl (mem_slot.mpr ⟨le_refl _, by omega⟩))
        rw [mem_range] at apart
        rw [BitVec.lt_def] at before
        refine makespace_spec sound low positive high fun x inside =>
          sound.beyond (Nat.lt_of_le_of_ne (by omega) fun same => meets ?_) inside
        apply BitVec.eq_of_toNat_eq
        rw [BitVec.toNat_add]; omega
      · rw [BitVec.lt_def] at before
        have past : r.rOff.toNat + r.rSize.toNat < off.toNat := by
          refine Nat.lt_of_le_of_ne (by omega) fun same => abuts ?_
          apply BitVec.eq_of_toNat_eq
          rw [BitVec.toNat_add]; omega
        rw [free_cons, Set.disjoint_union_right] at taken
        have found := ih rest_ taken.2 fun adds =>
          ⟨adds.sound, adds.free, adds.length.trans (by omega)⟩
        cases scan : freeFrom full off size rest with
        | none =>
            rw [scan] at found
            exact found
        | some after =>
            rw [scan] at found
            exact found.cons sound fun x inside => past.trans_le (mem_range.mp inside).1

theorem Sound.positive {slots : List Slot} (sound : Sound slots) {r : Slot} (member : r ∈ slots) :
    0 < r.rSize.toNat := by
  have nonempty := sound.apart.1 r.extent (List.mem_map_of_mem member)
  simp only [Slot.extent] at nonempty
  omega

/-- Space is lost only when the map is full, and no slot touches the range. -/
theorem freeFrom_lost {full : Bool} {off size : Uint} {slots : List Slot} (sound : Sound slots)
    (low : 0 < off.toNat) (high : off.toNat + size.toNat ≤ 2 ^ 32)
    (taken : Disjoint (range off size) (free slots)) (lost : freeFrom full off size slots = none) :
    full = true ∧ ∀ r ∈ slots, r.rOff + r.rSize ≠ off ∧ off + size ≠ r.rOff := by
  have space : ∀ slots', makespace full ⟨off, size⟩ slots' = none → full = true := by
    intro slots' none_
    rw [makespace] at none_
    split_ifs at none_ with full
    exact full
  induction slots with
  | nil => exact ⟨space [] lost, by simp⟩
  | cons r rest ih =>
      obtain ⟨⟨nonempty, -, -, beyond⟩, rest_⟩ := sound_cons.mp sound
      rw [free_cons, Set.disjoint_union_right] at taken
      rw [freeFrom] at lost
      split_ifs at lost with abuts meets before
      · cases rest with
        | nil => cases lost
        | cons next above =>
            dsimp only at lost
            split_ifs at lost
      · refine ⟨space _ lost, fun q member => ?_⟩
        rcases List.mem_cons.mp member with rfl | later
        · exact ⟨abuts, meets⟩
        · -- a slot behind starts beyond the first, and the range ends in front of that
          rw [BitVec.lt_def] at before
          have apart : r.rOff.toNat ∉ range off size := fun inside =>
            Set.disjoint_left.mp taken.1 inside (mem_slot.mpr ⟨le_refl _, by omega⟩)
          rw [mem_range] at apart
          have past := beyond q.rOff.toNat ⟨q.extent, List.mem_map_of_mem later, le_refl _,
            Nat.lt_add_of_pos_right (rest_.positive later)⟩
          have fits := rest_.high q later
          refine ⟨fun same => ?_, fun same => ?_⟩
          · have same := congrArg BitVec.toNat same
            rw [BitVec.toNat_add] at same
            omega
          · have same := congrArg BitVec.toNat same
            rw [BitVec.toNat_add] at same
            omega
      · obtain ⟨isFull, none_⟩ := ih rest_ taken.2 (Option.map_eq_none_iff.mp lost)
        refine ⟨isFull, fun q member => ?_⟩
        rcases List.mem_cons.mp member with rfl | later
        · exact ⟨abuts, meets⟩
        · exact none_ q later

theorem Sound.lt_of_free {slots : List Slot} (sound : Sound slots) {x : ℕ}
    (inside : x ∈ free slots) : x < 2 ^ 32 := by
  obtain ⟨e, member, here⟩ := inside
  obtain ⟨r, used, rfl⟩ := List.mem_map.mp member
  exact lt_of_lt_of_le here.2 (sound.high r used)

/-- A request of `rmap_grab` whose sums stay below `2 ^ 32` where they are compared: it is not
empty, and the slot that holds its first integer and the range itself both end below `2 ^ 32`, or
the slot ends at `2 ^ 32` and the range beyond. -/
def GrabFits (slots : List Slot) (off size : Uint) : Prop :=
  0 < size.toNat ∧ ∀ r ∈ slots, r.rOff.toNat ≤ off.toNat →
    off.toNat < r.rOff.toNat + r.rSize.toNat →
    (r.rOff.toNat + r.rSize.toNat < 2 ^ 32 ∧ off.toNat + size.toNat < 2 ^ 32) ∨
      (r.rOff.toNat + r.rSize.toNat = 2 ^ 32 ∧ 2 ^ 32 < off.toNat + size.toNat)

/-- What a scan of `rmap_grab` answers. A full map loses what is free below the range, from
`low` on. -/
def Grabs (full : Bool) (off size : Uint) (slots : List Slot) :
    Option (List Slot × ULong) → Prop
  | none => ¬range off size ⊆ free slots
  | some (after, lost) => ∃ low ≤ off.toNat,
      Removes slots (Set.Ico low (off.toNat + size.toNat)) after (!full).toNat ∧
      lost.toNat = off.toNat - low ∧ (low < off.toNat → full = true)

theorem Grabs.of_removes {full : Bool} {off size : Uint} {slots after : List Slot} {extra : ℕ}
    (removes : Removes slots (range off size) after extra) (room : extra ≤ (!full).toNat) :
    Grabs full off size slots (some (after, 0)) :=
  ⟨off.toNat, le_refl _,
    ⟨removes.sound, removes.free, removes.left, removes.length.trans (by omega)⟩,
    by simp, fun below => absurd below (lt_irrefl _)⟩

theorem grabHere_spec {full : Bool} {off size : Uint} {r : Slot} {rest : List Slot}
    (sound : Sound (r :: rest)) (positive : 0 < size.toNat) (start : r.rOff.toNat ≤ off.toNat)
    (inside : off.toNat < r.rOff.toNat + r.rSize.toNat)
    (top : r.rOff.toNat + r.rSize.toNat < 2 ^ 32) (rtop : off.toNat + size.toNat < 2 ^ 32) :
    Grabs full off size (r :: rest) (grabHere full off size r rest) := by
  obtain ⟨⟨nonempty, lowest, highest, beyond⟩, rest_⟩ := sound_cons.mp sound
  have top_ : (r.rOff + r.rSize).toNat = r.rOff.toNat + r.rSize.toNat := by
    rw [BitVec.toNat_add]; omega
  have rtop_ : (off + size).toNat = off.toNat + size.toNat := by
    rw [BitVec.toNat_add]; omega
  simp only [grabHere, BitVec.lt_def, top_, rtop_]
  split_ifs with past front whole back
  · intro free_
    have last : r.rOff.toNat + r.rSize.toNat ∈ range off size := mem_range.mpr (by omega)
    have gap := free_ last
    rw [free_cons] at gap
    rcases gap with here | behind
    · rw [mem_slot] at here
      omega
    · exact absurd (beyond _ behind) (lt_irrefl _)
  · subst front
    have same : size.toNat = r.rSize.toNat := by rw [sub_eq_zero.mp whole]
    exact .of_removes (removes_whole sound same) (Nat.zero_le _)
  · subst front
    have smaller : size.toNat < r.rSize.toNat := by
      refine Nat.lt_of_le_of_ne (by omega) fun same => whole (sub_eq_zero.mpr ?_)
      exact (BitVec.eq_of_toNat_eq same).symm
    exact .of_removes (removes_front sound smaller) (Nat.zero_le _)
  all_goals
    have above : r.rOff.toNat < off.toNat :=
      Nat.lt_of_le_of_ne start fun same => front (BitVec.eq_of_toNat_eq same.symm)
  · have end_ := congrArg BitVec.toNat back
    rw [top_, rtop_] at end_
    exact .of_removes (removes_back sound above end_) (Nat.zero_le _)
  · have below : off.toNat + size.toNat < r.rOff.toNat + r.rSize.toNat := by
      refine Nat.lt_of_le_of_ne (by omega) fun same => back (BitVec.eq_of_toNat_eq ?_)
      rw [top_, rtop_, same]
    cases full with
    | true =>
        refine ⟨r.rOff.toNat, start, removes_below sound start below top, ?_, fun _ => rfl⟩
        simp only [BitVec.toNat_sub, top_, rtop_]; omega
    | false => exact .of_removes (removes_middle sound above positive below top) (le_refl _)

/-- `rmap_grab` takes a range that is free, and refuses one that is not. -/
theorem grabFrom_spec (full : Bool) {off size : Uint} {slots : List Slot} (sound : Sound slots)
    (fits : GrabFits slots off size) :
    Grabs full off size slots (grabFrom full off size slots) := by
  obtain ⟨positive, fits⟩ := fits
  have off_ : off.toNat ∈ range off size := mem_range.mpr ⟨le_refl _, by omega⟩
  induction slots with
  | nil =>
      intro inside
      simpa using inside off_
  | cons r rest ih =>
      obtain ⟨⟨nonempty, lowest, highest, beyond⟩, rest_⟩ := sound_cons.mp sound
      simp only [grabFrom]
      split_ifs with before here
      · rw [BitVec.lt_def] at before
        intro inside
        exact absurd (sound.beyond before (inside off_)) (lt_irrefl _)
      · simp only [BitVec.lt_def, BitVec.le_def, BitVec.toNat_add] at here
        have held := fits r (by simp) here.1 (by omega)
        exact grabHere_spec sound positive here.1 (by omega) (by omega) (by omega)
      · simp only [BitVec.lt_def, BitVec.le_def, BitVec.toNat_add] at before here
        have found := ih rest_ fun q member => fits q (by simp [member])
        cases scan : grabFrom full off size rest with
        | none =>
            rw [scan] at found
            intro inside
            have last : off.toNat + size.toNat - 1 ∈ range off size := mem_range.mpr (by omega)
            have bound := sound.lt_of_free (inside last)
            refine found fun x member => ?_
            have free_ := inside member
            rw [free_cons] at free_
            refine free_.resolve_left fun held => ?_
            rw [mem_slot] at held
            rw [mem_range] at member
            have := fits r (by simp) (by omega) (by omega)
            omega
        | some result =>
            rw [scan] at found
            obtain ⟨low, below, removes, lost, why⟩ := found
            exact ⟨low, below, removes.cons sound, lost, why⟩

end Vsta.ResourceMap
