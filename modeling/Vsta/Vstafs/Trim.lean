import Vsta.Vstafs.Layout

/-!
# Trimming a vstafs file

`partial_trunc` and `file_shrink` of `open.c`: the extents are cut down to the sectors of a
length, and the sectors behind them go back to the free list.
-/

set_option autoImplicit false

namespace Vsta.Vstafs.Bytes

/-- `partial_trunc`. -/
def partialTrunc (disk : Disk) (a : Alloc) (newsize : ℕ) : Option (Disk × Alloc) :=
  if newsize = 0 ∨ a.aLen < newsize then none
  else if newsize = a.aLen then some (disk, a)
  else some (freeBlock disk (a.aStart + newsize) (a.aLen - newsize), ⟨a.aStart, newsize⟩)

/-- The extents that `file_shrink` dumps. -/
def dumpBlks (disk : Disk) : List Alloc → Disk
  | [] => disk
  | a :: rest => dumpBlks (freeBlock disk a.aStart a.aLen) rest

/-- The scan of `file_shrink`, the first of the extents at `pos`: the extents that are left. -/
def shrinkBlks (len : ℕ) (disk : Disk) : List Alloc → ℕ → Option (Disk × List Alloc)
  | [], _ => some (disk, [])
  | a :: rest, pos =>
      let npos := word (pos + stob a.aLen)
      if npos ≤ len then
        (shrinkBlks len disk rest npos).map fun (disk, kept) => (disk, a :: kept)
      else
        let y := btors (len - pos)
        if 0 < y then
          (partialTrunc disk a y).map fun (disk, a) => (dumpBlks disk rest, [a])
        else some (dumpBlks disk (a :: rest), [])

/-- `file_shrink`, for the header. -/
def fileShrink (disk : Disk) (fs : FsFile) (len : ℕ) : Option (Disk × FsFile) :=
  if len < OFF_DATA ∨ fs.fsLen < len then none
  else (shrinkBlks len disk fs.fsBlks 0).map fun (disk, blks) =>
    (disk, { fs with fsLen := len, fsBlks := blks })

/-! ## What trimming leaves -/

/-- Sectors went back to the free list. -/
structure Freed (disk disk' : Disk) (returned : List ℕ) : Prop where
  free_eq : disk'.free = disk.free + returned
  held_eq : disk'.held = disk.held
  data_eq : disk'.data = disk.data

theorem Freed.none (disk : Disk) : Freed disk disk [] := ⟨by simp, rfl, rfl⟩

theorem freed_freeBlock (disk : Disk) (d nblk : ℕ) :
    Freed disk (freeBlock disk d nblk) (⟨d, nblk⟩ : Alloc).run := ⟨rfl, rfl, rfl⟩

theorem Freed.trans {disk disk' disk'' : Disk} {returned more : List ℕ}
    (one : Freed disk disk' returned) (two : Freed disk' disk'' more) :
    Freed disk disk'' (returned ++ more) :=
  ⟨by rw [two.free_eq, one.free_eq, ← Multiset.coe_add, add_assoc],
    two.held_eq.trans one.held_eq, two.data_eq.trans one.data_eq⟩

theorem dumpBlks_freed (disk : Disk) (blks : List Alloc) :
    Freed disk (dumpBlks disk blks) (sectors blks) := by
  induction blks generalizing disk with
  | nil => exact .none disk
  | cons a rest ih => exact (freed_freeBlock disk a.aStart a.aLen).trans (ih _)

/-- A trimmed extent keeps its front. -/
theorem partialTrunc_freed (disk : Disk) {a : Alloc} {newsize : ℕ} (some_ : 0 < newsize)
    (fewer : newsize ≤ a.aLen) : ∃ disk' returned,
      partialTrunc disk a newsize = some (disk', ⟨a.aStart, newsize⟩) ∧
        Freed disk disk' returned ∧ a.run = (⟨a.aStart, newsize⟩ : Alloc).run ++ returned := by
  rw [partialTrunc, if_neg (by omega)]
  by_cases same : newsize = a.aLen
  · exact ⟨disk, [], by simp [same], .none disk, by simp [same]⟩
  · refine ⟨_, _, if_neg same, freed_freeBlock _ _ _, ?_⟩
    rw [← run_split, show newsize + (a.aLen - newsize) = a.aLen by omega]

/-- **The scan of `file_shrink` keeps the sectors of the length and frees the others.** The extents
start behind `before` sectors of the file. -/
theorem shrinkBlks_trims {len : ℕ} (before : ℕ) (disk : Disk) {blks : List Alloc}
    (small : len + (SECSZ - 1) < 2 ^ 32) (below : before * SECSZ ≤ len)
    (room : (before + (sectors blks).length) * SECSZ < 2 ^ 32) :
    ∃ disk' kept returned, shrinkBlks len disk blks (before * SECSZ) = some (disk', kept) ∧
      sectors blks = sectors kept ++ returned ∧ Freed disk disk' returned ∧
        (sectors kept).length =
          min (sectors blks).length ((len - before * SECSZ + (SECSZ - 1)) / SECSZ) := by
  induction blks generalizing before with
  | nil => exact ⟨disk, [], [], rfl, rfl, .none disk, by simp⟩
  | cons a rest ih =>
      rw [sectors_cons, List.length_append, length_run] at room
      have size : word (before * SECSZ + stob a.aLen) = (before + a.aLen) * SECSZ := by
        have fits : (before + a.aLen) * SECSZ < 2 ^ 32 :=
          lt_of_le_of_lt (Nat.mul_le_mul_right _ (by omega)) room
        rw [Nat.add_mul] at fits ⊢
        rw [stob_of_lt (lt_of_le_of_lt (Nat.le_add_left _ _) fits), word, Nat.mod_eq_of_lt fits]
      rw [shrinkBlks, size]
      by_cases whole : (before + a.aLen) * SECSZ ≤ len
      · obtain ⟨disk', kept, returned, scan, split, freed, count⟩ := ih _ whole (by
          rwa [Nat.add_assoc])
        refine ⟨disk', a :: kept, returned, by simp [whole, scan], by simp [split], freed, ?_⟩
        simp only [sectors_cons, List.length_append, length_run, count]
        simp only [SECSZ] at *
        omega
      · have rounded : btors (len - before * SECSZ) =
            (len - before * SECSZ + (SECSZ - 1)) / SECSZ := by
          rw [btors, word, Nat.mod_eq_of_lt (by omega)]
        generalize need : btors (len - before * SECSZ) = y at rounded
        have short : y ≤ a.aLen := by
          simp only [SECSZ] at *
          omega
        simp only [if_neg whole]
        by_cases some_ : 0 < y
        · obtain ⟨disk', returned, trunc, freed, split⟩ :=
            partialTrunc_freed disk some_ short
          refine ⟨dumpBlks disk' rest, [⟨a.aStart, y⟩], returned ++ sectors rest,
            by simp [some_, trunc], ?_, freed.trans (dumpBlks_freed _ _), ?_⟩
          · rw [sectors_cons, split]
            simp
          · simp only [sectors_cons, sectors_nil, List.append_nil, List.length_append, length_run,
              ← rounded]
            omega
        · refine ⟨dumpBlks disk (a :: rest), [], sectors (a :: rest), by simp [some_], rfl,
            dumpBlks_freed _ _, ?_⟩
          rw [← rounded]
          simp only [sectors_nil, List.length_nil]
          omega

/-- **`file_shrink` to a length inside the file leaves the sectors of that length and returns
the others.** -/
theorem fileShrink_trims (disk : Disk) {fs : FsFile} {len : ℕ} (laid : Laid fs)
    (header : OFF_DATA ≤ len) (below : len ≤ fs.fsLen) :
    ∃ disk' fs' returned, fileShrink disk fs len = some (disk', fs') ∧ fs'.fsLen = len ∧
      Laid fs' ∧ sectors fs.fsBlks = sectors fs'.fsBlks ++ returned ∧
        Freed disk disk' returned := by
  have small : len + (SECSZ - 1) < 2 ^ 32 := lt_of_le_of_lt (by omega) laid.small
  have size := laid.btors_eq
  rw [← laid.sectors_length] at size
  have room : (0 + (sectors fs.fsBlks).length) * SECSZ < 2 ^ 32 := by
    have := laid.small
    rw [size]
    simp only [SECSZ] at *
    omega
  obtain ⟨disk', kept, returned, scan, split, freed, count⟩ :=
    shrinkBlks_trims 0 disk small (by simp) room
  rw [Nat.zero_mul] at scan count
  have kept_length : (sectors kept).length = btors len := by
    rw [count, size, btors, word, Nat.mod_eq_of_lt small]
    exact min_eq_right (Nat.div_le_div_right (by omega))
  have nonempty : kept ≠ [] := by
    rintro rfl
    rw [btors, word, Nat.mod_eq_of_lt small] at kept_length
    simp only [sectors_nil, List.length_nil, SECSZ, OFF_DATA] at *
    omega
  refine ⟨disk', ⟨len, kept⟩, returned, ?_, rfl, ⟨nonempty, kept_length, header, small⟩, split,
    freed⟩
  rw [fileShrink, if_neg (by omega), scan]
  rfl

end Vsta.Vstafs.Bytes
