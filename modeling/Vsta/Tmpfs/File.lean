import Vsta.Basic
import Vsta.Library.WriteBack

/-!
# A file in memory

`srv/tmpfs/rw.c` keeps a file in blocks, a small one and large ones, that are made when something is
written to them. What `do_write` leaves of the file as an array of bytes is `doWrite_spec`, and what
the loops of `tmpfs_read` collect is `gather_spec`.
-/

set_option autoImplicit false

namespace Vsta.Tmpfs

open WriteBack

/-- Size of the blocks, of the first one, and its logarithm. -/
abbrev BLOCKSIZE : ℕ := 16384
abbrev BLOCKMIN : ℕ := BLOCKSIZE / 8
abbrev BLOCKLOG : ℕ := 14

/-- `blkoff`: the offset in the block, and how much of the block is left. -/
def blkoff (pos : ℕ) : ℕ × ℕ :=
  if pos < BLOCKMIN then (pos, BLOCKMIN - pos)
  else
    let off := (pos - BLOCKMIN) % BLOCKSIZE
    (off, BLOCKSIZE - off)

/-- `blknum`. -/
def blknum (pos : ℕ) : ℕ :=
  if pos < BLOCKMIN then 0 else (pos - BLOCKMIN) / 2 ^ BLOCKLOG + 1

/-- `o_blocks`: what is in the blocks that there are. -/
abbrev Blocks := ℕ → Option (ℕ → UChar)

namespace Blocks

/-- The block that is read: zeroes for one that there is not. -/
def get (b : Blocks) (blk : ℕ) : ℕ → UChar := (b blk).getD fun _ => 0

/-- The byte at a position. -/
def byte (b : Blocks) (pos : ℕ) : UChar := b.get (blknum pos) (blkoff pos).1

/-- A block is there, or there is memory to make it. -/
def Has (b : Blocks) (mem : ℕ → Bool) (blk : ℕ) : Prop := b blk ≠ none ∨ mem blk = true

instance (b : Blocks) (mem : ℕ → Bool) (blk : ℕ) : Decidable (b.Has mem blk) := by
  unfold Has
  infer_instance

/-- `memcpy` into a block. -/
def memcpy (b : Blocks) (blk boff step : ℕ) (bytes : ℕ → UChar) : Blocks :=
  Function.update b blk (some (put (b.get blk) boff step bytes))

end Blocks

/-- The loop of `do_write`, and whether it got to its end: the blocks, the position and how much has
been written. -/
def doWrite (mem : ℕ → Bool) (buf : ℕ → UChar) (cnt : ℕ) : ℕ → Blocks → ℕ → ℕ → Blocks × Bool
  | 0, b, _, _ => (b, true)
  | fuel + 1, b, pos, x =>
      if cnt ≤ x then (b, true)
      else
        let step := min (blkoff pos).2 (cnt - x)
        if b.Has mem (blknum pos) then
          doWrite mem buf cnt fuel (b.memcpy (blknum pos) (blkoff pos).1 step fun j => buf (x + j))
            (wrap (pos + step)) (x + step)
        else (b, false)

/-- The loops of `tmpfs_read`: so many segments at most, and how much is in them. -/
def gather (b : Blocks) (lim : ℕ) : ℕ → ℕ → ℕ → List (List UChar) × ℕ
  | 0, _, cnt => ([], cnt)
  | nseg + 1, pos, cnt =>
      if lim ≤ cnt then ([], cnt)
      else
        let sz := if lim < wrap (cnt + (blkoff pos).2) then lim - cnt else (blkoff pos).2
        let rest := gather b lim nseg (wrap (pos + sz)) (cnt + sz)
        ((List.range sz).map (fun j => b.get (blknum pos) ((blkoff pos).1 + j)) :: rest.1, rest.2)

/-! ## Positions -/

theorem blkoff_pos (pos : ℕ) : 0 < (blkoff pos).2 ∧ (blkoff pos).2 ≤ BLOCKSIZE := by
  simp only [blkoff, BLOCKMIN, BLOCKSIZE]
  split_ifs
  · simp only
    omega
  · simp only
    omega

/-- The next positions are in the same block, behind one another. -/
theorem blkoff_add {pos j : ℕ} (inside : j < (blkoff pos).2) :
    blknum (pos + j) = blknum pos ∧ (blkoff (pos + j)).1 = (blkoff pos).1 + j := by
  simp only [blkoff, blknum, BLOCKMIN, BLOCKSIZE, BLOCKLOG] at inside ⊢
  split_ifs at inside ⊢ with small next
  · exact ⟨rfl, rfl⟩
  · simp only at inside
    omega
  · omega
  · simp only at inside ⊢
    omega

/-- A position is in a block of the number that it has, and at the offset that it has. -/
theorem blkoff_inj {p q : ℕ} (num : blknum p = blknum q) (off : (blkoff p).1 = (blkoff q).1) :
    p = q := by
  simp only [blkoff, blknum, BLOCKMIN, BLOCKSIZE, BLOCKLOG] at num off
  split_ifs at num off
  · exact off
  · simp only at off
    omega

/-- A round of `do_write` stays inside its block, and writes a range of the file. -/
theorem memcpy_byte (b : Blocks) {pos step : ℕ} (room : step ≤ (blkoff pos).2) (bytes : ℕ → UChar) :
    (b.memcpy (blknum pos) (blkoff pos).1 step bytes).byte = put b.byte pos step bytes := by
  funext p
  by_cases inside : pos ≤ p ∧ p < pos + step
  · obtain ⟨j, rfl⟩ := Nat.exists_eq_add_of_le inside.1
    have less : j < step := by omega
    obtain ⟨num, off⟩ := blkoff_add (less.trans_le room)
    rw [put_inside less, Blocks.byte, num, off, Blocks.memcpy, Blocks.get, Function.update_self]
    exact put_inside less
  · rw [put_outside (by omega), Blocks.byte, Blocks.byte, Blocks.memcpy, Blocks.get]
    by_cases same : blknum p = blknum pos
    · rw [same, Function.update_self]
      refine put_outside ?_
      by_contra among
      have near : (blkoff p).1 - (blkoff pos).1 < step := by omega
      obtain ⟨num, off⟩ := blkoff_add (near.trans_le room)
      have here : p = pos + ((blkoff p).1 - (blkoff pos).1) :=
        blkoff_inj (same.trans num.symm) (by rw [off]; omega)
      omega
    · rw [Function.update_of_ne same]
      rfl

/-! ## Writing -/

variable {b : Blocks} {mem : ℕ → Bool} {buf : ℕ → UChar} {cnt : ℕ}

/-- A write to a block that is there, or can be had, changes nothing about which blocks are or can. -/
theorem has_memcpy {other : ℕ} (has : b.Has mem other) (boff step : ℕ) (bytes : ℕ → UChar)
    (blk : ℕ) : (b.memcpy other boff step bytes).Has mem blk ↔ b.Has mem blk := by
  by_cases same : blk = other
  · subst same
    refine iff_of_true (.inl ?_) has
    rw [Blocks.memcpy, Function.update_self]
    exact Option.some_ne_none _
  · rw [Blocks.Has, Blocks.memcpy, Function.update_of_ne same, Blocks.Has]

/-- **`do_write` of a range whose blocks can all be had writes it.** -/
theorem doWrite_spec (b : Blocks) (buf : ℕ → UChar) {fuel pos x : ℕ} (enough : cnt ≤ x + fuel) (small : pos + (cnt - x) < 2 ^ 32)
    (has : ∀ j < cnt - x, b.Has mem (blknum (pos + j))) :
    ∃ b', doWrite mem buf cnt fuel b pos x = (b', true) ∧
      (b'.byte = put b.byte pos (cnt - x) fun j => buf (x + j)) ∧
      ∀ blk, b'.Has mem blk ↔ b.Has mem blk := by
  induction fuel generalizing b pos x with
  | zero =>
      have done : cnt - x = 0 := by omega
      exact ⟨b, rfl, by rw [done, put_zero], fun _ => Iff.rfl⟩
  | succ fuel ih =>
      rw [doWrite]
      by_cases done : cnt ≤ x
      · rw [if_pos done]
        have done : cnt - x = 0 := by omega
        exact ⟨b, rfl, by rw [done, put_zero], fun _ => Iff.rfl⟩
      · rw [if_neg done]
        obtain ⟨some_, -⟩ := blkoff_pos pos
        have first := has 0 (by omega)
        rw [Nat.add_zero] at first
        simp only [if_pos first]
        have least : min (blkoff pos).2 (cnt - x) ≤ cnt - x := min_le_right _ _
        generalize step_ : min (blkoff pos).2 (cnt - x) = step at least
        have positive : 0 < step := by omega
        have split_ : cnt - x = step + (cnt - (x + step)) := by omega
        have near : wrap (pos + step) = pos + step := wrap_eq (by omega)
        rw [near]
        have same := has_memcpy (b := b) first (blkoff pos).1 step fun j => buf (x + j)
        have found : ∀ j < cnt - (x + step), (b.memcpy (blknum pos) (blkoff pos).1 step
            fun j => buf (x + j)).Has mem (blknum (pos + step + j)) := by
          intro j less
          rw [Nat.add_assoc]
          exact (same _).mpr (has (step + j) (by omega))
        obtain ⟨b', wrote, bytes, later⟩ := ih _ (by omega) (by omega) found
        refine ⟨b', wrote, ?_, fun blk => (later blk).trans (same blk)⟩
        rw [bytes, memcpy_byte b (by omega), split_, ← put_append]
        simp only [Nat.add_assoc]

/-- `do_write` of a range whose first block cannot be had writes nothing. -/
theorem doWrite_nothing {fuel pos x : ℕ} (more : x < cnt) (some_ : fuel ≠ 0)
    (not_ : ¬b.Has mem (blknum pos)) : doWrite mem buf cnt fuel b pos x = (b, false) := by
  obtain ⟨fuel, rfl⟩ := Nat.exists_eq_succ_of_ne_zero some_
  rw [doWrite, if_neg (not_le.mpr more)]
  simp only [if_neg not_]

/-! ## Reading -/

/-- **What the loops collect are the bytes of the file from the position on**, all of them unless
the segments do not suffice. -/
theorem gather_spec (b : Blocks) {lim nseg pos cnt : ℕ}
    (small : lim + BLOCKSIZE ≤ 2 ^ 32 ∨ cnt + nseg * BLOCKSIZE < 2 ^ 32)
    (near : pos + (lim - cnt) < 2 ^ 32) (before : cnt ≤ lim) :
    cnt ≤ (gather b lim nseg pos cnt).2 ∧ (gather b lim nseg pos cnt).2 ≤ lim ∧
      (lim - cnt ≤ nseg → (gather b lim nseg pos cnt).2 = lim) ∧
      (cnt < lim → nseg ≠ 0 → cnt < (gather b lim nseg pos cnt).2) ∧
      (gather b lim nseg pos cnt).1.flatten =
        (List.range ((gather b lim nseg pos cnt).2 - cnt)).map fun j => b.byte (pos + j) := by
  induction nseg generalizing pos cnt with
  | zero => exact ⟨le_rfl, before, fun less => by simp only [gather]; omega, by simp, by simp [gather]⟩
  | succ nseg ih =>
      rw [gather]
      by_cases done : lim ≤ cnt
      · rw [if_pos done]
        exact ⟨le_rfl, before, fun _ => by simp only; omega, fun less => by omega, by simp⟩
      · rw [if_neg done]
        obtain ⟨some_, most⟩ := blkoff_pos pos
        have size : (if lim < wrap (cnt + (blkoff pos).2) then lim - cnt else (blkoff pos).2) =
            min (blkoff pos).2 (lim - cnt) := by
          rw [wrap_eq (by rcases small with low | low <;> simp only [BLOCKSIZE] at * <;> omega)]
          split_ifs <;> omega
        have inside : ∀ j < min (blkoff pos).2 (lim - cnt),
            b.get (blknum pos) ((blkoff pos).1 + j) = b.byte (pos + j) := by
          intro j less
          obtain ⟨num, off⟩ := blkoff_add (show j < (blkoff pos).2 by omega)
          rw [Blocks.byte, num, off]
        simp only [size]
        have least : min (blkoff pos).2 (lim - cnt) ≤ lim - cnt ∧
            min (blkoff pos).2 (lim - cnt) ≤ BLOCKSIZE ∧ 0 < min (blkoff pos).2 (lim - cnt) := by
          omega
        generalize min (blkoff pos).2 (lim - cnt) = sz at least inside
        obtain ⟨low, top, positive⟩ := least
        have next : wrap (pos + sz) = pos + sz := wrap_eq (by omega)
        rw [next]
        have small : lim + BLOCKSIZE ≤ 2 ^ 32 ∨ cnt + sz + nseg * BLOCKSIZE < 2 ^ 32 :=
          small.imp_right fun low => by rw [Nat.succ_mul] at low; omega
        have near : pos + sz + (lim - (cnt + sz)) < 2 ^ 32 := by omega
        obtain ⟨more, less, all, -, bytes⟩ := ih small near (by omega)
        generalize gather b lim nseg (pos + sz) (cnt + sz) = rest at *
        refine ⟨by omega, less, fun enough => all (by omega), fun _ _ => by omega, ?_⟩
        have split_ : rest.2 - cnt = sz + (rest.2 - (cnt + sz)) := by omega
        rw [List.flatten_cons, bytes, split_, List.range_add, List.map_append, List.map_map]
        refine congrArg₂ (· ++ ·) (List.map_congr_left fun j member => ?_)
          (List.map_congr_left fun j _ => ?_)
        · exact inside j (List.mem_range.mp member)
        · simp only [Function.comp_apply, Nat.add_assoc]

end Vsta.Tmpfs
