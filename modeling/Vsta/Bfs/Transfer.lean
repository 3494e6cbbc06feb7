import Vsta.Basic
import Vsta.Library.WriteBack

/-!
# The transfer loops of the boot filesystem

`do_write` and `bfs_read` (`srv/bfs/rw.c`) move a request block by block. A round compares what fits
in the block with the whole request instead of what is left of it, so a request moves as many bytes
as it has exactly when it stays in one block or ends where a block does (`moved_eq_iff`).
-/

set_option autoImplicit false

namespace Vsta.Bfs

open WriteBack

/-- Size of blocks in the filesystem. -/
abbrev BLOCKSIZE : ℕ := 1024

/-- Convert bytes to the number of blocks which would hold that. -/
def BLOCKS (bytes : ℕ) : ℕ := wrap (bytes + (BLOCKSIZE - 1)) / BLOCKSIZE

/-- How much a round takes out of the current block. -/
def step (pos cnt : ℕ) : ℕ :=
  if cnt ≤ BLOCKSIZE - pos % BLOCKSIZE then cnt else BLOCKSIZE - pos % BLOCKSIZE

/-- The position in the file, the offset in the request and the length of a round. -/
structure Round where
  pos : ℕ
  x : ℕ
  step : ℕ
  deriving DecidableEq, Repr

/-- The rounds of a transfer, and whether there was a buffer for each block. -/
def rounds (bget : ℕ → Bool) (cnt : ℕ) : ℕ → ℕ → ℕ → List Round × Bool
  | 0, _, _ => ([], true)
  | fuel + 1, pos, x =>
      if x < cnt then
        if bget (pos / BLOCKSIZE) then
          let s := step pos cnt
          let rest := rounds bget cnt fuel (pos + s) (x + s)
          (⟨pos, x, s⟩ :: rest.1, rest.2)
        else ([], false)
      else ([], true)

/-- The bytes that a transfer moves. -/
def moved (rs : List Round) : ℕ := (rs.map Round.step).sum

/-- Where a position of a file that starts at a block is on the disk. -/
def place (start pos : ℕ) : ℕ := (start + pos / BLOCKSIZE) * BLOCKSIZE + pos % BLOCKSIZE

/-- `do_write`: what is on the disk after the rounds. -/
def doWrite (start : ℕ) (buf : ℕ → UChar) (disk : ℕ → UChar) (rs : List Round) : ℕ → UChar :=
  rs.foldl (fun disk r => put disk (place start r.pos) r.step fun i => buf (r.x + i)) disk

/-- The loop of `bfs_read`: what is in the buffer after the rounds. -/
def doRead (start : ℕ) (disk : ℕ → UChar) (buf : ℕ → UChar) (rs : List Round) : ℕ → UChar :=
  rs.foldl (fun buf r => put buf r.x r.step fun i => disk (place start r.pos + i)) buf

/-! ## The rounds are one behind the other -/

theorem place_eq (start pos : ℕ) : place start pos = start * BLOCKSIZE + pos := by
  rw [place, Nat.add_mul, Nat.add_assoc, Nat.mul_comm (pos / BLOCKSIZE), Nat.div_add_mod]

/-- Rounds that follow each other. -/
def Follow : ℕ → ℕ → List Round → Prop
  | _, _, [] => True
  | pos, x, r :: rs => r.pos = pos ∧ r.x = x ∧ Follow (pos + r.step) (x + r.step) rs

theorem rounds_follow (bget : ℕ → Bool) (cnt fuel pos x : ℕ) :
    Follow pos x (rounds bget cnt fuel pos x).1 := by
  induction fuel generalizing pos x with
  | zero => trivial
  | succ fuel ih =>
      rw [rounds]
      split_ifs
      · exact ⟨rfl, rfl, ih _ _⟩
      · trivial
      · trivial

/-- What the rounds write is what is in the buffer. -/
theorem doWrite_eq {start pos x : ℕ} {buf disk : ℕ → UChar} {rs : List Round}
    (follow : Follow pos x rs) : doWrite start buf disk rs =
      put disk (start * BLOCKSIZE + pos) (moved rs) fun i => buf (x + i) := by
  induction rs generalizing disk pos x with
  | nil => exact put_zero.symm
  | cons r rs ih =>
      obtain ⟨rfl, rfl, rest⟩ := follow
      have more : (fun i => buf (r.x + r.step + i)) = fun i => buf (r.x + (r.step + i)) := by
        funext i
        rw [Nat.add_assoc]
      rw [doWrite, List.foldl_cons, ← doWrite, ih rest, place_eq, more, ← Nat.add_assoc]
      exact @put_append _ _ (fun i => buf (r.x + i)) _ _ _

/-- What the rounds read is what is on the disk. -/
theorem doRead_eq {start pos x : ℕ} {buf disk : ℕ → UChar} {rs : List Round}
    (follow : Follow pos x rs) : doRead start disk buf rs =
      put buf x (moved rs) fun i => disk (start * BLOCKSIZE + pos + i) := by
  induction rs generalizing buf pos x with
  | nil => exact put_zero.symm
  | cons r rs ih =>
      obtain ⟨rfl, rfl, rest⟩ := follow
      have more : (fun i => disk (start * BLOCKSIZE + (r.pos + r.step) + i)) =
          fun i => disk (start * BLOCKSIZE + r.pos + (r.step + i)) := by
        funext i
        simp only [Nat.add_assoc]
      rw [doRead, List.foldl_cons, ← doRead, ih rest, place_eq, more]
      exact @put_append _ _ (fun i => disk (start * BLOCKSIZE + r.pos + i)) _ _ _

/-! ## How much is moved -/

/-- A request that stays in one block, or ends where a block does. -/
def Exact (pos cnt : ℕ) : Prop :=
  cnt ≤ BLOCKSIZE - pos % BLOCKSIZE ∨ (pos + cnt) % BLOCKSIZE = 0

instance (pos cnt : ℕ) : Decidable (Exact pos cnt) := inferInstanceAs (Decidable (_ ∨ _))

/-- There is a buffer for each block. -/
abbrev Always (bget : ℕ → Bool) : Prop := ∀ blk, bget blk = true

variable {bget : ℕ → Bool}

theorem rounds_all (always : Always bget) (cnt fuel pos x : ℕ) :
    (rounds bget cnt fuel pos x).2 = true := by
  induction fuel generalizing pos x with
  | zero => rfl
  | succ fuel ih =>
      rw [rounds, if_pos (always _)]
      split_ifs
      · exact ih _ _
      · rfl

theorem moved_done {cnt fuel pos x : ℕ} (done : cnt ≤ x) :
    moved (rounds bget cnt fuel pos x).1 = 0 := by
  cases fuel with
  | zero => rfl
  | succ fuel =>
      rw [rounds, if_neg (not_lt.mpr done)]
      rfl

theorem moved_round (always : Always bget) {cnt fuel pos x : ℕ} (more : x < cnt) :
    moved (rounds bget cnt (fuel + 1) pos x).1 =
      step pos cnt + moved (rounds bget cnt fuel (pos + step pos cnt) (x + step pos cnt)).1 := by
  rw [rounds, if_pos more, if_pos (always _)]
  rfl

/-- From a block's start on a long request moves whole blocks. -/
theorem moved_aligned (always : Always bget) {cnt fuel pos x : ℕ} (long : 1024 ≤ cnt)
    (aligned : pos % 1024 = 0) (enough : cnt ≤ x + fuel) (some_ : x < cnt) :
    moved (rounds bget cnt fuel pos x).1 = (cnt - x + 1023) / 1024 * 1024 := by
  induction fuel generalizing pos x with
  | zero => omega
  | succ fuel ih =>
      have whole : step pos cnt = 1024 := by
        rw [step]
        simp only [BLOCKSIZE, aligned]
        split_ifs <;> omega
      rw [moved_round always some_, whole]
      by_cases more : x + 1024 < cnt
      · rw [ih (by omega) (by omega) more]
        omega
      · rw [moved_done (by omega)]
        omega

/-- **A request moves as many bytes as it has exactly when it stays in one block or ends where a
block does.** -/
theorem moved_eq_iff (always : Always bget) {cnt pos : ℕ} :
    moved (rounds bget cnt cnt pos 0).1 = cnt ↔ Exact pos cnt := by
  rw [Exact]
  cases cnt with
  | zero => exact ⟨fun _ => .inl (Nat.zero_le _), fun _ => rfl⟩
  | succ less =>
      rw [moved_round always (Nat.succ_pos less), Nat.zero_add]
      by_cases one : less + 1 ≤ BLOCKSIZE - pos % BLOCKSIZE
      · rw [step, if_pos one, moved_done (le_refl _)]
        exact ⟨fun _ => .inl one, fun _ => rfl⟩
      · have first : step pos (less + 1) = 1024 - pos % 1024 := if_neg one
        have some_ : 1024 - pos % 1024 < less + 1 := not_le.mp one
        rw [first]
        by_cases long : 1024 ≤ less + 1
        · rw [moved_aligned always long (by omega) (by omega) some_]
          simp only [BLOCKSIZE] at one ⊢
          omega
        · obtain ⟨fuel, rfl⟩ : ∃ fuel, less = fuel + 1 := ⟨less - 1, by omega⟩
          have second : step (pos + (1024 - pos % 1024)) (fuel + 1 + 1) = fuel + 1 + 1 := by
            rw [step, if_pos]
            simp only [BLOCKSIZE]
            omega
          rw [moved_round always some_, second, moved_done (by omega)]
          simp only [BLOCKSIZE]
          omega

end Vsta.Bfs
