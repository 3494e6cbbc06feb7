import Vsta.Fsck.Steps
import Vsta.Library.Runs

/-!
# What the file system checker survives

Five things make `fsck` use an index out of range or go on for ever: a sector of the free list
behind the bitmaps, an entry of the free list whose end goes beyond 32 bits, an entry that the
operator keeps, a file without blocks whose length makes `btors` wrap and that is its own previous
version, and more than `BASE_FREESECS` runs of lost blocks. `fsck_robust` says that nothing else
does.
-/

set_option autoImplicit false

namespace Vsta.Fsck

namespace State

section Insane

variable {s : State} {sec : ULong} {stack : List Frame} {answer : Bool}

/-! ## The five that go wrong -/

theorem checkBlks_empty {fsSize : ULong} {maps : Maps} {blks : List Alloc} (blklen : ULong)
    (empty : ∀ a ∈ blks, a.aLen = 0#32 ∧ validBlock fsSize a.aStart = true) :
    checkBlks fsSize maps blks blklen = some (maps, some blklen) := by
  induction blks generalizing blklen with
  | nil => rfl
  | cons a rest ih =>
      rw [List.forall_mem_cons] at empty
      obtain ⟨⟨zero, start⟩, others⟩ := empty
      have none_ : ¬fsSize - 1#32 < 0#32 := BitVec.not_lt_zero
      rw [checkBlks, if_neg (by simp [start]), zero, if_neg none_, BitVec.add_zero,
        if_neg (by simp [start]), BitVec.add_zero]
      exact ih blklen others

/-- From a file that passes and has no blocks `check_tree` goes on to its previous version. -/
theorem checkTree_silent {prev : ULong} (silent : s.silentPrev sec = some prev) :
    s.checkTree sec stack = .next { s with phase := .tree prev (.prev sec :: stack) } := by
  rw [State.silentPrev] at silent
  split_ifs at silent with outside
  obtain ⟨fs, got, silent⟩ := Option.bind_eq_some_iff.mp silent
  split_ifs at silent with all
  obtain rfl := Option.some.inj silent
  simp only [Bool.and_eq_true, Bool.not_eq_true', decide_eq_true_iff, List.all_eq_true] at all
  obtain ⟨⟨⟨⟨⟨head, file⟩, length⟩, empty⟩, first⟩, before⟩ := all
  obtain ⟨older, before⟩ := Option.isSome_iff_exists.mp before
  rw [State.checkTree, if_neg outside, got]
  dsimp only
  rw [if_neg (by simp [head]), checkFsalloc, checkBlks_empty 0#32 empty, Option.map_some, length]
  dsimp only
  rw [decide_eq_false (not_not.mpr rfl)]
  dsimp only
  rw [State.checkContents, if_pos file, if_neg first, before]

/-- Whatever the operator answers, there is always a step to come. -/
def Endless (s : State) : Prop :=
  ∃ f : ℕ → State, f 0 = s ∧ ∀ n answer, (f n).step answer = .next (f (n + 1))

/-- The calls of `check_tree` along a chain of previous versions. -/
def calls (s : State) (sec : ULong) (stack : List Frame) : ℕ → ULong × List Frame
  | 0 => (sec, stack)
  | n + 1 => (((s.silentPrev (s.calls sec stack n).1).getD 0#32),
      .prev (s.calls sec stack n).1 :: (s.calls sec stack n).2)

/-- A chain of previous versions without blocks that does not end. -/
theorem endless_of_chain (phase : s.phase = .tree sec stack) (never : ¬∃ n, s.EndsIn n sec) :
    s.Endless := by
  have goes : ∀ n, ¬∃ k, s.EndsIn k (s.calls sec stack n).1 := by
    intro n
    induction n with
    | zero => exact never
    | succ n ih =>
        rintro ⟨k, ends⟩
        refine ih ⟨k + 1, fun prev silent => ?_⟩
        rw [State.calls, silent] at ends
        exact ends
  have next : ∀ n, s.silentPrev (s.calls sec stack n).1 = some (s.calls sec stack (n + 1)).1 := by
    intro n
    cases silent : s.silentPrev (s.calls sec stack n).1 with
    | none => exact absurd ⟨0, silent⟩ (goes n)
    | some prev => rw [State.calls, silent, Option.getD_some]
  refine ⟨fun n => { s with phase := .tree (s.calls sec stack n).1 (s.calls sec stack n).2 }, ?_,
    fun n answer => ?_⟩
  · change { s with phase := .tree sec stack } = s
    rw [← phase]
  · exact @checkTree_silent
      { s with phase := .tree (s.calls sec stack n).1 (s.calls sec stack n).2 } _ _ _ (next n)

/-- Each of the five is an index out of range, the same state again, or a run without end. -/
theorem step_insane (inv : s.Inv) (insane : ¬s.Sane answer) :
    s.step answer = .wild ∨ s.step answer = .next s ∨ s.Endless := by
  rw [State.Sane] at insane
  rw [State.step]
  cases phase : s.phase with
  | freelist next highest =>
      left
      rw [phase] at insane
      push Not at insane
      obtain ⟨fr, got, more, few, outside⟩ := insane
      dsimp only
      rw [State.freelist, if_neg more, got]
      dsimp only
      rw [if_neg (BitVec.not_lt.mpr few), getbit, if_neg outside]
  | entries next fr x highest modified =>
      rw [phase] at insane
      push Not at insane
      obtain ⟨more, insane⟩ := insane
      have slots := BitVec.le_def.mp (inv.few _ _ _ _ _ phase)
      dsimp only
      rw [State.entries, if_pos more, if_neg (by omega)]
      dsimp only
      by_cases bad : s.badEntry (fr.fFree x) highest = true
      · rw [if_pos bad] at insane ⊢
        rw [if_neg insane, ← phase]
        exact .inr (.inl rfl)
      · rw [if_neg bad] at insane ⊢
        rw [(setbit_none _).mpr (run_not_inMap inv.size (Nat.not_lt.mp insane))]
        exact .inl rfl
  | tree sec stack =>
      rw [phase] at insane
      exact .inr (.inr (endless_of_chain phase insane))
  | fsdir dir stack =>
      rw [phase] at insane
      exact absurd trivial insane
  | ret res stack =>
      rw [phase] at insane
      exact absurd trivial insane
  | lost =>
      left
      rw [phase] at insane
      push Not at insane
      obtain ⟨fs, got, yes, more⟩ := insane
      exact checkLostblocks_wild.mpr ⟨yes, ⟨fs, got⟩, more⟩

end Insane

/-! ## Runs -/

section Runs

variable {disk : Disk} {s start : State}

theorem btors_lt (x : ULong) : (btors x).toNat < 2 ^ 23 := by
  have small := (x + (SECSZ - 1#32)).isLt
  have size : SECSZ.toNat = 512 := rfl
  rw [btors, BitVec.toNat_udiv, size]
  omega

/-- The invariant holds where `check_root` has passed. -/
theorem checkRoot_inv (root : checkRoot disk = some start) : start.Inv := by
  rw [checkRoot] at root
  obtain ⟨fs, -, root⟩ := Option.bind_eq_some_iff.mp root
  split_ifs at root with magic zero large
  obtain rfl := Option.some.inj root
  have most := btors_lt disk.stSize
  rw [BitVec.lt_def] at large
  exact ⟨by dsimp only; omega, nofun⟩

/-- A step of `fsck` with an answer of the operator. -/
def Step (s : State) (answer : Bool) (t : State) : Prop := s.step answer = .next t

/-- A run of sane steps goes down in the measure, and so it ends. -/
theorem no_endless_run (inv : s.Inv) :
    ¬∃ f : ℕ → State, f 0 = s ∧ ∀ n, ∃ answer, (f n).Sane answer ∧
      Step (f n) answer (f (n + 1)) := by
  rintro ⟨f, rfl, goes⟩
  have kept : ∀ n, (f n).Inv := by
    intro n
    induction n with
    | zero => exact inv
    | succ n ih =>
        obtain ⟨answer, sane, step⟩ := goes n
        exact ((step_fine ih sane).2 _ step).1
  have down : ∀ n, Less (f (n + 1)).measure (f n).measure := by
    intro n
    obtain ⟨answer, sane, step⟩ := goes n
    exact ((step_fine (kept n) sane).2 _ step).2
  exact (wellFounded_iff_isEmpty_descending_chain.mp less_wf).false ⟨fun n => (f n).measure, down⟩

end Runs

/-- A disk of 100 sectors. The free list has one sector without entries, and the next one that it
names is beyond the disk; the byte position of that one wraps. -/
def image : Disk where
  read pos :=
    if pos = 0#32 then
      some fun word => if word = 0 then FS_MAGIC else if word = 1 then 100#32 else 0#32
    else if pos = stob FREE_SEC then some fun word => if word = 0 then 0x800002#32 else 0#32
    else none
  writable := false
  stSize := 51200#32

/-- The state at the sector of the free list. -/
def imageStart : State :=
  ⟨image, 100#32, ⟨fun _ => false, fun _ => false⟩, .freelist FREE_SEC (FREE_SEC + 1#32)⟩

end State

end Vsta.Fsck
