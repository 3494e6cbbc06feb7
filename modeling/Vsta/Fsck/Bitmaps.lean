import Mathlib.Data.Finset.Card
import Mathlib.Tactic.SplitIfs
import Mathlib.Tactic.Push
import Vsta.Fsck.Machine

/-!
# The bitmaps of the file system checker

What `setbit` and `getbit` do with a run of blocks, when they stay inside the bitmaps, and how many
blocks are not marked yet. The loop over the extents of a file stays inside, and a file that passes
has a block marked or has no blocks.
-/

set_option autoImplicit false

namespace Vsta.Fsck

/-! ## The bitmaps -/

section Bits

variable {fsSize d : ULong} {map map' : Map} {cnt : ℕ}

theorem inMap_iff : inMap fsSize d ↔ d.toNat / 8 ≤ fsSize.toNat / 8 := by
  rw [inMap, BitVec.le_def, BitVec.toNat_udiv, BitVec.toNat_udiv]
  rfl

theorem inMap_of_le (below : d.toNat ≤ fsSize.toNat) : inMap fsSize d :=
  inMap_iff.mpr (Nat.div_le_div_right below)

/-- The blocks of a run that does not go beyond 32 bits. -/
theorem toNat_add_ofNat {i : ℕ} (small : d.toNat + i < 2 ^ 32) :
    (d + BitVec.ofNat 32 i).toNat = d.toNat + i := by
  rw [BitVec.toNat_add, BitVec.toNat_ofNat]
  omega

theorem add_ofNat_succ (d : ULong) (i : ℕ) :
    d + 1#32 + BitVec.ofNat 32 i = d + BitVec.ofNat 32 (i + 1) := by
  rw [BitVec.add_assoc, Nat.add_comm i 1, BitVec.ofNat_add]

/-- The first block of a run, and those behind it. -/
theorem forall_run {P : ULong → Prop} :
    (∀ i < cnt + 1, P (d + BitVec.ofNat 32 i)) ↔
      P d ∧ ∀ i < cnt, P (d + 1#32 + BitVec.ofNat 32 i) := by
  constructor
  · intro all
    refine ⟨?_, fun i less => ?_⟩
    · have first := all 0 (Nat.succ_pos _)
      rwa [BitVec.add_zero] at first
    · rw [add_ofNat_succ]
      exact all (i + 1) (Nat.succ_lt_succ less)
  · rintro ⟨first, rest⟩ i less
    cases i with
    | zero => rwa [BitVec.add_zero]
    | succ i =>
        rw [← add_ofNat_succ]
        exact rest i (Nat.lt_of_succ_lt_succ less)

theorem setbit_none (map : Map) :
    setbit fsSize map d cnt = none ↔ ¬∀ i < cnt, inMap fsSize (d + BitVec.ofNat 32 i) := by
  induction cnt generalizing d map with
  | zero => exact ⟨nofun, fun out => absurd nofun out⟩
  | succ cnt ih =>
      rw [setbit, forall_run]
      split_ifs with here
      · rw [ih]
        simp [here]
      · simp [here]

/-- `setbit` marks the blocks of the run. -/
theorem setbit_some (set : setbit fsSize map d cnt = some map') (x : ULong) :
    map' x = true ↔ map x = true ∨ ∃ i < cnt, x = d + BitVec.ofNat 32 i := by
  induction cnt generalizing d map with
  | zero =>
      obtain rfl := Option.some.inj set
      simp
  | succ cnt ih =>
      rw [setbit] at set
      split_ifs at set with here
      rw [ih set, Bool.or_eq_true, decide_eq_true_iff]
      have both := not_congr (@forall_run d cnt fun y => x ≠ y)
      push Not at both
      rw [or_comm (a := x = d), or_assoc, both]
      tauto

theorem getbit_none_of (inside : ∀ i < cnt, inMap fsSize (d + BitVec.ofNat 32 i)) :
    ∃ bit, getbit fsSize map d cnt = some bit ∧
      (bit = false ↔ ∀ i < cnt, map (d + BitVec.ofNat 32 i) = false) := by
  induction cnt generalizing d with
  | zero => exact ⟨false, rfl, fun _ => nofun, fun _ => rfl⟩
  | succ cnt ih =>
      rw [forall_run] at inside
      rw [getbit, if_pos inside.1, @forall_run d cnt fun y => map y = false]
      by_cases here : map d = true
      · rw [if_pos here]
        exact ⟨true, rfl, nofun, fun both => absurd here (by simp [both.1])⟩
      · rw [if_neg here]
        obtain ⟨bit, got, is⟩ := ih inside.2
        exact ⟨bit, got, by simpa [here] using is⟩

end Bits

/-! ## Marked blocks -/

/-- How many blocks are not marked. -/
def unmarked (map : Map) : ℕ :=
  ((Finset.range (2 ^ 32)).filter fun i => map (BitVec.ofNat 32 i) = false).card

theorem unmarked_le {map map' : Map} (more : ∀ x, map x = true → map' x = true) :
    unmarked map' ≤ unmarked map := by
  refine Finset.card_le_card fun i => ?_
  rw [Finset.mem_filter, Finset.mem_filter]
  rintro ⟨inside, clear⟩
  refine ⟨inside, Bool.eq_false_iff.mpr fun before => ?_⟩
  exact absurd (more _ before) (by simp [clear])

theorem unmarked_lt {map map' : Map} (more : ∀ x, map x = true → map' x = true) {x : ULong}
    (clear : map x = false) (marked : map' x = true) : unmarked map' < unmarked map := by
  have value : BitVec.ofNat 32 x.toNat = x := by
    refine BitVec.eq_of_toNat_eq ?_
    rw [BitVec.toNat_ofNat, Nat.mod_eq_of_lt x.isLt]
  refine Finset.card_lt_card ((Finset.ssubset_iff_of_subset ?_).mpr ⟨x.toNat, ?_, ?_⟩)
  · intro i
    rw [Finset.mem_filter, Finset.mem_filter]
    rintro ⟨inside, still⟩
    refine ⟨inside, Bool.eq_false_iff.mpr fun before => ?_⟩
    exact absurd (more _ before) (by simp [still])
  · rw [Finset.mem_filter, value]
    exact ⟨Finset.mem_range.mpr x.isLt, clear⟩
  · rw [Finset.mem_filter, value, marked]
    exact fun both => absurd both.2 nofun

/-! ## The extents of a file -/

section Extents

variable {fsSize : ULong} {maps maps' : Maps} {a : Alloc} {blklen : ULong} {total : Option ULong}

theorem validBlock_iff {d : ULong} :
    validBlock fsSize d = true ↔ 1 ≤ d.toNat ∧ d.toNat ≤ fsSize.toNat := by
  rw [validBlock, Bool.and_eq_true, decide_eq_true_iff, decide_eq_true_iff, BitVec.le_def,
    BitVec.le_def]
  rfl

/-- A run that passes as valid and does not go beyond 32 bits is in the maps. -/
theorem run_inMap (ends : validBlock fsSize (a.aStart + a.aLen) = true)
    (small : a.aStart.toNat + a.aLen.toNat < 2 ^ 32) :
    ∀ i < a.aLen.toNat, inMap fsSize (a.aStart + BitVec.ofNat 32 i) := by
  intro i less
  have last := (validBlock_iff.mp ends).2
  have sum : (a.aStart + a.aLen).toNat = a.aStart.toNat + a.aLen.toNat := by
    rw [BitVec.toNat_add]
    omega
  refine inMap_of_le ?_
  rw [toNat_add_ofNat (by omega)]
  omega

/-- A run that goes beyond 32 bits is not. -/
theorem run_not_inMap (size : fsSize.toNat < 2 ^ 23)
    (wraps : 2 ^ 32 ≤ a.aStart.toNat + a.aLen.toNat) :
    ¬∀ i < a.aLen.toNat, inMap fsSize (a.aStart + BitVec.ofNat 32 i) := by
  intro all
  have first := a.aStart.isLt
  have last := all (2 ^ 32 - 1 - a.aStart.toNat) (by omega)
  rw [inMap_iff, toNat_add_ofNat (by omega)] at last
  omega

/-- What the loop over the extents does: the maps are not left, more blocks are marked, and where
all of them pass one block more is marked, or they are all empty. -/
theorem checkBlks_spec (size : fsSize.toNat < 2 ^ 23) (blks : List Alloc) :
    ∃ maps' total, checkBlks fsSize maps blks blklen = some (maps', total) ∧
      (∀ x, maps.allocmap x = true → maps'.allocmap x = true) ∧
      (∀ len, total = some len → unmarked maps'.allocmap < unmarked maps.allocmap ∨
        maps' = maps ∧ len = blklen ∧ ∀ a ∈ blks, a.aLen = 0#32 ∧ validBlock fsSize a.aStart) := by
  induction blks generalizing maps blklen with
  | nil =>
      refine ⟨maps, some blklen, rfl, fun _ is => is, fun len is => .inr ⟨rfl, ?_, nofun⟩⟩
      exact (Option.some.inj is).symm
  | cons a rest ih =>
      have stops : ∀ {r : Option (Maps × Option ULong)}, r = some (maps, none) →
          ∃ maps' total, r = some (maps', total) ∧
            (∀ x, maps.allocmap x = true → maps'.allocmap x = true) ∧
            (∀ len, total = some len → unmarked maps'.allocmap < unmarked maps.allocmap ∨
              maps' = maps ∧ len = blklen ∧
                ∀ a' ∈ a :: rest, a'.aLen = 0#32 ∧ validBlock fsSize a'.aStart) := by
        rintro r rfl
        exact ⟨maps, none, rfl, fun _ is => is, nofun⟩
      rw [checkBlks]
      by_cases start : validBlock fsSize a.aStart = true
      swap
      · exact stops (if_pos (by simpa using start))
      rw [if_neg (by simp [start])]
      by_cases long : fsSize - 1#32 < a.aLen
      · exact stops (if_pos long)
      rw [if_neg long]
      by_cases ends : validBlock fsSize (a.aStart + a.aLen) = true
      swap
      · exact stops (if_pos (by simpa using ends))
      rw [if_neg (by simp [ends])]
      have small : a.aStart.toNat + a.aLen.toNat < 2 ^ 32 := by
        have both := validBlock_iff.mp start
        rw [BitVec.lt_def, BitVec.toNat_sub, BitVec.toNat_ofNat] at long
        omega
      have inside := run_inMap ends small
      obtain ⟨inFile, got, clear⟩ := @getbit_none_of _ _ maps.allocmap _ inside
      obtain ⟨isFree, gotFree, -⟩ := @getbit_none_of _ _ maps.freemap _ inside
      rw [got, gotFree]
      cases inFile with
      | true => exact stops rfl
      | false =>
          cases isFree with
          | true => exact stops rfl
          | false =>
              obtain ⟨allocmap, set⟩ := Option.ne_none_iff_exists'.mp
                fun none_ => (setbit_none maps.allocmap).mp none_ inside
              obtain ⟨freemap, setFree⟩ := Option.ne_none_iff_exists'.mp
                fun none_ => (setbit_none maps.freemap).mp none_ inside
              rw [set, setFree]
              have more : ∀ x, maps.allocmap x = true → allocmap x = true :=
                fun x is => (setbit_some set x).mpr (.inl is)
              obtain ⟨maps', total, on, more', marks⟩ := @ih ⟨freemap, allocmap⟩ (blklen + a.aLen)
              refine ⟨maps', total, on, fun x is => more' x (more x is), fun len is => ?_⟩
              by_cases empty : a.aLen = 0#32
              · rw [empty] at set setFree
                obtain rfl := Option.some.inj set
                obtain rfl := Option.some.inj setFree
                refine (marks len is).imp_right fun ⟨same, length, all⟩ => ⟨same, ?_, ?_⟩
                · rw [length, empty, BitVec.add_zero]
                · rw [List.forall_mem_cons]
                  exact ⟨⟨empty, start⟩, all⟩
              · left
                have some_ : 0 < a.aLen.toNat :=
                  Nat.pos_of_ne_zero fun zero => empty (BitVec.eq_of_toNat_eq zero)
                have fewer : unmarked allocmap < unmarked maps.allocmap :=
                  unmarked_lt more (clear.mp rfl 0 some_)
                    ((setbit_some set _).mpr (.inr ⟨0, some_, rfl⟩))
                exact (unmarked_le more').trans_lt fewer

end Extents

end Vsta.Fsck
