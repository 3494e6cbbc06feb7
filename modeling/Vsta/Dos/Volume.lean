import Mathlib.Order.Interval.Set.Disjoint
import Vsta.Dos.InCore

/-!
# The layout of a DOS volume

Where the server takes the clusters of a volume to be (`BOFF`), and where it reads and writes the
FAT. A volume has its reserved sectors, the copies of the FAT, the root directory (FAT12 and FAT16)
and then the clusters. `sound_iff` says for which boot sectors the server keeps to that.

It looks for the FAT of FAT12 and FAT16 in sector 1 whatever the number of reserved sectors is, it
takes a last part sector of the root directory for the first cluster, and where the number of
sectors is a small one it counts the clusters as if they began at sector 0.
-/

set_option autoImplicit false

namespace Vsta.Dos

namespace Boot

variable (b : Boot)

/-- What `fat_init` asks of a boot sector: it stops, or divides by zero, else. -/
structure Accepted : Prop where
  secsize : b.secsize = 512
  clsize : b.clsize ≠ 0
  rootCluster : b.format = .fat32 → b.rootCluster ≠ 0

instance : Decidable b.Accepted :=
  decidable_of_iff (b.secsize = 512 ∧ b.clsize ≠ 0 ∧ (b.format = .fat32 → b.rootCluster ≠ 0))
    ⟨fun all => ⟨all.1, all.2.1, all.2.2⟩, fun all => ⟨all.secsize, all.clsize, all.rootCluster⟩⟩

/-- `BOFF`: the first sector of a cluster. -/
def BOFF (clnum : ℕ) : ℕ := wrap (wrap (clnum + (2 ^ 32 - 2)) * b.clsize.toNat + b.data0)

/-- The sectors of a cluster. -/
def cluster (clnum : ℕ) : Set ℕ := Set.Ico (b.BOFF clnum) (b.BOFF clnum + b.clsize.toNat)

/-- The place on the disk from which a byte of the FAT is read. -/
def readByte (i : ℕ) : ℕ :=
  match b.format with
  | .fat12 | .fat16 => 1 * SECSZ + i
  | .fat32 => wrap (b.fatbase * SECSZ + i / FATSEGSIZE * FATSEGSIZE) + i % FATSEGSIZE

/-- The place on the disk to which a pass of the sync writes a byte of the FAT. -/
def writeByte (pass i : ℕ) : ℕ :=
  wrap (b.fatbase * SECSZ + i / SECSZ * SECSZ + pass * b.fatlenBytes) + i % SECSZ

/-! ## The areas of the volume -/

/-- Sectors of the volume. -/
def sectors : ℕ := if 0 < b.psect.toNat then b.psect.toNat else b.bigsect.toNat

/-- Sectors of the root directory. FAT32 has it in clusters. -/
def rootSectors : ℕ := if b.fatlen = 0 then 0 else (b.dirents.toNat * 32 + (SECSZ - 1)) / SECSZ

/-- The reserved sectors. -/
def reserved : Set ℕ := Set.Iio b.nrsvsect.toNat

/-- The copies of the FAT. -/
def fats : Set ℕ :=
  Set.Ico b.nrsvsect.toNat (b.nrsvsect.toNat + b.nfat.toNat * b.fatSectors)

/-- The root directory. -/
def rootDir : Set ℕ :=
  Set.Ico (b.nrsvsect.toNat + b.nfat.toNat * b.fatSectors)
    (b.nrsvsect.toNat + b.nfat.toNat * b.fatSectors + b.rootSectors)

/-- The first sector behind the three. -/
def dataStart : ℕ := b.nrsvsect.toNat + b.nfat.toNat * b.fatSectors + b.rootSectors

/-- The clusters are in the volume, in no other area and apart, and the FAT is read behind the
reserved sectors and written where it was read. -/
structure Sound : Prop where
  inside : ∀ c, 2 ≤ c → c < b.nclust → ∀ x ∈ b.cluster c,
    x < b.sectors ∧ x ∉ b.reserved ∧ x ∉ b.fats ∧ x ∉ b.rootDir
  apart : ∀ c d, 2 ≤ c → c < b.nclust → 2 ≤ d → d < b.nclust → c ≠ d →
    Disjoint (b.cluster c) (b.cluster d)
  place : ∀ i < b.fatSectors * SECSZ,
    b.readByte i = b.nrsvsect.toNat * SECSZ + i ∧ b.writeByte 0 i = b.readByte i
  written : b.dirtymapsize ≤ b.fatSectors

/-! ## The condition -/

/-- `data0` is the first sector behind the root directory. -/
def Aligned : Prop :=
  if b.fatlen = 0 then b.nrsvsect.toNat + b.nfat.toNat * b.bigFat.toNat < 2 ^ 32
  else b.dirents.toNat % 16 = 0

/-- The last cluster ends in the volume. -/
def Fits : Prop :=
  if 0 < b.psect.toNat then
    b.data0 + (b.psect.toNat / b.clsize.toNat - 2) * b.clsize.toNat ≤ b.psect.toNat
  else b.data0 ≤ b.bigsect.toNat

/-- The FAT is where the server looks for it. -/
def Placed : Prop :=
  if b.fatlen = 0 then b.bigFat = 0 ∨ b.nrsvsect.toNat + b.bigFat.toNat ≤ 2 ^ 23
  else b.nrsvsect = 1

/-- Bytes of the FAT entries of the clusters, in `uint` arithmetic. -/
def entryBytes : ℕ :=
  match b.format with
  | .fat12 => wrap (b.nclust * 3) / 2
  | .fat16 => wrap (b.nclust * 2)
  | .fat32 => wrap (b.nclust * 4)

/-- The FAT has room for the entries of the clusters. -/
def Mapped : Prop := wrap (b.entryBytes + (SECSZ - 1)) < (b.fatSectors + 1) * SECSZ

variable {b}

theorem BOFF_eq {c : ℕ} (low : 2 ≤ c) (small : c < 2 ^ 32) :
    b.BOFF c = wrap ((c - 2) * b.clsize.toNat + b.data0) := by
  have less : wrap (c + (2 ^ 32 - 2)) = c - 2 := by
    rw [wrap]
    omega
  rw [BOFF, less]

theorem nclust_small (b : Boot) : b.nclust < 2 ^ 32 := by
  rw [nclust]
  split_ifs
  · have small := b.psect.isLt
    refine lt_of_le_of_lt (Nat.div_le_self _ _) ?_
    simp only [SECSZ]
    omega
  · exact lt_of_le_of_lt (Nat.div_le_self _ _) (Nat.mod_lt _ (by decide))

theorem sectors_small (b : Boot) : b.sectors < 2 ^ 32 := by
  rw [sectors]
  split_ifs
  · exact b.psect.isLt.trans (by decide)
  · exact b.bigsect.isLt

theorem data0_small (b : Boot) : b.data0 < 2 ^ 32 := by
  rw [data0]
  split_ifs
  · exact Nat.mod_lt _ (by decide)
  · have one := b.nrsvsect.isLt
    have two : b.nfat.toNat * b.fatlen.toNat ≤ 2 ^ 8 * 2 ^ 16 :=
      Nat.mul_le_mul b.nfat.isLt.le b.fatlen.isLt.le
    have three := b.dirents.isLt
    simp only [SECSZ]
    omega

/-- The three areas are the sectors before `dataStart`. -/
theorem not_mem_areas {x : ℕ} :
    (x ∉ b.reserved ∧ x ∉ b.fats ∧ x ∉ b.rootDir) ↔ b.dataStart ≤ x := by
  simp only [reserved, fats, rootDir, dataStart, Set.mem_Iio, Set.mem_Ico, not_lt, not_and]
  constructor
  · rintro ⟨one, two, three⟩
    exact three (two one)
  · intro behind
    refine ⟨by omega, fun _ => by omega, fun _ => by omega⟩

theorem aligned_iff : b.Aligned ↔ b.dataStart ≤ b.data0 := by
  rw [Aligned, dataStart, data0, rootSectors, fatSectors]
  split_ifs with fat32
  · rw [Nat.add_zero, Nat.mul_comm b.nfat.toNat, wrap]
    constructor
    · intro small
      rw [Nat.mod_eq_of_lt small]
    · intro same
      exact lt_of_le_of_lt same (Nat.mod_lt _ (by decide))
  · simp only [SECSZ]
    omega

theorem mapped_iff : b.Mapped ↔ b.dirtymapsize ≤ b.fatSectors := by
  have size : b.dirtymapsize = wrap (b.entryBytes + (SECSZ - 1)) / SECSZ := by
    rw [dirtymapsize, entryBytes]
    cases b.format <;> exact Nat.mul_div_cancel _ (by decide)
  rw [size, Mapped, ← Nat.lt_succ_iff, Nat.div_lt_iff_lt_mul (by decide)]

/-- There are clusters, and the last of them ends in the volume. -/
theorem fits_iff (accepted : b.Accepted) :
    b.Fits ↔ b.data0 + (b.nclust - 2) * b.clsize.toNat ≤ b.sectors := by
  have pos : 0 < b.clsize.toNat :=
    Nat.pos_of_ne_zero fun zero => accepted.clsize (BitVec.eq_of_toNat_eq zero)
  rw [Fits, nclust, sectors]
  by_cases few : 0 < b.psect.toNat
  · rw [if_pos few, if_pos few, if_pos few, clusterSize, Nat.mul_div_mul_right _ _ (by decide)]
  · rw [if_neg few, if_neg few, if_neg few]
    have small := b.data0_small
    have big := b.bigsect.isLt
    constructor
    · intro starts
      have rest : wrap (b.bigsect.toNat + 2 ^ 32 - b.data0) = b.bigsect.toNat - b.data0 := by
        rw [wrap]
        omega
      rw [rest]
      have whole := Nat.div_mul_le_self (b.bigsect.toNat - b.data0) b.clsize.toNat
      have less := Nat.mul_le_mul_right b.clsize.toNat
        (Nat.sub_le ((b.bigsect.toNat - b.data0) / b.clsize.toNat) 2)
      omega
    · intro ends
      omega

section Clusters

variable (accepted : b.Accepted)

include accepted

/-- Where the last cluster ends in the volume, nothing wraps. -/
theorem BOFF_of_fits {c : ℕ} (low : 2 ≤ c) (high : c < b.nclust)
    (ends : b.data0 + (b.nclust - 2) * b.clsize.toNat ≤ b.sectors) :
    b.BOFF c = b.data0 + (c - 2) * b.clsize.toNat ∧
      b.BOFF c + b.clsize.toNat ≤ b.sectors := by
  have small := b.sectors_small
  have next := Nat.mul_le_mul_right b.clsize.toNat (show c - 2 + 1 ≤ b.nclust - 2 by omega)
  rw [Nat.add_mul, Nat.one_mul] at next
  have pos : 0 < b.clsize.toNat :=
    Nat.pos_of_ne_zero fun zero => accepted.clsize (BitVec.eq_of_toNat_eq zero)
  rw [BOFF_eq low (high.trans b.nclust_small), wrap_eq (by omega)]
  omega

/-- **The clusters are in the volume behind the other areas** exactly when there are none, or the
first of them begins there and the last ends there. -/
theorem inside_iff :
    (∀ c, 2 ≤ c → c < b.nclust → ∀ x ∈ b.cluster c,
      x < b.sectors ∧ x ∉ b.reserved ∧ x ∉ b.fats ∧ x ∉ b.rootDir) ↔
      b.nclust ≤ 2 ∨ b.dataStart ≤ b.data0 ∧
        b.data0 + (b.nclust - 2) * b.clsize.toNat ≤ b.sectors := by
  have pos : 0 < b.clsize.toNat :=
    Nat.pos_of_ne_zero fun zero => accepted.clsize (BitVec.eq_of_toNat_eq zero)
  have small := b.sectors_small
  simp only [not_mem_areas]
  constructor
  · intro inside
    by_cases none : b.nclust ≤ 2
    · exact .inl none
    · -- each cluster begins where the one before ends
      have each : ∀ k, 2 + k < b.nclust →
          b.dataStart ≤ b.data0 + k * b.clsize.toNat ∧
            b.data0 + (k + 1) * b.clsize.toNat ≤ b.sectors := by
        intro k
        induction k with
        | zero =>
            intro there
            have start : b.BOFF 2 = b.data0 := by
              rw [BOFF_eq le_rfl (by decide), Nat.sub_self, Nat.zero_mul, Nat.zero_add,
                wrap_eq b.data0_small]
            have first := inside 2 le_rfl there b.data0 ⟨start.le, by omega⟩
            have last := inside 2 le_rfl there (b.data0 + b.clsize.toNat - 1)
              ⟨by omega, by omega⟩
            omega
        | succ k ih =>
            intro there
            obtain ⟨before, ends⟩ := ih (by omega)
            have start : b.BOFF (2 + (k + 1)) = b.data0 + (k + 1) * b.clsize.toNat := by
              rw [BOFF_eq (by omega) (there.trans b.nclust_small), Nat.add_sub_cancel_left,
                wrap_eq (by omega), Nat.add_comm]
            have first := inside _ (by omega) there _ ⟨le_rfl, by omega⟩
            have last := inside _ (by omega) there
              (b.BOFF (2 + (k + 1)) + b.clsize.toNat - 1) ⟨by omega, by omega⟩
            rw [start] at first last
            rw [Nat.add_mul (k + 1), Nat.one_mul]
            omega
      refine .inr ⟨?_, ?_⟩
      · have first := (each 0 (by omega)).1
        omega
      · have last := (each (b.nclust - 3) (by omega)).2
        rwa [show b.nclust - 3 + 1 = b.nclust - 2 by omega] at last
  · rintro (none | ⟨starts, ends⟩) c low high x ⟨above, below⟩
    · omega
    · obtain ⟨start, last⟩ := BOFF_of_fits accepted low high ends
      omega

/-- Clusters in the volume are apart. -/
theorem apart_of_fits (ends : b.data0 + (b.nclust - 2) * b.clsize.toNat ≤ b.sectors) (c d : ℕ)
    (lowC : 2 ≤ c) (highC : c < b.nclust) (lowD : 2 ≤ d) (highD : d < b.nclust) (differ : c ≠ d) :
    Disjoint (b.cluster c) (b.cluster d) := by
  have ordered : ∀ c d, 2 ≤ c → c < b.nclust → 2 ≤ d → d < b.nclust → c < d →
      b.BOFF c + b.clsize.toNat ≤ b.BOFF d := by
    intro c d lowC highC lowD highD less
    rw [(BOFF_of_fits accepted lowC highC ends).1, (BOFF_of_fits accepted lowD highD ends).1]
    have next := Nat.mul_le_mul_right b.clsize.toNat (show c - 2 + 1 ≤ d - 2 by omega)
    rw [Nat.add_mul, Nat.one_mul] at next
    omega
  rw [Set.disjoint_left]
  rintro x ⟨aboveC, belowC⟩ ⟨aboveD, belowD⟩
  rcases Nat.lt_or_gt_of_ne differ with less | more
  · have := ordered c d lowC highC lowD highD less
    omega
  · have := ordered d c lowD highD lowC highC more
    omega

end Clusters

/-- The FAT is read behind the reserved sectors, and written there. -/
theorem placed_iff (b : Boot) :
    (∀ i < b.fatSectors * SECSZ,
      b.readByte i = b.nrsvsect.toNat * SECSZ + i ∧ b.writeByte 0 i = b.readByte i) ↔
      b.Placed := by
  have reserved := b.nrsvsect.isLt
  by_cases fat32 : b.fatlen = 0
  · have format := format_fatlen.mpr fat32
    have base : b.fatbase = b.nrsvsect.toNat := by rw [fatbase, format]
    have size : b.fatSectors = b.bigFat.toNat := by rw [fatSectors, if_pos fat32]
    rw [Placed, if_pos fat32, size]
    simp only [readByte, writeByte, format, base, SECSZ, FATSEGSIZE, Nat.zero_mul, Nat.add_zero]
    constructor
    · intro all
      by_cases none : b.bigFat = 0
      · exact .inl none
      · have some_ : 0 < b.bigFat.toNat :=
          Nat.pos_of_ne_zero fun zero => none (BitVec.eq_of_toNat_eq zero)
        obtain ⟨at_, same⟩ := all (b.bigFat.toNat * 512 - 1) (by omega)
        rw [at_, wrap] at same
        right
        omega
    · rintro (none | fits) i inside
      · rw [none] at inside
        exact absurd inside (Nat.not_lt_zero i)
      · rw [wrap, wrap]
        omega
  · have flat : b.format ≠ .fat32 := fun format => fat32 (format_fatlen.mp format)
    have base : b.fatbase = 1 ∧ ∀ i, b.readByte i = 512 + i := by
      rw [fatbase]
      cases format : b.format with
      | fat12 => exact ⟨rfl, fun i => by simp only [readByte, format, SECSZ, Nat.one_mul]⟩
      | fat16 => exact ⟨rfl, fun i => by simp only [readByte, format, SECSZ, Nat.one_mul]⟩
      | fat32 => exact absurd format flat
    have size : b.fatSectors = b.fatlen.toNat := by rw [fatSectors, if_neg fat32]
    have short := b.fatlen.isLt
    have some_ : 0 < b.fatlen.toNat :=
      Nat.pos_of_ne_zero fun zero => fat32 (BitVec.eq_of_toNat_eq zero)
    rw [Placed, if_neg fat32, size]
    simp only [writeByte, base.1, base.2, SECSZ, Nat.zero_mul, Nat.add_zero]
    constructor
    · intro all
      have first := (all 0 (by omega)).1
      exact BitVec.eq_of_toNat_eq (by simp; omega)
    · intro one i inside
      have value : b.nrsvsect.toNat = 1 := by rw [one]; rfl
      rw [value, wrap]
      omega

/-- **For which boot sectors the server keeps to the layout of the volume.** -/
theorem sound_iff (accepted : b.Accepted) :
    b.Sound ↔ (b.nclust ≤ 2 ∨ b.Aligned ∧ b.Fits) ∧ b.Placed ∧ b.Mapped := by
  have inside := inside_iff accepted
  rw [← aligned_iff, ← fits_iff accepted] at inside
  constructor
  · intro sound
    exact ⟨inside.mp sound.inside, (placed_iff b).mp sound.place, mapped_iff.mpr sound.written⟩
  · rintro ⟨clusters, placed, mapped⟩
    refine ⟨inside.mpr clusters, fun c d lowC highC lowD highD differ => ?_,
      (placed_iff b).mpr placed, mapped_iff.mp mapped⟩
    rcases clusters with none | ⟨-, fits⟩
    · omega
    · exact apart_of_fits accepted ((fits_iff accepted).mp fits) c d lowC highC lowD highD differ

/-- A volume of 100000 sectors with one reserved sector. -/
def harddisk : Boot where
  secsize := 512
  clsize := 4
  nrsvsect := 1
  nfat := 2
  dirents := 512
  psect := 0
  fatlen := 98
  bigsect := 100000
  bigFat := 0
  rootCluster := 0
  infoSector := 0

theorem sound_iff_harddisk : harddisk.Sound := by
  refine (sound_iff (by decide)).mpr ⟨.inr ⟨?_, ?_⟩, ?_, ?_⟩
  · rw [Aligned]
    decide
  · rw [Fits]
    decide
  · rw [Placed]
    decide
  · rw [Mapped]
    decide

/-- A floppy disk of 2880 sectors. -/
def floppy : Boot where
  secsize := 512
  clsize := 1
  nrsvsect := 1
  nfat := 2
  dirents := 224
  psect := 2880
  fatlen := 9
  bigsect := 0
  bigFat := 0
  rootCluster := 0
  infoSector := 0

/-- **The last clusters of a floppy disk are not on it.** They begin at sector 33, and there
are taken to be 2880 of them. -/
theorem floppy_overruns : floppy.Accepted ∧ ¬floppy.Sound := by
  refine ⟨by decide, fun sound => ?_⟩
  have last := sound.inside 2879 (by decide) (by decide) (floppy.BOFF 2879) ⟨le_rfl, by decide⟩
  exact absurd last.1 (by decide)

end Boot

end Vsta.Dos
