import Vsta.Dos.Fat
import Vsta.Library.Ensures

/-!
# The FAT in memory and its dirty sectors

While the sectors that are not marked agree with both copies on the disk (`Coherent`), a read keeps
that and changes nothing but which segments are loaded (`get_spec`), and so does a change of an
entry whose marks are inside the dirty map (`set_spec`).
-/

set_option autoImplicit false

namespace Vsta.Dos

open Extents WriteBack Except

variable (b : Boot)

/-! ## The layout -/

/-- The sectors of the two copies of the FAT. -/
def copies : Set ℕ :=
  Set.Ico b.nrsvsect.toNat (b.nrsvsect.toNat + 2 * b.fatSectors)

/-- The marks of an entry are inside the dirty map. -/
def Covered (cl : ℕ) : Prop := ∀ x ∈ b.format.marks cl, x < b.dirtymapsize

instance (cl : ℕ) : Decidable (Covered b cl) := inferInstanceAs (Decidable (∀ x ∈ _, _))

/-- A disk that the server keeps as it is meant to be: there are two copies of the FAT, which say
the same, they start where the server looks for them, they have an entry and a mark for each
cluster, and the info sector, if there is one, has its signatures and is not in the FAT. -/
def Laid (disk : ℕ → UChar) : Prop :=
  1 < b.nfat.toNat ∧
  (∀ i < b.fatSectors * SECSZ, disk (b.nrsvsect.toNat * SECSZ + i) =
    disk (b.nrsvsect.toNat * SECSZ + b.fatSectors * SECSZ + i)) ∧
  match b.format with
  | .fat12 => b.nrsvsect = 1 ∧ b.dirtymapsize ≤ b.fatSectors ∧
      b.nclust * 3 < b.dirtymapsize * (SECSZ * 2)
  | .fat16 => b.nrsvsect = 1 ∧ b.nclust * 2 ≤ b.fatSectors * SECSZ
  | .fat32 => b.nclust * 4 ≤ b.fatSectors * SECSZ ∧
      b.nrsvsect.toNat * SECSZ + 2 * (b.fatSectors * SECSZ) < 2 ^ 32 ∧
      (b.infoSector = 0xFFFF ∨ verified b disk ∧ b.infoSector.toNat ∉ copies b)

/-- What the layout gives the operations. -/
structure Geometry : Prop where
  base : b.fatbase = b.nrsvsect.toNat
  bytes : b.fatlenBytes = b.fatSectors * SECSZ
  inside : b.dirtymapsize ≤ b.fatSectors
  fits : b.fatbase * SECSZ + 2 * b.fatlenBytes < 2 ^ 32
  small : b.format ≠ .fat32 → b.fatlenBytes < 2 ^ 25
  covered : ∀ cl < b.nclust, Covered b cl

theorem roundup_div {val : ℕ} (small : val + 511 < 2 ^ 32) :
    roundup val 512 / 512 = (val + 511) / 512 := by
  rw [roundup, Nat.mul_div_cancel _ (by decide), wrap_eq small]

variable {b}

theorem format_fatlen : b.format = .fat32 ↔ b.fatlen = 0 := by
  rw [Boot.format]
  by_cases none_ : b.fatlen = 0
  · rw [if_pos none_]
    exact iff_of_true rfl none_
  · rw [if_neg none_]
    split_ifs <;> simpa using none_

/-- A FAT12 or a FAT16 is not long. -/
theorem small_sectors (format : b.format ≠ .fat32) : b.fatSectors < 2 ^ 16 := by
  rw [Ne, format_fatlen] at format
  rw [Boot.fatSectors, if_neg format]
  exact b.fatlen.isLt

theorem nclust_fat12 (format : b.format = .fat12) : b.nclust < 4085 := by
  rw [Boot.format] at format
  split_ifs at format with none_ few
  exact few

theorem Laid.geometry {disk : ℕ → UChar} (laid : Laid b disk) : Geometry b := by
  obtain ⟨-, -, laid⟩ := laid
  cases format : b.format with
  | fat12 =>
      simp only [format, SECSZ] at laid
      obtain ⟨first, inside, marks⟩ := laid
      have small := small_sectors (b := b) (by rw [format]; decide)
      have few := nclust_fat12 format
      have base : b.fatbase = 1 := by rw [Boot.fatbase, format]
      have bytes : b.fatlenBytes = b.fatSectors * 512 := wrap_eq (by simp only [SECSZ]; omega)
      refine ⟨by rw [base, first]; rfl, bytes, inside, by simp only [SECSZ]; omega,
        fun _ => by omega, fun cl clust x mark => ?_⟩
      rw [format, Format.marks, wrap_eq (by omega), wrap_eq (by omega), List.mem_cons,
        List.mem_singleton] at mark
      simp only [SECSZ] at mark
      omega
  | fat16 =>
      simp only [format, SECSZ] at laid
      obtain ⟨first, entries⟩ := laid
      have small := small_sectors (b := b) (by rw [format]; decide)
      have base : b.fatbase = 1 := by rw [Boot.fatbase, format]
      have bytes : b.fatlenBytes = b.fatSectors * 512 := wrap_eq (by simp only [SECSZ]; omega)
      have size : b.dirtymapsize = (b.nclust * 2 + 511) / 512 := by
        rw [Boot.dirtymapsize, format]
        simp only [SECSZ]
        rw [wrap_eq (by omega), roundup_div (by omega)]
      refine ⟨by rw [base, first]; rfl, bytes, by omega, by simp only [SECSZ]; omega,
        fun _ => by omega, fun cl clust x mark => ?_⟩
      rw [format, Format.marks, wrap_eq (by omega), List.mem_singleton] at mark
      simp only [SECSZ] at mark
      omega
  | fat32 =>
      simp only [format, SECSZ] at laid
      obtain ⟨entries, fits, -⟩ := laid
      have room : b.fatSectors * 512 < 2 ^ 31 :=
        Nat.lt_of_mul_lt_mul_left (a := 2) ((Nat.le_add_left _ _).trans_lt fits)
      have few : b.nclust * 4 < 2 ^ 31 := entries.trans_lt room
      have base : b.fatbase = b.nrsvsect.toNat := by rw [Boot.fatbase, format]
      have bytes : b.fatlenBytes = b.fatSectors * 512 := wrap_eq (room.trans (by decide))
      have size : b.dirtymapsize = (b.nclust * 4 + 511) / 512 := by
        rw [Boot.dirtymapsize, format]
        simp only [SECSZ]
        rw [wrap_eq (few.trans (by decide)), roundup_div (by omega)]
      refine ⟨base, bytes, by omega, by rw [base, bytes]; exact fits,
        fun other => absurd format other, fun cl clust x mark => ?_⟩
      rw [format, Format.marks, wrap_eq (by omega), List.mem_singleton] at mark
      simp only [SECSZ] at mark
      omega

/-! ## The invariant -/

variable (b) in
/-- The FAT in memory. A segment that is not loaded is the one of the first copy. -/
def inCore (s : State) : ℕ → UChar :=
  match b.format with
  | .fat12 | .fat16 => s.fat
  | .fat32 => fun i =>
      match s.fatv (i / Boot.FATSEGSIZE) with
      | some fatp => fatp (i % Boot.FATSEGSIZE)
      | none => s.disk (b.fatbase * SECSZ + i)

variable (b) in
/-- The sectors the server may write: those of the FAT, and a verified info sector. -/
def ours (disk : ℕ → UChar) : Set ℕ :=
  {x | x ∈ copies b ∨ (b.format = .fat32 ∧ b.infoSector ≠ 0xFFFF ∧ verified b disk ∧
    x = b.infoSector.toNat)}

variable (b) in
/-- The sectors that are not marked agree with both copies, marked segments are loaded, and what was
written and will be written is the server's. The disk is the one at the start. -/
structure Coherent (disk : ℕ → UChar) (s : State) : Prop where
  size : s.dirtymap.length = b.dirtymapsize
  agree : ∀ pass < 2, Agree SECSZ (b.fatbase * SECSZ + pass * b.fatlenBytes) b.fatlenBytes
    s.isDirty (inCore b s) s.disk
  loaded : b.format = .fat32 → ∀ x, s.isDirty x = true →
    (s.fatv (x * SECSZ / Boot.FATSEGSIZE)).isSome = true
  written : cells s.written ⊆ ours b disk
  info : s.info.isSome = true → s.infobase ∈ ours b disk ∧ s.infobase ∉ copies b

/-- No failure is one of the dirty map. -/
abbrev InMap (fault : Fault) : Prop := fault ≠ .overrun

/-- Only memory that no sector is written from was changed, and segments were loaded. -/
structure Quiet (s t : State) : Prop where
  dirtymap : t.dirtymap = s.dirtymap
  fatDirty : t.fatDirty = s.fatDirty
  clusts : t.clusts = s.clusts

theorem Quiet.refl (s : State) : Quiet s s := ⟨rfl, rfl, rfl⟩

theorem Quiet.trans {s t u : State} (first : Quiet s t) (second : Quiet t u) : Quiet s u :=
  ⟨second.dirtymap.trans first.dirtymap, second.fatDirty.trans first.fatDirty,
    second.clusts.trans first.clusts⟩

variable {disk : ℕ → UChar} {s : State}

/-- The marks are the same, and so is what the sectors are written from and to. -/
theorem Coherent.congr {t : State} (coherent : Coherent b disk s)
    (dirtymap : t.dirtymap = s.dirtymap) (same : ∀ i < b.fatlenBytes, inCore b t i = inCore b s i)
    (loaded : ∀ seg, (s.fatv seg).isSome = true → (t.fatv seg).isSome = true)
    (unchanged : t.disk = s.disk) (written : t.written = s.written)
    (info : t.info.isSome = s.info.isSome) (infobase : t.infobase = s.infobase) :
    Coherent b disk t := by
  have marks : t.isDirty = s.isDirty := by
    funext x
    rw [State.isDirty, State.isDirty, dirtymap]
  refine ⟨dirtymap ▸ coherent.size, fun pass few i inside clean => ?_, fun format x marked => ?_,
    written ▸ coherent.written, by rw [info, infobase]; exact coherent.info⟩
  · rw [marks] at clean
    rw [unchanged, same i inside, coherent.agree pass few i inside clean]
  · rw [marks] at marked
    exact loaded _ (coherent.loaded format x marked)

/-! ## Reading -/

/-- The segments that there are start inside the FAT. -/
theorem seg_inside {seg : ℕ} (there : seg < b.nfatv) : seg * Boot.FATSEGSIZE < b.fatlenBytes := by
  rw [Boot.nfatv, roundup, Nat.mul_div_cancel _ (by decide)] at there
  have least := wrap_le (b.fatlenBytes + (Boot.FATSEGSIZE - 1))
  simp only [Boot.FATSEGSIZE] at there least ⊢
  omega

theorem inCore_fat32 (format : b.format = .fat32) (s : State) (i : ℕ) : inCore b s i =
    match s.fatv (i / Boot.FATSEGSIZE) with
    | some fatp => fatp (i % Boot.FATSEGSIZE)
    | none => s.disk (b.fatbase * SECSZ + i) := by
  rw [inCore, format]

theorem inCore_flat (format : b.format ≠ .fat32) (s : State) : inCore b s = s.fat := by
  rw [inCore]
  split
  · rfl
  · rfl
  · next is => exact absurd is format

/-- `lookup` returns a loaded segment, and changes nothing else. -/
theorem lookup_spec (geometry : Geometry b) (format : b.format = .fat32)
    (coherent : Coherent b disk s) (idx : ℕ) :
    Ensures InMap (lookup b s idx) fun r => Coherent b disk r.1 ∧ Quiet s r.1 ∧
      r.1.fatv (FATSEG idx) = some r.2 ∧ inCore b r.1 = inCore b s := by
  rw [lookup]
  refine Ensures.ite (fun _ => by simp) fun there => ?_
  have fits : b.fatbase * SECSZ + FATSEG idx * Boot.FATSEGSIZE < 2 ^ 32 := by
    have start := seg_inside (not_le.mp there)
    have fits := geometry.fits
    exact (Nat.add_lt_add_left start _).trans_le ((Nat.add_le_add_left (by omega) _).trans fits.le)
  cases seg : s.fatv (FATSEG idx) with
  | some fatp => exact ⟨coherent, .refl s, seg, rfl⟩
  | none =>
      have same : ∀ i, inCore b { s with
          fatv := Function.update s.fatv (FATSEG idx) (some fun i =>
            s.disk (wrap (b.fatbase * SECSZ + FATSEG idx * Boot.FATSEGSIZE) + i)) } i =
          inCore b s i := by
        intro i
        rw [inCore_fat32 format, inCore_fat32 format]
        by_cases here : i / Boot.FATSEGSIZE = FATSEG idx
        · simp only [here, Function.update_self, seg]
          have whole : FATSEG idx * Boot.FATSEGSIZE + i % Boot.FATSEGSIZE = i := by
            rw [← here, Nat.mul_comm, Nat.div_add_mod]
          rw [wrap_eq fits, Nat.add_assoc, whole]
        · simp only [Function.update_of_ne here]
      refine ⟨coherent.congr rfl (fun i _ => same i) (fun other there => ?_) rfl rfl rfl rfl,
        ⟨rfl, rfl, rfl⟩, Function.update_self .., funext same⟩
      by_cases here : other = FATSEG idx
      · subst here
        simp
      · simpa only [Function.update_of_ne here] using there

/-- **A read loads a segment at most.** -/
theorem get_spec (geometry : Geometry b) (coherent : Coherent b disk s) (idx : ℕ) :
    Ensures InMap (get b s idx) fun r => Coherent b disk r.1 ∧ Quiet s r.1 := by
  rw [get]
  cases format : b.format with
  | fat12 => exact ⟨coherent, .refl s⟩
  | fat16 => exact ⟨coherent, .refl s⟩
  | fat32 =>
      refine (lookup_spec geometry format coherent idx).bind ?_
      rintro ⟨t, fatp⟩ ⟨after, quiet, -⟩
      exact ⟨after, quiet⟩

/-! ## Changing an entry -/

/-- The bytes outside an entry. -/
def Format.Off (format : Format) (idx i : ℕ) : Prop :=
  i < format.slot idx ∨ format.slot idx + format.width ≤ i

variable (b) in
/-- A change of an entry changes its bytes, in memory that is loaded, and nothing that is on the
disk. -/
structure Stored (idx : ℕ) (s t : State) : Prop where
  off : ∀ i, b.format.Off idx i → inCore b t i = inCore b s i
  dirtymap : t.dirtymap = s.dirtymap
  loaded : ∀ seg, (s.fatv seg).isSome = true → (t.fatv seg).isSome = true
  here : b.format = .fat32 → (t.fatv (b.format.slot idx / Boot.FATSEGSIZE)).isSome = true
  disk : t.disk = s.disk
  written : t.written = s.written
  info : t.info = s.info
  infobase : t.infobase = s.infobase
  inside : b.format ≠ .fat32 → b.format.slot idx + 1 < b.fatlenBytes

/-- Bytes that are stored in the FAT of FAT12 or FAT16. -/
theorem stored_flat {idx : ℕ} {fat : ℕ → UChar} (format : b.format ≠ .fat32)
    (off : ∀ i, b.format.Off idx i → fat i = s.fat i)
    (inside : b.format.slot idx + 1 < b.fatlenBytes) : Stored b idx s { s with fat } := by
  refine ⟨fun i outside => ?_, rfl, fun _ => id, fun is => absurd is format, rfl, rfl, rfl,
    rfl, fun _ => inside⟩
  rw [inCore_flat format, inCore_flat format]
  exact off i outside

/-- The place of an entry in its segment. -/
theorem slot_fat32 (idx : ℕ) :
    Format.fat32.slot idx = FATSEG idx * Boot.FATSEGSIZE + FATIDX idx * 4 := by
  simp only [Format.slot, FATSEG, FATIDX, wrap, Boot.FATSEGSIZE]
  omega

/-- An entry that is stored in its segment. -/
theorem stored_fat32 {idx : ℕ} {fatp : ℕ → UChar} {val : ULong} (format : b.format = .fat32)
    (there : s.fatv (FATSEG idx) = some fatp) : Stored b idx s { s with
      fatv := Function.update s.fatv (FATSEG idx) (some (setWord fatp (FATIDX idx * 4) val)) } := by
  have slot := slot_fat32 idx
  have small : FATIDX idx * 4 < Boot.FATSEGSIZE := by
    simp only [FATIDX, Boot.FATSEGSIZE]
    omega
  refine ⟨fun i outside => ?_, rfl, fun seg some_ => ?_, fun _ => ?_, rfl, rfl, rfl, rfl,
    fun other => absurd format other⟩
  · rw [format, Format.Off, Format.width, slot] at outside
    rw [inCore_fat32 format, inCore_fat32 format]
    by_cases here : i / Boot.FATSEGSIZE = FATSEG idx
    · have whole := Nat.div_add_mod i Boot.FATSEGSIZE
      rw [here, Nat.mul_comm] at whole
      simp only [here, Function.update_self, there]
      exact put_outside (by omega)
    · simp only [Function.update_of_ne here]
  · by_cases here : seg = FATSEG idx
    · subst here
      simp
    · simpa only [Function.update_of_ne here] using some_
  · have here : Format.fat32.slot idx / Boot.FATSEGSIZE = FATSEG idx := rfl
    simp only [format, here, Function.update_self, Option.isSome_some]

/-- An entry is stored in a coherent state. -/
theorem store_spec (geometry : Geometry b) (coherent : Coherent b disk s) (idx val : ℕ) :
    Ensures InMap (store b s idx val) fun u => ∃ t, Coherent b disk t ∧ Stored b idx t u := by
  rw [store]
  cases format : b.format with
  | fat12 =>
      refine Ensures.ite (fun inside => ⟨s, coherent, stored_flat (by rw [format]; decide) ?_ ?_⟩)
        fun _ => by simp
      · rw [format]
        intro i off
        rw [store12]
        split_ifs
        · exact put_outside off
        · exact put_outside off
      · rw [format]
        exact inside
  | fat16 =>
      refine Ensures.ite (fun inside => ⟨s, coherent, stored_flat (by rw [format]; decide) ?_ ?_⟩)
        fun _ => by simp
      · rw [format]
        intro i off
        exact put_outside off
      · rw [format]
        exact inside
  | fat32 =>
      refine (lookup_spec geometry format coherent idx).bind ?_
      rintro ⟨t, fatp⟩ ⟨after, -, there, -⟩
      exact ⟨t, after, stored_fat32 format there⟩

/-- The sectors of an entry are marked. -/
theorem mem_marks {idx i : ℕ} (geometry : Geometry b)
    (inside : b.format ≠ .fat32 → b.format.slot idx + 1 < b.fatlenBytes)
    (on : ¬b.format.Off idx i) : i / SECSZ ∈ b.format.marks idx := by
  have small := geometry.small
  rw [Format.Off] at on
  cases format : b.format with
  | fat12 =>
      rw [format, Format.slot, Format.width] at on
      specialize small (by rw [format]; decide)
      specialize inside (by rw [format]; decide)
      rw [format, Format.slot] at inside
      rw [Format.marks, wrap_eq (by omega), wrap_eq (by omega), List.mem_cons, List.mem_singleton]
      simp only [SECSZ]
      omega
  | fat16 =>
      rw [format, Format.slot, Format.width] at on
      specialize small (by rw [format]; decide)
      specialize inside (by rw [format]; decide)
      rw [format, Format.slot] at inside
      rw [Format.marks, wrap_eq (by omega), List.mem_singleton]
      simp only [SECSZ]
      omega
  | fat32 =>
      have aligned : wrap (idx * 4) % 4 = 0 := by
        rw [wrap]
        omega
      rw [format, Format.slot, Format.width] at on
      rw [Format.marks, List.mem_singleton]
      simp only [SECSZ]
      omega

/-- Sectors are marked. -/
theorem marks_spec (xs : List ℕ) (inside : ∀ x ∈ xs, x < s.dirtymap.length) :
    ∃ map : List Bool, xs.foldlM State.mark s = .ok { s with dirtymap := map } ∧
      map.length = s.dirtymap.length ∧
      ∀ x, map.getD x false = true ↔ s.isDirty x = true ∨ x ∈ xs := by
  induction xs generalizing s with
  | nil => exact ⟨s.dirtymap, rfl, rfl, fun x => by simp [State.isDirty]⟩
  | cons x xs ih =>
      have here := inside x List.mem_cons_self
      obtain ⟨map, done, length, marked⟩ := ih (s := { s with dirtymap := s.dirtymap.set x true })
        (by simpa using fun y member => inside y (List.mem_cons_of_mem _ member))
      refine ⟨map, ?_, by simpa using length, fun y => ?_⟩
      · rw [List.foldlM_cons, State.mark, if_pos here]
        exact done
      · rw [marked y, List.mem_cons, State.isDirty, State.isDirty]
        by_cases same : y = x
        · subst same
          simp [List.getD_eq_getElem?_getD, here]
        · simp [List.getD_eq_getElem?_getD, List.getElem?_set_ne (Ne.symm same), same]

/-- **A change of an entry marks the sectors it is in.** -/
theorem set_spec (geometry : Geometry b) (coherent : Coherent b disk s) {idx : ℕ}
    (covered : Covered b idx) (val : ℕ) :
    Ensures InMap (set b s idx val) fun t => Coherent b disk t := by
  refine (store_spec geometry coherent idx val).bind fun u after => ?_
  obtain ⟨t, coherent, stored⟩ := after
  obtain ⟨map, done, length, marked⟩ := marks_spec (s := u) (b.format.marks idx)
    fun x member => by
      rw [stored.dirtymap, coherent.size]
      exact covered x member
  rw [done, ensures_ok]
  have dirty : ∀ x, t.isDirty x = u.isDirty x := fun x => by
    rw [State.isDirty, State.isDirty, stored.dirtymap]
  refine ⟨length.trans (stored.dirtymap ▸ coherent.size), fun pass few i inside clean => ?_,
    fun format x mark => ?_, stored.written ▸ coherent.written, ?_⟩
  · have clean : ¬(u.isDirty (i / SECSZ) = true ∨ i / SECSZ ∈ b.format.marks idx) := by
      rw [← marked]
      exact fun set => Bool.false_ne_true (clean.symm.trans set)
    have off : b.format.Off idx i := by
      by_contra on
      exact clean (.inr (mem_marks geometry stored.inside on))
    have before : t.isDirty (i / SECSZ) = false := by
      rw [dirty]
      exact Bool.eq_false_iff.mpr fun set => clean (.inl set)
    have same : inCore b { u with dirtymap := map } i = inCore b t i := stored.off i off
    rw [same, stored.disk, coherent.agree pass few i inside before]
  · rcases (marked x).mp mark with old | new
    · exact stored.loaded _ (coherent.loaded format x (dirty x ▸ old))
    · have here := stored.here format
      rw [format, Format.slot] at here
      rw [format, Format.marks, List.mem_singleton] at new
      have same : x * SECSZ / Boot.FATSEGSIZE = wrap (idx * 4) / Boot.FATSEGSIZE := by
        simp only [new, SECSZ, Boot.FATSEGSIZE]
        omega
      rw [same]
      exact here
  · have info : u.info = t.info := stored.info
    simp only [info, stored.infobase]
    exact coherent.info

end Vsta.Dos
