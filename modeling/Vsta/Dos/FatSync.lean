import Vsta.Dos.InCore

/-!
# The sync of the FAT

A pass of the sync writes the runs of dirty sectors to one copy of the FAT (`syncPass_spec`). Two
passes and the info sector leave both copies as the FAT is in memory, and the map without marks
(`fatSync_spec`).
-/

set_option autoImplicit false

namespace Vsta.Dos

open Extents WriteBack Except

variable {b : Boot} {disk : ℕ → UChar} {s : State}

/-! ## The passes -/

/-- Where a copy of the FAT starts. -/
abbrev Boot.copy (b : Boot) (pass : ℕ) : ℕ := b.fatbase * SECSZ + pass * b.fatlenBytes

variable (b) in
/-- A run of sectors that can be written from memory. -/
structure Writable (s : State) (r : ℕ × ℕ) : Prop where
  some_ : 0 < r.2
  inside : r.1 + r.2 ≤ b.dirtymapsize
  loaded : b.format = .fat32 → ∀ i < r.2 * SECSZ,
    (r.1 * SECSZ + i) / Boot.FATSEGSIZE = r.1 * SECSZ / Boot.FATSEGSIZE ∧
      (s.fatv (r.1 * SECSZ / Boot.FATSEGSIZE)).isSome = true

theorem Writable.congr {t : State} {r : ℕ × ℕ} (writable : Writable b s r)
    (same : t.fatv = s.fatv) : Writable b t r :=
  ⟨writable.some_, writable.inside, same ▸ writable.loaded⟩

/-- The sectors of the map are below the limit of an offset. -/
theorem Geometry.sector (geometry : Geometry b) {x : ℕ} (inside : x < b.dirtymapsize) :
    x * SECSZ < 2 ^ 32 := by
  have fits := geometry.fits
  have bytes := geometry.bytes
  have few := geometry.inside
  have short : x * SECSZ ≤ b.fatlenBytes := by
    rw [bytes]
    exact Nat.mul_le_mul_right _ (by omega)
  exact short.trans_lt (lt_of_le_of_lt (by omega) fits)

/-- `FATSECTSEG`. -/
theorem fatsectseg (geometry : Geometry b) {x : ℕ} (inside : x < b.dirtymapsize) :
    FATSEG (FATSECT x) = x * SECSZ / Boot.FATSEGSIZE := by
  have small := geometry.sector inside
  have whole : x * SECSZ / 4 * 4 = x * SECSZ := by
    simp only [SECSZ]
    omega
  rw [FATSEG, FATSECT, wrap_eq small, whole, wrap_eq small]

/-- A byte is in the segment of its sector. -/
theorem seg_of_sector (x i : ℕ) :
    (x * SECSZ + i) / Boot.FATSEGSIZE = (x + i / SECSZ) * SECSZ / Boot.FATSEGSIZE := by
  have split : Boot.FATSEGSIZE = SECSZ * 128 := rfl
  rw [split, ← Nat.div_div_eq_div_mul, ← Nat.div_div_eq_div_mul,
    Nat.mul_div_cancel _ (by decide), Nat.mul_comm x, Nat.mul_add_div (by decide)]

/-- The dirty runs can be written. -/
theorem Coherent.writable (coherent : Coherent b disk s) (geometry : Geometry b) {fuel : ℕ}
    {r : ℕ × ℕ} (member : r ∈ runs s.isDirty (joins b) s.dirtymap.length fuel 0) :
    Writable b s r := by
  obtain ⟨some_, units⟩ := mem_runs member
  rw [coherent.size] at units
  have inside : r.1 + r.2 ≤ b.dirtymapsize := by
    have last := (units (r.1 + r.2 - 1) (by omega) (by omega)).1
    omega
  refine ⟨some_, inside, fun format i here => ?_⟩
  obtain ⟨first, marked, -⟩ := units r.1 (le_refl _) (by omega)
  refine ⟨?_, coherent.loaded format _ marked⟩
  have unit : i / SECSZ < r.2 := (Nat.div_lt_iff_lt_mul (by decide)).mpr here
  obtain ⟨within, -, joined⟩ := units (r.1 + i / SECSZ) (Nat.le_add_right _ _)
    (Nat.add_lt_add_left unit _)
  rw [seg_of_sector]
  rcases joined with eq | joined
  · rw [eq]
  · rw [joins, format] at joined
    rw [← fatsectseg geometry within, ← fatsectseg geometry first]
    exact eq_of_beq joined

/-- The memory a run is written from is the FAT in memory. -/
theorem sectors_spec (geometry : Geometry b) {r : ℕ × ℕ} (writable : Writable b s r) :
    Ensures InMap (sectors b s r.1) fun result => result.1 = s ∧
      ∀ i < r.2 * SECSZ, result.2 i = inCore b s (r.1 * SECSZ + i) := by
  rw [sectors]
  cases format : b.format with
  | fat12 =>
      refine ⟨rfl, fun i _ => ?_⟩
      rw [inCore_flat (by rw [format]; decide)]
  | fat16 =>
      refine ⟨rfl, fun i _ => ?_⟩
      rw [inCore_flat (by rw [format]; decide)]
  | fat32 =>
      have inside := writable.inside
      have some_ := writable.some_
      have seg := fatsectseg geometry (x := r.1) (by omega)
      have small := geometry.sector (x := r.1) (by omega)
      obtain ⟨fatp, there⟩ := Option.isSome_iff_exists.mp
        (writable.loaded format 0 (by simp only [SECSZ]; omega)).2
      simp only [lookup, seg, there]
      split_ifs
      · exact Fault.noConfusion
      · refine ⟨rfl, fun i here => ?_⟩
        have same := (writable.loaded format i here).1
        rw [inCore_fat32 format, same, there]
        have place : FATIDX (FATSECT r.1) * 4 + i = (r.1 * SECSZ + i) % Boot.FATSEGSIZE := by
          rw [FATIDX, FATSECT, wrap_eq small]
          simp only [SECSZ, Boot.FATSEGSIZE] at same ⊢
          omega
        simp only [place]

/-- Sectors of a copy are the server's. -/
theorem mem_copies (geometry : Geometry b) {pass x : ℕ} (few : pass < 2)
    (inside : x < b.dirtymapsize) : b.fatbase + x + pass * b.fatSectors ∈ copies b := by
  have base := geometry.base
  have fits := geometry.inside
  rw [copies, Set.mem_Ico]
  have : pass * b.fatSectors ≤ b.fatSectors := by
    calc pass * b.fatSectors ≤ 1 * b.fatSectors := Nat.mul_le_mul_right _ (by omega)
      _ = b.fatSectors := Nat.one_mul _
  omega

/-- A run is written to its place. -/
theorem writeRun_spec (geometry : Geometry b) {pass : ℕ} (few : pass < 2) {r : ℕ × ℕ}
    {view : ℕ → UChar} (writable : Writable b s r)
    (same : ∀ i < r.2 * SECSZ, inCore b s (r.1 * SECSZ + i) = view (r.1 * SECSZ + i)) :
    Ensures InMap (writeRun b pass s r) fun t =>
      t = { s with
        disk := put s.disk (b.copy pass + r.1 * SECSZ) (r.2 * SECSZ) fun i =>
          view (r.1 * SECSZ + i)
        written := t.written } ∧
      cells t.written ⊆ cells s.written ∪ copies b := by
  have inside := writable.inside
  have some_ := writable.some_
  have place : b.fatbase * SECSZ + r.1 * SECSZ + pass * b.fatlenBytes =
      (b.fatbase + r.1 + pass * b.fatSectors) * SECSZ := by
    rw [geometry.bytes, Nat.add_mul, Nat.add_mul, Nat.mul_assoc]
  have small : b.fatbase * SECSZ + r.1 * SECSZ + pass * b.fatlenBytes < 2 ^ 32 := by
    refine lt_of_le_of_lt ?_ geometry.fits
    have short : r.1 * SECSZ ≤ b.fatlenBytes := by
      rw [geometry.bytes]
      exact Nat.mul_le_mul_right _ (by have := geometry.inside; omega)
    have second : pass * b.fatlenBytes ≤ 1 * b.fatlenBytes := Nat.mul_le_mul_right _ (by omega)
    rw [Nat.add_assoc, Nat.two_mul]
    exact Nat.add_le_add_left (Nat.add_le_add short (second.trans_eq (Nat.one_mul _))) _
  refine (sectors_spec geometry writable).bind ?_
  rintro ⟨t, buf⟩ ⟨rfl, read⟩
  rw [ensures_ok, wrap_eq small, State.write]
  refine ⟨?_, fun x member => ?_⟩
  · congr 1
    rw [Nat.add_right_comm]
    exact put_congr fun i here => (read i here).trans (same i here)
  · rw [cells_cons] at member
    rcases member with new | old
    · right
      rw [place, ← Nat.add_mul, Nat.mul_div_cancel _ (by decide),
        Nat.mul_div_cancel _ (by decide)] at new
      obtain ⟨low, high⟩ := new
      simp only at low high
      have here := mem_copies geometry few
        (x := x - (b.fatbase + pass * b.fatSectors)) (by omega)
      rwa [show b.fatbase + (x - (b.fatbase + pass * b.fatSectors)) + pass * b.fatSectors = x by
        omega] at here
    · exact .inl old

/-- Runs are written one after the other. -/
theorem runs_spec (geometry : Geometry b) {pass : ℕ} (few : pass < 2) {view : ℕ → UChar}
    {rs : List (ℕ × ℕ)} (writable : ∀ r ∈ rs, Writable b s r)
    (same : ∀ r ∈ rs, ∀ i < r.2 * SECSZ,
      inCore b s (r.1 * SECSZ + i) = view (r.1 * SECSZ + i)) :
    Ensures InMap (rs.foldlM (writeRun b pass) s) fun t =>
      t = { s with disk := flush SECSZ (b.copy pass) view s.disk rs, written := t.written } ∧
      cells t.written ⊆ cells s.written ∪ copies b := by
  induction rs generalizing s with
  | nil => exact ⟨rfl, Set.subset_union_left⟩
  | cons r rs ih =>
      rw [List.foldlM_cons]
      refine (writeRun_spec geometry few (writable r List.mem_cons_self)
        (same r List.mem_cons_self)).bind fun t after => ?_
      obtain ⟨state, written⟩ := after
      have fatv : t.fatv = s.fatv := by rw [state]
      have fat : t.fat = s.fat := by rw [state]
      have unchanged : ∀ q ∈ rs, ∀ i < q.2 * SECSZ,
          inCore b t (q.1 * SECSZ + i) = inCore b s (q.1 * SECSZ + i) := by
        intro q member i here
        cases format : b.format with
        | fat12 =>
            rw [inCore_flat (by rw [format]; decide), inCore_flat (by rw [format]; decide), fat]
        | fat16 =>
            rw [inCore_flat (by rw [format]; decide), inCore_flat (by rw [format]; decide), fat]
        | fat32 =>
            obtain ⟨seg, loaded⟩ := (writable q (List.mem_cons_of_mem _ member)).loaded format i here
            obtain ⟨fatp, there⟩ := Option.isSome_iff_exists.mp loaded
            rw [inCore_fat32 format, inCore_fat32 format, seg, fatv, there]
      refine (ih (fun q member => (writable q (List.mem_cons_of_mem _ member)).congr fatv)
        fun q member i here => (unchanged q member i here).trans
          (same q (List.mem_cons_of_mem _ member) i here)).mono fun u after => ?_
      obtain ⟨final, rest⟩ := after
      refine ⟨?_, rest.trans (Set.union_subset written Set.subset_union_right)⟩
      rw [final, state]
      rfl

/-- A pass of the sync writes the dirty sectors of a copy. -/
theorem syncPass_spec (geometry : Geometry b) (pass : ℕ) (few : pass < 2)
    {t : State} (coherent : Coherent b disk s)
    (same : t = { s with disk := t.disk, written := t.written })
    (loaded : ∀ r ∈ runs s.isDirty (joins b) s.dirtymap.length s.dirtymap.length 0,
      ∀ i < r.2 * SECSZ, inCore b t (r.1 * SECSZ + i) = inCore b s (r.1 * SECSZ + i)) :
    Ensures InMap (syncPass b t pass) fun u =>
      u = { s with
        disk := flush SECSZ (b.copy pass) (inCore b s) t.disk
          (runs s.isDirty (joins b) s.dirtymap.length s.dirtymap.length 0)
        written := u.written } ∧
      cells u.written ⊆ cells t.written ∪ copies b := by
  have marks : t.isDirty = s.isDirty := by
    rw [same]
    rfl
  have length : t.dirtymap = s.dirtymap := by rw [same]
  rw [syncPass, marks, length]
  have fatv : t.fatv = s.fatv := by rw [same]
  refine (runs_spec geometry few (fun r member => (coherent.writable geometry member).congr fatv)
    loaded).mono fun u after => ?_
  obtain ⟨final, written⟩ := after
  refine ⟨?_, written⟩
  rw [final, same]

/-- Bytes of the FAT are in its sectors. -/
theorem sector_mem_copies (geometry : Geometry b) {pass i : ℕ} (few : pass < 2)
    (inside : i < b.fatlenBytes) : (b.copy pass + i) / SECSZ ∈ copies b := by
  have base := geometry.base
  have unit : i / SECSZ < b.fatSectors := by
    rw [Nat.div_lt_iff_lt_mul (by decide), ← geometry.bytes]
    exact inside
  have place : (b.copy pass + i) / SECSZ = b.fatbase + pass * b.fatSectors + i / SECSZ := by
    rw [Boot.copy, geometry.bytes, ← Nat.mul_assoc, ← Nat.add_mul, Nat.mul_comm,
      Nat.mul_add_div (by decide)]
  have second : pass * b.fatSectors ≤ b.fatSectors :=
    (Nat.mul_le_mul_right _ (Nat.le_of_lt_succ few)).trans_eq (Nat.one_mul _)
  rw [place, copies, Set.mem_Ico]
  generalize i / SECSZ = x at unit
  omega

/-- A sector outside the FAT can be written. -/
theorem put_off_copies (geometry : Geometry b) {store buf : ℕ → UChar} {sector pass i : ℕ}
    (off : sector ∉ copies b) (few : pass < 2) (inside : i < b.fatlenBytes) :
    put store (sector * SECSZ) SECSZ buf (b.copy pass + i) = store (b.copy pass + i) := by
  have here := sector_mem_copies geometry few inside
  refine put_outside ?_
  by_contra within
  have same : (b.copy pass + i) / SECSZ = sector := by
    rw [Nat.div_eq_iff (by decide)]
    omega
  exact off (same ▸ here)

/-- The sync leaves no mark, and both copies are the FAT in memory. -/
structure Synced (b : Boot) (disk : ℕ → UChar) (t : State) : Prop where
  coherent : Coherent b disk t
  clean : ∀ x, t.isDirty x = false

/-- What a sync that has something to write leaves. -/
theorem synced_of {t : State} (coherent : Coherent b disk s)
    (dirtymap : t.dirtymap = s.dirtymap.map fun _ => false)
    (fat : t.fat = s.fat) (fatv : t.fatv = s.fatv)
    (same : ∀ pass < 2, ∀ i < b.fatlenBytes, t.disk (b.copy pass + i) = inCore b s i)
    (written : cells t.written ⊆ ours b disk)
    (info : t.info.isSome = true → t.infobase ∈ ours b disk ∧ t.infobase ∉ copies b) :
    Synced b disk t := by
  have clean : ∀ x, t.isDirty x = false := fun x => by
    rw [State.isDirty, dirtymap, List.getD_eq_getElem?_getD, List.getElem?_map]
    cases s.dirtymap[x]? <;> rfl
  have view : ∀ i < b.fatlenBytes, inCore b t i = inCore b s i := by
    intro i inside
    cases format : b.format with
    | fat12 =>
        rw [inCore_flat (by rw [format]; decide), inCore_flat (by rw [format]; decide), fat]
    | fat16 =>
        rw [inCore_flat (by rw [format]; decide), inCore_flat (by rw [format]; decide), fat]
    | fat32 =>
        have first := same 0 (by decide) i inside
        rw [Boot.copy, Nat.zero_mul, Nat.add_zero] at first
        rw [inCore_fat32 format, fatv]
        cases seg : s.fatv (i / Boot.FATSEGSIZE) with
        | some fatp => rw [inCore_fat32 format, seg]
        | none => exact first
  refine ⟨⟨by rw [dirtymap, List.length_map, coherent.size], fun pass few i inside _ => ?_,
    fun _ x marked => absurd marked (by rw [clean x]; exact Bool.false_ne_true), written, info⟩,
    clean⟩
  rw [same pass few i inside, view i inside]

theorem isDirty_lt {x : ℕ} (marked : s.isDirty x = true) : x < s.dirtymap.length := by
  by_contra beyond
  rw [State.isDirty, List.getD_eq_getElem?_getD, List.getElem?_eq_none (not_lt.mp beyond)] at marked
  exact Bool.false_ne_true marked

/-- **After a sync both copies on the disk are the FAT in memory.** -/
theorem fatSync_spec (geometry : Geometry b) (coherent : Coherent b disk s)
    (clean : s.fatDirty = false → ∀ x, s.isDirty x = false) :
    Ensures InMap (fatSync b s) fun t => Synced b disk t ∧ t.fatDirty = false := by
  rw [fatSync]
  cases dirty : s.fatDirty with
  | false => exact ⟨⟨coherent, clean dirty⟩, dirty⟩
  | true =>
      let rs := runs s.isDirty (joins b) s.dirtymap.length s.dirtymap.length 0
      have within : ∀ r ∈ rs, r.1 + r.2 ≤ b.dirtymapsize := fun r member =>
        (coherent.writable geometry member).inside
      have short : b.dirtymapsize * SECSZ ≤ b.fatlenBytes := by
        rw [geometry.bytes]
        exact Nat.mul_le_mul_right _ geometry.inside
      have next : b.copy 1 = b.copy 0 + b.fatlenBytes := by
        rw [Boot.copy, Boot.copy, Nat.one_mul, Nat.zero_mul, Nat.add_zero]
      have apart : b.copy 0 + b.dirtymapsize * SECSZ ≤ b.copy 1 := by
        rw [next]
        exact Nat.add_le_add_left short _
      refine (syncPass_spec geometry 0 (by decide) coherent rfl
        fun _ _ _ _ => rfl).bind fun t after => ?_
      obtain ⟨first, written⟩ := after
      have loaded : ∀ r ∈ rs, ∀ i < r.2 * SECSZ,
          inCore b t (r.1 * SECSZ + i) = inCore b s (r.1 * SECSZ + i) := by
        intro r member i here
        cases format : b.format with
        | fat12 =>
            rw [inCore_flat (by rw [format]; decide), inCore_flat (by rw [format]; decide), first]
        | fat16 =>
            rw [inCore_flat (by rw [format]; decide), inCore_flat (by rw [format]; decide), first]
        | fat32 =>
            obtain ⟨seg, there⟩ := (coherent.writable geometry member).loaded format i here
            obtain ⟨fatp, there⟩ := Option.isSome_iff_exists.mp there
            rw [inCore_fat32 format, inCore_fat32 format, seg, first, there]
      refine (syncPass_spec geometry 1 (by decide) coherent (by rw [first])
        loaded).bind fun u after => ?_
      obtain ⟨second, written'⟩ := after
      have ours_ : cells u.written ⊆ ours b disk := by
        refine written'.trans (Set.union_subset (written.trans (Set.union_subset coherent.written ?_)) ?_)
        · exact fun x here => .inl here
        · exact fun x here => .inl here
      have marks : ∀ j, s.isDirty j = true → j < s.dirtymap.length := fun j => isDirty_lt
      have copy0 : ∀ i < b.fatlenBytes, t.disk (b.copy 0 + i) = inCore b s i := by
        rw [first]
        exact (coherent.agree 0 (by decide)).flush (by decide) marks
      have copy1 : ∀ i < b.fatlenBytes, u.disk (b.copy 1 + i) = inCore b s i := by
        rw [second]
        refine Agree.flush (fun i inside unmarked => ?_) (by decide) marks
        rw [first]
        exact (flush_outside within (.inr (apart.trans (Nat.le_add_right _ _)))).trans
          (coherent.agree 1 (by decide) i inside unmarked)
      have same : ∀ pass < 2, ∀ i < b.fatlenBytes, u.disk (b.copy pass + i) = inCore b s i := by
        intro pass few i inside
        rcases Nat.lt_succ_iff_lt_or_eq.mp few with less | rfl
        · obtain rfl : pass = 0 := by omega
          rw [← copy0 i inside, second]
          exact flush_outside within (.inl (by rw [next]; exact Nat.add_lt_add_left inside _))
        · exact copy1 i inside
      have info : u.info = s.info := by rw [second]
      have infobase : u.infobase = s.infobase := by rw [second]
      have may := coherent.info
      rw [← info, ← infobase] at may
      refine ⟨?_, rfl⟩
      rw [syncInfo]
      cases there : u.info with
      | none =>
          exact synced_of coherent (by rw [second]) (by rw [second]) (by rw [second]) same
            ours_ fun some_ => absurd some_ Bool.false_ne_true
      | some buf =>
          obtain ⟨allowed, off⟩ := may (by rw [there]; rfl)
          refine synced_of coherent (by rw [second]; rfl) (by rw [second]; rfl)
            (by rw [second]; rfl) (fun pass few i inside => ?_) ?_ fun _ => ⟨allowed, off⟩
          · rw [← same pass few i inside]
            exact put_off_copies geometry off few inside
          · have place : (u.infobase * SECSZ + SECSZ) / SECSZ = u.infobase + 1 := by
              rw [← Nat.succ_mul, Nat.mul_div_cancel _ (by decide)]
            have start : u.infobase * SECSZ / SECSZ = u.infobase := Nat.mul_div_cancel _ (by decide)
            rintro x member
            obtain ⟨e, among, here⟩ := member
            rcases List.mem_cons.mp among with rfl | among
            · obtain ⟨low, high⟩ := here
              simp only [place, start] at low high
              obtain rfl : x = u.infobase := by omega
              exact allowed
            · exact ours_ ⟨e, among, here⟩

end Vsta.Dos
