import Vsta.Dos.FatSync

/-!
# The FAT is written back

In every run on a disk that is `Laid` out as the server takes for granted, in which the last cluster
of a file that grows and the new last one of a file that is cut are in the dirty map, the map is
never indexed beyond its end, only sectors of the FAT and of a verified info sector are written, and
after a sync both copies on the disk are the FAT in memory (`fat_write_back`).

An info sector without its signatures is given sector 0, but stays in memory, and the next sync
writes it over the boot sector (`boot_overwritten`).
-/

set_option autoImplicit false

namespace Vsta.Dos

open Extents WriteBack Except

variable {b : Boot} {disk : ℕ → UChar} {s : State}

/-! ## The searches -/

/-- What a search leaves: only segments were loaded, and `nxt_clust` may have moved. -/
abbrev Searched (b : Boot) (disk : ℕ → UChar) (s t : State) : Prop :=
  Coherent b disk t ∧ Quiet s t

theorem Searched.trans {t u : State} (first : Searched b disk s t) (second : Searched b disk t u) :
    Searched b disk s u := ⟨second.1, first.2.trans second.2⟩

theorem Coherent.nxtClust (coherent : Coherent b disk s) (cl : ℕ) :
    Coherent b disk { s with nxtClust := cl } :=
  ⟨coherent.size, coherent.agree, coherent.loaded, coherent.written, coherent.info⟩

theorem Coherent.addFree (coherent : Coherent b disk s) (count : ULong) :
    Coherent b disk (s.addFree count) :=
  ⟨coherent.size, coherent.agree, coherent.loaded, coherent.written, fun some_ =>
    coherent.info (by simpa [State.addFree] using some_)⟩

/-- The new state of a file. -/
theorem Coherent.done (coherent : Coherent b disk s) (clusts : ℕ → List ℕ) (dirty : Bool) :
    Coherent b disk { s with clusts, fatDirty := dirty } :=
  ⟨coherent.size, coherent.agree, coherent.loaded, coherent.written, coherent.info⟩

theorem findFree_spec (geometry : Geometry b) (coherent : Coherent b disk s) (left cl : ℕ) :
    Ensures InMap (findFree b left s cl) fun r => Searched b disk s r.1 := by
  induction left generalizing s cl with
  | zero => exact ⟨coherent, .refl s⟩
  | succ left ih =>
      rw [findFree]
      refine (get_spec geometry coherent cl).bind ?_
      rintro ⟨t, val⟩ read
      refine Ensures.ite (fun _ => ?_) fun _ => Ensures.ite (fun _ => read) fun _ => read
      exact (ih read.1 _).mono fun r after => Searched.trans read after

/-- The clusters that are found are in the dirty map. -/
theorem findClusters_spec (geometry : Geometry b) (coherent : Coherent b disk s)
    (need left cl : ℕ) :
    Ensures InMap (findClusters b need left s cl) fun r => Searched b disk s r.1 ∧
      ∀ new ∈ r.2, ∀ x ∈ new, Covered b x := by
  induction need generalizing s left cl with
  | zero =>
      refine ⟨⟨coherent, .refl s⟩, fun new found x member => ?_⟩
      obtain rfl : [] = new := by simpa using found
      exact absurd member List.not_mem_nil
  | succ need ih =>
      rw [findClusters]
      refine (findFree_spec geometry coherent left cl).bind ?_
      rintro ⟨t, found⟩ first
      cases found with
      | none => exact ⟨first, fun new found => absurd found (by simp)⟩
      | some found =>
          obtain ⟨cl, left⟩ := found
          refine Ensures.ite (fun _ => by simp) fun sane => ?_
          refine (ih (first.1.nxtClust _) left (cl + 1)).bind ?_
          rintro ⟨u, rest⟩ ⟨second, covered⟩
          refine ⟨⟨second.1, first.2.trans ⟨second.2.dirtymap, second.2.fatDirty, second.2.clusts⟩⟩,
            fun new found x member => ?_⟩
          obtain ⟨new', some_, rfl⟩ := Option.map_eq_some_iff.mp (Option.mem_def.mp found)
          rcases List.mem_cons.mp member with rfl | member
          · exact geometry.covered _ (by omega)
          · exact covered new' some_ x member

theorem scan_spec (geometry : Geometry b) (coherent : Coherent b disk s) (len x : ℕ) :
    Ensures InMap (scan b len s x) fun r => Searched b disk s r.1 := by
  induction len generalizing s x with
  | zero =>
      rw [scan]
      refine (get_spec geometry coherent x).bind ?_
      rintro ⟨t, val⟩ read
      exact Ensures.ite (fun _ => by simp) fun _ => read
  | succ len ih =>
      rw [scan]
      refine (get_spec geometry coherent x).bind ?_
      rintro ⟨t, val⟩ read
      refine Ensures.ite (fun _ => Ensures.ite (fun _ => by simp) fun _ => ?_) fun _ => by simp
      refine (ih read.1 val).bind ?_
      rintro ⟨u, rest⟩ after
      exact Searched.trans read after

/-- A run that is long enough ends before the last cluster. -/
theorem freeRun_spec (geometry : Geometry b) (coherent : Coherent b disk s)
    (newclust left start cnt cl : ℕ) (place : start + cnt = cl) (room : cl + left = b.nclust)
    (few : newclust ≤ cnt → newclust = 0) :
    Ensures InMap (freeRun b newclust left s cl cnt) fun r => Searched b disk s r.1 ∧
      match r.2.2 with
      | .enough => start + newclust ≤ b.nclust
      | _ => newclust ≤ r.2.1 → newclust = 0 := by
  induction left generalizing s cnt cl with
  | zero => exact ⟨⟨coherent, .refl s⟩, few⟩
  | succ left ih =>
      rw [freeRun]
      refine (get_spec geometry coherent cl).bind ?_
      rintro ⟨t, val⟩ read
      refine Ensures.ite (fun _ => ⟨read, few⟩) fun _ => ?_
      refine Ensures.ite (fun enough => ⟨read, by simp only; omega⟩) fun short => ?_
      refine (ih read.1 (cnt + 1) (cl + 1) (by omega) (by omega) fun enough => absurd enough short).mono fun r after => ?_
      exact ⟨Searched.trans read after.1, after.2⟩

/-- A run that was found ends before the last cluster. -/
theorem findRun_spec (geometry : Geometry b) (coherent : Coherent b disk s)
    {newclust fuel cl cnt : ℕ} (few : newclust ≤ cnt → newclust = 0) :
    Ensures InMap (findRun b newclust fuel s cl cnt) fun r => Searched b disk s r.1 ∧
      (newclust ≤ r.2.2 → newclust = 0 ∨ r.2.1 + newclust ≤ b.nclust) := by
  induction fuel generalizing s cl cnt with
  | zero => exact ⟨⟨coherent, .refl s⟩, fun enough => .inl (few enough)⟩
  | succ fuel ih =>
      rw [findRun]
      refine Ensures.ite (fun _ => ⟨⟨coherent, .refl s⟩, fun enough => .inl (few enough)⟩)
        fun inside => ?_
      refine (get_spec geometry coherent cl).bind ?_
      rintro ⟨t, val⟩ read
      refine Ensures.ite (fun _ => (ih read.1 few).mono fun r after =>
        ⟨Searched.trans read after.1, after.2⟩) fun _ => ?_
      refine (freeRun_spec geometry read.1 newclust (b.nclust - cl) cl 0 cl rfl (by omega) (by omega)).bind ?_
      rintro ⟨u, cnt', stop⟩ ⟨found, ends⟩
      have searched : Searched b disk s u := Searched.trans read found
      cases stop with
      | enough => exact ⟨searched, fun _ => .inr ends⟩
      | used cl' =>
          refine Ensures.ite (fun enough => ⟨searched, fun _ => .inl (ends enough)⟩) fun short => ?_
          exact (ih searched.1 fun enough => absurd enough short).mono fun r after =>
            ⟨Searched.trans searched after.1, after.2⟩
      | over_ =>
          refine Ensures.ite (fun enough => ⟨searched, fun _ => .inl (ends enough)⟩) fun short => ?_
          exact (ih searched.1 fun enough => absurd enough short).mono fun r after =>
            ⟨Searched.trans searched after.1, after.2⟩

/-! ## The operations -/

/-- A state between two requests: when nothing is to be synced, no sector is marked. -/
structure Sound (b : Boot) (disk : ℕ → UChar) (s : State) : Prop where
  coherent : Coherent b disk s
  clean : s.fatDirty = false → ∀ x, s.isDirty x = false

theorem Sound.searched {t : State} (sound : Sound b disk s) (searched : Searched b disk s t) :
    Sound b disk t := by
  refine ⟨searched.1, fun none_ x => ?_⟩
  rw [State.isDirty, searched.2.dirtymap]
  exact sound.clean (searched.2.fatDirty ▸ none_) x

/-- A state that is to be synced. -/
theorem Coherent.sound (coherent : Coherent b disk s) (dirty : s.fatDirty = true) :
    Sound b disk s :=
  ⟨coherent, fun none_ => absurd (dirty.symm.trans none_) Bool.noConfusion⟩

theorem setEnd_spec (geometry : Geometry b) (coherent : Coherent b disk s) {last : Option ℕ}
    (covered : ∀ cl ∈ last, Covered b cl) :
    Ensures InMap (setEnd b s last) fun t => Coherent b disk t := by
  cases last with
  | none => exact coherent
  | some cl => exact set_spec geometry coherent (covered cl rfl) _

theorem truncate_spec (geometry : Geometry b) (coherent : Coherent b disk s) {h newclust : ℕ}
    (covered : ∀ cl ∈ ((s.clusts h).take newclust).getLast?, Covered b cl) :
    Ensures InMap (truncate b s h newclust) (Sound b disk) := by
  rw [truncate]
  refine (Ensures.foldlM (coherent.nxtClust newclust) fun t coherent cl _ => ?_).bind
    fun t coherent => ?_
  · exact Ensures.ite (fun _ => by simp) fun sane =>
      set_spec geometry coherent (geometry.covered cl (by omega)) 0
  · exact (setEnd_spec geometry (coherent.addFree _) covered).bind fun u coherent =>
      (coherent.done _ _).sound rfl

theorem chain_spec (geometry : Geometry b) (coherent : Coherent b disk s) {cls : List ℕ}
    (covered : ∀ cl ∈ cls, Covered b cl) :
    Ensures InMap (chain b cls s) (Coherent b disk) := by
  induction cls generalizing s with
  | nil => exact coherent
  | cons cl rest ih =>
      cases rest with
      | nil => exact coherent
      | cons next rest =>
          rw [chain]
          refine (set_spec geometry coherent (covered cl List.mem_cons_self) next).bind
            fun t coherent => ?_
          exact ih coherent fun x member => covered x (List.mem_cons_of_mem _ member)

theorem grow_spec (geometry : Geometry b) (sound : Sound b disk s) {h newclust : ℕ} {mem : Bool}
    (covered : ∀ cl ∈ (s.clusts h).getLast?, Covered b cl) :
    Ensures InMap (grow b s h newclust mem) (Sound b disk) := by
  rw [grow]
  refine Ensures.ite (fun _ => sound) fun _ => ?_
  refine (findClusters_spec geometry sound.coherent _ _ _).bind ?_
  rintro ⟨t, found⟩ ⟨searched, new_⟩
  cases found with
  | none => exact sound.searched searched
  | some new =>
      have all : ∀ cl ∈ (s.clusts h).getLast?.toList ++ new, Covered b cl := by
        intro cl member
        rcases List.mem_append.mp member with last | member
        · exact covered cl (Option.mem_toList.mp last)
        · exact new_ new rfl cl member
      refine (chain_spec geometry searched.1 all).bind fun u coherent => ?_
      refine (setEnd_spec geometry (coherent.addFree _) fun cl last => ?_).bind fun v coherent =>
        (coherent.done _ _).sound rfl
      exact new_ new rfl cl (List.mem_of_getLast? last)

/-- The cluster that gets another mark when a file of `c` is given `newclust` clusters, besides
those that are freed or found. -/
def edge (c : List ℕ) (newclust : ℕ) : Option ℕ :=
  if c.length = newclust then none
  else if newclust < c.length then (c.take newclust).getLast? else c.getLast?

theorem clustSetlen_spec (geometry : Geometry b) (sound : Sound b disk s) {h : ℕ} {newlen : ULong}
    {mem : Bool} (covered : ∀ cl ∈ edge (s.clusts h) (clusters b newlen), Covered b cl) :
    Ensures InMap (clustSetlen b s h newlen mem) (Sound b disk) := by
  rw [edge] at covered
  refine Ensures.ite (fun _ => sound) fun other => ?_
  rw [if_neg other] at covered
  refine Ensures.ite (fun shorter => ?_) fun longer => ?_
  · rw [if_pos shorter] at covered
    exact truncate_spec geometry sound.coherent covered
  · rw [if_neg longer] at covered
    exact grow_spec geometry sound covered

theorem allocClust_spec (geometry : Geometry b) (sound : Sound b disk s) (h start len : ℕ) :
    Ensures InMap (allocClust b s h start len) (Sound b disk) := by
  have moved : ∀ {t : State}, Sound b disk t → ∀ clusts : ℕ → List ℕ,
      Sound b disk { t with clusts } := fun sound clusts =>
    ⟨sound.coherent.done clusts _, sound.clean⟩
  rw [allocClust]
  refine Ensures.ite (fun _ => moved sound _) fun _ => ?_
  refine (scan_spec geometry sound.coherent len start).bind ?_
  rintro ⟨t, c⟩ searched
  exact moved (sound.searched searched) _

theorem clustPrealloc_spec (geometry : Geometry b) (sound : Sound b disk s) (h : ℕ)
    (newlen : ULong) (mem : Bool) :
    Ensures InMap (clustPrealloc b s h newlen mem) (Sound b disk) := by
  rw [clustPrealloc]
  refine Ensures.ite (fun _ => by simp) fun _ => Ensures.ite (fun _ => sound) fun _ => ?_
  refine (findRun_spec geometry sound.coherent (by omega)).bind ?_
  rintro ⟨t, cl, cnt⟩ ⟨searched, room⟩
  refine Ensures.ite (fun _ => sound.searched searched) fun enough => ?_
  refine (Ensures.foldlM searched.1 fun u coherent x member => ?_).bind fun u coherent =>
    ((coherent.addFree _).done _ _).sound rfl
  have inside := List.mem_range.mp member
  exact set_spec geometry coherent (geometry.covered _ (by
    rcases room (not_lt.mp fun short => enough (.inl short)) with none_ | room
    · omega
    · simp only at room
      omega)) _

/-! ## The runs -/

/-- The condition on a request: the cluster whose mark moves is in the dirty map. -/
def Fits (b : Boot) (s : State) (label : Label) : Prop :=
  match label.action with
  | .setlen h newlen _ => ∀ cl ∈ edge (s.clusts h) (clusters b newlen), Covered b cl
  | _ => True

theorem Coherent.behind (coherent : Coherent b disk s) (heap : ℕ → UChar) :
    Coherent b disk (s.behind b heap) := by
  refine coherent.congr rfl (fun i inside => ?_) (fun _ => id) rfl rfl rfl rfl
  cases format : b.format with
  | fat12 =>
      rw [inCore_flat (by rw [format]; decide), inCore_flat (by rw [format]; decide)]
      exact if_pos inside
  | fat16 =>
      rw [inCore_flat (by rw [format]; decide), inCore_flat (by rw [format]; decide)]
      exact if_pos inside
  | fat32 => rw [inCore_fat32 format, inCore_fat32 format]; rfl

/-- **A request that meets the condition leaves the state sound, and does not fail in the dirty
map.** -/
theorem exec_spec (geometry : Geometry b) (sound : Sound b disk s) {label : Label}
    (fits : Fits b s label) : Ensures InMap (exec b s label) (Sound b disk) := by
  obtain ⟨heap, action⟩ := label
  have sound : Sound b disk (s.behind b heap) := ⟨sound.coherent.behind heap, sound.clean⟩
  cases action with
  | alloc h start len => exact allocClust_spec geometry sound h start len
  | setlen h newlen mem => exact clustSetlen_spec geometry sound fits
  | prealloc h newlen mem => exact clustPrealloc_spec geometry sound h newlen mem
  | sync =>
      exact (fatSync_spec geometry sound.coherent sound.clean).mono fun t after =>
        ⟨after.1.coherent, fun _ => after.1.clean⟩

theorem fatInit_fat32 (format : b.format = .fat32) (mounted : fatInit b disk = .ok s) :
    s = ⟨disk, [], fun i => disk (SECSZ + i), fun _ => none,
      List.replicate b.dirtymapsize false, 0, false, (readInfo b disk).1, (readInfo b disk).2,
      fun _ => []⟩ := by
  simp only [fatInit, format] at mounted
  split_ifs at mounted
  exact (Except.ok.inj mounted).symm

theorem fatInit_flat (format : b.format ≠ .fat32) (mounted : fatInit b disk = .ok s) :
    s = ⟨disk, [], fun i => disk (SECSZ + i), fun _ => none,
      List.replicate b.dirtymapsize false, 0, false, none, 0, fun _ => []⟩ := by
  cases is : b.format with
  | fat12 =>
      simp only [fatInit, is] at mounted
      split_ifs at mounted
      exact (Except.ok.inj mounted).symm
  | fat16 =>
      simp only [fatInit, is] at mounted
      split_ifs at mounted
      exact (Except.ok.inj mounted).symm
  | fat32 => exact absurd is format

/-- The state at the start is sound on a disk that is laid out as it is meant to be. -/
theorem fatInit_sound (laid : Laid b disk) (mounted : fatInit b disk = .ok s) :
    Sound b disk s := by
  have geometry := laid.geometry
  obtain ⟨-, copies_, layout⟩ := laid
  have second : ∀ pass < 2, ∀ i < b.fatlenBytes,
      disk (b.copy pass + i) = disk (b.fatbase * SECSZ + i) := by
    intro pass few i inside
    rcases Nat.lt_succ_iff_lt_or_eq.mp few with less | rfl
    · obtain rfl : pass = 0 := by omega
      rw [Boot.copy, Nat.zero_mul, Nat.add_zero]
    · rw [Boot.copy, Nat.one_mul, geometry.bytes, geometry.base]
      exact (copies_ i (geometry.bytes ▸ inside)).symm
  by_cases format : b.format = .fat32
  · have start := fatInit_fat32 format mounted
    have clean : ∀ x, s.isDirty x = false := fun x => by
      simp [start, State.isDirty, List.getD_eq_getElem?_getD, List.getElem?_replicate]
      split <;> rfl
    rw [format] at layout
    refine ⟨⟨by rw [start, List.length_replicate], fun pass few i inside _ => ?_,
      fun _ x marked => absurd marked (by rw [clean x]; exact Bool.false_ne_true),
      by rw [start]; simp, fun some_ => ?_⟩, fun _ => clean⟩
    · rw [inCore_fat32 format, start]
      exact second pass few i inside
    · rw [start] at some_ ⊢
      simp only [readInfo] at some_ ⊢
      split_ifs at some_ ⊢ with none_ good
      · exact absurd some_ Bool.false_ne_true
      · rcases layout.2.2 with is | ⟨good', off⟩
        · exact absurd is none_
        · exact ⟨.inr ⟨format, none_, good', rfl⟩, off⟩
      · rcases layout.2.2 with is | ⟨good', off⟩
        · exact absurd is none_
        · exact absurd good' good
  · have start := fatInit_flat format mounted
    have clean : ∀ x, s.isDirty x = false := fun x => by
      simp [start, State.isDirty, List.getD_eq_getElem?_getD, List.getElem?_replicate]
      split <;> rfl
    refine ⟨⟨by rw [start, List.length_replicate], fun pass few i inside _ => ?_,
      fun is => absurd is format, by rw [start]; simp, fun some_ => ?_⟩, fun _ => clean⟩
    · rw [inCore_flat format, start]
      have base : b.fatbase = 1 := by
        rw [Boot.fatbase]
        split
        · rfl
        · rfl
        · next is => exact absurd is format
      have same := second pass few i inside
      rw [base, Nat.one_mul] at same
      exact same
    · rw [start] at some_
      exact absurd some_ Bool.false_ne_true

theorem sound_run {start : State} (laid : Laid b disk) (mounted : fatInit b disk = .ok start)
    (run : Transition.Reaches (Step b) (Fits b) start s) : Sound b disk s :=
  run.invariant (fatInit_sound laid mounted) fun _ _ _ sound fits taken =>
    (exec_spec laid.geometry sound fits).of_eq_ok (toOption_eq_some.mp taken)

/-- The entries of a FAT are those of another with the same bytes. -/
theorem entry_congr {format : Format} {fat fat' : ℕ → UChar} {idx len : ℕ}
    (inside : format.slot idx + format.width ≤ len) (same : ∀ i < len, fat i = fat' i) :
    format.entry fat idx = format.entry fat' idx := by
  cases format with
  | fat12 =>
      rw [Format.slot, Format.width] at inside
      simp only [Format.entry, entry12]
      rw [same _ (by omega), same _ (by omega)]
  | fat16 =>
      simp only [Format.slot, Format.width] at inside
      simp only [Format.entry, Format.slot, half]
      rw [same _ (by omega), same _ (by omega)]
  | fat32 =>
      simp only [Format.slot, Format.width] at inside
      simp only [Format.entry, Format.slot, word]
      rw [same _ (by omega), same _ (by omega), same _ (by omega), same _ (by omega)]

/-- **In every run that meets the condition, on a disk that is laid out as it is meant to be, no
request indexes the dirty map beyond its end, only the server's sectors are written, and after a
sync the entries of both copies on the disk are those of the FAT in memory.** -/
theorem fat_write_back {start : State} (laid : Laid b disk)
    (mounted : fatInit b disk = .ok start)
    (run : Transition.Reaches (Step b) (Fits b) start s) :
    (∀ label, Fits b s label → exec b s label ≠ .error .overrun) ∧
    cells s.written ⊆ ours b disk ∧
    ∀ heap t, exec b s ⟨heap, .sync⟩ = .ok t → ∀ pass < 2, ∀ idx,
      b.format.slot idx + b.format.width ≤ b.fatSectors * SECSZ →
      b.format.entry (fun i => t.disk
        (b.nrsvsect.toNat * SECSZ + pass * (b.fatSectors * SECSZ) + i)) idx =
        b.format.entry (inCore b t) idx := by
  have geometry := laid.geometry
  have sound := sound_run laid mounted run
  refine ⟨fun label fits failed => ?_, sound.coherent.written,
    fun heap t done pass few idx inside => ?_⟩
  · exact (exec_spec geometry sound fits).of_eq_error failed rfl
  · have before : Sound b disk (s.behind b heap) := ⟨sound.coherent.behind heap, sound.clean⟩
    have synced := (fatSync_spec geometry before.coherent before.clean).of_eq_ok done
    refine entry_congr inside fun i here => ?_
    rw [← geometry.bytes] at here ⊢
    rw [← geometry.base]
    exact synced.1.coherent.agree pass few i here (synced.1.clean _)

/-! ## Two runs -/

/-- A FAT32 of 100 clusters. -/
def hundred (infoSector : UShort) : Boot := ⟨512, 1, 2, 2, 0, 0, 0, 104, 1, 2, infoSector⟩

/-- The FATs are in sectors 2 and 3, and three entries are in use. -/
def formatted (a : ℕ) : UChar :=
  if (a / 512 = 2 ∨ a / 512 = 3) ∧ a % 512 < 12 then if a % 4 = 3 then 0x0F else 0xFF else 0

def nothing (_ : ℕ) : UChar := 0

/-- A new file gets its first cluster. -/
def firstCluster : Label := ⟨nothing, .setlen 0 512 true⟩

/-- `Fits` on the requests of the runs below. -/
def fitting (infoSector : UShort) (s : State) (label : Label) : Bool :=
  match label.action with
  | .setlen h newlen _ =>
      edge (s.clusts h) (clusters (hundred infoSector) newlen) = none
  | _ => true

theorem fits_of_fitting {infoSector : UShort} (s : State) (label : Label)
    (good : fitting infoSector s label = true) : Fits (hundred infoSector) s label := by
  rw [Fits]
  rw [fitting] at good
  split
  · next action =>
      simp only [action, decide_eq_true_eq] at good
      rw [good]
      exact fun cl last => nomatch last
  · trivial

theorem hundred_laid : Laid (hundred 0xFFFF) formatted := by
  refine ⟨by decide, fun i inside => ?_, by decide, by decide, .inl rfl⟩
  have inside : i < 512 := inside
  have first : (hundred 0xFFFF).nrsvsect.toNat * SECSZ + i = 1024 + i := rfl
  have second : (hundred 0xFFFF).nrsvsect.toNat * SECSZ + (hundred 0xFFFF).fatSectors * SECSZ + i =
      1536 + i := rfl
  have sector : (1024 + i) / 512 = 2 := by omega
  have sector' : (1536 + i) / 512 = 3 := by omega
  have place : (1536 + i) % 512 = (1024 + i) % 512 := by omega
  have byte : (1536 + i) % 4 = (1024 + i) % 4 := by omega
  rw [first, second, formatted, formatted, sector, sector', place, byte]
  simp

/-- What a run of the server on `formatted` leaves. -/
def mounted (infoSector : UShort) (labels : List Label) : Option State :=
  (fatInit (hundred infoSector) formatted).toOption.bind fun start =>
    Transition.follow (step (hundred infoSector)) (fitting infoSector) start labels

theorem mounted_run {infoSector : UShort} {labels : List Label}
    (followed : mounted infoSector labels = some s) :
    ∃ start, fatInit (hundred infoSector) formatted = .ok start ∧
      Transition.Reaches (Step (hundred infoSector)) (Fits (hundred infoSector)) start s := by
  obtain ⟨start, begins, followed⟩ := Option.bind_eq_some_iff.mp followed
  exact ⟨start, toOption_eq_some.mp begins,
    (Transition.Reaches.refl start).follow fits_of_fitting followed⟩

theorem mounted_firstCluster :
    ((mounted 0xFFFF [firstCluster]).bind fun s =>
      (step (hundred 0xFFFF) s ⟨nothing, .sync⟩).map fun t =>
        (hundred 0xFFFF).format.entry (inCore (hundred 0xFFFF) t) 3) = some 0xFFFFFF8 := by
  decide

theorem fat_write_back_hundred : ∃ s t : State,
    exec (hundred 0xFFFF) s ⟨nothing, .sync⟩ = .ok t ∧ ∀ pass < 2,
      Format.fat32.entry (fun i => t.disk (1024 + pass * 512 + i)) 3 = 0xFFFFFF8 := by
  obtain ⟨s, followed, eq⟩ := Option.bind_eq_some_iff.mp mounted_firstCluster
  obtain ⟨t, taken, eq⟩ := Option.map_eq_some_iff.mp eq
  obtain ⟨start, begins, run⟩ := mounted_run followed
  have done := toOption_eq_some.mp taken
  refine ⟨s, t, done, fun pass few => ?_⟩
  have same := (fat_write_back hundred_laid begins run).2.2 nothing t done pass few 3 (by decide)
  exact same.trans eq

/-- **A sync writes the info sector over the boot sector.** -/
theorem boot_overwritten : ∃ start s t : State,
    fatInit (hundred 1) formatted = .ok start ∧
    Transition.Reaches (Step (hundred 1)) (Fits (hundred 1)) start s ∧
    exec (hundred 1) s ⟨nothing, .sync⟩ = .ok t ∧
    0 ∈ cells t.written ∧ 0 ∉ ours (hundred 1) formatted := by
  have overwrites : ((mounted 1 [firstCluster]).bind fun s =>
      (step (hundred 1) s ⟨nothing, .sync⟩).map fun t => t.written.head?) =
      some (some ⟨0, 1⟩) := by decide
  obtain ⟨s, followed, eq⟩ := Option.bind_eq_some_iff.mp overwrites
  obtain ⟨t, taken, eq⟩ := Option.map_eq_some_iff.mp eq
  obtain ⟨start, begins, run⟩ := mounted_run followed
  refine ⟨start, s, t, begins, run, toOption_eq_some.mp taken,
    ⟨⟨0, 1⟩, List.mem_of_mem_head? eq, by decide, by decide⟩, ?_⟩
  rintro (inside | ⟨-, -, -, other⟩)
  · exact absurd inside.1 (by decide)
  · exact absurd other (by decide)

end Vsta.Dos
