import Vsta.Vstafs.BlockMap

/-!
# Where `bmap` finds a byte

`bmap` lets the file grow up to a position, walks the extents to it, and hands out what the buffer
there has of the bytes wanted. `file_grow` takes what is free behind the last extent and, when that
is not enough, one extent of `EXTSIZ` sectors more; it does not look whether that is enough, so
`bmap` may walk off the extents. The sums of positions, counts and sectors are words.

`mapsRight_iff` says for which files, positions, counts and answers of the free list the piece that
is handed out is the right one and the extents fit the length again.
-/

set_option autoImplicit false

namespace Vsta.Vstafs.Bytes

/-- The extents of a file have as many sectors as its length. -/
def Extents (fs : FsFile) : Prop := (fs.fsBlks.map Alloc.aLen).sum = btors fs.fsLen

instance (fs : FsFile) : Decidable (Extents fs) := inferInstanceAs (Decidable (_ = _))

/-- The bytes lie in one buffer of one extent. -/
def InBuffer (fs : FsFile) (addr step : ℕ) : Prop :=
  ∃ a ∈ fs.fsBlks, ∃ extstart, EXTSIZ ∣ extstart ∧ (a.aStart + extstart) * SECSZ ≤ addr ∧
    addr + step ≤ (a.aStart + extstart + min (a.aLen - extstart) EXTSIZ) * SECSZ

/-- What is wanted of `bmap`: no assertion fails, the extents fit the length again, and a piece that
is handed out is one of the file, at the position, and not empty. -/
def MapsRight (x : BmapOutcome) (disk : Disk) (fs : FsFile) (pos cnt : ℕ) : Prop :=
  ∃ disk' fs' mapped, bmap x disk fs pos cnt = some (disk', fs', mapped) ∧ Extents fs' ∧
    ∀ addr step, mapped = some (addr, step) →
      0 < step ∧ step ≤ cnt ∧ Maps fs' pos addr step ∧ InBuffer fs' addr step

/-- A file of so many sectors has the position, and bytes of it are wanted if it has the buffer. -/
def Reaches (x : BmapOutcome) (pos cnt size : ℕ) : Prop :=
  size < 2 ^ 23 ∧ btos pos < size ∧ (x.found = true → 0 < cnt)

/-- The growth fails, or gets sectors up to the position: from behind the last extent if those are
enough, or one extent more. -/
def Growing (x : BmapOutcome) (disk : Disk) (fs : FsFile) (pos cnt newsize : ℕ) : Prop :=
  ∃ a, fs.fsBlks.getLast? = some a ∧
    let taken := takeBlock x.take disk (a.aStart + a.aLen)
      (max (newsize - btors fs.fsLen) EXTSIZ)
    let size := btors fs.fsLen + taken.2
    if 0 < taken.2 ∧ !x.resized then True
    else if newsize ≤ size then Reaches x pos cnt size
    else if MAXEXT ≤ fs.fsBlks.length ∨ (allocBlock x.start taken.1 EXTSIZ).2 = 0 then size < 2 ^ 23
    else Reaches x pos cnt (size + EXTSIZ)

/-- The position is in the file, or in its last sector when the length is moved, or the growth gets
there. -/
def Fitting (x : BmapOutcome) (disk : Disk) (fs : FsFile) (pos cnt : ℕ) : Prop :=
  if pos < fs.fsLen then Reaches x pos cnt (btors fs.fsLen)
  else if btors (word (pos + cnt)) ≤ btors fs.fsLen then
    btors (word (pos + cnt)) = btors fs.fsLen ∧ Reaches x pos cnt (btors fs.fsLen)
  else Growing x disk fs pos cnt (btors (word (pos + cnt)))

/-! ## The piece -/

section Piece

variable {x : BmapOutcome} {disk disk' : Disk} {fs fs' : FsFile} {pos cnt : ℕ}

theorem length_sectors (blks : List Alloc) :
    (sectors blks).length = (blks.map Alloc.aLen).sum := by
  rw [sectors, List.length_flatMap]
  simp

theorem btors_lt (n : ℕ) : btors n < 2 ^ 23 := by
  simp only [btors, word, SECSZ]
  omega

theorem btors_stob (n : ℕ) : btors (stob n) = n ↔ n < 2 ^ 23 := by
  simp only [btors, stob, word, SECSZ]
  omega

/-- The extent that is found, and none when the position is behind them all. -/
theorem extentOf_none {blks : List Alloc} {n : ℕ} :
    extentOf blks n = none ↔ (blks.map Alloc.aLen).sum ≤ n := by
  rw [← length_sectors]
  constructor
  · intro nothing
    by_contra inside
    obtain ⟨a, extoff, found⟩ := extentOf_some (Nat.not_le.mp inside)
    rw [nothing] at found
    cases found
  · intro outside
    cases found : extentOf blks n with
    | none => rfl
    | some piece =>
        obtain ⟨inside, follow⟩ := @extentOf_sectors _ _ piece.2 piece.1 found
        have here := (List.getElem?_eq_some_iff.mp (follow 0 inside)).1
        omega

theorem extentOf_mem {blks : List Alloc} {n extoff : ℕ} {a : Alloc}
    (found : extentOf blks n = some (a, extoff)) : a ∈ blks := by
  induction blks generalizing n with
  | nil => cases found
  | cons b rest ih =>
      rw [extentOf] at found
      split_ifs at found
      · obtain ⟨rfl, -⟩ := Prod.mk.inj (Option.some.inj found)
        exact List.mem_cons_self
      · exact List.mem_cons_of_mem _ (ih found)

/-- What `bmap` hands out is in the buffer that it found. -/
theorem blkp_inBuffer {a : Alloc} {extoff : ℕ} (member : a ∈ fs.fsBlks) (inside : extoff < a.aLen) :
    InBuffer fs (blkp a extoff pos cnt).1 (blkp a extoff pos cnt).2 := by
  refine ⟨a, member, extoff / EXTSIZ * EXTSIZ, Dvd.intro_left _ rfl, ?_, ?_⟩
  · simp only [blkp, SECSZ]
    omega
  · simp only [blkp]
    have short : stob (min (a.aLen - extoff / EXTSIZ * EXTSIZ) EXTSIZ - extoff % EXTSIZ) =
        (min (a.aLen - extoff / EXTSIZ * EXTSIZ) EXTSIZ - extoff % EXTSIZ) * SECSZ :=
      stob_of_lt (by
        simp only [SECSZ, EXTSIZ] at *
        omega)
    rw [short]
    simp only [SECSZ, EXTSIZ] at *
    omega

/-- After the growth the position is looked up. -/
theorem mapsRight_grown (grow : bmapGrow x disk fs pos cnt = some (disk', fs', true)) :
    MapsRight x disk fs pos cnt ↔
      Extents fs' ∧ btos pos < (fs'.fsBlks.map Alloc.aLen).sum ∧ (x.found = true → 0 < cnt) := by
  rw [MapsRight, bmap, grow]
  dsimp only
  cases found : extentOf fs'.fsBlks (btos pos) with
  | none =>
      have outside := extentOf_none.mp found
      exact ⟨fun ⟨_, _, _, none_, _⟩ => absurd none_ nofun, fun all => by omega⟩
  | some piece =>
      obtain ⟨a, extoff⟩ := piece
      have inside : btos pos < (fs'.fsBlks.map Alloc.aLen).sum := by
        rw [← Nat.not_le, ← extentOf_none, found]
        exact nofun
      dsimp only
      by_cases buffer : x.found = true
      · rw [if_neg (by simp [buffer])]
        constructor
        · rintro ⟨_, _, _, is, extents, right⟩
          cases is
          obtain ⟨some_, few, -⟩ := right _ _ rfl
          exact ⟨extents, inside, fun _ => some_.trans_le few⟩
        · rintro ⟨extents, -, some_⟩
          refine ⟨_, _, _, rfl, extents, fun addr step here => ?_⟩
          obtain ⟨positive, few, maps⟩ := blkp_maps (some_ buffer) found
          have within := @blkp_inBuffer fs' pos cnt _ _ (extentOf_mem found)
            (extentOf_sectors found).1
          rw [Option.some.inj here] at positive few maps within
          exact ⟨positive, few, maps, within⟩
      · rw [if_pos (by simp [buffer])]
        constructor
        · rintro ⟨_, _, _, is, extents, -⟩
          cases is
          exact ⟨extents, inside, fun found => absurd found buffer⟩
        · rintro ⟨extents, -, -⟩
          exact ⟨_, _, _, rfl, extents, nofun⟩

/-- When the growth fails nothing is handed out. -/
theorem mapsRight_failed (grow : bmapGrow x disk fs pos cnt = some (disk', fs', false)) :
    MapsRight x disk fs pos cnt ↔ Extents fs' := by
  rw [MapsRight, bmap, grow]
  dsimp only
  constructor
  · rintro ⟨_, _, _, is, extents, -⟩
    cases is
    exact extents
  · intro extents
    exact ⟨_, _, _, rfl, extents, nofun⟩

theorem mapsRight_none (grow : bmapGrow x disk fs pos cnt = none) :
    ¬MapsRight x disk fs pos cnt := by
  rw [MapsRight, bmap, grow]
  exact fun ⟨_, _, _, none_, _⟩ => absurd none_ nofun

end Piece

/-! ## The growth -/

section Growth

variable {x : BmapOutcome} {disk disk' : Disk} {fs fs' : FsFile} {pos cnt newsize got : ℕ}
  {a : Alloc}

/-- The header when sectors were taken behind its last extent. -/
def FsFile.withTaken (fs : FsFile) (a : Alloc) (got : ℕ) : FsFile :=
  if 0 < got then fs.extend a got else fs

theorem withTaken_sum (last : fs.fsBlks.getLast? = some a) :
    ((fs.withTaken a got).fsBlks.map Alloc.aLen).sum = (fs.fsBlks.map Alloc.aLen).sum + got := by
  obtain ⟨front, blks⟩ : ∃ front, fs.fsBlks = front ++ [a] :=
    ⟨_, (List.dropLast_append_getLast? a last).symm⟩
  rw [FsFile.withTaken]
  split_ifs with more
  · simp only [FsFile.extend, blks, List.dropLast_concat, List.map_append, List.map_cons,
      List.map_nil, List.sum_append, List.sum_cons, List.sum_nil]
    omega
  · omega

theorem withTaken_length (last : fs.fsBlks.getLast? = some a) :
    (fs.withTaken a got).fsBlks.length = fs.fsBlks.length := by
  obtain ⟨front, blks⟩ : ∃ front, fs.fsBlks = front ++ [a] :=
    ⟨_, (List.dropLast_append_getLast? a last).symm⟩
  rw [FsFile.withTaken]
  split_ifs with more
  · simp [FsFile.extend, blks]
  · rfl

/-- The extents fit the length again unless it is too much for a word. -/
theorem withTaken_extents (extents : Extents fs) (last : fs.fsBlks.getLast? = some a) :
    Extents (fs.withTaken a got) ↔ btors fs.fsLen + got < 2 ^ 23 := by
  rw [Extents, withTaken_sum last, extents]
  by_cases more : 0 < got
  · rw [FsFile.withTaken, if_pos more, FsFile.extend, eq_comm]
    exact btors_stob _
  · obtain rfl : got = 0 := by omega
    rw [FsFile.withTaken, if_neg more]
    exact iff_of_true rfl (btors_lt _)

variable (x disk fs) in
/-- What `file_grow` comes to, with the answers of the free list by name. -/
theorem fileGrow_eq (last : fs.fsBlks.getLast? = some a) (more : btors fs.fsLen < newsize) :
    let taken := takeBlock x.take disk (a.aStart + a.aLen) (max (newsize - btors fs.fsLen) EXTSIZ)
    let fs₁ := fs.withTaken a taken.2
    let block := allocBlock x.start taken.1 EXTSIZ
    fileGrow x disk fs newsize =
      if 0 < taken.2 ∧ !x.resized then
        some (freeBlock taken.1 (a.aStart + a.aLen) taken.2, fs, false)
      else if newsize ≤ btors fs.fsLen + taken.2 then some (taken.1, fs₁, true)
      else if MAXEXT ≤ fs.fsBlks.length then some (taken.1, fs₁, false)
      else if block.2 = 0 then some (block.1, fs₁, false)
      else some (block.1, ⟨stob (btors fs.fsLen + taken.2 + EXTSIZ),
        fs₁.fsBlks ++ [⟨block.2, EXTSIZ⟩]⟩, true) := by
  intro taken fs₁ block
  have count : fs₁.fsBlks.length = fs.fsBlks.length := withTaken_length last
  rw [fileGrow, last, ← count]
  dsimp only
  rw [if_neg (Nat.not_le.mpr more)]
  rfl

/-- The growth of a file whose extents fit is right when it fails or gets to the position, and only
then. -/
theorem growing_iff (extents : Extents fs) (beyond : fs.fsLen ≤ pos)
    (more : btors fs.fsLen < btors (word (pos + cnt))) :
    MapsRight x disk fs pos cnt ↔ Growing x disk fs pos cnt (btors (word (pos + cnt))) := by
  have grows : bmapGrow x disk fs pos cnt = fileGrow x disk fs (btors (word (pos + cnt))) := by
    rw [bmapGrow, if_pos beyond]
    exact if_pos more
  rw [Growing]
  cases last : fs.fsBlks.getLast? with
  | none =>
      refine iff_of_false (mapsRight_none ?_) (by simp)
      rw [grows, fileGrow, last]
  | some a =>
      have grow := fileGrow_eq x disk fs last more
      have sum := @withTaken_sum fs (takeBlock x.take disk (a.aStart + a.aLen)
        (max (btors (word (pos + cnt)) - btors fs.fsLen) EXTSIZ)).2 a last
      have fits := @withTaken_extents fs (takeBlock x.take disk (a.aStart + a.aLen)
        (max (btors (word (pos + cnt)) - btors fs.fsLen) EXTSIZ)).2 a extents last
      dsimp only at grow
      simp only [Option.some.injEq, exists_eq_left']
      generalize takeBlock x.take disk (a.aStart + a.aLen)
        (max (btors (word (pos + cnt)) - btors fs.fsLen) EXTSIZ) = taken at grow sum fits ⊢
      rw [extents] at sum
      by_cases failed : 0 < taken.2 ∧ (!x.resized) = true
      · rw [if_pos failed] at grow ⊢
        exact iff_of_true ((mapsRight_failed (grows.trans grow)).mpr extents) trivial
      rw [if_neg failed] at grow ⊢
      by_cases enough : btors (word (pos + cnt)) ≤ btors fs.fsLen + taken.2
      · rw [if_pos enough] at grow ⊢
        rw [mapsRight_grown (grows.trans grow), fits, sum, Reaches]
      rw [if_neg enough] at grow ⊢
      by_cases noSlot : MAXEXT ≤ fs.fsBlks.length
      · rw [if_pos noSlot] at grow
        rw [if_pos (.inl noSlot), mapsRight_failed (grows.trans grow), fits]
      rw [if_neg noSlot] at grow
      by_cases noBlock : (allocBlock x.start taken.1 EXTSIZ).2 = 0
      · rw [if_pos noBlock] at grow
        rw [if_pos (.inr noBlock), mapsRight_failed (grows.trans grow), fits]
      rw [if_neg noBlock] at grow
      rw [if_neg (not_or.mpr ⟨noSlot, noBlock⟩), mapsRight_grown (grows.trans grow), Reaches,
        Extents]
      simp only [List.map_append, List.sum_append, sum, List.map_cons, List.map_nil, List.sum_cons,
        List.sum_nil, Nat.add_zero]
      rw [eq_comm, btors_stob]

end Growth

/-! ## The whole of `bmap` -/

/-- **Where `bmap` finds a byte.** For a file whose extents fit its length, the piece is the right
one and the extents fit again exactly when the position is in the file, or in its last sector, or
the growth gets there. -/
theorem mapsRight_iff (x : BmapOutcome) (disk : Disk) (fs : FsFile) (pos cnt : ℕ)
    (extents : Extents fs) : MapsRight x disk fs pos cnt ↔ Fitting x disk fs pos cnt := by
  rw [Fitting]
  by_cases below : pos < fs.fsLen
  · have same : bmapGrow x disk fs pos cnt = some (disk, fs, true) := by
      rw [bmapGrow, if_neg (Nat.not_le.mpr below)]
    rw [if_pos below, mapsRight_grown same, Reaches, extents]
    exact ⟨fun all => ⟨btors_lt _, all.2⟩, fun all => ⟨extents, all.2⟩⟩
  rw [if_neg below]
  by_cases few : btors (word (pos + cnt)) ≤ btors fs.fsLen
  · have moved : bmapGrow x disk fs pos cnt =
        some (disk, { fs with fsLen := word (pos + cnt) }, true) := by
      rw [bmapGrow, if_pos (Nat.not_lt.mp below)]
      exact if_neg (Nat.not_lt.mpr few)
    rw [if_pos few, mapsRight_grown moved, Reaches, Extents, extents]
    exact ⟨fun all => ⟨all.1.symm, btors_lt _, all.2⟩, fun all => ⟨all.1.symm, all.2.2⟩⟩
  · rw [if_neg few]
    exact growing_iff extents (Nat.not_lt.mp below) (Nat.not_le.mp few)

/-- A position in a file of two sectors. -/
theorem mapsRight_inside :
    MapsRight ⟨0, true, 0, true⟩ ⟨0, 0, fun _ => 0⟩ ⟨1024, [⟨10, 2⟩]⟩ 700 100 :=
  (mapsRight_iff _ _ ⟨1024, [⟨10, 2⟩]⟩ 700 100 (by decide)).mpr (by
    rw [Fitting, if_pos (by decide)]
    exact ⟨by decide, by decide, fun _ => by decide⟩)

/-- A position 200 sectors behind a file of one sector, with an extent free somewhere else: the
file gets the extent, `file_grow` says that it grew, and the walk goes off the extents. -/
theorem far_behind :
    ¬MapsRight ⟨0, true, 1000, true⟩ ⟨(⟨1000, EXTSIZ⟩ : Alloc).run, 0, fun _ => 0⟩
      ⟨512, [⟨10, 1⟩]⟩ 102912 1 := by
  have wanted : btors (word (102912 + 1)) = 202 := by decide
  have size : btors 512 = 1 := by decide
  have none_ : ∀ (disk : Disk) (d n : ℕ), takeBlock 0 disk d n = (disk, 0) := by
    intro disk d n
    simp [takeBlock, unfree, Alloc.run]
  have block : (allocBlock 1000 ⟨(⟨1000, EXTSIZ⟩ : Alloc).run, 0, fun _ => 0⟩ EXTSIZ).2 = 1000 := by
    rw [allocBlock, if_pos ⟨Nat.succ_ne_zero _, le_refl _⟩]
  rw [growing_iff (by decide) (by decide) (by decide), Growing]
  simp only [List.getLast?_singleton, Option.some.injEq, exists_eq_left', none_, block, wanted,
    size, Reaches]
  decide

end Vsta.Vstafs.Bytes
