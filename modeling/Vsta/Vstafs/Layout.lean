import Vsta.Vstafs.Requests
import Mathlib.Algebra.Order.Group.Multiset

/-!
# How the bytes of a vstafs file lie on the disk

The header of a file lists extents of sectors; the bytes of the file, header included, lie in
these sectors one after the other. This module has what changes that list: `file_grow` and
`bmap` of `rw.c`, `partial_trunc` and `file_shrink` of `open.c`. A length is a word of 32 bits;
where the code adds to one or multiplies one, `word` cuts the result.

A sector is on the free list, in the file, or held by something else. Which sectors the free list
gives is an outcome, and an answer that names sectors that are not free stands for none. The
buffers are taken for the disk they show. A function without a result is one whose assertion fails.
-/

set_option autoImplicit false

namespace Vsta.Vstafs.Bytes

abbrev SECSZ : ℕ := 512
abbrev EXTSIZ : ℕ := 128
abbrev MAXEXT : ℕ := 32

/-- `sizeof(struct fs_file)`, also `OFF_DATA`. -/
abbrev OFF_DATA : ℕ := 320

/-- What a word of 32 bits keeps of a number. -/
def word (n : ℕ) : ℕ := n % 2 ^ 32

def btos (x : ℕ) : ℕ := x / SECSZ
def btors (x : ℕ) : ℕ := word (x + (SECSZ - 1)) / SECSZ
def stob (x : ℕ) : ℕ := word (x * SECSZ)

/-- `struct alloc`. -/
structure Alloc where
  aStart : ℕ
  aLen : ℕ
  deriving DecidableEq, Repr

/-- What `struct fs_file` says about the bytes of a plain file: `fsBlks` are the `fs_nblk` extents
in use. -/
structure FsFile where
  fsLen : ℕ
  fsBlks : List Alloc
  deriving DecidableEq, Repr

/-- The sectors of an extent. -/
def Alloc.run (a : Alloc) : List ℕ := List.range' a.aStart a.aLen

/-- The sectors of a file, in the order of its bytes. -/
def sectors (blks : List Alloc) : List ℕ := blks.flatMap Alloc.run

/-- The disk: the sectors on the free list, those something else holds, and the bytes, `SECSZ` a
sector. -/
structure Disk where
  free : Multiset ℕ
  held : Multiset ℕ
  data : ℕ → UChar

/-! ## The free list -/

/-- `free_block`. -/
def freeBlock (disk : Disk) (d nblk : ℕ) : Disk :=
  { disk with free := disk.free + (⟨d, nblk⟩ : Alloc).run }

/-- Sectors come off the free list. -/
def unfree (disk : Disk) (a : Alloc) : Disk := { disk with free := disk.free - a.run }

/-- `take_block`: at most `nsec` sectors from `d` on, none when they are not free. -/
def takeBlock (answer : ℕ) (disk : Disk) (d nsec : ℕ) : Disk × ℕ :=
  let got := min answer nsec
  if (↑(⟨d, got⟩ : Alloc).run : Multiset ℕ) ≤ disk.free then (unfree disk ⟨d, got⟩, got)
  else (disk, 0)

/-- `alloc_block`: the first of `nsec` sectors that were free, or 0. -/
def allocBlock (answer : ℕ) (disk : Disk) (nsec : ℕ) : Disk × ℕ :=
  if answer ≠ 0 ∧ (↑(⟨answer, nsec⟩ : Alloc).run : Multiset ℕ) ≤ disk.free then
    (unfree disk ⟨answer, nsec⟩, answer)
  else (disk, 0)

/-! ## Growing a file -/

/-- What `bmap` and `file_grow` find: the answers of `take_block`, `resize_buf` and
`alloc_block`, and whether `find_buf` and `index_buf` have the buffer. -/
structure BmapOutcome where
  take : ℕ
  resized : Bool
  start : ℕ
  found : Bool
  deriving DecidableEq, Repr

/-- The last extent of the header grows by `got` sectors and the length with it. -/
def FsFile.extend (fs : FsFile) (a : Alloc) (got : ℕ) : FsFile :=
  { fs with
    fsLen := stob (btors fs.fsLen + got)
    fsBlks := fs.fsBlks.dropLast ++ [⟨a.aStart, a.aLen + got⟩] }

/-- `file_grow`: whether the file grew. The length follows also where it did not grow enough. -/
def fileGrow (x : BmapOutcome) (disk : Disk) (fs : FsFile) (newsize : ℕ) :
    Option (Disk × FsFile × Bool) :=
  match fs.fsBlks.getLast? with
  | none => none
  | some a =>
      let from_ := btors fs.fsLen
      if newsize ≤ from_ then none
      else
        let incr := max (newsize - from_) EXTSIZ
        let newstart := a.aStart + a.aLen
        let (disk, got) := takeBlock x.take disk newstart incr
        if 0 < got ∧ !x.resized then some (freeBlock disk newstart got, fs, false)
        else
          let fs := if 0 < got then fs.extend a got else fs
          let from_ := from_ + got
          if newsize ≤ from_ then some (disk, fs, true)
          else if MAXEXT ≤ fs.fsBlks.length then some (disk, fs, false)
          else
            let (disk, start) := allocBlock x.start disk EXTSIZ
            if start = 0 then some (disk, fs, false)
            else
              let blks := fs.fsBlks ++ [⟨start, EXTSIZ⟩]
              some (disk, { fs with fsLen := stob (from_ + EXTSIZ), fsBlks := blks }, true)

/-- The growth at the head of `bmap`: a position beyond the length gets sectors, or, in the last
sector, only the length moves. -/
def bmapGrow (x : BmapOutcome) (disk : Disk) (fs : FsFile) (pos cnt : ℕ) :
    Option (Disk × FsFile × Bool) :=
  if fs.fsLen ≤ pos then
    let osize := btors fs.fsLen
    let nsize := btors (word (pos + cnt))
    if osize < nsize then fileGrow x disk fs nsize
    else some (disk, { fs with fsLen := word (pos + cnt) }, true)
  else some (disk, fs, true)

/-- The extent that holds a sector of the file, and how far into it the sector is. -/
def extentOf : List Alloc → ℕ → Option (Alloc × ℕ)
  | [], _ => none
  | a :: rest, n => if n < a.aLen then some (a, n) else extentOf rest (n - a.aLen)

/-- The address of a position in the buffer of its extent, and how many of `cnt` bytes are there. -/
def blkp (a : Alloc) (extoff pos cnt : ℕ) : ℕ × ℕ :=
  let extstart := extoff / EXTSIZ * EXTSIZ
  let start := a.aStart + extstart
  let len := min (a.aLen - extstart) EXTSIZ - extoff % EXTSIZ
  ((start + extoff % EXTSIZ) * SECSZ + pos % SECSZ, min (stob len - pos % SECSZ) cnt)

/-- `bmap`: where the bytes at `pos` are, or nothing on an error. -/
def bmap (x : BmapOutcome) (disk : Disk) (fs : FsFile) (pos cnt : ℕ) :
    Option (Disk × FsFile × Option (ℕ × ℕ)) :=
  match bmapGrow x disk fs pos cnt with
  | none => none
  | some (disk, fs, false) => some (disk, fs, none)
  | some (disk, fs, true) =>
      match extentOf fs.fsBlks (btos pos) with
      | none => none
      | some (a, extoff) =>
          if !x.found then some (disk, fs, none)
          else some (disk, fs, some (blkp a extoff pos cnt))

/-! ## The list of sectors -/

@[simp] theorem sectors_nil : sectors [] = [] := rfl

@[simp] theorem sectors_cons (a : Alloc) (rest : List Alloc) :
    sectors (a :: rest) = a.run ++ sectors rest := rfl

@[simp] theorem sectors_append (blks more : List Alloc) :
    sectors (blks ++ more) = sectors blks ++ sectors more := by
  simp [sectors]

@[simp] theorem length_run (a : Alloc) : a.run.length = a.aLen := by
  simp [Alloc.run]

/-- An extent that is taken in two pieces. -/
theorem run_split (start len more : ℕ) :
    (⟨start, len + more⟩ : Alloc).run =
      (⟨start, len⟩ : Alloc).run ++ (⟨start + len, more⟩ : Alloc).run := by
  simp [Alloc.run]

/-- The extent that `bmap` finds holds the sector, and the sectors behind it in the extent follow
in the file. -/
theorem extentOf_sectors {blks : List Alloc} {n extoff : ℕ} {a : Alloc}
    (found : extentOf blks n = some (a, extoff)) :
    extoff < a.aLen ∧
      ∀ j, extoff + j < a.aLen → (sectors blks)[n + j]? = some (a.aStart + extoff + j) := by
  induction blks generalizing n with
  | nil => cases found
  | cons b rest ih =>
      rw [extentOf] at found
      by_cases here : n < b.aLen
      · rw [if_pos here, Option.some.injEq, Prod.mk.injEq] at found
        obtain ⟨rfl, rfl⟩ := found
        refine ⟨here, fun j inside => ?_⟩
        rw [sectors_cons, List.getElem?_append_left (by simpa using inside), Alloc.run,
          List.getElem?_range' inside]
        simp [Nat.add_assoc]
      · rw [if_neg here] at found
        obtain ⟨inside, follow⟩ := ih found
        refine ⟨inside, fun j within => ?_⟩
        have behind := follow j within
        rw [sectors_cons, List.getElem?_append_right (by simp; omega), length_run]
        rwa [show n + j - b.aLen = n - b.aLen + j by omega]

/-! ## What growing keeps -/

/-- All sectors: those of the file, the free ones and those held by something else. -/
def total (disk : Disk) (fs : FsFile) : Multiset ℕ :=
  (sectors fs.fsBlks : Multiset ℕ) + disk.free + disk.held

/-- The header fits its extents: they hold the sectors of its length, the header included. -/
structure Laid (fs : FsFile) : Prop where
  nonempty : fs.fsBlks ≠ []
  sectors_length : (sectors fs.fsBlks).length = btors fs.fsLen
  header : OFF_DATA ≤ fs.fsLen
  small : fs.fsLen + (SECSZ - 1) < 2 ^ 32

/-- Sectors are only put behind those of the file, and none of the others is lost. -/
structure Longer (disk : Disk) (fs : FsFile) (disk' : Disk) (fs' : FsFile) : Prop where
  sectors_prefix : sectors fs.fsBlks <+: sectors fs'.fsBlks
  total_eq : total disk' fs' = total disk fs
  longer : fs.fsLen ≤ fs'.fsLen

/-- The file got longer and no byte changed. -/
structure Extends (disk : Disk) (fs : FsFile) (disk' : Disk) (fs' : FsFile) : Prop
    extends Longer disk fs disk' fs' where
  data_eq : disk'.data = disk.data

theorem Longer.refl (disk : Disk) (fs : FsFile) : Longer disk fs disk fs :=
  ⟨List.prefix_rfl, rfl, le_rfl⟩

theorem Longer.trans {disk disk' disk'' : Disk} {fs fs' fs'' : FsFile}
    (one : Longer disk fs disk' fs') (two : Longer disk' fs' disk'' fs'') :
    Longer disk fs disk'' fs'' :=
  ⟨one.sectors_prefix.trans two.sectors_prefix, two.total_eq.trans one.total_eq,
    one.longer.trans two.longer⟩

theorem Extends.refl (disk : Disk) (fs : FsFile) : Extends disk fs disk fs :=
  ⟨.refl disk fs, rfl⟩

theorem Extends.trans {disk disk' disk'' : Disk} {fs fs' fs'' : FsFile}
    (one : Extends disk fs disk' fs') (two : Extends disk' fs' disk'' fs'') :
    Extends disk fs disk'' fs'' :=
  ⟨one.toLonger.trans two.toLonger, two.data_eq.trans one.data_eq⟩

theorem Laid.btors_eq {fs : FsFile} (laid : Laid fs) :
    btors fs.fsLen = (fs.fsLen + (SECSZ - 1)) / SECSZ := by
  rw [btors, word, Nat.mod_eq_of_lt laid.small]

theorem stob_of_lt {n : ℕ} (small : n * SECSZ < 2 ^ 32) : stob n = n * SECSZ :=
  Nat.mod_eq_of_lt small

theorem btors_mul {n : ℕ} (small : n * SECSZ + (SECSZ - 1) < 2 ^ 32) : btors (n * SECSZ) = n := by
  rw [btors, word, Nat.mod_eq_of_lt small]
  simp only [SECSZ] at *
  omega

/-- Sectors left the free list. -/
structure Taken (disk disk' : Disk) (run : List ℕ) : Prop where
  free_eq : disk'.free + run = disk.free
  held_eq : disk'.held = disk.held
  data_eq : disk'.data = disk.data

theorem Taken.none (disk : Disk) : Taken disk disk [] := ⟨by simp, rfl, rfl⟩

theorem taken_unfree {disk : Disk} {a : Alloc} (isFree : (↑a.run : Multiset ℕ) ≤ disk.free) :
    Taken disk (unfree disk a) a.run :=
  ⟨Multiset.sub_add_cancel isFree, rfl, rfl⟩

theorem takeBlock_taken (answer : ℕ) (disk : Disk) (d nsec : ℕ) :
    (takeBlock answer disk d nsec).2 ≤ nsec ∧
      Taken disk (takeBlock answer disk d nsec).1
        (⟨d, (takeBlock answer disk d nsec).2⟩ : Alloc).run := by
  rw [takeBlock]
  split_ifs with isFree
  · exact ⟨min_le_right _ _, taken_unfree isFree⟩
  · exact ⟨Nat.zero_le _, .none disk⟩

theorem allocBlock_taken (answer : ℕ) (disk : Disk) (nsec : ℕ) :
    allocBlock answer disk nsec = (disk, 0) ∨
      ∃ disk' start, allocBlock answer disk nsec = (disk', start) ∧ start ≠ 0 ∧
        Taken disk disk' (⟨start, nsec⟩ : Alloc).run := by
  rw [allocBlock]
  split_ifs with isFree
  · exact .inr ⟨_, _, rfl, isFree.1, taken_unfree isFree.2⟩
  · exact .inl rfl

/-- Taking sectors and putting them behind those of the file. -/
theorem Taken.extends {disk disk' : Disk} {fs fs' : FsFile} {run : List ℕ}
    (taken : Taken disk disk' run) (behind : sectors fs'.fsBlks = sectors fs.fsBlks ++ run)
    (longer : fs.fsLen ≤ fs'.fsLen) : Extends disk fs disk' fs' := by
  refine ⟨⟨⟨run, behind.symm⟩, ?_, longer⟩, taken.data_eq⟩
  rw [total, total, behind, ← taken.free_eq, taken.held_eq, ← Multiset.coe_add,
    add_assoc (sectors fs.fsBlks : Multiset ℕ), add_comm (run : Multiset ℕ)]

/-- A header whose length ends with its last sector. -/
def Full (fs : FsFile) : Prop := fs.fsLen = (sectors fs.fsBlks).length * SECSZ

/-- A header that got sectors and whose length was moved to their end. -/
theorem Extends.laid_full {disk disk' : Disk} {fs fs' : FsFile} {n : ℕ} (laid : Laid fs)
    (grown : Extends disk fs disk' fs') (nonempty : fs'.fsBlks ≠ [])
    (count : (sectors fs'.fsBlks).length = n) (len : fs'.fsLen = n * SECSZ)
    (small : n * SECSZ + (SECSZ - 1) < 2 ^ 32) : Laid fs' ∧ Full fs' := by
  refine ⟨⟨nonempty, ?_, laid.header.trans grown.longer, by rwa [len]⟩, by rw [Full, len, count]⟩
  rw [len, btors_mul small, count]

/-- Sectors taken right behind the last extent become part of it. -/
theorem FsFile.extend_grows {disk disk' : Disk} {fs : FsFile} {a : Alloc} {got : ℕ}
    (laid : Laid fs) (last : fs.fsBlks.getLast? = some a)
    (taken : Taken disk disk' (⟨a.aStart + a.aLen, got⟩ : Alloc).run)
    (small : (btors fs.fsLen + got) * SECSZ + (SECSZ - 1) < 2 ^ 32) :
    Extends disk fs disk' (fs.extend a got) ∧ Laid (fs.extend a got) ∧ Full (fs.extend a got) := by
  obtain ⟨front, blks⟩ : ∃ front, fs.fsBlks = front ++ [a] :=
    ⟨_, (List.dropLast_append_getLast? a last).symm⟩
  have behind : sectors (fs.extend a got).fsBlks =
      sectors fs.fsBlks ++ (⟨a.aStart + a.aLen, got⟩ : Alloc).run := by
    simp only [FsFile.extend, blks, List.dropLast_concat, sectors_append, sectors_cons,
      sectors_nil, List.append_nil, List.append_assoc, run_split]
  have count : (sectors (fs.extend a got).fsBlks).length = btors fs.fsLen + got := by
    rw [behind, List.length_append, laid.sectors_length, length_run]
  have len : (fs.extend a got).fsLen = (btors fs.fsLen + got) * SECSZ := by
    simp only [FsFile.extend]
    exact stob_of_lt (lt_of_le_of_lt (Nat.le_add_right _ _) small)
  have longer : fs.fsLen ≤ (fs.extend a got).fsLen := by
    have := laid.btors_eq
    simp only [SECSZ] at *
    omega
  have grown := taken.extends behind longer
  exact ⟨grown, grown.laid_full laid (by simp [FsFile.extend]) count len small⟩

/-- The sectors of a new extent behind the others. -/
theorem Taken.new_extent {disk disk' : Disk} {fs : FsFile} {start n : ℕ} (laid : Laid fs)
    (taken : Taken disk disk' (⟨start, EXTSIZ⟩ : Alloc).run)
    (count : (sectors fs.fsBlks).length = n)
    (small : (n + EXTSIZ) * SECSZ + (SECSZ - 1) < 2 ^ 32) :
    let fs' := { fs with
      fsLen := stob (n + EXTSIZ)
      fsBlks := fs.fsBlks ++ [⟨start, EXTSIZ⟩] }
    Extends disk fs disk' fs' ∧ Laid fs' ∧ Full fs' := by
  intro fs'
  have behind : sectors fs'.fsBlks = sectors fs.fsBlks ++ (⟨start, EXTSIZ⟩ : Alloc).run := by
    simp [fs']
  have len : fs'.fsLen = (n + EXTSIZ) * SECSZ :=
    stob_of_lt (lt_of_le_of_lt (Nat.le_add_right _ _) small)
  have longer : fs.fsLen ≤ fs'.fsLen := by
    have size := laid.btors_eq
    rw [← laid.sectors_length, count] at size
    rw [len]
    simp only [SECSZ, EXTSIZ] at *
    omega
  have grown := taken.extends behind longer
  refine ⟨grown, grown.laid_full laid (by simp [fs']) ?_ len small⟩
  rw [behind, List.length_append, count, length_run]

/-- Room for the sectors wanted and an extent more is room for fewer sectors and an extent. -/
theorem small_of_room {n newsize : ℕ} (room : (newsize + EXTSIZ) * SECSZ < 2 ^ 32)
    (fewer : n < newsize) : (n + EXTSIZ) * SECSZ + (SECSZ - 1) < 2 ^ 32 :=
  calc (n + EXTSIZ) * SECSZ + (SECSZ - 1) < (n + EXTSIZ) * SECSZ + SECSZ := by simp
    _ = (n + EXTSIZ + 1) * SECSZ := (Nat.succ_mul _ _).symm
    _ ≤ (newsize + EXTSIZ) * SECSZ := Nat.mul_le_mul_right _ (by omega)
    _ < 2 ^ 32 := room

/-- **`file_grow` only adds sectors, and after a success the length is at the end of the last
one.** -/
theorem fileGrow_grows {x : BmapOutcome} {disk disk' : Disk} {fs fs' : FsFile} {newsize : ℕ}
    {ok : Bool} (laid : Laid fs) (room : (newsize + EXTSIZ) * SECSZ < 2 ^ 32)
    (grow : fileGrow x disk fs newsize = some (disk', fs', ok)) :
    Extends disk fs disk' fs' ∧ Laid fs' ∧ (fs' = fs ∨ Full fs') ∧ (ok = true → Full fs') := by
  rw [fileGrow] at grow
  cases last : fs.fsBlks.getLast? with
  | none => simp [last] at grow
  | some a =>
      simp only [last] at grow
      by_cases short : newsize ≤ btors fs.fsLen
      · simp [short] at grow
      simp only [if_neg short] at grow
      obtain ⟨atMost, taken⟩ := takeBlock_taken x.take disk (a.aStart + a.aLen)
        (max (newsize - btors fs.fsLen) EXTSIZ)
      generalize takeBlock x.take disk (a.aStart + a.aLen)
        (max (newsize - btors fs.fsLen) EXTSIZ) = answer at grow atMost taken
      obtain ⟨disk₁, got⟩ := answer
      simp only at grow atMost taken
      by_cases failed : 0 < got ∧ (!x.resized) = true
      · -- the sectors go back
        rw [if_pos failed] at grow
        simp only [Option.some.injEq, Prod.mk.injEq] at grow
        obtain ⟨rfl, rfl, rfl⟩ := grow
        refine ⟨⟨⟨List.prefix_rfl, ?_, le_rfl⟩, taken.data_eq⟩, laid, .inl rfl, by simp⟩
        rw [total, total, freeBlock, taken.free_eq, taken.held_eq]
      rw [if_neg failed] at grow
      have small : (btors fs.fsLen + got) * SECSZ + (SECSZ - 1) < 2 ^ 32 := by
        simp only [SECSZ, EXTSIZ] at *
        omega
      obtain ⟨fs₁, split, grown, laid₁, full, count⟩ : ∃ fs₁,
          (if 0 < got then fs.extend a got else fs) = fs₁ ∧ Extends disk fs disk₁ fs₁ ∧
            Laid fs₁ ∧ (0 < got → Full fs₁) ∧
              (sectors fs₁.fsBlks).length = btors fs.fsLen + got := by
        by_cases more : 0 < got
        · obtain ⟨grown, laid₁, full⟩ := FsFile.extend_grows laid last taken small
          refine ⟨_, if_pos more, grown, laid₁, fun _ => full, ?_⟩
          have len : (fs.extend a got).fsLen = (btors fs.fsLen + got) * SECSZ := by
            simp only [FsFile.extend]
            exact stob_of_lt (lt_of_le_of_lt (Nat.le_add_right _ _) small)
          rw [laid₁.sectors_length, len, btors_mul small]
        · obtain rfl : got = 0 := by omega
          refine ⟨_, if_neg more, taken.extends (by simp [Alloc.run]) le_rfl, laid,
            fun absurd' => absurd absurd' more, laid.sectors_length⟩
      have full_or : fs₁ = fs ∨ Full fs₁ := by
        by_cases more : 0 < got
        · exact .inr (full more)
        · exact .inl (by rw [← split, if_neg more])
      rw [split] at grow
      by_cases enough : newsize ≤ btors fs.fsLen + got
      · rw [if_pos enough] at grow
        simp only [Option.some.injEq, Prod.mk.injEq] at grow
        obtain ⟨rfl, rfl, rfl⟩ := grow
        exact ⟨grown, laid₁, full_or, fun _ => full (by omega)⟩
      rw [if_neg enough] at grow
      by_cases noSlot : MAXEXT ≤ fs₁.fsBlks.length
      · rw [if_pos noSlot] at grow
        simp only [Option.some.injEq, Prod.mk.injEq] at grow
        obtain ⟨rfl, rfl, rfl⟩ := grow
        exact ⟨grown, laid₁, full_or, by simp⟩
      rw [if_neg noSlot] at grow
      rcases allocBlock_taken x.start disk₁ EXTSIZ with noBlock | ⟨disk₂, start, block, some_, more⟩
      · simp only [noBlock, if_true, Option.some.injEq, Prod.mk.injEq] at grow
        obtain ⟨rfl, rfl, rfl⟩ := grow
        exact ⟨grown, laid₁, full_or, by simp⟩
      · simp only [block, if_neg some_, Option.some.injEq, Prod.mk.injEq] at grow
        obtain ⟨rfl, rfl, rfl⟩ := grow
        obtain ⟨grown₂, laid₂, full₂⟩ :=
          more.new_extent laid₁ count (small_of_room room (Nat.lt_of_not_le enough))
        exact ⟨grown.trans grown₂, laid₂, .inr full₂, fun _ => full₂⟩

end Vsta.Vstafs.Bytes
