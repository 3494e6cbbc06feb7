import Vsta.Basic
import Vsta.Library.WriteBack
import Vsta.Library.Extents
import Vsta.Library.Runs
import Mathlib.Logic.Function.Basic
import Mathlib.Data.List.Range

/-!
# The file allocation table of the DOS filesystem

`srv/dos` keeps the FAT in memory: all of it for FAT12 and FAT16, the segments that were looked at
for FAT32. Changes mark a map of dirty sectors, and a sync writes those sectors to both copies on
the disk. The three formats share `setlen`, `alloc` and the flags; their entries, their dirty maps
and their writes differ.

The server is built with `DEBUG`, so a failed `ASSERT_DEBUG` stops it. A read of the disk returns
all the bytes that were asked for. What lies in memory behind the FAT of FAT12 and FAT16 can be
read, and is different at each request.
-/

set_option autoImplicit false

namespace Vsta.Dos

open Extents WriteBack

abbrev UShort := BitVec 16

/-- Bytes in a sector. -/
abbrev SECSZ : ℕ := 512

/-- Clusters from which a filesystem is no FAT12. -/
abbrev MSDOS_FAT12 : ℕ := 4085

/-- `roundup`. -/
def roundup (val units : ℕ) : ℕ := wrap (val + (units - 1)) / units * units

/-! ## The boot sector -/

/-- The fields of `struct boot` that lay out the disk. -/
structure Boot where
  secsize : UShort
  clsize : UChar
  nrsvsect : UShort
  nfat : UChar
  dirents : UShort
  psect : UShort
  fatlen : UShort
  bigsect : ULong
  bigFat : ULong
  rootCluster : ULong
  infoSector : UShort
  deriving DecidableEq, Repr

inductive Format where
  | fat12 | fat16 | fat32
  deriving DecidableEq, Repr

namespace Boot

variable (b : Boot)

/-- Bytes in a cluster. -/
def clusterSize : ℕ := b.clsize.toNat * SECSZ

/-- `data0`. A directory entry has 32 bytes. -/
def data0 : ℕ :=
  if b.fatlen = 0 then wrap (b.nrsvsect.toNat + b.bigFat.toNat * b.nfat.toNat)
  else b.nrsvsect.toNat + b.nfat.toNat * b.fatlen.toNat + b.dirents.toNat * 32 / SECSZ

/-- Clusters in the filesystem. -/
def nclust : ℕ :=
  if 0 < b.psect.toNat then b.psect.toNat * SECSZ / b.clusterSize
  else wrap (b.bigsect.toNat + 2 ^ 32 - b.data0) / b.clsize.toNat

/-- The format that `fat_init` picks. -/
def format : Format :=
  if b.fatlen = 0 then .fat32 else if b.nclust < MSDOS_FAT12 then .fat12 else .fat16

/-- Sectors of a FAT. -/
def fatSectors : ℕ := if b.fatlen = 0 then b.bigFat.toNat else b.fatlen.toNat

/-- Bytes of a FAT. -/
def fatlenBytes : ℕ := wrap (b.fatSectors * SECSZ)

/-- The sector where a FAT is looked for. -/
def fatbase : ℕ :=
  match b.format with
  | .fat12 | .fat16 => 1
  | .fat32 => b.nrsvsect.toNat

/-- `dirtymapsize`. -/
def dirtymapsize : ℕ :=
  match b.format with
  | .fat12 => roundup (wrap (b.nclust * 3) / 2) SECSZ / SECSZ
  | .fat16 => roundup (wrap (b.nclust * 2)) SECSZ / SECSZ
  | .fat32 => roundup (wrap (b.nclust * 4)) SECSZ / SECSZ

/-- `FATSEGSIZE`. -/
abbrev FATSEGSIZE : ℕ := 64 * 1024

/-- Segments of a FAT32. -/
def nfatv : ℕ := roundup b.fatlenBytes FATSEGSIZE / FATSEGSIZE

end Boot

/-! ## Entries -/

/-- Two bytes of memory. -/
def half (bytes : ℕ → UChar) (at_ : ℕ) : UShort := bytes (at_ + 1) ++ bytes at_

/-- Four bytes of memory. -/
def word (bytes : ℕ → UChar) (at_ : ℕ) : ULong :=
  bytes (at_ + 3) ++ bytes (at_ + 2) ++ bytes (at_ + 1) ++ bytes at_

/-- A 16-bit number in memory. -/
def setHalf (bytes : ℕ → UChar) (at_ : ℕ) (val : UShort) : ℕ → UChar :=
  put bytes at_ 2 fun i => (val >>> (8 * i)).setWidth 8

/-- A 32-bit number in memory. -/
def setWord (bytes : ℕ → UChar) (at_ : ℕ) (val : ULong) : ℕ → UChar :=
  put bytes at_ 4 fun i => (val >>> (8 * i)).setWidth 8

/-- A 12-bit entry, as `get` of FAT12 reads it. -/
def entry12 (fat : ℕ → UChar) (idx : ℕ) : ℕ :=
  let pos := idx * 3 / 2
  if idx % 2 = 1 then (fat pos).toNat / 16 + (fat (pos + 1)).toNat * 16
  else (fat pos).toNat + (fat (pos + 1) &&& 0x0F).toNat * 256

/-- Where an entry starts. -/
def Format.slot : Format → ℕ → ℕ
  | .fat12, idx => idx * 3 / 2
  | .fat16, idx => idx * 2
  | .fat32, idx => wrap (idx * 4)

/-- Bytes an entry lies in. -/
def Format.width : Format → ℕ
  | .fat12 | .fat16 => 2
  | .fat32 => 4

/-- An entry of a FAT. -/
def Format.entry (format : Format) (fat : ℕ → UChar) (idx : ℕ) : ℕ :=
  match format with
  | .fat12 => entry12 fat idx
  | .fat16 => (half fat (Format.fat16.slot idx)).toNat
  | .fat32 => (word fat (Format.fat32.slot idx)).toNat

/-- `FAT_RESERVED`. -/
def Format.FAT_RESERVED : Format → ℕ
  | .fat12 => 0xFF0
  | .fat16 => 0xFFF0
  | .fat32 => 0xFFFFFF0

/-- `FAT_EOF`. -/
def Format.FAT_EOF : Format → ℕ
  | .fat12 => 0xFF8
  | .fat16 => 0xFFF8
  | .fat32 => 0xFFFFFF8

/-- The bytes that `set` of FAT12 stores. -/
def store12 (fat : ℕ → UChar) (idx : ℕ) (val : UShort) : ℕ → UChar :=
  let pos := idx * 3 / 2
  if idx % 2 = 1 then
    put fat pos 2 fun i =>
      if i = 0 then fat pos &&& 0x0F ||| ((val &&& 0x0F) <<< 4).setWidth 8
      else (val >>> 4).setWidth 8
  else
    put fat pos 2 fun i =>
      if i = 0 then val.setWidth 8
      else fat (pos + 1) &&& 0xF0 ||| ((val &&& 0xF00) >>> 8).setWidth 8

/-! ## The state -/

/-- What ends the server, or is not defined: a failed assertion, a division by 0, a mark outside
of the dirty map, a write outside of the FAT. A chain that goes on is `endless`. -/
inductive Fault where
  | assfail | divide | overrun | wild | endless
  deriving DecidableEq, Repr

/-- The disk with the sectors that were written, and the variables of the format. A file's `struct
clust` is `clusts` at its name. -/
structure State where
  disk : ℕ → UChar
  written : List (Extent ℕ)
  fat : ℕ → UChar
  fatv : ℕ → Option (ℕ → UChar)
  dirtymap : List Bool
  nxtClust : ℕ
  fatDirty : Bool
  info : Option (ℕ → UChar)
  infobase : ℕ
  clusts : ℕ → List ℕ

namespace State

/-- A `write` of whole sectors. -/
def write (s : State) (off count : ℕ) (buf : ℕ → UChar) : State :=
  { s with
    disk := put s.disk off count buf
    written := ⟨off / SECSZ, (off + count) / SECSZ⟩ :: s.written }

/-- A sector is marked in the dirty map. -/
def mark (s : State) (x : ℕ) : Except Fault State :=
  if x < s.dirtymap.length then .ok { s with dirtymap := s.dirtymap.set x true }
  else .error .overrun

end State

/-! ## The three formats -/

variable (b : Boot)

/-- `FATSEG`. -/
def FATSEG (idx : ℕ) : ℕ := wrap (idx * 4) / Boot.FATSEGSIZE

/-- `FATIDX`. -/
def FATIDX (idx : ℕ) : ℕ := idx % (Boot.FATSEGSIZE / 4)

/-- `FATSECT`. -/
def FATSECT (sect : ℕ) : ℕ := wrap (sect * SECSZ) / 4

/-- `lookup` of FAT32: the segment of an entry. -/
def lookup (s : State) (idx : ℕ) : Except Fault (State × (ℕ → UChar)) :=
  let seg := FATSEG idx
  if b.nfatv ≤ seg then .error .assfail
  else match s.fatv seg with
    | some fatp => .ok (s, fatp)
    | none =>
        let off := wrap (b.fatbase * SECSZ + seg * Boot.FATSEGSIZE)
        let fatp := fun i => s.disk (off + i)
        .ok ({ s with fatv := Function.update s.fatv seg (some fatp) }, fatp)

/-- `get`. -/
def get (s : State) (idx : ℕ) : Except Fault (State × ℕ) :=
  match b.format with
  | .fat12 => .ok (s, entry12 s.fat idx)
  | .fat16 => .ok (s, (half s.fat (idx * 2)).toNat)
  | .fat32 => do
      let (s, fatp) ← lookup b s idx
      .ok (s, (word fatp (FATIDX idx * 4)).toNat)

/-- The sectors that a change of an entry marks, in `dirty` of FAT12 and in `DIRTY`. -/
def Format.marks : Format → ℕ → List ℕ
  | .fat12, idx => [wrap (idx * 3) / (SECSZ * 2), wrap ((idx + 1) * 3) / (SECSZ * 2)]
  | .fat16, idx => [wrap (idx * 2) / SECSZ]
  | .fat32, idx => [wrap (idx * 4) / SECSZ]

/-- An entry is changed in memory. -/
def store (s : State) (idx val : ℕ) : Except Fault State :=
  match b.format with
  | .fat12 =>
      if idx * 3 / 2 + 1 < b.fatlenBytes then
        .ok { s with fat := store12 s.fat idx (BitVec.ofNat 16 val) }
      else .error .wild
  | .fat16 =>
      if idx * 2 + 1 < b.fatlenBytes then
        .ok { s with fat := setHalf s.fat (idx * 2) (BitVec.ofNat 16 val) }
      else .error .wild
  | .fat32 => do
      let (s, fatp) ← lookup b s idx
      .ok { s with fatv := Function.update s.fatv (FATSEG idx)
                      (some (setWord fatp (FATIDX idx * 4) (BitVec.ofNat 32 val))) }

/-- `set`. -/
def set (s : State) (idx val : ℕ) : Except Fault State := do
  let s ← store b s idx val
  (b.format.marks idx).foldlM State.mark s

/-! ## The length of a file -/

/-- The free clusters of the info sector are counted. -/
def State.addFree (s : State) (count : ULong) : State :=
  { s with info := s.info.map fun info => setWord info 488 (word info 488 + count) }

/-- A cluster of a file that is cut is freed. -/
def free (s : State) (cl : ℕ) : Except Fault State :=
  if b.nclust ≤ cl ∨ cl < 2 then .error .assfail else set b s cl 0

/-- The last cluster of a file gets the end mark, if there is one. -/
def setEnd (s : State) : Option ℕ → Except Fault State
  | none => .ok s
  | some cl => set b s cl b.format.FAT_EOF

/-- The file gets smaller. -/
def truncate (s : State) (h newclust : ℕ) : Except Fault State := do
  let c := s.clusts h
  let s := { s with nxtClust := newclust }
  let s ← (c.drop newclust).foldlM (free b) s
  let s := s.addFree (BitVec.ofNat 32 (c.length - newclust))
  let s ← setEnd b s (c.take newclust).getLast?
  .ok { s with clusts := Function.update s.clusts h (c.take newclust), fatDirty := true }

/-- The scan for the next free cluster. It may look at `left` more. -/
def findFree : ℕ → State → ℕ → Except Fault (State × Option (ℕ × ℕ))
  | 0, s, _ => .ok (s, none)
  | left + 1, s, cl => do
      let (s, val) ← get b s cl
      if val ≠ 0 then findFree left s (if b.nclust ≤ cl + 1 then 0 else cl + 1)
      else if left = 0 then .ok (s, none)
      else .ok (s, some (cl, left))

/-- As many free clusters as are needed. -/
def findClusters : ℕ → ℕ → State → ℕ → Except Fault (State × Option (List ℕ))
  | 0, _, s, _ => .ok (s, some [])
  | need + 1, left, s, cl => do
      let (s, found) ← findFree b left s cl
      match found with
      | none => .ok (s, none)
      | some (cl, left) =>
          if cl < 2 ∨ b.nclust ≤ cl then .error .assfail
          else
            let s := { s with nxtClust := if b.nclust ≤ cl + 1 then 0 else cl + 1 }
            let (s, rest) ← findClusters need left s (cl + 1)
            .ok (s, rest.map (cl :: ·))

/-- Each cluster is chained to the next. -/
def chain : List ℕ → State → Except Fault State
  | cl :: next :: rest, s => do
      let s ← set b s cl next
      chain (next :: rest) s
  | _, s => .ok s

/-- The file gets larger. -/
def grow (s : State) (h newclust : ℕ) (mem : Bool) : Except Fault State := do
  if !mem then .ok s
  else
    let c := s.clusts h
    let (s, found) ← findClusters b (newclust - c.length) b.nclust s s.nxtClust
    match found with
    | none => .ok s
    | some new =>
        let s ← chain b (c.getLast?.toList ++ new) s
        let s := s.addFree (-BitVec.ofNat 32 (newclust - c.length))
        let s ← setEnd b s new.getLast?
        .ok { s with clusts := Function.update s.clusts h (c ++ new), fatDirty := true }

/-- Clusters for a length. -/
def clusters (newlen : ULong) : ℕ := roundup newlen.toNat b.clusterSize / b.clusterSize

/-- `clust_setlen`. -/
def clustSetlen (s : State) (h : ℕ) (newlen : ULong) (mem : Bool) : Except Fault State :=
  let newclust := clusters b newlen
  if (s.clusts h).length = newclust then .ok s
  else if newclust < (s.clusts h).length then truncate b s h newclust
  else grow b s h newclust mem

/-! ## The other operations -/

/-- The scan of `alloc` for a chain of `len + 1` clusters. -/
def scan : ℕ → State → ℕ → Except Fault (State × List ℕ)
  | 0, s, x => do
      let (s, val) ← get b s x
      if val < b.format.FAT_RESERVED then .error .endless else .ok (s, [x])
  | len + 1, s, x => do
      let (s, val) ← get b s x
      if val < b.format.FAT_RESERVED then
        if x < 2 then .error .assfail
        else
          let (s, rest) ← scan len s val
          .ok (s, x :: rest)
      else .error .endless

/-- `alloc_clust`, for a file whose chain has `len + 1` clusters. -/
def allocClust (s : State) (h start len : ℕ) : Except Fault State := do
  if start = 0 then .ok { s with clusts := Function.update s.clusts h [] }
  else
    let (s, c) ← scan b len s start
    .ok { s with clusts := Function.update s.clusts h c }

/-- Where a run of free clusters from `cl` ends: it is long enough, meets a cluster in use, or the
end. -/
inductive Stop where
  | enough
  | used (cl : ℕ)
  | over_

/-- The inner loop of `fat32_prealloc`. It may look at `left` more clusters. -/
def freeRun (newclust : ℕ) : ℕ → State → ℕ → ℕ → Except Fault (State × ℕ × Stop)
  | 0, s, _, cnt => .ok (s, cnt, .over_)
  | left + 1, s, cl, cnt => do
      let (s, val) ← get b s cl
      if val ≠ 0 then .ok (s, cnt, .used cl)
      else if newclust ≤ cnt + 1 then .ok (s, cnt + 1, .enough)
      else freeRun newclust left s (cl + 1) (cnt + 1)

/-- The outer loop of `fat32_prealloc`: the start of a run, and its length. -/
def findRun (newclust : ℕ) : ℕ → State → ℕ → ℕ → Except Fault (State × ℕ × ℕ)
  | 0, s, cl, cnt => .ok (s, cl, cnt)
  | fuel + 1, s, cl, cnt =>
      if b.nclust ≤ cl then .ok (s, cl, cnt)
      else do
        let (s, val) ← get b s cl
        if val ≠ 0 then findRun newclust fuel s (cl + 1) cnt
        else
          let (s, cnt, stop) ← freeRun b newclust (b.nclust - cl) s cl 0
          match stop with
          | .enough => .ok (s, cl, cnt)
          | .used cl' => if newclust ≤ cnt then .ok (s, cl', cnt) else findRun newclust fuel s (cl' + 1) cnt
          | .over_ => if newclust ≤ cnt then .ok (s, cl, cnt) else findRun newclust fuel s (cl + 1) cnt

/-- `clust_prealloc`. -/
def clustPrealloc (s : State) (h : ℕ) (newlen : ULong) (mem : Bool) : Except Fault State := do
  let newclust := clusters b newlen
  if s.clusts h ≠ [] then .error .assfail
  else if b.format ≠ .fat32 then .ok s
  else
    let (s, cl, cnt) ← findRun b newclust b.nclust s 0 0
    if cnt < newclust ∨ !mem then .ok s
    else
      let s ← (List.range newclust).foldlM (fun s x =>
        set b s (cl + x) (if x + 1 < newclust then cl + x + 1 else b.format.FAT_EOF)) s
      let s := s.addFree (-BitVec.ofNat 32 newclust)
      .ok { s with
        clusts := Function.update s.clusts h ((List.range newclust).map (cl + ·))
        fatDirty := true }

/-! ## The sync -/

/-- Sectors that one `write` can take: all of them, or those of a segment. -/
def joins (x y : ℕ) : Bool :=
  match b.format with
  | .fat12 | .fat16 => true
  | .fat32 => FATSEG (FATSECT y) == FATSEG (FATSECT x)

/-- The memory that a run of sectors is written from. -/
def sectors (s : State) (x : ℕ) : Except Fault (State × (ℕ → UChar)) :=
  match b.format with
  | .fat12 | .fat16 => .ok (s, fun i => s.fat (x * SECSZ + i))
  | .fat32 => do
      let (s, fatp) ← lookup b s (FATSECT x)
      .ok (s, fun i => fatp (FATIDX (FATSECT x) * 4 + i))

/-- A run of `cnt` sectors is written to a copy of the FAT. -/
def writeRun (pass : ℕ) (s : State) (r : ℕ × ℕ) : Except Fault State := do
  let (s, buf) ← sectors b s r.1
  .ok (s.write (wrap (b.fatbase * SECSZ + r.1 * SECSZ + pass * b.fatlenBytes)) (r.2 * SECSZ) buf)

/-- The dirty map, as a function. -/
def State.isDirty (s : State) (x : ℕ) : Bool := s.dirtymap.getD x false

/-- A pass of the sync. The map does not change in it, so that its runs are those of the start. -/
def syncPass (s : State) (pass : ℕ) : Except Fault State :=
  (runs s.isDirty (joins b) s.dirtymap.length s.dirtymap.length 0).foldlM (writeRun b pass) s

/-- The info sector is written. -/
def syncInfo (s : State) : State :=
  match s.info with
  | none => s
  | some info =>
      let info := setWord info 492 (BitVec.ofNat 32 s.nxtClust)
      ({ s with info := some info }).write (s.infobase * SECSZ) SECSZ info

/-- `fat_sync`. -/
def fatSync (s : State) : Except Fault State := do
  if !s.fatDirty then .ok s
  else
    let s ← syncPass b s 0
    let s ← syncPass b s 1
    let s := { s with dirtymap := s.dirtymap.map fun _ => false }
    .ok { syncInfo s with fatDirty := false }

/-! ## The system -/

abbrev INFOSECT_SIGNATURE0 : ULong := 0x41615252

abbrev INFOSECT_SIGNATURE1 : ULong := 0x61417272

/-- The info sector of a disk has its signatures. -/
def verified (disk : ℕ → UChar) : Prop :=
  word disk (b.infoSector.toNat * SECSZ) = INFOSECT_SIGNATURE0 ∧
    word disk (b.infoSector.toNat * SECSZ + 484) = INFOSECT_SIGNATURE1

instance (disk : ℕ → UChar) : Decidable (verified b disk) := inferInstanceAs (Decidable (_ ∧ _))

/-- The info sector of a FAT32: its memory, and the sector it is written to. -/
def readInfo (disk : ℕ → UChar) : Option (ℕ → UChar) × ℕ :=
  if b.infoSector = 0xFFFF then (none, 0xFFFF)
  else (some fun i => disk (b.infoSector.toNat * SECSZ + i),
    if verified b disk then b.infoSector.toNat else 0)

/-- `fat_init`. -/
def fatInit (disk : ℕ → UChar) : Except Fault State :=
  if b.secsize ≠ 512 then .error .assfail
  else if b.clsize = 0 then .error .divide
  else
    let start : State := ⟨disk, [], fun i => disk (SECSZ + i), fun _ => none,
      List.replicate b.dirtymapsize false, 0, false, none, 0, fun _ => []⟩
    match b.format with
    | .fat12 | .fat16 => .ok start
    | .fat32 =>
        if b.rootCluster = 0 then .error .assfail
        else .ok { start with info := (readInfo b disk).1, infobase := (readInfo b disk).2 }

/-- What the rest of the server asks for. Files have numbers. -/
inductive Action where
  | alloc (h start len : ℕ)
  | setlen (h : ℕ) (newlen : ULong) (mem : Bool)
  | prealloc (h : ℕ) (newlen : ULong) (mem : Bool)
  | sync
  deriving DecidableEq, Repr

/-- An action, with what lies in memory behind the FAT of FAT12 and FAT16. -/
structure Label where
  heap : ℕ → UChar
  action : Action

/-- What lies behind the FAT is not the server's. -/
def State.behind (s : State) (heap : ℕ → UChar) : State :=
  { s with fat := fun i => if i < b.fatlenBytes then s.fat i else heap i }

/-- What an action does. -/
def exec (s : State) (label : Label) : Except Fault State :=
  let s := s.behind b label.heap
  match label.action with
  | .alloc h start len => allocClust b s h start len
  | .setlen h newlen mem => clustSetlen b s h newlen mem
  | .prealloc h newlen mem => clustPrealloc b s h newlen mem
  | .sync => fatSync b s

/-- One step. A failed request leaves no state. -/
def step (s : State) (label : Label) : Option State := (exec b s label).toOption

abbrev Step : State → Label → State → Prop := fun s label t => step b s label = some t

end Vsta.Dos
