import Mathlib.Data.List.Basic
import Vsta.Basic

/-!
# The file system checker of vstafs

`cmd/fsck.c` as a machine: it checks the superblock, walks the sectors of the free list and their
entries, goes through the tree of directories and files with a stack of calls, and last counts the
blocks that were found nowhere. Each step may ask the operator.

The disk is a map from byte positions to sectors, with any contents. A read may fail, and a disk may
not be writable: then `fsck` exits. `wild` is an index outside the bitmaps or outside one of the
arrays of a sector.
-/

set_option autoImplicit false

namespace Vsta.Fsck

abbrev NBBY : ULong := 8#32
abbrev SECSZ : ULong := 512#32
abbrev MAXEXT : ULong := 32#32
abbrev MAXNAMLEN : ℕ := 28
abbrev NALLOC : ULong := 63#32
abbrev BASE_FREESECS : ℕ := 62
abbrev FS_MAGIC : ULong := 0xDEADFACE#32
abbrev BASE_SEC : ULong := 0#32
abbrev ROOT_SEC : ULong := 1#32
abbrev FREE_SEC : ULong := 2#32
abbrev FT_FILE : BitVec 16 := 1#16
abbrev FT_DIR : BitVec 16 := 2#16

/-- `sizeof(struct fs_file)`. -/
abbrev FS_FILE : ULong := 320#32

/-- `sizeof(struct fs_dirent)`. -/
abbrev FS_DIRENT : ULong := 32#32

def btors (x : ULong) : ULong := (x + (SECSZ - 1#32)) / SECSZ
def stob (x : ULong) : ULong := x * SECSZ

/-- A sector as 128 words. -/
abbrev Sector := ℕ → ULong

/-- `struct alloc`. -/
structure Alloc where
  aStart : ULong
  aLen : ULong
  deriving DecidableEq, Repr

/-- An entry of an array of `struct alloc` that begins at a word of the sector. -/
def Sector.alloc (buf : Sector) (base x : ℕ) : Alloc := ⟨buf (base + 2 * x), buf (base + 2 * x + 1)⟩

namespace Sector

/-! `struct free` -/

def fNext (buf : Sector) : ULong := buf 0
def fNfree (buf : Sector) : ULong := buf 1
def fFree (buf : Sector) (x : ℕ) : Alloc := buf.alloc 2 x

/-- The entries behind one that is removed move up. -/
def removeFree (buf : Sector) (x : ℕ) : Sector := fun word =>
  if word = 1 then buf.fNfree - 1#32
  else if 2 + 2 * x ≤ word ∧ word < 2 + 2 * (buf.fNfree - 1#32).toNat then buf (word + 2)
  else buf word

/-! `struct fs_file` -/

def fsPrev (buf : Sector) : ULong := buf 0
def fsLen (buf : Sector) : ULong := buf 2
def fsType (buf : Sector) : BitVec 16 := (buf 3).setWidth 16
def fsNblk (buf : Sector) : ULong := buf 9
def fsBlks (buf : Sector) : List Alloc := (List.range buf.fsNblk.toNat).map (buf.alloc 10)

/-! `struct fs_dirent`, by its index in the sector -/

def fsName (buf : Sector) (d x : ℕ) : UChar := (buf (8 * d + x / 4) >>> (8 * (x % 4))).setWidth 8
def fsClstart (buf : Sector) (d : ℕ) : ULong := buf (8 * d + 7)

/-- The entry is marked as deleted. -/
def deleteDirent (buf : Sector) (d : ℕ) : Sector := fun word =>
  if word = 8 * d then buf word ||| 0x80#32 else buf word

end Sector

/-- The disk. -/
structure Disk where
  read : ULong → Option Sector
  writable : Bool
  stSize : ULong

/-- `get_sec`, or an exit. -/
def Disk.getSec (disk : Disk) (sec : ULong) : Option Sector := disk.read (stob sec)

/-- `my_write_sec`, or an exit. -/
def Disk.myWriteSec (disk : Disk) (sec : ULong) (buf : Sector) : Option Disk :=
  if disk.writable then
    some { disk with read := fun pos => if pos = stob sec then some buf else disk.read pos }
  else none

/-! ## The bitmaps -/

/-- A bitmap, by block. -/
abbrev Map := ULong → Bool

/-- The byte of the block is in a map for so many blocks. -/
def inMap (fsSize d : ULong) : Prop := d / NBBY ≤ fsSize / NBBY

instance (fsSize d : ULong) : Decidable (inMap fsSize d) := inferInstanceAs (Decidable (_ ≤ _))

/-- `setbit`. -/
def setbit (fsSize : ULong) (map : Map) : ULong → ℕ → Option Map
  | _, 0 => some map
  | d, cnt + 1 =>
      if inMap fsSize d then setbit fsSize (fun x => x = d || map x) (d + 1#32) cnt else none

/-- `getbit`. -/
def getbit (fsSize : ULong) (map : Map) : ULong → ℕ → Option Bool
  | _, 0 => some false
  | d, cnt + 1 =>
      if inMap fsSize d then if map d then some true else getbit fsSize map (d + 1#32) cnt
      else none

/-- The maps: the free blocks and those of files, and those of files and of the free list itself. -/
structure Maps where
  freemap : Map
  allocmap : Map

/-- `valid_block`. -/
def validBlock (fsSize d : ULong) : Bool := ROOT_SEC ≤ d && d ≤ fsSize

/-! ## Checks of one file -/

/-- The loop of `check_fsalloc`: the maps, and the sectors of the extents if all of them pass. -/
def checkBlks (fsSize : ULong) : Maps → List Alloc → ULong → Option (Maps × Option ULong)
  | maps, [], blklen => some (maps, some blklen)
  | maps, a :: rest, blklen =>
      if !validBlock fsSize a.aStart then some (maps, none)
      else if fsSize - 1#32 < a.aLen then some (maps, none)
      else if !validBlock fsSize (a.aStart + a.aLen) then some (maps, none)
      else
        match getbit fsSize maps.allocmap a.aStart a.aLen.toNat,
          getbit fsSize maps.freemap a.aStart a.aLen.toNat with
        | some false, some false =>
            match setbit fsSize maps.allocmap a.aStart a.aLen.toNat,
              setbit fsSize maps.freemap a.aStart a.aLen.toNat with
            | some allocmap, some freemap =>
                checkBlks fsSize ⟨freemap, allocmap⟩ rest (blklen + a.aLen)
            | _, _ => none
        | some true, _ => some (maps, none)
        | some false, some true => some (maps, none)
        | _, _ => none

/-- `check_fsalloc`: whether the file is in error. -/
def checkFsalloc (fsSize : ULong) (maps : Maps) (fs : Sector) : Option (Maps × Bool) :=
  (checkBlks fsSize maps fs.fsBlks 0#32).map fun (maps, blklen) =>
    (maps, blklen ≠ some (btors fs.fsLen))

/-- The characters of a name from one on. -/
def checkName (name : ℕ → UChar) : ℕ → ℕ → Bool
  | _, 0 => true
  | x, left + 1 =>
      if name x &&& 0x80#8 ≠ 0#8 then true
      else if name x = 0#8 then x = 0
      else checkName name (x + 1) left

/-- `check_dirent`. -/
def checkDirent (buf : Sector) (d : ℕ) : Bool := checkName (buf.fsName d) 0 MAXNAMLEN

/-- The checks of `check_tree` ahead of the extents. -/
def checkHead (sec : ULong) (fs : Sector) : Bool :=
  (fs.fsType ≠ FT_FILE && fs.fsType ≠ FT_DIR) || fs.fsNblk = 0#32 || MAXEXT < fs.fsNblk ||
    fs.fsLen < FS_FILE || (fs.alloc 10 0).aStart ≠ sec

/-- The blocks of an extent. -/
def Alloc.blocks (a : Alloc) : List ULong :=
  (List.range ((a.aStart + a.aLen).toNat - a.aStart.toNat)).map fun i =>
    a.aStart + BitVec.ofNat 32 i

/-! ## The machine -/

/-- The loop of `check_fsdir`: the length of the directory, the position in it, the entry of the
current sector, and the blocks from the current one on. -/
structure Dir where
  fsLen : ULong
  idx : ULong
  d : ℕ
  blks : List ULong
  deriving DecidableEq, Repr

/-- The first entry to look at in a block: in the first sector it is behind the header. -/
def firstEntry (idx : ULong) : ℕ := if idx = FS_FILE then 10 else 0

/-- A call of `check_tree` that waits for another: for the previous version of a file, or for an
entry of a directory. -/
inductive Frame where
  | prev (sec : ULong)
  | dir (dir : Dir)
  deriving DecidableEq, Repr

/-- Where `fsck` is: at a sector of the free list, at an entry of one, in a call of `check_tree`, in
a directory, at the return from `check_tree`, or at `check_lostblocks`. -/
inductive Phase where
  | freelist (next highest : ULong)
  | entries (next : ULong) (fr : Sector) (x : ℕ) (highest : ULong) (modified : Bool)
  | tree (sec : ULong) (stack : List Frame)
  | fsdir (dir : Dir) (stack : List Frame)
  | ret (res : Bool) (stack : List Frame)
  | lost

/-- The state of `fsck`. -/
structure State where
  disk : Disk
  fsSize : ULong
  maps : Maps
  phase : Phase

/-- What a step comes to. -/
inductive Result where
  | next (s : State)
  | exit
  | wild
  | finished

/-- `check_root`, and the maps. -/
def checkRoot (disk : Disk) : Option State :=
  (disk.getSec BASE_SEC).bind fun fs =>
    if fs 0 ≠ FS_MAGIC then none
    else if fs 1 = 0#32 then none
    else if btors disk.stSize < fs 1 then none
    else some ⟨disk, fs 1, ⟨fun _ => false, fun _ => false⟩, .freelist FREE_SEC (FREE_SEC + 1#32)⟩

namespace State

/-- The head of the loop of `check_freelist`. -/
def freelist (s : State) (next highest : ULong) : Result :=
  if next = 0#32 then .next { s with phase := .tree ROOT_SEC [] }
  else
    match s.disk.getSec next with
    | none => .exit
    | some fr =>
        if NALLOC < fr.fNfree then .exit
        else
          match getbit s.fsSize s.maps.allocmap next 1 with
          | none => .wild
          | some true => .exit
          | some false =>
              match setbit s.fsSize s.maps.allocmap next 1, setbit s.fsSize s.maps.freemap next 1
              with
              | some allocmap, some freemap =>
                  .next { s with
                    maps := ⟨freemap, allocmap⟩, phase := .entries next fr 0 highest false }
              | _, _ => .wild

/-- An entry of the free list that is not to be believed. -/
def badEntry (s : State) (a : Alloc) (highest : ULong) : Bool :=
  !validBlock s.fsSize a.aStart || !validBlock s.fsSize (a.aStart + a.aLen) || a.aStart < highest

/-- One round of the loop over the entries. An entry that is bad and stays is looked at again. -/
def entries (s : State) (next : ULong) (fr : Sector) (x : ℕ) (highest : ULong) (modified : Bool)
    (answer : Bool) : Result :=
  if x < fr.fNfree.toNat then
    if NALLOC.toNat ≤ x then .wild
    else
      let a := fr.fFree x
      if s.badEntry a highest then
        if answer then .next { s with phase := .entries next (fr.removeFree x) x highest true }
        else .next { s with phase := .entries next fr x highest modified }
      else
        match setbit s.fsSize s.maps.freemap a.aStart a.aLen.toNat with
        | none => .wild
        | some freemap => .next { s with
            maps := { s.maps with freemap := freemap }
            phase := .entries next fr (x + 1) (a.aStart + a.aLen) modified }
  else if modified then
    match s.disk.myWriteSec next fr with
    | none => .exit
    | some disk => .next { s with disk := disk, phase := .freelist fr.fNext highest }
  else .next { s with phase := .freelist fr.fNext highest }

/-- `check_tree` when the extents of the file are in order: on to the previous version of a file, or
to the entries of a directory. -/
def checkContents (s : State) (sec : ULong) (fs : Sector) (stack : List Frame) : Result :=
  if fs.fsType = FT_FILE then
    if fs.fsPrev = 0#32 then .next { s with phase := .ret false stack }
    else
      match s.disk.getSec fs.fsPrev with
      | none => .exit
      | some _ => .next { s with phase := .tree fs.fsPrev (.prev sec :: stack) }
  else if fs.fsLen % FS_DIRENT ≠ 0#32 then .next { s with phase := .ret true stack }
  else .next { s with phase := .fsdir ⟨fs.fsLen, FS_FILE, firstEntry FS_FILE,
    fs.fsBlks.flatMap Alloc.blocks⟩ stack }

/-- `check_tree`. -/
def checkTree (s : State) (sec : ULong) (stack : List Frame) : Result :=
  if s.fsSize - 1#32 < sec then .next { s with phase := .ret true stack }
  else
    match s.disk.getSec sec with
    | none => .exit
    | some fs =>
        if checkHead sec fs then .next { s with phase := .ret true stack }
        else
          match checkFsalloc s.fsSize s.maps fs with
          | none => .wild
          | some (maps, true) => .next { s with maps := maps, phase := .ret true stack }
          | some (maps, false) => { s with maps := maps }.checkContents sec fs stack

/-- On to the next entry. -/
def nextEntry (s : State) (dir : Dir) (stack : List Frame) : Result :=
  .next { s with phase := .fsdir { dir with idx := dir.idx + FS_DIRENT, d := dir.d + 1 } stack }

/-- The operator is asked to delete an entry. -/
def askDelete (s : State) (dir : Dir) (blk : ULong) (answer : Bool) (stack : List Frame) : Result :=
  if answer then
    match s.disk.getSec blk with
    | none => .exit
    | some buf =>
        match s.disk.myWriteSec blk (buf.deleteDirent dir.d) with
        | none => .exit
        | some disk => { s with disk := disk }.nextEntry dir stack
  else s.nextEntry dir stack

/-- One round of the loops of `check_fsdir`. -/
def checkFsdir (s : State) (dir : Dir) (stack : List Frame) (answer : Bool) : Result :=
  match dir.blks with
  | [] => .next { s with phase := .ret false stack }
  | blk :: rest =>
      match s.disk.getSec blk with
      | none => .exit
      | some buf =>
          if dir.d < 16 ∧ dir.idx < dir.fsLen then
            if buf.fsClstart dir.d = 0#32 ∨ buf.fsName dir.d 0 &&& 0x80#8 ≠ 0#8 then
              s.nextEntry dir stack
            else if checkDirent buf dir.d then s.askDelete dir blk answer stack
            else .next { s with phase := .tree (buf.fsClstart dir.d) (.dir dir :: stack) }
          else .next { s with
            phase := .fsdir { dir with d := firstEntry dir.idx, blks := rest } stack }

/-- The return from `check_tree` to where it was called. -/
def returns (s : State) (res : Bool) (stack : List Frame) (answer : Bool) : Result :=
  match stack with
  | [] => .next { s with phase := .lost }
  | .prev sec :: stack =>
      if res && answer then
        match s.disk.getSec sec with
        | none => .exit
        | some fs =>
            match s.disk.myWriteSec sec fun word => if word = 0 then 0#32 else fs word with
            | none => .exit
            | some disk => .next { s with disk := disk, phase := .ret false stack }
      else .next { s with phase := .ret res stack }
  | .dir dir :: stack =>
      match dir.blks with
      | [] => .exit
      | blk :: _ => if res then s.askDelete dir blk answer stack else s.nextEntry dir stack

/-- The blocks of `check_lostblocks`. -/
def candidates (s : State) : List ULong :=
  (List.range (s.fsSize.toNat - 3)).map fun i => BitVec.ofNat 32 (3 + i)

/-- A block that was found nowhere. -/
def isLost (s : State) (x : ULong) : Option Bool := (getbit s.fsSize s.maps.freemap x 1).map (!·)

/-- How many blocks are lost. -/
def countLost (s : State) : List ULong → Option ℕ
  | [] => some 0
  | x :: rest =>
      match s.isLost x with
      | none => none
      | some here => (s.countLost rest).map fun others => if here then others + 1 else others

/-- The queue of lost blocks: `run` says that the block before is the last of the queue's last run,
`ntofree` is how many runs there are. -/
def reclaim (s : State) : List ULong → Bool → ℕ → List Alloc → Option (List Alloc)
  | [], _, _, queue => some queue
  | x :: rest, run, ntofree, queue =>
      match s.isLost x with
      | none => none
      | some false => s.reclaim rest false ntofree queue
      | some true =>
          if run then
            s.reclaim rest true ntofree
              (queue.modifyLast fun a => { a with aLen := a.aLen + 1#32 })
          else if BASE_FREESECS < ntofree then some queue
          else if BASE_FREESECS ≤ ntofree then none
          else s.reclaim rest true (ntofree + 1) (queue ++ [⟨x, 1#32⟩])

/-- The superblock with the queue. -/
def withQueue (fs : Sector) (queue : List Alloc) : Sector := fun word =>
  if word < 4 then fs word
  else
    let a := queue.getD ((word - 4) / 2) ⟨0#32, 0#32⟩
    if word % 2 = 0 then a.aStart else a.aLen

/-- `check_lostblocks`. -/
def checkLostblocks (s : State) (answer : Bool) : Result :=
  match s.countLost s.candidates with
  | none => .wild
  | some lost =>
      if lost = 0 ∨ !answer then .finished
      else
        match s.disk.getSec BASE_SEC with
        | none => .exit
        | some fs =>
            match s.reclaim s.candidates false 0 [] with
            | none => .wild
            | some queue =>
                match s.disk.myWriteSec BASE_SEC (withQueue fs queue) with
                | none => .exit
                | some _ => .finished

/-- One step, with what the operator would answer. -/
def step (s : State) (answer : Bool) : Result :=
  match s.phase with
  | .freelist next highest => s.freelist next highest
  | .entries next fr x highest modified => s.entries next fr x highest modified answer
  | .tree sec stack => s.checkTree sec stack
  | .fsdir dir stack => s.checkFsdir dir stack answer
  | .ret res stack => s.returns res stack answer
  | .lost => s.checkLostblocks answer

end State

end Vsta.Fsck
