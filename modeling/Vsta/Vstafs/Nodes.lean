import Mathlib.Logic.Function.Basic
import Vsta.Perm.Permission
import Vsta.Vstafs.Requests

/-!
# Open files and their nodes

The requests that open and remove files and that rename them, with the nodes that they take and
give back: `node.c`, and `open.c` from the walk of the revisions to the rename. The buffers of the
cache stand for the sectors of the disk, and what a file has beside its header, its revisions and
its directory entries is left out.

`Env` is what memory and disk space there is during a request. A NULL that is used as a pointer, an
`ASSERT` that fails and a name that is written past its entry have no result.
-/

set_option autoImplicit false

namespace Vsta.Vstafs.Nodes

open Permissions (Perm Prot)

/-- Why there is no result. -/
inductive Fault where
  | null | assert | overrun
  /-- A chain of revisions that has no end. -/
  | endless
  deriving DecidableEq, Repr

/-- The errors of the requests; `strerror` is that of the system call that failed. -/
inductive Error where
  | EINVAL | ENOMEM | ESRCH | EBUSY | EROFS | EPERM | ENOTDIR | EISDIR | EAGAIN | strerror
  deriving DecidableEq, Repr

abbrev ACC_DIR : ULong := 0x20

abbrev FT_FILE : ℕ := 1
abbrev FT_DIR : ℕ := 2

/-- Max chars in dir entry name. -/
abbrev MAXNAMLEN : ℕ := 28

/-- A string, without its null. -/
abbrev Name := List UChar

/-- `struct openfile`: its references, `O_DELETED` and `O_HASHED`. -/
structure OpenFile where
  oRefs : ℕ
  oDeleted : Bool
  oHashed : Bool
  deriving DecidableEq, Repr

/-- `struct fs_file`. -/
structure FsFile where
  fsPrev : ℕ
  fsRev : ℕ
  fsType : ℕ
  fsProt : Prot
  fsOwner : ULong
  deriving DecidableEq, Repr

/-- `struct fs_dirent`. -/
structure Dirent where
  fsName : Name
  fsClstart : ℕ
  deriving DecidableEq, Repr

/-- The entries of a directory that one buffer has, and its sector. -/
structure Bufferful where
  sector : ℕ
  entries : List Dirent
  deriving DecidableEq, Repr

/-- `struct file`. -/
structure File where
  fFile : ℕ
  fPerm : ULong
  fPerms : Vector Perm PROCPERMS
  fNperm : ℕ
  deriving DecidableEq, Repr

/-- What there is memory for: the buffer at a sector, the node of a file and its place in the hash,
and the copy of a name. `block` is the sector that `alloc_block` answers with, and `space` what
`dir_addspace` adds to a directory: a sector, and entries behind the first. -/
structure Env where
  buf : ℕ → Bool
  node : ℕ → Bool
  entry : ℕ → Bool
  name : Bool
  block : ℕ
  space : Option (ℕ × ℕ)

/-- `node_hash`, as the nodes under each key from the newest on; the headers and the entries on the
disk. -/
structure Server where
  nodeHash : ℕ → List (Option OpenFile)
  files : ℕ → FsFile
  dirs : ℕ → List Bufferful
  roflag : Bool

namespace Server

/-! ## Nodes -/

/-- `hash_lookup`. -/
def first (s : Server) (d : ℕ) : Option OpenFile := (s.nodeHash d).head?.join

/-- What is under a key is written. -/
def setHash (s : Server) (d : ℕ) (under : List (Option OpenFile)) : Server :=
  { s with nodeHash := Function.update s.nodeHash d under }

/-- A node is written. -/
def setNode (s : Server) (d : ℕ) (o : OpenFile) : Server :=
  s.setHash d (some o :: (s.nodeHash d).tail)

/-- `deref_node`. -/
def derefNode (s : Server) (d : ℕ) : Except Fault Server :=
  match s.first d with
  | none => .error .null
  | some o =>
      if o.oRefs = 1 then .ok (s.setHash d (s.nodeHash d).tail)
      else .ok (s.setNode d { o with oRefs := o.oRefs - 1 })

/-- `get_node`, with `ref_node` and `alloc_node`. Where there is no memory for the node, a NULL goes
to the hash; where there is none in the hash, the node is given back at once. -/
def getNode (x : Env) (s : Server) (d : ℕ) : Except Fault (Server × Option ℕ) :=
  match s.first d with
  | some o => .ok (s.setNode d { o with oRefs := o.oRefs + 1 }, some d)
  | none =>
      if !x.buf d then .error .null
      else if x.node d then
        if x.entry d then .ok (s.setHash d (some ⟨1, false, false⟩ :: s.nodeHash d), some d)
        else
          match s.nodeHash d with
          | [] => .error .assert
          | _ :: rest => .ok (s.setHash d rest, none)
      else if x.entry d then .ok (s.setHash d (none :: s.nodeHash d), none)
      else .error .null

/-- `walkto`. So many revisions at most. -/
def walkto (x : Env) (rev : ℕ) : ℕ → Server → ℕ → Except Fault (Server × Option ℕ)
  | 0, _, _ => .error .endless
  | n + 1, s, o =>
      if !x.buf o then .error .null
      else if (s.files o).fsRev = rev then .ok (s, some o)
      else
        let prev := (s.files o).fsPrev
        if prev = 0 then .ok (s, none)
        else do
          let s ← s.derefNode o
          let (s, o) ← s.getNode x prev
          match o with
          | none => .error .null
          | some o => walkto x rev n s o

end Server

/-! ## Directories -/

/-- Deleted file. -/
def Dirent.deleted (d : Dirent) : Bool := (d.fsName.headD 0).msb

/-- `findent`: an entry and where it is. -/
def findent : List Dirent → Name → Option (ℕ × Dirent)
  | [], _ => none
  | d :: rest, name =>
      if d.fsName = [] then none
      else if d.deleted then (findent rest name).map fun (j, d) => (j + 1, d)
      else if d.fsName = name then some (0, d)
      else (findent rest name).map fun (j, d) => (j + 1, d)

/-- The walk of `dir_lookup` over the buffers of a directory. -/
def scan (x : Env) : List Bufferful → Name → Option ((ℕ × ℕ) × Dirent)
  | [], _ => none
  | b :: rest, name =>
      if !x.buf b.sector then none
      else
        match findent b.entries name with
        | some (j, d) => some ((0, j), d)
        | none => (scan x rest name).map fun ((i, j), d) => ((i + 1, j), d)

/-- `findfree`. -/
def findfree (entries : List Dirent) : Option ℕ :=
  entries.findIdx? fun d => d.fsClstart = 0 || d.deleted

/-- What the walk of `dir_newfile` ends with. -/
inductive Slot where
  | unreadable
  | full
  | free (i j : ℕ)
  deriving DecidableEq, Repr

/-- The walk of `dir_newfile` over the buffers of a directory. -/
def freeSlot (x : Env) : List Bufferful → Slot
  | [] => .full
  | b :: rest =>
      if !x.buf b.sector then .unreadable
      else
        match findfree b.entries with
        | some j => .free 0 j
        | none =>
            match freeSlot x rest with
            | .free i j => .free (i + 1) j
            | ends => ends

/-- `dir_empty`. -/
def dirEmpty (x : Env) : List Bufferful → Except Fault Bool
  | [] => .ok true
  | b :: rest =>
      if !x.buf b.sector then .error .null
      else
        match b.entries.find? fun d => d.fsName = [] || !d.deleted with
        | some d => .ok (d.fsName = [])
        | none => dirEmpty x rest

/-- An entry is written. -/
def change (bufs : List Bufferful) (loc : ℕ × ℕ) (f : Dirent → Dirent) : List Bufferful :=
  bufs.modify loc.1 fun b => { b with entries := b.entries.modify loc.2 f }

namespace Server

/-- An entry of a directory is written. -/
def setEntry (s : Server) (dir : ℕ) (loc : ℕ × ℕ) (f : Dirent → Dirent) : Server :=
  { s with dirs := Function.update s.dirs dir (change (s.dirs dir) loc f) }

/-- `dir_lookup`: where the entry is, and the node. -/
def dirLookup (x : Env) (s : Server) (dir : ℕ) (name : Name) :
    Except Fault (Server × Option ((ℕ × ℕ) × ℕ)) :=
  match scan x (s.dirs dir) name with
  | none => .ok (s, none)
  | some (loc, d) => do
      let (s, o) ← s.getNode x d.fsClstart
      return (s, o.map fun o => (loc, o))

/-- The header of a new file, and the entries of a new directory. -/
def created (x : Env) (s : Server) (f : File) (type : ℕ) : Server :=
  { s with
    files := Function.update s.files x.block
      ⟨0, 1, type, (s.files f.fFile).fsProt, f.fPerms[0].permUid⟩
    dirs := Function.update s.dirs x.block
      (if type = FT_DIR then [⟨x.block, List.replicate 6 ⟨[], 0⟩⟩] else []) }

/-- `create_file`. -/
def createFile (x : Env) (s : Server) (f : File) (type : ℕ) : Except Fault (Server × Option ℕ) :=
  if x.block = 0 || !x.buf x.block then .ok (s, none)
  else if !x.buf f.fFile then .error .null
  else (s.created x f type).getNode x x.block

/-- `uncreate_file`. -/
def uncreateFile (x : Env) (s : Server) (d : ℕ) : Except Fault Server :=
  match s.first d with
  | none => .error .null
  | some o => if o.oRefs = 1 ∧ x.buf d then s.derefNode d else .error .assert

/-- The entry of a new file is written. -/
def fill (s : Server) (dir : ℕ) (bufs : List Bufferful) (name : Name) (o : ℕ) :
    Except Fault (Server × Option ℕ) :=
  if MAXNAMLEN ≤ name.length then .error .overrun
  else .ok ({ s with dirs := Function.update s.dirs dir bufs }, some o)

/-- `dir_newfile`. -/
def dirNewfile (x : Env) (s : Server) (f : File) (name : Name) (type : ℕ) :
    Except Fault (Server × Option ℕ) :=
  if !x.buf f.fFile then .ok (s, none)
  else do
    let (s, o) ← s.createFile x f type
    match o with
    | none => return (s, none)
    | some o =>
        match freeSlot x (s.dirs f.fFile) with
        | .free i j =>
            s.fill f.fFile (change (s.dirs f.fFile) (i, j) fun _ => ⟨name, o⟩) name o
        | .unreadable => do
            let s ← s.uncreateFile x o
            return (s, none)
        | .full =>
            match x.space with
            | none => do
                let s ← s.uncreateFile x o
                return (s, none)
            | some (sector, more) =>
                if !x.buf sector then .error .null
                else
                  s.fill f.fFile
                    (s.dirs f.fFile ++ [⟨sector, ⟨name, o⟩ :: List.replicate more ⟨[], 0⟩⟩]) name o

end Server

/-! ## Names with a revision -/

/-- `isdigit`. -/
def isdigit (c : UChar) : Bool := 48 ≤ c.toNat && c.toNat ≤ 57

/-- `atoi`. -/
def atoi (s : Name) : ℕ :=
  min ((s.takeWhile isdigit).foldl (fun val c => val * 10 + (c.toNat - 48)) 0) (2 ^ 31 - 1)

/-- `parse_name`: the name, the revision, and whether the name is a copy. -/
def parseName (nm : Name) : Name × ℕ × Bool :=
  let digits := (nm.reverse.takeWhile (· ≠ 44#8)).reverse
  match nm.reverse.dropWhile (· ≠ 44#8) with
  | _ :: c :: base =>
      if c = 44#8 ∧ isdigit (digits.headD 0) then (base.reverse, atoi digits, true)
      else (nm, 0, false)
  | _ => (nm, 0, false)

/-! ## Opening -/

/-- `perm_calc` of a client. -/
def File.permCalc (f : File) (prot : Prot) : ULong :=
  (Permissions.permCalc (f.fPerms.toList.take f.fNperm) prot).zeroExtend 32

namespace Server

/-- The client moves to another file. -/
def move (s : Server) (f : File) (o : ℕ) (fPerm : ULong) :
    Except Fault (Server × File × Option Error) := do
  let s ← s.derefNode f.fFile
  return (s, { f with fFile := o, fPerm := fPerm }, none)

/-- A file is given back before an error. -/
def giveUp (s : Server) (f : File) (o : ℕ) (err : Error) :
    Except Fault (Server × File × Option Error) := do
  let s ← s.derefNode o
  return (s, f, some err)

/-- `vfs_open` of a new file. -/
def openNew (x : Env) (s : Server) (f : File) (mBuf : Name) (mArg : ULong) :
    Except Fault (Server × File × Option Error) :=
  if f.fPerm &&& (ACC_WRITE ||| ACC_CHMOD) = 0 then .ok (s, f, some .EPERM)
  else if s.roflag then .ok (s, f, some .EROFS)
  else do
    let (s, o) ← s.dirNewfile x f mBuf (if has mArg ACC_DIR then FT_DIR else FT_FILE)
    match o with
    | none => return (s, f, some .ENOMEM)
    | some o => s.move f o (ACC_READ ||| ACC_WRITE ||| ACC_CHMOD)

/-- A new revision on top of a file. -/
def pushed (s : Server) (dir : ℕ) (loc : ℕ × ℕ) (o o2 : ℕ) : Server :=
  let s := s.setEntry dir loc fun de => { de with fsClstart := o2 }
  { s with
    files := Function.update s.files o2
      { s.files o2 with fsPrev := o, fsRev := wrap ((s.files o).fsRev + 1) } }

/-- `vfs_open` of a file that is there. -/
def openFound (x : Env) (s : Server) (f : File) (loc : ℕ × ℕ) (o : ℕ) (mArg : ULong) :
    Except Fault (Server × File × Option Error) :=
  if !x.buf o then .error .null
  else
    let fs := s.files o
    let want := mArg &&& (ACC_READ ||| ACC_WRITE ||| ACC_CHMOD)
    let perms := f.permCalc fs.fsProt
    let perms := if f.fPerms[0].permUid = fs.fsOwner then perms ||| ACC_CHMOD else perms
    if want &&& perms ≠ want then s.giveUp f o .EPERM
    else if s.roflag && has want (ACC_WRITE ||| ACC_CREATE ||| ACC_CHMOD) then
      s.giveUp f o .EROFS
    else if has mArg ACC_CREATE then
      if !has perms ACC_WRITE || fs.fsType != FT_FILE then s.giveUp f o .EPERM
      else do
        let (s, o2) ← s.createFile x f FT_FILE
        match o2 with
        | none => .error .null
        | some o2 => do
            let s ← (s.pushed f.fFile loc o o2).derefNode o
            s.move f o2 (mArg ||| (perms &&& ACC_CHMOD))
    else s.move f o (mArg ||| (perms &&& ACC_CHMOD))

/-- The walk to a revision, if one is asked for. -/
def revision (x : Env) (s : Server) (rev : ℕ) (found : Option ((ℕ × ℕ) × ℕ)) :
    Except Fault (Server × Option ((ℕ × ℕ) × ℕ)) :=
  match found with
  | none => .ok (s, none)
  | some (loc, o) =>
      if rev = 0 then .ok (s, some (loc, o))
      else do
        let (s, o) ← s.walkto x rev ((s.files o).fsRev + 1) o
        return (s, o.map fun o => (loc, o))

/-- `vfs_open`: the client's file after it, and the answer. -/
def vfsOpen (x : Env) (s : Server) (f : File) (mBuf : Name) (mArg : ULong) :
    Except Fault (Server × File × Option Error) :=
  if !x.buf f.fFile then .ok (s, f, some .strerror)
  else if (s.files f.fFile).fsType ≠ FT_DIR then .ok (s, f, some .ENOTDIR)
  else
    let mArg := if mArg = 0 then ACC_READ else mArg
    let (nm, rev, copy) := parseName mBuf
    if copy && !x.name then .error .null
    else if rev ≠ 0 ∧ has mArg ACC_CREATE then .ok (s, f, some .EINVAL)
    else do
      let (s, found) ← s.dirLookup x f.fFile nm
      let (s, found) ← s.revision x rev found
      match found with
      | none =>
          if !has mArg ACC_CREATE then return (s, f, some .ESRCH) else s.openNew x f mBuf mArg
      | some (loc, o) => s.openFound x f loc o mArg

/-! ## Removing -/

end Server

/-- What `revp` points to: the entry, or the header of a newer revision. -/
inductive Revp where
  | entry
  | header (d : ℕ)
  deriving DecidableEq, Repr

namespace Server

/-- `*revp = prev`. -/
def patch (s : Server) (dir : ℕ) (loc : ℕ × ℕ) (revp : Revp) (prev : ℕ) : Server :=
  match revp with
  | .entry => s.setEntry dir loc fun de => { de with fsClstart := prev }
  | .header d => { s with files := Function.update s.files d { s.files d with fsPrev := prev } }

/-- A file is removed, or marked where it is open. -/
def zap (x : Env) (s : Server) (d : ℕ) (o : OpenFile) : Except Fault Server :=
  if 1 < o.oRefs then (s.setNode d { o with oDeleted := true }).derefNode d
  else s.uncreateFile x d

/-- The loop of `vfs_remove`: so many revisions at most from `da` on. -/
def removeLoop (x : Env) (dir : ℕ) (loc : ℕ × ℕ) (rev : ℕ) :
    ℕ → Server → Revp → ℕ → Except Fault (Server × Option Error)
  | _, s, _, 0 => .ok (s, none)
  | 0, _, _, _ + 1 => .error .endless
  | n + 1, s, revp, da + 1 => do
      let (s, got) ← s.getNode x (da + 1)
      match got with
      | none => .error .null
      | some d =>
          if !x.buf d then .error .null
          else
            let fs := s.files d
            if rev ≠ 0 ∧ fs.fsRev ≠ rev then do
              let s ← s.derefNode d
              if fs.fsRev < rev then return (s, none)
              else removeLoop x dir loc rev n s (.header d) fs.fsPrev
            else
              match s.first d with
              | none => .error .null
              | some o =>
                  if o.oRefs = 2 ∧ o.oHashed then do
                    let s ← (s.setNode d { o with oHashed := false }).derefNode d
                    return (s, some .EAGAIN)
                  else do
                    let s ← (s.patch dir loc revp fs.fsPrev).zap x d o
                    if rev ≠ 0 then return (s, none)
                    else removeLoop x dir loc rev n s revp fs.fsPrev

/-- An error of `vfs_remove` once it has the node of the entry. -/
def removeErr (x : Env) (s : Server) (f : File) (odirent : ℕ) : Except Fault (Option Error) :=
  if f.permCalc (s.files f.fFile).fsProt &&& (ACC_WRITE ||| ACC_CHMOD) = 0 then .ok (some .EPERM)
  else if s.roflag then .ok (some .EROFS)
  else if !x.buf odirent then .ok (some .strerror)
  else if (s.files odirent).fsType = FT_DIR then do
    let empty ← dirEmpty x (s.dirs odirent)
    return if empty then none else some .EBUSY
  else .ok none

/-- `vfs_remove`. -/
def vfsRemove (x : Env) (s : Server) (f : File) (mBuf : Name) :
    Except Fault (Server × Option Error) :=
  if !x.buf f.fFile then .ok (s, some .strerror)
  else if (s.files f.fFile).fsType ≠ FT_DIR then .ok (s, some .ENOTDIR)
  else
    let (nm, rev, copy) := parseName mBuf
    if copy && !x.name then .error .null
    else do
      let (s, found) ← s.dirLookup x f.fFile nm
      match found with
      | none => return (s, some .ESRCH)
      | some (loc, odirent) => do
          let err ← s.removeErr x f odirent
          let s ← s.derefNode odirent
          match err with
          | some err => return (s, some err)
          | none => do
              let (s, err) ←
                s.removeLoop x f.fFile loc rev ((s.files odirent).fsRev + 1) .entry odirent
              match err with
              | some err => return (s, some err)
              | none =>
                  if rev ≠ 0 then return (s, none)
                  else
                    return (s.setEntry f.fFile loc fun de =>
                      { de with fsName := de.fsName.modify 0 (· ||| 0x80) }, none)

/-! ## Renaming -/

/-- A file that is not there is created by `get_dirent`. -/
def orCreate (x : Env) (s : Server) (f : File) (name : Name) :
    Option ((ℕ × ℕ) × ℕ) → Except Fault (Server × Except Error ((ℕ × ℕ) × ℕ))
  | some found => .ok (s, .ok found)
  | none => do
      let (s, o) ← s.dirNewfile x f name FT_FILE
      match o with
      | none => return (s, .error .EINVAL)
      | some _ => do
          let (s, found) ← s.dirLookup x f.fFile name
          match found with
          | none => .error .null
          | some (loc, o) => do
              let s ← s.derefNode o
              return (s, .ok (loc, o))

/-- What is to be replaced has to be a file. -/
def asFile (x : Env) (s : Server) (found : (ℕ × ℕ) × ℕ) :
    Except Fault (Server × Except Error ((ℕ × ℕ) × ℕ)) :=
  if s.first found.2 = none ∨ !x.buf found.2 then .error .null
  else if (s.files found.2).fsType = FT_DIR then .ok (s, .error .EISDIR)
  else .ok (s, .ok found)

/-- `get_dirent`. The node is asked for where a file may be created, and given back where not. -/
def getDirent (x : Env) (s : Server) (f : File) (name : Name) (create : Bool) :
    Except Fault (Server × Except Error ((ℕ × ℕ) × ℕ)) :=
  if !x.buf f.fFile then .ok (s, .error .strerror)
  else if (s.files f.fFile).fsType ≠ FT_DIR then .ok (s, .error .ENOTDIR)
  else do
    let (s, found) ← s.dirLookup x f.fFile name
    if create then do
      let (s, found) ← s.orCreate x f name found
      match found with
      | .error err => return (s, .error err)
      | .ok found => s.asFile x found
    else
      match found with
      | none => .error .null
      | some (loc, o) => do
          let s ← s.derefNode o
          return (s, .ok (loc, o))

/-- What an entry has is swapped with another. -/
def swap (s : Server) (src : ℕ) (lsrc : ℕ × ℕ) (dest : ℕ) (ldest : ℕ × ℕ) : Server :=
  let at_ (dir : ℕ) (loc : ℕ × ℕ) : ℕ :=
    ((((s.dirs dir)[loc.1]?).bind fun b => b.entries[loc.2]?).map Dirent.fsClstart).getD 0
  let s' := s.setEntry src lsrc fun de => { de with fsClstart := at_ dest ldest }
  s'.setEntry dest ldest fun de => { de with fsClstart := at_ src lsrc }

/-- `do_rename`. -/
def doRename (x : Env) (s : Server) (fsrc : File) (src : Name) (fdest : File) (dest : Name) :
    Except Fault (Server × Option Error) := do
  let (s, desrc) ← s.getDirent x fsrc src false
  match desrc with
  | .error err => return (s, some err)
  | .ok (lsrc, _) => do
      let (s, dedest) ← s.getDirent x fdest dest true
      match dedest with
      | .error err => return (s, some err)
      | .ok (ldest, odest) =>
          let s := s.swap fsrc.fFile lsrc fdest.fFile ldest
          let s := s.setEntry fsrc.fFile lsrc fun de =>
            { de with fsName := de.fsName.modify 0 (· ||| 0x80) }
          match s.first odest with
          | none => .error .null
          | some o => do
              let s ← s.zap x odest o
              return (s, none)

end Server

end Vsta.Vstafs.Nodes
