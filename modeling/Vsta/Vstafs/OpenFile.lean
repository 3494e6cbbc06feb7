import Vsta.Hash
import Vsta.Vstafs.BlockMap
import Vsta.Vstafs.Trim

/-!
# Requests on one file of vstafs

A plain file and the clients that have it open: `node.c`, `do_write`, `vfs_write` and
`vfs_read` of `rw.c`, `vfs_close` and `uncreate_file` of `open.c`, and `vfs_seek`, `dup_client`
and `dead_client` of `main.c`. Other requests of the server show as `others`: they may move
sectors that the file does not have and change bytes outside the file.

The state carries the file as its clients should see it (`flat`): a flat array of bytes that starts
as the file is found at the first open and takes what is written. No function reads it.
-/

set_option autoImplicit false

namespace Vsta.Vstafs.Bytes

/-- `struct openfile`. -/
structure OpenFile where
  oHiwrite : ℕ
  oRefs : ℕ
  oDeleted : Bool
  deriving DecidableEq, Repr

/-- What `struct file` says about the file a client has open. -/
structure File where
  fPos : ℕ
  fPerm : ULong
  deriving DecidableEq, Repr

/-- A flat array of bytes: its length, and the bytes that somebody put there. -/
structure Flat where
  len : ℕ
  bytes : ℕ → Option UChar

/-- The bytes put at a position, of which `cnt` are acknowledged. -/
def Flat.write (flat : Flat) (pos cnt : ℕ) (buf : List UChar) : Flat :=
  ⟨if cnt = 0 then flat.len else max flat.len (pos + cnt), overwrite flat.bytes pos buf⟩

/-- A file, its node when it is open, and the entries of `filehash` that have it open. -/
structure State where
  disk : Disk
  fs : FsFile
  node : Option OpenFile
  clients : Hash File
  flat : Flat

/-- An answer: an error, a count of bytes written, or bytes in segments. -/
inductive Reply where
  | err
  | count (cnt : ℕ)
  | segs (segs : List (List UChar))
  deriving DecidableEq, Repr

namespace State

/-- The `struct file` of a client is changed. -/
def setFile (s : State) (who : Handle) (f : File) : State :=
  { s with clients := s.clients.map fun node => if node.1 = who then (who, f) else node }

/-! ## Opening and closing -/

/-- The file as it is found. -/
def found (s : State) : Flat :=
  ⟨s.fs.fsLen, fun pos => if pos < s.fs.fsLen then byteAt s.disk s.fs pos else none⟩

/-- `get_node`: a reference more, or a new node. -/
def getNode (s : State) : State :=
  match s.node with
  | some o => { s with node := some { o with oRefs := o.oRefs + 1 } }
  | none => { s with node := some ⟨s.fs.fsLen, 1, false⟩, flat := s.found }

/-- `vfs_open` of this file, found and permitted: the client comes from a directory with its
position there. -/
def vfsOpen (s : State) (who : Handle) (fPos : ℕ) (fPerm : ULong) : State :=
  { s.getNode with clients := s.clients.insert who ⟨fPos, fPerm⟩ }

/-- `ref_node`. -/
def refNode (s : State) : State :=
  { s with node := s.node.map fun o => { o with oRefs := o.oRefs + 1 } }

/-- `dup_client`. -/
def dupClient (s : State) (who new : Handle) : Option State :=
  (s.clients.lookup who).map fun f => { s.refNode with clients := s.clients.insert new f }

/-- `deref_node`. -/
def derefNode (s : State) (o : OpenFile) : State :=
  { s with node := if o.oRefs = 1 then none else some { o with oRefs := o.oRefs - 1 } }

/-- `uncreate_file`: nothing is left of the file. -/
def uncreateFile (s : State) : Option State :=
  match fileShrink s.disk s.fs OFF_DATA with
  | none => none
  | some (disk, fs) =>
      match fs.fsBlks with
      | [] => none
      | a :: _ =>
          if a.aLen ≠ 1 then none
          else some { s with
            disk := freeBlock disk a.aStart 1, fs := { fs with fsBlks := [] }, node := none }

/-- `vfs_close`: the last client trims the file if it may write. -/
def vfsClose (s : State) (f : File) : Option State :=
  match s.node with
  | none => none
  | some o =>
      if o.oRefs = 1 then
        if o.oDeleted then s.uncreateFile
        else if has f.fPerm ACC_WRITE then
          (fileShrink s.disk s.fs o.oHiwrite).map fun (disk, fs) =>
            { s with disk := disk, fs := fs }.derefNode o
        else some (s.derefNode o)
      else some (s.derefNode o)

/-- `dead_client`. -/
def deadClient (s : State) (who : Handle) : Option State :=
  (s.clients.lookup who).bind fun f => { s with clients := s.clients.delete who }.vfsClose f

/-! ## Positions, writing and reading -/

/-- `vfs_seek`. -/
def vfsSeek (s : State) (who : Handle) (f : File) (mArg : ULong) : State × Reply :=
  if mArg.slt 0 then (s, .err)
  else (s.setFile who { f with fPos := word (mArg.toNat + OFF_DATA) }, .count 0)

/-- What `do_write` finds for a segment: the header, and the outcomes of its calls of `bmap`. -/
structure SegOutcome where
  header : Bool
  calls : ℕ → BmapOutcome

/-- What the loop of `vfs_write` leaves. `put` is how many bytes went to the file; the code
does not count those of a segment that failed. -/
structure Written where
  disk : Disk
  fs : FsFile
  oHiwrite : ℕ
  fPos : ℕ
  cnt : ℕ
  err : Bool
  put : ℕ

/-- The loop of `vfs_write` over the segments, with `do_write` for each. -/
def writeSegs (env : ℕ → SegOutcome) (disk : Disk) (fs : FsFile) (oHiwrite fPos : ℕ) :
    List (List UChar) → Option Written
  | [] => some ⟨disk, fs, oHiwrite, fPos, 0, false, 0⟩
  | seg :: rest =>
      if !(env 0).header then some ⟨disk, fs, oHiwrite, fPos, 0, true, 0⟩
      else match writeLoop (env 0).calls disk fs fPos seg with
        | none => none
        | some (disk, fs, left) =>
            if 0 < left then some ⟨disk, fs, oHiwrite, fPos, 0, true, seg.length - left⟩
            else
              let fPos := word (fPos + seg.length)
              let oHiwrite := if oHiwrite < fPos then fPos else oHiwrite
              (writeSegs (fun x => env (x + 1)) disk fs oHiwrite fPos rest).map fun w =>
                { w with cnt := word (seg.length + w.cnt), put := seg.length + w.put }

/-- `vfs_write`. -/
def vfsWrite (s : State) (who : Handle) (f : File) (env : ℕ → SegOutcome)
    (segs : List (List UChar)) : Option (State × Reply) :=
  match s.node with
  | none => none
  | some o =>
      if !has f.fPerm ACC_WRITE then some (s, .err)
      else (writeSegs env s.disk s.fs o.oHiwrite f.fPos segs).map fun w =>
        ({ s with
            disk := w.disk
            fs := w.fs
            node := some { o with oHiwrite := w.oHiwrite }
            flat := s.flat.write f.fPos w.cnt (segs.flatten.take w.put) }.setFile who
            { f with fPos := w.fPos },
          if w.cnt = 0 ∧ w.err then .err else .count w.cnt)

/-- The loop of `vfs_read`: the segments of the answer, at most `nseg` more. -/
def readLoop (calls : ℕ → BmapOutcome) (disk : Disk) (fs : FsFile) :
    ℕ → ℕ → ℕ → Option (Disk × FsFile × List (List UChar))
  | 0, _, _ => some (disk, fs, [])
  | nseg + 1, fPos, lim =>
      if lim = 0 then some (disk, fs, [])
      else match bmap (calls 0) disk fs fPos lim with
        | none => none
        | some (disk, fs, none) => some (disk, fs, [])
        | some (disk, fs, some (p, sz)) =>
            (readLoop (fun call => calls (call + 1)) disk fs nseg (word (fPos + sz))
              (lim - sz)).map fun (disk', fs', segs) => (disk', fs', disk.bytes p sz :: segs)

/-- `vfs_read` of a plain file. -/
def vfsRead (s : State) (who : Handle) (f : File) (env : SegOutcome) (mArg : ULong) :
    Option (State × Reply) :=
  if !env.header then some (s, .err)
  else if !has f.fPerm ACC_READ then some (s, .err)
  else if s.fs.fsLen ≤ f.fPos then some (s, .segs [])
  else
    let lim := min mArg.toNat (s.fs.fsLen - f.fPos)
    (readLoop env.calls s.disk s.fs MSGSEGS f.fPos lim).map fun (disk, fs, segs) =>
      ({ s with disk := disk, fs := fs }.setFile who
        { f with fPos := word (f.fPos + segs.flatten.length) }, .segs segs)

/-! ## Requests -/

/-- A request about the file. Those with a position of their own set it first. -/
inductive Request where
  | open_ (who : Handle) (fPos : ℕ) (fPerm : ULong)
  | dup (who new : Handle)
  | disconnect (who : Handle)
  | seek (who : Handle) (mArg : ULong)
  | read (who : Handle) (env : SegOutcome) (mArg : ULong)
  | absRead (who : Handle) (env : SegOutcome) (mArg mArg1 : ULong)
  | write (who : Handle) (env : ℕ → SegOutcome) (segs : List (List UChar))
  | absWrite (who : Handle) (env : ℕ → SegOutcome) (segs : List (List UChar)) (mArg1 : ULong)
  | others (disk : Disk)

/-- `FS_ABSREAD` and `FS_ABSWRITE` of the main loop: the position is set, then the request is
served like the one without. -/
def absolute (s : State) (who : Handle) (f : File) (mArg1 : ULong)
    (serve : State → File → Option (State × Reply)) : Option (State × Reply) :=
  if mArg1.slt 0 then some (s, .err)
  else
    let f := { f with fPos := word (mArg1.toNat + OFF_DATA) }
    serve (s.setFile who f) f

/-- The main loop, for a message about this file. -/
def serve (s : State) : Request → Option (State × Reply)
  | .open_ who fPos fPerm => some (s.vfsOpen who fPos fPerm, .count 0)
  | .dup who new => (s.dupClient who new).map (·, .count 0)
  | .disconnect who => (s.deadClient who).map (·, .count 0)
  | .seek who mArg => (s.clients.lookup who).map fun f => s.vfsSeek who f mArg
  | .read who env mArg => (s.clients.lookup who).bind fun f => s.vfsRead who f env mArg
  | .absRead who env mArg mArg1 => (s.clients.lookup who).bind fun f =>
      s.absolute who f mArg1 fun s f => s.vfsRead who f env mArg
  | .write who env segs => (s.clients.lookup who).bind fun f => s.vfsWrite who f env segs
  | .absWrite who env segs mArg1 => (s.clients.lookup who).bind fun f =>
      s.absolute who f mArg1 fun s f => s.vfsWrite who f env segs
  | .others disk => some ({ s with disk := disk }, .count 0)

/-- What the kernel and the rest of the server keep to: a handle is new when a client
gets it, a position is never inside the header, and other requests leave the sectors of the
file and their bytes alone. -/
def Proper (s : State) : Request → Prop
  | .open_ who fPos _ => s.clients.lookup who = none ∧ OFF_DATA ≤ fPos
  | .dup _ new => s.clients.lookup new = none
  | .others disk => disk.free + disk.held = s.disk.free + s.disk.held ∧
      ∀ pos, byteAt disk s.fs pos = byteAt s.disk s.fs pos
  | _ => True

/-- A request is served. -/
def Step (s : State) (req : Request) (s' : State) : Prop :=
  s.Proper req ∧ ∃ reply, s.serve req = some (s', reply)

end State

end Vsta.Vstafs.Bytes
