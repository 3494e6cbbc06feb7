import Vsta.Hash
import Vsta.Vstafs.Requests
import Mathlib.Logic.Function.Basic

/-!
# The main loop of the vstafs server

Clients and pending renames: `main.c`, and `vfs_rename` and `cancel_rename` of `open.c`. Each
connection has a `struct file`, found through the hash `filehash`. A rename takes two messages of
two connections. The first is put aside in `rename_pending` under the id of the transaction and
answered together with the second.

`malloc` answers with an address that is not in use, `free` makes it unused, and to read or write
a `struct file` at an unused address, or at none, has no result.
-/

set_option autoImplicit false

namespace Vsta.Vstafs

/-- Where a `struct file` lies in memory. -/
abbrev Addr := ℕ

/-- What a `struct file` keeps of a pending rename. The node it has open, its position and
its permissions are left to the outcomes of the requests. -/
structure File where
  fRenameId : ULong
  fRenameMsg : Msg
  deriving DecidableEq, Repr

/-- The server: its hashes and the memory of its clients. -/
structure Server where
  filehash : Hash Addr
  renamePending : Option (Hash Addr)
  files : Addr → Option File
  roflag : Bool

/-- What the server finds while it handles a message. -/
structure Outcome where
  /-- The header of the root directory is in core. -/
  root : Bool
  /-- The answer of `malloc` for a `struct file`, and what is in that memory. -/
  mem : Option (Addr × File)
  /-- There is memory for a node of a hash, and for a hash. -/
  node : Bool
  table : Bool
  /-- The answer of `do_rename`. -/
  doRename : Option FsErr
  /-- The byte in front of the buffer of the message. -/
  before : UChar
  open_ : OpenOutcome
  read_ : ReadOutcome
  write_ : WriteOutcome
  remove_ : RemoveOutcome
  stat_ : Bool
  wstat_ : WstatOutcome
  fid_ : Bool

namespace Server

/-- The `struct file` at an address that is in use. -/
def file (s : Server) (f : Option Addr) : Option File := f.bind s.files

/-- `hash_lookup` in `rename_pending`, which may not exist yet. -/
def pendingAt (s : Server) (id : ULong) : Option Addr :=
  s.renamePending.bind (Hash.lookup · id)

/-- `hash_delete` in `rename_pending`. -/
def deletePending (s : Server) (id : ULong) : Server :=
  { s with renamePending := s.renamePending.map (Hash.delete · id) }

/-- A field of a `struct file` is written. -/
def setFile (s : Server) (f : Addr) (file : File) : Server :=
  { s with files := Function.update s.files f (some file) }

/-- `new_client`. -/
def newClient (s : Server) (x : Outcome) (m : Msg) : Server × List Sent :=
  if !x.root then (s, [msgErr m.mSender .ENOMEM])
  else match x.mem with
    | none => (s, [msgErr m.mSender .strerror])
    | some (f, old) =>
        if !x.node then (s, [msgErr m.mSender .ENOMEM])
        else
          ({ s.setFile f { old with fRenameId := 0 } with
              filehash := s.filehash.insert m.mSender f }, [msgAccept m.mSender])

/-- `dup_client`. -/
def dupClient (s : Server) (x : Outcome) (m : Msg) (fold : Option Addr) :
    Option (Server × List Sent) :=
  match x.mem with
  | none => some (s, [msgErr m.mSender .strerror])
  | some (f, _) =>
      (s.file fold).map fun old =>
        if !x.node then (s, [msgErr m.mSender .ENOMEM])
        else
          ({ s.setFile f old with filehash := s.filehash.insert m.mArg f },
            [msgReply m.mSender])

/-- `cancel_rename`. -/
def cancelRename (s : Server) (f : Addr) (file : File) : Server :=
  (s.deletePending file.fRenameId).setFile f { file with fRenameId := 0 }

/-- `dead_client`: the client has to be known. -/
def deadClient (s : Server) (m : Msg) (f : Option Addr) : Option (Server × List Sent) :=
  match f with
  | none => none
  | some f =>
      (s.files f).map fun file =>
        let s := { s with filehash := s.filehash.delete m.mSender }
        let s := if file.fRenameId ≠ 0 then s.cancelRename f file else s
        ({ s with files := Function.update s.files f none }, [])

/-- The first half of a rename is put aside. -/
def registerRename (s : Server) (x : Outcome) (m : Msg) (f : Option Addr) (pending : Hash Addr) :
    Option (Server × List Sent) :=
  match pending.lookup m.mArg1 with
  | some _ => some (s, [msgErr m.mSender .EBUSY])
  | none =>
      if !x.node then some (s, [msgErr m.mSender .strerror])
      else match f with
        | none => none
        | some f =>
            (s.files f).map fun _ =>
              ({ s.setFile f ⟨m.mArg1, m⟩ with renamePending := some (pending.insert m.mArg1 f) },
                [])

/-- The second half runs the rename and answers both. -/
def completeRename (s : Server) (x : Outcome) (m : Msg) (f : Option Addr) :
    Option (Server × List Sent) :=
  match s.pendingAt m.mArg1 with
  | none => some (s, [msgErr m.mSender .ESRCH])
  | some f2 =>
      let s := s.deletePending m.mArg1
      match s.files f2, s.file f with
      | some file2, some _ =>
          let sent := match x.doRename with
            | some errstr => [msgErr m.mSender errstr, msgErr file2.fRenameMsg.mSender errstr]
            | none => [msgReply m.mSender, msgReply file2.fRenameMsg.mSender]
          some (s.setFile f2 { file2 with fRenameId := 0 }, sent)
      | _, _ => none

/-- `vfs_rename`. -/
def vfsRename (s : Server) (x : Outcome) (m : Msg) (f : Option Addr) :
    Option (Server × List Sent) :=
  if m.mArg1 = 0 ∨ validFname x.before m.mBuf = false then
    some (s, [msgErr m.mSender .EINVAL])
  else if s.roflag then some (s, [msgErr m.mSender .EROFS])
  else match s.renamePending, x.table with
    | none, false => some (s, [msgErr m.mSender .strerror])
    | pending, _ =>
        -- on first use, the hash is created
        let hash := pending.getD []
        let s := { s with renamePending := some hash }
        if m.mArg = 0 then s.registerRename x m f hash else s.completeRename x m f

/-- A request on a file: the `struct file` is used, and what is sent follows from the outcome. -/
def onFile (s : Server) (f : Option Addr) (sent : List Sent) : Option (Server × List Sent) :=
  (s.file f).map fun _ => (s, sent)

/-- One round of `vfs_main`: the state and the answers, in order. -/
def handle (s : Server) (x : Outcome) (m : Msg) : Option (Server × List Sent) :=
  let f := s.filehash.lookup m.mSender
  match m.mOp with
  | .M_CONNECT => some (s.newClient x m)
  | .M_DISCONNECT => s.deadClient m f
  | .M_DUP => s.dupClient x m f
  -- "presumably the operation is all done"
  | .M_ABORT => some (s, [msgReply m.mSender])
  | .FS_OPEN =>
      if validFname x.before m.mBuf = false then some (s, [msgErr m.mSender .EINVAL])
      else s.onFile f (vfsOpen s.roflag x.open_ m)
  | .FS_ABSREAD =>
      if m.mArg1.slt 0 then some (s, [msgErr m.mSender .EINVAL])
      else s.onFile f (vfsRead x.read_ m)
  | .FS_READ => s.onFile f (vfsRead x.read_ m)
  | .FS_ABSWRITE =>
      if m.mArg1.slt 0 then some (s, [msgErr m.mSender .EINVAL])
      else s.onFile f (vfsWrite x.write_ m)
  | .FS_WRITE => s.onFile f (vfsWrite x.write_ m)
  | .FS_SEEK => s.onFile f (vfsSeek m)
  | .FS_REMOVE => s.onFile f (vfsRemove s.roflag x.remove_ m)
  | .FS_STAT => s.onFile f (vfsStat x.stat_ m)
  | .FS_WSTAT => s.onFile f (vfsWstat s.roflag x.wstat_ m)
  | .FS_FID => s.onFile f (vfsFid x.fid_ m)
  | .FS_RENAME => s.vfsRename x m f
  | .unknown => some (s, [msgErr m.mSender .EINVAL])

end Server

/-! ## The connections -/

/-- A connection as the kernel sees it: there is none, it has no request outstanding, or its
request has not been answered. -/
inductive Conn where
  | absent | idle | waiting
  deriving DecidableEq, Repr

/-- The server and its connections. `stray` records that an answer was sent for a connection with no
outstanding request. -/
structure System where
  server : Server
  conn : Handle → Conn
  stray : Bool

namespace System

/-- An answer reaches its connection. A connection that is refused is gone. -/
def deliver (s : System) (sent : Sent) : System :=
  if s.conn sent.who = .waiting then
    { s with conn := Function.update s.conn sent.who .idle }
  else
    { s with stray := true }

/-- A message that needs an answer is outstanding. -/
def receive (s : System) (m : Msg) : System :=
  let conn := if m.mOp = .M_DISCONNECT then Conn.absent else .waiting
  { s with conn := Function.update s.conn m.mSender conn }

/-- What the kernel makes of a connect that was refused and of a duplicate that was granted. -/
def settle (s : System) (m : Msg) (sent : List Sent) : System :=
  match m.mOp with
  | .M_CONNECT =>
      if msgAccept m.mSender ∈ sent then s
      else { s with conn := Function.update s.conn m.mSender .absent }
  | .M_DUP =>
      if msgReply m.mSender ∈ sent then { s with conn := Function.update s.conn m.mArg .idle }
      else s
  | _ => s

/-- The messages that can arrive. A connect and a duplicate name a connection that does not exist
yet; a connection sends one request at a time, but it may be closed or, once, aborted while
its request is outstanding. Memory that is handed out is not in use. -/
def Legal (s : System) (x : Outcome) (m : Msg) : Prop :=
  (∀ f old, x.mem = some (f, old) → s.server.files f = none) ∧
    match m.mOp with
    | .M_CONNECT => s.conn m.mSender = .absent
    | .M_DISCONNECT => s.conn m.mSender ≠ .absent
    | .M_ABORT => s.conn m.mSender ≠ .absent
    | .M_DUP => s.conn m.mSender = .idle ∧ s.conn m.mArg = .absent
    | _ => s.conn m.mSender = .idle

/-- The state after a message that the server has handled. -/
def after (s : System) (m : Msg) (handled : Server × List Sent) : System :=
  (handled.2.foldl deliver { s.receive m with server := handled.1 }).settle m handled.2

/-- The state after a message. -/
def next (s : System) (x : Outcome) (m : Msg) : Option System :=
  (s.server.handle x m).map (s.after m)

/-- No client, and no rename yet. -/
def start (roflag : Bool) : System :=
  ⟨⟨[], none, fun _ => none, roflag⟩, fun _ => .absent, false⟩

end System

/-- One message. -/
def Step (s : System) (label : Outcome × Msg) (t : System) : Prop :=
  s.Legal label.1 label.2 ∧ s.next label.1 label.2 = some t

end Vsta.Vstafs
