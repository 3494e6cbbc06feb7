import Vsta.Hash
import Vsta.Srv.Connections

/-!
# The semaphore server

`srv/sema`: the files are semaphores. Reading one enters it, seeking in one leaves it, and its count
can be written as the field `count`. A client that has to wait is put on the queue of the semaphore
and answered later.

A `struct file` is found through its connection, so the queue is a list of connections. To free one
that is queued leaves the queue with a pointer to nothing, and nothing is said of what the server
does then.
-/

set_option autoImplicit false

namespace Vsta.Semaserver

open Vstafs Service

abbrev ACC_DIR : ULong := 0x20

/-- `struct openfile`. -/
structure Openfile where
  oQueue : List Handle
  oRefs : ℕ
  oCount : ℤ
  deriving DecidableEq, Repr

/-- `struct file`, with the name of the semaphore it has open. -/
structure File where
  fFile : Option ULong
  fEntry : Bool
  fSender : Handle
  fPerm : ULong
  deriving DecidableEq, Repr

namespace File

/-- It is on no queue. -/
def leave (f : File) : File := { f with fEntry := false }

/-- It is on the queue of its semaphore, with whom to answer. -/
def wait (f : File) (sender : Handle) : File := { f with fEntry := true, fSender := sender }

/-- A semaphore is open, with these permissions. -/
def move (f : File) (i perm : ULong) : File := { f with fFile := some i, fPerm := perm }

variable (f : File) (sender : Handle) (i perm : ULong)

@[simp] theorem leave_fFile : f.leave.fFile = f.fFile := rfl
@[simp] theorem leave_fEntry : f.leave.fEntry = false := rfl
@[simp] theorem wait_fFile : (f.wait sender).fFile = f.fFile := rfl
@[simp] theorem wait_fEntry : (f.wait sender).fEntry = true := rfl
@[simp] theorem wait_fSender : (f.wait sender).fSender = sender := rfl
@[simp] theorem move_fFile : (f.move i perm).fFile = some i := rfl
@[simp] theorem move_fEntry : (f.move i perm).fEntry = f.fEntry := rfl

end File

/-- The server. `dangling` records that a `struct file` was freed that is on a queue. -/
structure Server where
  files : Hash Openfile
  filehash : Hash File
  dangling : Bool

/-- What the name of an open denotes: a number that is not in use, a number, or nothing. -/
inductive Name where
  | clone (iname : ULong)
  | number (iname : ULong)
  | bad
  deriving DecidableEq, Repr

/-- The field of a `FS_WSTAT`, with the number its value stands for. -/
inductive Field where
  | count (val : Option ℤ)
  | other
  deriving DecidableEq, Repr

/-- What the server finds while it handles a message: memory, and memory for a node of a hash; the
name, the permissions on the semaphore and the byte in front of the buffer; and the field that is
written. -/
structure Outcome where
  mem : Bool
  node : Bool
  name : Name
  perm : ULong
  before : UChar
  wstat : WstatOutcome
  field : Field

/-! ## One semaphore -/

/-- What `sema_read` makes of a client. -/
inductive Entry where
  | passes | waits | fails
  deriving DecidableEq, Repr

namespace Openfile

/-- The references change. -/
def ref (o : Openfile) (change : ℕ → ℕ) : Openfile := { o with oRefs := change o.oRefs }

/-- The count is set. -/
def recount (o : Openfile) (c : ℤ) : Openfile := { o with oCount := c }

@[simp] theorem ref_oRefs (o : Openfile) (change : ℕ → ℕ) :
    (o.ref change).oRefs = change o.oRefs := rfl
@[simp] theorem ref_oQueue (o : Openfile) (change : ℕ → ℕ) :
    (o.ref change).oQueue = o.oQueue := rfl
@[simp] theorem recount_oCount (o : Openfile) (c : ℤ) : (o.recount c).oCount = c := rfl
@[simp] theorem recount_oQueue (o : Openfile) (c : ℤ) : (o.recount c).oQueue = o.oQueue := rfl

/-- `run_one`: the first of the queue is let through. -/
def runOne (o : Openfile) : Openfile :=
  { o with oQueue := o.oQueue.tail, oCount := o.oCount + 1 }

/-- `sema_read` and `queue`. -/
def read (o : Openfile) (h : Handle) (mem : Bool) : Openfile × Entry :=
  let o := { o with oCount := o.oCount - 1 }
  if 0 ≤ o.oCount then (o, .passes)
  else if mem then ({ o with oQueue := o.oQueue ++ [h] }, .waits)
  else (o, .fails)

/-- `sema_abort` for a client that is queued. -/
def abort (o : Openfile) (h : Handle) : Openfile :=
  { o with oQueue := o.oQueue.erase h, oCount := o.oCount + 1 }

end Openfile

namespace Server

/-- An answer, and nothing else. -/
def answer (s : Server) (sent : Sent) : Option (Server × List Sent) := some (s, [sent])

/-- `new_client`. -/
def newClient (s : Server) (x : Outcome) (m : Msg) : Option (Server × List Sent) :=
  if !x.mem then s.answer (msgErr m.mSender .strerror)
  else if !x.node then s.answer (msgErr m.mSender .ENOMEM)
  else
    let f : File := ⟨none, false, 0, ACC_READ ||| ACC_WRITE⟩
    { s with filehash := s.filehash.insert m.mSender f }.answer (msgAccept m.mSender)

/-- The references to the semaphore of a `struct file` change. -/
def refs (s : Server) (f : File) (change : ℕ → ℕ) : Server :=
  match f.fFile with
  | none => s
  | some i => { s with files := s.files.modify i (Openfile.ref · change) }

/-- `dup_client`. -/
def dupClient (s : Server) (x : Outcome) (m : Msg) (fold : File) : Option (Server × List Sent) :=
  if !x.mem then s.answer (msgErr m.mSender .strerror)
  else if !x.node then s.answer (msgErr m.mSender .ENOMEM)
  else
    ({ s with filehash := s.filehash.insert m.mArg fold }.refs fold (· + 1)).answer
      (msgReply m.mSender)

/-- `sema_close`. -/
def semaClose (s : Server) (f : File) : Option Server :=
  match f.fFile with
  | none => some s
  | some i => (s.files.lookup i).map fun o =>
      if o.oRefs - 1 = 0 then { s with files := s.files.delete i } else s.refs f (· - 1)

/-- `dead_client`. -/
def deadClient (s : Server) (m : Msg) (f : File) : Option (Server × List Sent) :=
  let s := { s with filehash := s.filehash.delete m.mSender }
  (s.semaClose f).map fun closed => ({ closed with dangling := s.dangling || f.fEntry }, [])

/-- The file of the sender moves to a semaphore. -/
def moveTo (s : Server) (m : Msg) (i : ULong) (perm : ULong) : Server :=
  { s with filehash := s.filehash.modify m.mSender (File.move · i perm) }

/-- `sema_open` of a semaphore that does not exist: `dir_newfile`. -/
def openNew (s : Server) (x : Outcome) (m : Msg) (i : ULong) : Option (Server × List Sent) :=
  if !has m.mArg ACC_CREATE then s.answer (msgErr m.mSender .ESRCH)
  else if !(x.mem && x.node) then s.answer (msgErr m.mSender .ENOMEM)
  else
    let s := { s with files := s.files.insert i ⟨[], 1, 0⟩ }
    (s.moveTo m i (ACC_READ ||| ACC_WRITE ||| ACC_CHMOD)).answer (msgReply m.mSender)

/-- `sema_open` of one that does. -/
def openOld (s : Server) (x : Outcome) (m : Msg) (i : ULong) : Option (Server × List Sent) :=
  let want := m.mArg &&& (ACC_READ ||| ACC_WRITE ||| ACC_CHMOD)
  if want &&& x.perm ≠ want then s.answer (msgErr m.mSender .EPERM)
  else
    let s := { s with files := s.files.modify i (Openfile.ref · (· + 1)) }
    (s.moveTo m i (want ||| (x.perm &&& ACC_CHMOD))).answer (msgReply m.mSender)

/-- `sema_open`. -/
def semaOpen (s : Server) (x : Outcome) (m : Msg) (f : File) : Option (Server × List Sent) :=
  if f.fFile.isSome then s.answer (msgErr m.mSender .ENOTDIR)
  else if has m.mArg ACC_DIR then s.answer (msgErr m.mSender .EINVAL)
  else match x.name with
    | .bad => s.answer (msgErr m.mSender .EINVAL)
    | .clone i => s.openNew x m i
    | .number i =>
        match s.files.lookup i with
        | none => s.openNew x m i
        | some _ => s.openOld x m i

/-- `run_one`. -/
def runOne (s : Server) (i : ULong) (o : Openfile) : Option (Server × List Sent) :=
  o.oQueue.head?.bind fun h => (s.filehash.lookup h).map fun f =>
    ({ s with
        files := s.files.modify i Openfile.runOne
        filehash := s.filehash.modify h File.leave },
      [msgReply f.fSender])

/-- `process_queue`, with the number of rounds it can take. -/
def processQueue (s : Server) (i : ULong) : ℕ → Option (Server × List Sent)
  | 0 => some (s, [])
  | n + 1 => (s.files.lookup i).bind fun o =>
      if 0 < o.oCount ∧ o.oQueue ≠ [] then
        (s.runOne i o).bind fun first => (first.1.processQueue i n).map fun rest =>
          (rest.1, first.2 ++ rest.2)
      else some (s, [])

/-- `sema_seek`. -/
def semaSeek (s : Server) (m : Msg) (f : File) : Option (Server × List Sent) :=
  match f.fFile with
  | none => s.answer (msgReply m.mSender)
  | some i => (s.files.lookup i).bind fun o =>
      if o.oQueue = [] then s.answer (msgReply m.mSender)
      else (s.runOne i o).map fun let_ => (let_.1, msgReply m.mSender :: let_.2)

/-- `sema_read`. Without memory for the names of the directory the server writes to no address. -/
def semaRead (s : Server) (x : Outcome) (m : Msg) (f : File) : Option (Server × List Sent) :=
  match f.fFile with
  | none => if x.mem then s.answer (msgReply m.mSender) else none
  | some i =>
      if !has f.fPerm ACC_READ then s.answer (msgErr m.mSender .EPERM)
      else (s.files.lookup i).bind fun o =>
        let s' := { s with
          files := s.files.modify i fun o => (o.read m.mSender x.mem).1 }
        match (o.read m.mSender x.mem).2 with
        | .passes => s'.answer (msgReply m.mSender)
        | .fails => s'.answer (msgErr m.mSender .strerror)
        | .waits =>
            some ({ s' with
              filehash := s.filehash.modify m.mSender (File.wait · m.mSender) }, [])

/-- `sema_abort`. -/
def semaAbort (s : Server) (m : Msg) (f : File) : Option (Server × List Sent) :=
  if f.fEntry then
    f.fFile.bind fun i => (s.files.lookup i).bind fun _ =>
      { s with
        files := s.files.modify i (Openfile.abort · m.mSender)
        filehash := s.filehash.modify m.mSender File.leave }.answer
          (msgReply m.mSender)
  else s.answer (msgReply m.mSender)

/-- `sema_stat`. -/
def semaStat (s : Server) (m : Msg) (f : File) : Option (Server × List Sent) :=
  if !has f.fPerm (ACC_READ ||| ACC_CHMOD) then s.answer (msgErr m.mSender .EPERM)
  else s.answer (msgReply m.mSender)

/-- The count is set, and `process_queue` run. -/
def setCount (s : Server) (i : ULong) (c : ℤ) : Option (Server × List Sent) :=
  (s.files.lookup i).bind fun o =>
    { s with files := s.files.modify i (Openfile.recount · c) }.processQueue i o.oQueue.length

/-- `sema_wstat`. -/
def semaWstat (s : Server) (x : Outcome) (m : Msg) (f : File) : Option (Server × List Sent) :=
  match f.fFile with
  | none => s.answer (msgErr m.mSender .EINVAL)
  | some i =>
      if !has f.fPerm (ACC_WRITE ||| ACC_CHMOD) then s.answer (msgErr m.mSender .EPERM)
      else
        let done := doWstat { x.wstat with chmod := has f.fPerm ACC_CHMOD } m
        if !done.2 then some (s, done.1)
        else match x.field with
          | .count none => none
          | .count (some c) => (s.setCount i c).map fun set =>
              (set.1, done.1 ++ set.2 ++ [msgReply m.mSender])
          | .other => some (s, done.1 ++ [msgErr m.mSender .EINVAL, msgReply m.mSender])

/-- `FS_ABSREAD` of `sema_main`: `sema_seek`, and then `sema_read`. -/
def absread (s : Server) (x : Outcome) (m : Msg) (f : File) : Option (Server × List Sent) :=
  (s.semaSeek m f).bind fun seek => (seek.1.filehash.lookup m.mSender).bind fun f =>
    (seek.1.semaRead x m f).map fun read => (read.1, seek.2 ++ read.2)

/-- One round of `sema_main`. -/
def handle (s : Server) (x : Outcome) (m : Msg) : Option (Server × List Sent) :=
  if s.dangling then none
  else
    let f := s.filehash.lookup m.mSender
    match m.mOp with
    | .M_CONNECT => s.newClient x m
    | .M_DISCONNECT => f.bind (s.deadClient m)
    | .M_DUP => f.bind (s.dupClient x m)
    | .M_ABORT => f.bind (s.semaAbort m)
    | .FS_OPEN =>
        if m.mSeg.length ≠ 1 ∨ validFname x.before m.mBuf = false then
          s.answer (msgErr m.mSender .EINVAL)
        else f.bind (s.semaOpen x m)
    | .FS_SEEK => f.bind (s.semaSeek m)
    | .FS_ABSREAD => f.bind (s.absread x m)
    | .FS_READ => f.bind (s.semaRead x m)
    | .FS_STAT => f.bind (s.semaStat m)
    | .FS_WSTAT => f.bind (s.semaWstat x m)
    | _ => s.answer (msgErr m.mSender .EINVAL)

end Server

/-! ## The server and its connections -/

/-- The server and its connections. -/
structure System where
  server : Server
  lines : Lines Handle

namespace System

/-- A message that can arrive, with a number for `clone` that no semaphore has. -/
def Legal (s : System) (x : Outcome) (m : Msg) : Prop :=
  Srv.Legal s.lines m ∧ ∀ i, x.name = .clone i → s.server.files.lookup i = none

/-- The state after a message. -/
def next (s : System) (x : Outcome) (m : Msg) : Option System :=
  (s.server.handle x m).map fun handled => ⟨handled.1, Srv.after s.lines m handled.2⟩

/-- No client and no semaphore. -/
def start : System := ⟨⟨[], [], false⟩, Srv.noLines⟩

end System

/-- One message. -/
def Step (s : System) (label : Outcome × Msg) (t : System) : Prop :=
  s.Legal label.1 label.2 ∧ s.next label.1 label.2 = some t

end Vsta.Semaserver
