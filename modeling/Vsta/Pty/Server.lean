import Vsta.Hash
import Vsta.Library.WriteLog
import Vsta.Srv.Connections

/-!
# The pseudo-terminal server

`srv/pty`: a pty has two queues of data, one for each direction, and each of them has a buffer,
readers that wait for data and writers that wait for room.

The message of a request that is queued (`f_msg`) is kept with its entry on the queue, and the
`struct file` is found through its connection. Beside each queue is the history of what was written
and what was handed to readers since it was set up. What is left out is `select`.
-/

set_option autoImplicit false

namespace Vsta.Ptyserver

open Vstafs Service WriteLog

abbrev ACC_DIR : ULong := 0x20
abbrev NPTY : ℕ := 8
abbrev IOQ_MAXBUF : ℕ := 8192

/-- A segment of a message. -/
abbrev Seg := List UChar

/-- A request on a queue: the client, `m_arg`, and the segments of a write that are left. -/
structure Req where
  who : Handle
  mArg : ULong
  mSeg : List Seg
  deriving DecidableEq, Repr

/-- What the server sends back: data to a reader, its `m_arg` to a writer, or what every server
sends. -/
inductive Body where
  | data (bytes : List UChar)
  | count (mArg : ULong)
  | plain (answer : Answer)
  deriving DecidableEq, Repr

/-- An answer. -/
structure Reply where
  who : Handle
  body : Body
  deriving DecidableEq, Repr

namespace Reply

/-- An answer that every server sends. -/
def ofSent (sent : Sent) : Reply := ⟨sent.who, .plain sent.answer⟩

/-- An answer as the connections see it. -/
def sent (r : Reply) : Sent :=
  match r.body with
  | .plain answer => ⟨r.who, answer⟩
  | _ => msgReply r.who

end Reply

/-- `struct ioq`. The rest is history: the writes, each with what was put into the buffer and what
was not, and the data handed to readers. -/
structure Ioq where
  ioqBuf : List UChar
  ioqWrite : List Req
  ioqRead : List Req
  log : List (Write Handle UChar)
  out : List UChar

/-- The loop of `queue_data`: the segments that are left, and the buffer. -/
def queueData : List Seg → List UChar → List Seg × List UChar
  | [], buf => ([], buf)
  | seg :: rest, buf =>
      let count := min (IOQ_MAXBUF - buf.length) seg.length
      if count = seg.length then queueData rest (buf ++ seg.take count)
      else (seg.drop count :: rest, buf ++ seg.take count)

namespace Ioq

/-- `ioq_init`. -/
def init : Ioq := ⟨[], [], [], [], []⟩

/-- `dequeue_data`. -/
def dequeueData (i : Ioq) (who : Handle) (mArg : ULong) : Ioq × Reply :=
  let count := min mArg.toNat i.ioqBuf.length
  ({ i with ioqBuf := i.ioqBuf.drop count, out := i.out ++ i.ioqBuf.take count },
    ⟨who, .data (i.ioqBuf.take count)⟩)

/-- The loop of `run_readers`, over the readers that wait. -/
def serve : List Req → Ioq → Ioq × List Reply
  | [], i => ({ i with ioqRead := [] }, [])
  | r :: readers, i =>
      if i.ioqBuf = [] then ({ i with ioqRead := r :: readers }, [])
      else
        let first := i.dequeueData r.who r.mArg
        let rest := serve readers first.1
        (rest.1, first.2 :: rest.2)

/-- `run_readers`. -/
def runReaders (i : Ioq) : Ioq × List Reply := serve i.ioqRead i

/-- A write is done. -/
def finish (i : Ioq) (w : Req) (took : List UChar) : Ioq :=
  { i with log := i.log ++ [⟨w.who, took, [], .told took.length⟩] }

/-- A writer is put to sleep, with or without memory for its place on the queue. -/
def sleep (i : Ioq) (node : Bool) (w : Req) (took : List UChar) : Ioq :=
  if node then
    { i with
      ioqWrite := i.ioqWrite ++ [w]
      log := i.log ++ [⟨w.who, took, w.mSeg.flatten, .pending⟩] }
  else { i with log := i.log ++ [⟨w.who, took, w.mSeg.flatten, .dropped⟩] }

/-- The loop of `ioq_add_data`, with the number of times it can go back to `retry` and what it took
of the write. -/
def retry (node : Bool) : ℕ → Ioq → Req → List UChar → Ioq × List Reply
  | tries, i, w, took =>
      let queued := queueData w.mSeg i.ioqBuf
      let took := took ++ queued.2.drop i.ioqBuf.length
      let i := { i with ioqBuf := queued.2 }
      if queued.1 = [] then
        let ran := (i.finish w took).runReaders
        (ran.1, ⟨w.who, .count w.mArg⟩ :: ran.2)
      else
        let w := { w with mSeg := queued.1 }
        match tries with
        | 0 => (i.sleep node w took, [])
        | tries + 1 =>
            if i.ioqRead = [] then (i.sleep node w took, [])
            else
              let ran := i.runReaders
              let rest := retry node tries ran.1 w took
              (rest.1, ran.2 ++ rest.2)

/-- `ioq_add_data`. -/
def addData (i : Ioq) (node : Bool) (w : Req) : Ioq × List Reply :=
  i.retry node i.ioqRead.length w []

/-- `ioq_read_data`, with or without memory for a place on the queue. -/
def readData (i : Ioq) (node : Bool) (r : Req) : Ioq × List Reply :=
  if i.ioqBuf = [] then ({ i with ioqRead := if node then i.ioqRead ++ [r] else i.ioqRead }, [])
  else
    let first := i.dequeueData r.who r.mArg
    (first.1, [first.2])

/-- The request of a client is taken off its queue. -/
def remove (i : Ioq) (h : Handle) : Ioq :=
  { i with
    ioqRead := i.ioqRead.filter (·.who != h)
    ioqWrite := i.ioqWrite.filter (·.who != h)
    log := if h ∈ i.ioqWrite.map Req.who then dropAll (· == h) i.log else i.log }

/-- `ioq_abort`. -/
def abort (i : Ioq) : Ioq × List Reply :=
  ({ i with ioqRead := [], ioqWrite := [], log := dropAll (fun _ => true) i.log },
    (i.ioqRead ++ i.ioqWrite).map fun r => .ofSent (msgErr r.who FsErr.EIO))

end Ioq

/-- `struct pty`. -/
structure Pty where
  pIoqr : Ioq
  pIoqw : Ioq
  pNmaster : ℕ
  pNslave : ℕ

namespace Pty

/-- The queue that the master writes to, or the one that the others write to. -/
def ioq (o : Pty) (master : Bool) : Ioq := if master then o.pIoqw else o.pIoqr

/-- One of the queues changes. -/
def setIoq (o : Pty) (master : Bool) (i : Ioq) : Pty :=
  if master then { o with pIoqw := i } else { o with pIoqr := i }

/-- A queue changes, and answers are sent. -/
def onIoq (o : Pty) (master : Bool) (changed : Ioq × List Reply) : Pty × List Reply :=
  (o.setIoq master changed.1, changed.2)

/-- A client is attached. -/
def attach (o : Pty) (master : Bool) : Pty :=
  if master then { o with pNmaster := o.pNmaster + 1 } else { o with pNslave := o.pNslave + 1 }

/-- A client is gone. -/
def detach (o : Pty) (master : Bool) : Pty :=
  if master then { o with pNmaster := o.pNmaster - 1 } else { o with pNslave := o.pNslave - 1 }

/-- The request of a client is taken off its queue. -/
def remove (o : Pty) (h : Handle) : Pty :=
  { o with pIoqr := o.pIoqr.remove h, pIoqw := o.pIoqw.remove h }

/-- `abort_clients`. -/
def abortClients (o : Pty) : Pty × List Reply :=
  ({ o with pIoqr := o.pIoqr.abort.1, pIoqw := o.pIoqw.abort.1 },
    o.pIoqr.abort.2 ++ o.pIoqw.abort.2)

/-- A pty that its master has just opened. -/
def opened : Pty := ⟨.init, .init, 1, 0⟩

end Pty

/-- `struct file`, with the pty it has open. -/
structure File where
  fFile : Option ULong
  fMaster : Bool
  fPerm : ULong
  fQ : Bool
  deriving DecidableEq, Repr

/-- The file is off its queue. -/
def File.off (f : File) : File := { f with fQ := false }

/-- The file is on a queue. -/
def File.on (f : File) : File := { f with fQ := true }

/-- A pty is open. -/
def File.move (f : File) (idx : ULong) (master : Bool) (perm : ULong) : File :=
  { f with fFile := some idx, fMaster := master, fPerm := perm }

@[simp] theorem File.off_fFile (f : File) : f.off.fFile = f.fFile := rfl
@[simp] theorem File.off_fMaster (f : File) : f.off.fMaster = f.fMaster := rfl
@[simp] theorem File.off_fQ (f : File) : f.off.fQ = false := rfl
@[simp] theorem File.on_fFile (f : File) : f.on.fFile = f.fFile := rfl
@[simp] theorem File.on_fMaster (f : File) : f.on.fMaster = f.fMaster := rfl
@[simp] theorem File.on_fQ (f : File) : f.on.fQ = true := rfl

/-! ## The server -/

/-- The server. `wild` records that a buffer was not there when a pty was opened. -/
structure Server where
  ptys : Hash Pty
  filehash : Hash File
  wild : Bool

/-- What the server finds while it handles a message: memory for a `struct file` or the buffers,
memory for a node of a list or a hash, the permissions on a pty, the byte in front of the buffer,
and the field that is written: a common one, one of `select`, one of the size of the window, or
another. -/
structure Outcome where
  mem : Bool
  node : Bool
  perm : ULong
  before : UChar
  wstat : WstatOutcome
  select : Bool
  known : Bool

/-- The pty that a name stands for, and whether it is the master's name for it. -/
def named (buf : List UChar) : Option (Bool × ULong) :=
  match buf.takeWhile (· ≠ 0) with
  | [p, 0x74, 0x79, c] =>
      if p = 0x70 ∨ p = 0x74 then
        let idx :=
          if 0x30 ≤ c.toNat ∧ c.toNat ≤ 0x39 then c.toNat - 0x30
          else if 0x61 ≤ c.toNat ∧ c.toNat ≤ 0x7a then c.toNat - 0x61
          else NPTY
        if NPTY ≤ idx then none else some (p = 0x70, .ofNat 32 idx)
      else none
  | _ => none

namespace Server

/-- An answer, and nothing else. -/
def answer (s : Server) (sent : Sent) : Option (Server × List Reply) := some (s, [.ofSent sent])

/-- `new_client`. -/
def newClient (s : Server) (x : Outcome) (m : Msg) : Option (Server × List Reply) :=
  if !x.mem then s.answer (msgErr m.mSender .strerror)
  else if !x.node then s.answer (msgErr m.mSender .ENOMEM)
  else
    let f : File := ⟨none, false, ACC_READ ||| ACC_WRITE, false⟩
    { s with filehash := s.filehash.insert m.mSender f }.answer (msgAccept m.mSender)

/-- A client is attached to the pty it has open. -/
def attach (s : Server) (f : File) : Server :=
  match f.fFile with
  | none => s
  | some idx => { s with ptys := s.ptys.modify idx (Pty.attach · f.fMaster) }

/-- `dup_client`. -/
def dupClient (s : Server) (x : Outcome) (m : Msg) (fold : File) : Option (Server × List Reply) :=
  if !x.mem then s.answer (msgErr m.mSender .strerror)
  else if !x.node then s.answer (msgErr m.mSender .ENOMEM)
  else
    ({ s with filehash := s.filehash.insert m.mArg fold }.attach fold).answer
      (msgReply m.mSender)

/-- What `f_q` becomes: those that are answered are on no queue, and others came onto one. -/
def mark (came answered : List Handle) (h : Handle) (f : File) : File :=
  if h ∈ answered then f.off else if h ∈ came then f.on else f

/-- A pty changes, with those that came onto a queue of it. -/
def update (s : Server) (idx : ULong) (came : List Handle) (changed : Pty × List Reply) :
    Server × List Reply :=
  ({ s with
      ptys := s.ptys.modify idx fun _ => changed.1
      filehash := s.filehash.mapVals (mark came (changed.2.map Reply.who)) }, changed.2)

/-- `dead_client` and `pty_close`. -/
def deadClient (s : Server) (m : Msg) (f : File) : Option (Server × List Reply) :=
  let s := { s with filehash := s.filehash.delete m.mSender }
  match f.fFile with
  | none => some (s, [])
  | some idx => (s.ptys.lookup idx).map fun o =>
      let o := o.detach f.fMaster
      let o := if f.fQ then o.remove m.mSender else o
      if f.fMaster ∧ o.pNmaster = 0 then s.update idx [] o.abortClients
      else s.update idx [] (o, [])

/-- The file of the sender moves to a pty. -/
def moveTo (s : Server) (m : Msg) (idx : ULong) (master : Bool) (perm : ULong) : Server :=
  { s with filehash := s.filehash.modify m.mSender (File.move · idx master perm) }

/-- `pty_open`. -/
def ptyOpen (s : Server) (x : Outcome) (m : Msg) (f : File) : Option (Server × List Reply) :=
  if f.fFile.isSome then s.answer (msgErr m.mSender .ENOTDIR)
  else if has m.mArg ACC_DIR then s.answer (msgErr m.mSender .EINVAL)
  else
    match named m.mBuf with
    | none => s.answer (msgErr m.mSender .ESRCH)
    | some (true, idx) => (s.ptys.lookup idx).bind fun pty =>
        if pty.pNmaster ≠ 0 ∨ pty.pNslave ≠ 0 then s.answer (msgErr m.mSender .EBUSY)
        else
          let s := { s with ptys := s.ptys.modify idx fun _ => .opened, wild := !x.mem }
          (s.moveTo m idx true (ACC_READ ||| ACC_WRITE ||| ACC_CHMOD)).answer (msgReply m.mSender)
    | some (false, idx) => (s.ptys.lookup idx).bind fun pty =>
        if pty.pNmaster = 0 then s.answer (msgErr m.mSender FsErr.EIO)
        else if m.mArg &&& x.perm ≠ m.mArg then s.answer (msgErr m.mSender .EPERM)
        else
          let s := { s with ptys := s.ptys.modify idx (Pty.attach · false) }
          (s.moveTo m idx false (m.mArg ||| ACC_CHMOD)).answer (msgReply m.mSender)

/-- `pty_write`. -/
def ptyWrite (s : Server) (x : Outcome) (m : Msg) (f : File) : Option (Server × List Reply) :=
  match f.fFile with
  | none => s.answer (msgErr m.mSender .EPERM)
  | some idx =>
      if !has f.fPerm ACC_WRITE then s.answer (msgErr m.mSender .EPERM)
      else (s.ptys.lookup idx).map fun pty =>
        let i := pty.ioq f.fMaster
        s.update idx (if x.node then [m.mSender] else [])
          (pty.onIoq f.fMaster (i.addData x.node ⟨m.mSender, m.mArg, m.mSeg⟩))

/-- `pty_read`; `pty_readdir` for the directory. -/
def ptyRead (s : Server) (x : Outcome) (m : Msg) (f : File) : Option (Server × List Reply) :=
  match f.fFile with
  | none => s.answer (msgReply m.mSender)
  | some idx =>
      if !has f.fPerm ACC_READ then s.answer (msgErr m.mSender .EPERM)
      else (s.ptys.lookup idx).bind fun pty =>
        if pty.pNmaster = 0 then s.answer (msgReply m.mSender)
        else
          let i := pty.ioq (!f.fMaster)
          s.update idx (if x.node then [m.mSender] else [])
            (pty.onIoq (!f.fMaster) (i.readData x.node ⟨m.mSender, m.mArg, []⟩))

/-- `pty_abort`. -/
def ptyAbort (s : Server) (m : Msg) (f : File) : Option (Server × List Reply) :=
  if f.fQ then
    f.fFile.bind fun idx => (s.ptys.lookup idx).map fun pty =>
      s.update idx [] (pty.remove m.mSender, [.ofSent (msgReply m.mSender)])
  else s.answer (msgReply m.mSender)

/-- `pty_stat`. -/
def ptyStat (s : Server) (m : Msg) (f : File) : Option (Server × List Reply) :=
  if !has f.fPerm ACC_READ then s.answer (msgErr m.mSender .EPERM)
  else s.answer (msgReply m.mSender)

/-- `pty_wstat`. For the directory it goes on after the error, and for a field it does not know too. -/
def ptyWstat (s : Server) (x : Outcome) (m : Msg) (f : File) : Option (Server × List Reply) :=
  let root := if f.fFile.isNone then [msgErr m.mSender .EINVAL] else []
  let done := doWstat { x.wstat with chmod := has f.fPerm ACC_CHMOD } m
  let other :=
    if !done.2 then []
    else if x.select then [msgReply m.mSender]
    else if x.known then [msgReply m.mSender]
    else [msgErr m.mSender .EINVAL, msgReply m.mSender]
  some (s, (root ++ done.1 ++ other).map .ofSent)

/-- One round of `pty_main`. -/
def handle (s : Server) (x : Outcome) (m : Msg) : Option (Server × List Reply) :=
  if s.wild then none
  else
    let f := s.filehash.lookup m.mSender
    match m.mOp with
    | .M_CONNECT => s.newClient x m
    | .M_DISCONNECT => f.bind (s.deadClient m)
    | .M_DUP => f.bind (s.dupClient x m)
    | .M_ABORT => f.bind (s.ptyAbort m)
    | .FS_OPEN =>
        if m.mSeg.length ≠ 1 ∨ validFname x.before m.mBuf = false then
          s.answer (msgErr m.mSender .EINVAL)
        else f.bind (s.ptyOpen x m)
    | .FS_READ => f.bind (s.ptyRead x m)
    | .FS_WRITE => f.bind (s.ptyWrite x m)
    | .FS_STAT => f.bind (s.ptyStat m)
    | .FS_WSTAT => f.bind (s.ptyWstat x m)
    | _ => s.answer (msgErr m.mSender .EINVAL)

end Server

/-! ## The server and its connections -/

/-- The server and its connections. -/
structure System where
  server : Server
  lines : Lines Handle

namespace System

/-- The state after a message. -/
def next (s : System) (x : Outcome) (m : Msg) : Option System :=
  (s.server.handle x m).map fun handled =>
    ⟨handled.1, Srv.after s.lines m (handled.2.map Reply.sent)⟩

/-- The state after a message that can arrive. -/
def exec (s : System) (label : Outcome × Msg) : Option System :=
  if Srv.Legal s.lines label.2 then s.next label.1 label.2 else none

/-- No client, and no pty that was opened. -/
def start : System :=
  ⟨⟨(List.range NPTY).map fun idx => (.ofNat 32 idx, ⟨.init, .init, 0, 0⟩), [], false⟩, Srv.noLines⟩

end System

/-- One message. -/
abbrev Step : System → Outcome × Msg → System → Prop := fun s label t => s.exec label = some t

end Vsta.Ptyserver
