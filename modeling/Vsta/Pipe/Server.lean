import Vsta.Hash
import Vsta.Library.WriteLog
import Vsta.Srv.Connections

/-!
# The pipe server

`srv/pipe`: a pipe has a queue of reads and a queue of writes, and matches the first of each. A
write stays on its queue until all its segments have been handed to readers.

The message of a request that is queued (`f_msg`) is kept with its entry on the queue, and the
`struct file` is found through its connection. To free one that is queued leaves the queue with a
pointer to nothing, and nothing is said of what the server does then.
-/

set_option autoImplicit false

namespace Vsta.Pipeserver

open Vstafs Service WriteLog

abbrev ACC_DIR : ULong := 0x20

/-- `PIPE_CLOSED_FOR_READS`. -/
abbrev PIPE_CLOSED_FOR_READS : ℤ := -1

/-- A segment of a message. -/
abbrev Seg := List UChar

/-- A request on a queue: the client, `m_arg` (what a reader asks for, or how much of a write has
been handed out), and the segments of a write that are left. -/
structure Req where
  who : Handle
  mArg : ℕ
  mSeg : List Seg
  deriving DecidableEq, Repr

/-- What the server sends back: data to a reader, a count to a writer, an error that only this
server has, or what every server sends. -/
inductive Body where
  | data (segs : List Seg)
  | count (n : ℕ)
  | EPIPE
  | plain (answer : Answer)
  deriving DecidableEq, Repr

/-- An answer. -/
structure Reply where
  who : Handle
  body : Body
  deriving DecidableEq, Repr

namespace Reply

/-- An answer that every server sends. -/
def ofSent (sent : Sent) : Reply := ⟨sent.who, .plain sent.answer⟩

/-- An answer as the connections see it; they do not tell one error from another. -/
def sent (r : Reply) : Sent :=
  match r.body with
  | .plain answer => ⟨r.who, answer⟩
  | .EPIPE => msgErr r.who .strerror
  | _ => msgReply r.who

end Reply

/-- How a reader came to be answered with no data: the pipe had so many writers and such a queue of
writes, or it asked for so much and was matched with a write of which this was left. -/
inductive Zero where
  | eof (nwrite : ℤ) (writers : List Handle)
  | matched (asked : ℕ) (left : List UChar)
  deriving DecidableEq, Repr

/-- `struct pipe`. The rest is history: the writes in the order they were queued, the data handed to
readers, and the answers to readers without data. -/
structure Pipe where
  pRefs : ℤ
  pReaders : List Req
  pWriters : List Req
  pNwrite : ℤ
  pNread : ℤ
  log : List (Write Handle UChar)
  out : List UChar
  zeros : List Zero

/-- `struct file`, with the pipe it has open. -/
structure File where
  fFile : Option ULong
  fPerm : ULong
  fQ : Bool
  deriving DecidableEq, Repr

/-- It is open for writing. -/
def File.writes (f : File) : Bool := has f.fPerm ACC_WRITE

/-- The file is off its queue. -/
def File.off (f : File) : File := { f with fQ := false }

/-- The file is on a queue. -/
def File.on (f : File) : File := { f with fQ := true }

/-- A pipe is open, with these permissions. -/
def File.move (f : File) (i perm : ULong) : File := { f with fFile := some i, fPerm := perm }

@[simp] theorem File.off_fFile (f : File) : f.off.fFile = f.fFile := rfl
@[simp] theorem File.off_fQ (f : File) : f.off.fQ = false := rfl
@[simp] theorem File.off_writes (f : File) : f.off.writes = f.writes := rfl
@[simp] theorem File.on_fFile (f : File) : f.on.fFile = f.fFile := rfl
@[simp] theorem File.on_fQ (f : File) : f.on.fQ = true := rfl
@[simp] theorem File.on_writes (f : File) : f.on.writes = f.writes := rfl
@[simp] theorem File.move_fFile (f : File) (i perm : ULong) : (f.move i perm).fFile = some i := rfl
@[simp] theorem File.move_fQ (f : File) (i perm : ULong) : (f.move i perm).fQ = f.fQ := rfl

/-! ## One pipe -/

/-- The loop of `sendseg`: the segments that are sent and those that are left, with so many segments
and bytes to go. -/
def sendseg : ℕ → ℕ → List Seg → List Seg × List Seg
  | 0, _, segs => ([], segs)
  | _ + 1, _, [] => ([], [])
  | room + 1, nbyte, s :: rest =>
      if nbyte = 0 then ([], s :: rest)
      else
        let cnt := min s.length nbyte
        let left := if s.length = cnt then rest else s.drop cnt :: rest
        let sent := sendseg room (nbyte - cnt) left
        (s.take cnt :: sent.1, sent.2)

namespace Pipe

/-- One round of `run_readers`: the first reader is answered, and the first writer when nothing of
it is left. -/
def round (o : Pipe) (r w : Req) (readers writers : List Req) : Pipe × List Reply :=
  let seg := sendseg MSGSEGS r.mArg w.mSeg
  let total := seg.1.flatten.length
  let w' := { w with mArg := w.mArg + total, mSeg := seg.2 }
  let o := { o with
    pReaders := readers
    log := onFirst (Write.consume total) o.log
    out := o.out ++ seg.1.flatten
    zeros := (if total = 0 then [Zero.matched r.mArg w.mSeg.flatten] else []) ++ o.zeros }
  if seg.2 = [] then
    ({ o with pWriters := writers, log := onFirst (Write.tell w'.mArg) o.log },
      [⟨r.who, .data seg.1⟩, ⟨w.who, .count w'.mArg⟩])
  else ({ o with pWriters := w' :: writers }, [⟨r.who, .data seg.1⟩])

/-- `run_readers`, with the number of rounds it can take. -/
def runReaders (o : Pipe) : ℕ → Pipe × List Reply
  | 0 => (o, [])
  | n + 1 =>
      match o.pReaders, o.pWriters with
      | r :: readers, w :: writers =>
          let first := o.round r w readers writers
          let rest := first.1.runReaders n
          (rest.1, first.2 ++ rest.2)
      | _, _ => (o, [])

/-- A write is queued. -/
def queueWrite (o : Pipe) (h : Handle) (segs : List Seg) : Pipe :=
  { o with pWriters := o.pWriters ++ [⟨h, 0, segs⟩], log := put o.log h segs.flatten }

/-- A read is queued. -/
def queueRead (o : Pipe) (h : Handle) (n : ℕ) : Pipe :=
  { o with pReaders := o.pReaders ++ [⟨h, n, []⟩] }

/-- `pipe_write` for a pipe that is not closed for reads. -/
def write (o : Pipe) (h : Handle) (segs : List Seg) : Pipe × List Reply :=
  let o := o.queueWrite h segs
  if o.pReaders = [] then (o, []) else o.runReaders o.pReaders.length

/-- `pipe_read` for a pipe that has writers. -/
def read (o : Pipe) (h : Handle) (n : ℕ) : Pipe × List Reply :=
  let o := o.queueRead h n
  if o.pWriters = [] then (o, []) else o.runReaders o.pReaders.length

/-- `pipe_abort`: the request of a client is taken off its queue. -/
def abort (o : Pipe) (h : Handle) : Pipe :=
  { o with
    pReaders := o.pReaders.filter (·.who != h)
    pWriters := o.pWriters.filter (·.who != h)
    log := if h ∈ o.pWriters.map Req.who then dropAll (· == h) o.log else o.log }

/-- A client is attached. -/
def attach (o : Pipe) (writes : Bool) : Pipe :=
  if writes then { o with pRefs := o.pRefs + 1, pNwrite := o.pNwrite + 1 }
  else { o with pRefs := o.pRefs + 1, pNread := o.pNread + 1 }

/-- A reference is dropped. -/
def deref (o : Pipe) : Pipe := { o with pRefs := o.pRefs - 1 }

/-- `pipe_close` of a reader, behind its reference: the last one stops the writers that wait. -/
def closeReader (o : Pipe) : Pipe × List Reply :=
  let o := { o with pNread := o.pNread - 1 }
  if 0 < o.pNread then (o, [])
  else if o.pNwrite = 0 then (o, [])
  else
    ({ o with pNread := PIPE_CLOSED_FOR_READS, pWriters := [] },
      o.pWriters.map fun w => ⟨w.who, .EPIPE⟩)

/-- `pipe_close` of a writer, behind its reference: the last one is the end of file of the readers
that wait. -/
def closeWriter (o : Pipe) : Pipe × List Reply :=
  let o := { o with pNwrite := o.pNwrite - 1 }
  if 0 < o.pNwrite then (o, [])
  else
    ({ o with
        pReaders := []
        zeros := o.pReaders.map (fun _ => .eof o.pNwrite (o.pWriters.map Req.who)) ++ o.zeros },
      o.pReaders.map fun r => ⟨r.who, .data []⟩)

/-- A reader finds that all writers have gone. -/
def atEof (o : Pipe) : Pipe :=
  { o with zeros := .eof o.pNwrite (o.pWriters.map Req.who) :: o.zeros }

/-- A new pipe, with the writer that made it. -/
def new : Pipe := ⟨1, [], [], 1, 0, [], [], []⟩

end Pipe

/-! ## The server -/

/-- The server. `dangling` records that a `struct file` was freed that is on a queue. -/
structure Server where
  files : Hash Pipe
  filehash : Hash File
  dangling : Bool

/-- What the server finds while it handles a message: memory, and memory for a node of a list or a
hash; the number in a name, the address of a new pipe, the permissions on a pipe, and the byte in
front of the buffer; and the field that is written. -/
structure Outcome where
  mem : Bool
  node : Bool
  named : Option ULong
  pipe : ULong
  perm : ULong
  before : UChar
  wstat : WstatOutcome

namespace Server

/-- An answer, and nothing else. -/
def answer (s : Server) (sent : Sent) : Option (Server × List Reply) := some (s, [.ofSent sent])

/-- `new_client`. -/
def newClient (s : Server) (x : Outcome) (m : Msg) : Option (Server × List Reply) :=
  if !x.mem then s.answer (msgErr m.mSender .strerror)
  else if !x.node then s.answer (msgErr m.mSender .ENOMEM)
  else
    let f : File := ⟨none, ACC_READ ||| ACC_WRITE, false⟩
    { s with filehash := s.filehash.insert m.mSender f }.answer (msgAccept m.mSender)

/-- A client is attached to the pipe it has open. -/
def attach (s : Server) (f : File) : Server :=
  match f.fFile with
  | none => s
  | some i => { s with files := s.files.modify i (Pipe.attach · f.writes) }

/-- `dup_client`. -/
def dupClient (s : Server) (x : Outcome) (m : Msg) (fold : File) : Option (Server × List Reply) :=
  if !x.mem then s.answer (msgErr m.mSender .strerror)
  else if !x.node then s.answer (msgErr m.mSender .ENOMEM)
  else
    ({ s with filehash := s.filehash.insert m.mArg fold }.attach fold).answer
      (msgReply m.mSender)

/-- What `f_q` becomes: those that are answered are on no queue, and others came onto one. -/
def mark (came answered : List Handle) (h : Handle) (f : File) : File :=
  if h ∈ answered then f.off else if h ∈ came then f.on else f

/-- A pipe changes, with those that came onto a queue of it. -/
def update (s : Server) (i : ULong) (came : List Handle) (changed : Pipe × List Reply) :
    Server × List Reply :=
  ({ s with
      files := s.files.modify i fun _ => changed.1
      filehash := s.filehash.mapVals (mark came (changed.2.map Reply.who)) }, changed.2)

/-- `pipe_close`. -/
def pipeClose (s : Server) (f : File) : Option (Server × List Reply) :=
  match f.fFile with
  | none => some (s, [])
  | some i => (s.files.lookup i).map fun o =>
      let o := o.deref
      if o.pRefs = 0 then ({ s with files := s.files.delete i }, [])
      else s.update i [] (if f.writes then o.closeWriter else o.closeReader)

/-- `dead_client`. -/
def deadClient (s : Server) (m : Msg) (f : File) : Option (Server × List Reply) :=
  let s := { s with filehash := s.filehash.delete m.mSender }
  (s.pipeClose f).map fun closed =>
    ({ closed.1 with dangling := s.dangling || f.fQ }, closed.2)

/-- The file of the sender moves to a pipe. -/
def moveTo (s : Server) (m : Msg) (i : ULong) (perm : ULong) : Server :=
  { s with filehash := s.filehash.modify m.mSender (File.move · i perm) }

/-- `pipe_open` of a new pipe: `dir_newfile`. -/
def openNew (s : Server) (x : Outcome) (m : Msg) : Option (Server × List Reply) :=
  if !has m.mArg ACC_CREATE then s.answer (msgErr m.mSender .ESRCH)
  else if !(x.mem && x.node) then s.answer (msgErr m.mSender .ENOMEM)
  else
    let s := { s with files := s.files.insert x.pipe .new }
    (s.moveTo m x.pipe (ACC_READ ||| ACC_WRITE ||| ACC_CHMOD)).answer (msgReply m.mSender)

/-- `pipe_open` of one that is there. -/
def openOld (s : Server) (x : Outcome) (m : Msg) (i : ULong) (o : Pipe) :
    Option (Server × List Reply) :=
  if o.pNread = PIPE_CLOSED_FOR_READS then some (s, [⟨m.mSender, .EPIPE⟩])
  else if m.mArg &&& x.perm ≠ m.mArg then s.answer (msgErr m.mSender .EPERM)
  else
    let s := { s with files := s.files.modify i (Pipe.attach · (has m.mArg ACC_WRITE)) }
    (s.moveTo m i (m.mArg ||| (x.perm &&& ACC_CHMOD))).answer (msgReply m.mSender)

/-- `pipe_open`. The name `#` (0x23) is a new pipe. -/
def pipeOpen (s : Server) (x : Outcome) (m : Msg) (f : File) : Option (Server × List Reply) :=
  if f.fFile.isSome then s.answer (msgErr m.mSender .ENOTDIR)
  else if has m.mArg ACC_DIR then s.answer (msgErr m.mSender .EINVAL)
  else if m.mBuf.length ≠ 2 ∨ m.mBuf.head? ≠ some 0x23 then
    match x.named with
    | none => s.answer (msgErr m.mSender .ESRCH)
    | some i =>
        match s.files.lookup i with
        | none => s.answer (msgErr m.mSender .ESRCH)
        | some o => s.openOld x m i o
  else s.openNew x m

/-- `pipe_write`. -/
def pipeWrite (s : Server) (x : Outcome) (m : Msg) (f : File) : Option (Server × List Reply) :=
  match f.fFile with
  | none => s.answer (msgErr m.mSender .EPERM)
  | some i =>
      if !f.writes then s.answer (msgErr m.mSender .EPERM)
      else (s.files.lookup i).bind fun o =>
        if o.pNread = PIPE_CLOSED_FOR_READS then some (s, [⟨m.mSender, .EPIPE⟩])
        else if !x.mem then s.answer (msgErr m.mSender .strerror)
        else some (s.update i [m.mSender] (o.write m.mSender m.mSeg))

/-- `pipe_read`; `pipe_readdir` for the directory. -/
def pipeRead (s : Server) (x : Outcome) (m : Msg) (f : File) : Option (Server × List Reply) :=
  match f.fFile with
  | none =>
      if x.mem then s.answer (msgReply m.mSender) else s.answer (msgErr m.mSender .strerror)
  | some i =>
      if !has f.fPerm ACC_READ then s.answer (msgErr m.mSender .EPERM)
      else (s.files.lookup i).bind fun o =>
        if o.pNwrite = 0 then
          some ({ s with files := s.files.modify i fun _ => o.atEof }, [⟨m.mSender, .data []⟩])
        else if !x.mem then s.answer (msgErr m.mSender .strerror)
        else some (s.update i [m.mSender] (o.read m.mSender m.mArg.toNat))

/-- `pipe_abort`. -/
def pipeAbort (s : Server) (m : Msg) (f : File) : Option (Server × List Reply) :=
  if f.fQ then
    f.fFile.bind fun i => (s.files.lookup i).map fun o =>
      s.update i [] (o.abort m.mSender, [.ofSent (msgReply m.mSender)])
  else s.answer (msgReply m.mSender)

/-- `pipe_stat`. -/
def pipeStat (s : Server) (m : Msg) (f : File) : Option (Server × List Reply) :=
  if !has f.fPerm ACC_READ then s.answer (msgErr m.mSender .EPERM)
  else s.answer (msgReply m.mSender)

/-- `pipe_wstat`. For the directory it goes on after the error. -/
def pipeWstat (s : Server) (x : Outcome) (m : Msg) (f : File) : Option (Server × List Reply) :=
  let root := if f.fFile.isNone then [msgErr m.mSender .EINVAL] else []
  let done := doWstat { x.wstat with chmod := has f.fPerm ACC_CHMOD } m
  let other := if done.2 then [msgErr m.mSender .EINVAL] else []
  some (s, (root ++ done.1 ++ other).map .ofSent)

/-- One round of `pipe_main`. -/
def handle (s : Server) (x : Outcome) (m : Msg) : Option (Server × List Reply) :=
  if s.dangling then none
  else
    let f := s.filehash.lookup m.mSender
    match m.mOp with
    | .M_CONNECT => s.newClient x m
    | .M_DISCONNECT => f.bind (s.deadClient m)
    | .M_DUP => f.bind (s.dupClient x m)
    | .M_ABORT => f.bind (s.pipeAbort m)
    | .FS_OPEN =>
        if m.mSeg.length ≠ 1 ∨ validFname x.before m.mBuf = false then
          s.answer (msgErr m.mSender .EINVAL)
        else f.bind (s.pipeOpen x m)
    | .FS_READ => f.bind (s.pipeRead x m)
    | .FS_WRITE => f.bind (s.pipeWrite x m)
    | .FS_STAT => f.bind (s.pipeStat m)
    | .FS_WSTAT => f.bind (s.pipeWstat x m)
    | _ => s.answer (msgErr m.mSender .EINVAL)

end Server

/-! ## The server and its connections -/

/-- The server and its connections. -/
structure System where
  server : Server
  lines : Lines Handle

namespace System

/-- A message that can arrive. It has as many segments as a message has room for, and a new pipe is
at an address where there is none. -/
def Legal (s : System) (x : Outcome) (m : Msg) : Prop :=
  Srv.Legal s.lines m ∧ m.mSeg.length ≤ MSGSEGS ∧ s.server.files.lookup x.pipe = none

instance (s : System) (x : Outcome) (m : Msg) : Decidable (s.Legal x m) := by
  unfold Legal
  infer_instance

/-- The state after a message. -/
def next (s : System) (x : Outcome) (m : Msg) : Option System :=
  (s.server.handle x m).map fun handled =>
    ⟨handled.1, Srv.after s.lines m (handled.2.map Reply.sent)⟩

/-- The state after a message that can arrive. -/
def exec (s : System) (label : Outcome × Msg) : Option System :=
  if s.Legal label.1 label.2 then s.next label.1 label.2 else none

/-- No client and no pipe. -/
def start : System := ⟨⟨[], [], false⟩, Srv.noLines⟩

end System

/-- One message. -/
abbrev Step : System → Outcome × Msg → System → Prop := fun s label t => s.exec label = some t

end Vsta.Pipeserver
