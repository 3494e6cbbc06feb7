import Vsta.Hash

/-!
# The asynchronous buffer cache of `lib/abc.c`

A buffer holds consecutive sectors and is found by the first. The foreground looks buffers up, makes
room for new ones, reads and writes sectors in place and marks what it wrote. The background fills
and flushes buffers that the foreground puts in a ring, and such a buffer is busy until that is done.
The foreground sleeps before it uses a busy buffer.

The content of a sector is of any type. The steps are those of two threads. The foreground goes on
from `Fg`, and a step of it ends where it waits or looks at what the background may have changed.
That a buffer is busy shows while the foreground waits for a place in the ring, and nobody looks
then: both are one step here. I/O that fails ends the server and is left out, and so are the checks
of `ASSERT_DEBUG`.
-/

set_option autoImplicit false

namespace Vsta.Abc

abbrev EXTSIZ : ℕ := 128
abbrev NQIO : ℕ := 32

/-- `Q_FILLBUF` and `Q_FLUSHBUF`. -/
inductive Op where
  | fill | flush
  deriving DecidableEq, Repr

/-- A handle that a dirty buffer is tagged with. -/
abbrev Handle := ULong

/-- `struct buf`, with a field for each bit of `b_flags`; there are `b_nsec` sectors in `bData`. -/
structure Buf (α : Type) where
  bData : List α
  sec0 : Bool
  secs : Bool
  dirty : Bool
  want : Bool
  busy : Bool
  bLocks : ℕ
  bHandles : List (Option Handle)

/-- A buffer that `find_buf` makes, and the memory for it. -/
structure New (α : Type) where
  start : ULong
  nsec : ℕ
  fill : Bool
  bg : Bool
  memory : Option (ℕ → α)

/-- What the caller does with the sectors that `index_buf` points at. -/
inductive Use (α : Type) where
  | load
  | store (data : List α) (handle : Option Handle)

/-- Where the foreground is: with its caller; in the loop that makes room, at the list of `age_buf`
or at the test; before `qio` in `find_buf`; before `get` in the other calls; in the list of
`sync_bufs`. -/
inductive Fg (α : Type) where
  | user
  | loop (left : Option (List ULong)) (new : Option (New α))
  | queue (d : ULong)
  | index (d : ULong) (i n : ℕ) (use : Use α)
  | flush (d : ULong)
  | resize (d : ULong) (newsize : ℕ) (fill : Bool) (memory : Option (ℕ → α))
  | inval (d : ULong) (len : ℕ)
  | sync (left : List ULong) (handle : Option Handle)

/-- The disk and the cache. `allbufs` is the list from its head on; `ready` is how often the
background was released and did not go; `doing` is the place of the ring it has served and not
given back; `asleep` says that the foreground sleeps in `get`. -/
structure State (α : Type) where
  disk : ℕ → α
  bufpool : Hash (Buf α)
  allbufs : List ULong
  bufsize : ℕ
  coresec : ℕ
  qios : ℕ → Option (ULong × Op)
  qnext : ℕ
  next : ℕ
  ready : ℕ
  doing : Option ℕ
  asleep : Bool
  fg : Fg α

/-- A call of the cache's user. -/
inductive Call (α : Type) where
  | find (new : New α)
  | resize (d : ULong) (newsize : ℕ) (fill : Bool) (memory : Option (ℕ → α))
  | index (d : ULong) (i n : ℕ) (use : Use α)
  | lock (d : ULong)
  | unlock (d : ULong)
  | sync (d : ULong)
  | inval (d : ULong) (len : ℕ)
  | syncAll (handle : Option Handle)

/-- A step: a call, the foreground goes on, the background takes an operation and does it, or gives
the buffer back. -/
inductive Label (α : Type) where
  | call (c : Call α)
  | go
  | work
  | done

/-- What a step means for the caller: sectors were read or written, or hold nothing any more. -/
inductive Note (α : Type) where
  | quiet
  | read (a : ℕ) (data : List α)
  | stored (a : ℕ) (data : List α)
  | gone (a n : ℕ)

/-- A pointer that leads nowhere; or the thread cannot go on yet. -/
inductive Fault where
  | wild | wait
  deriving DecidableEq, Repr

abbrev M := Except Fault

variable {α : Type}

/-! ## The device -/

/-- `read_secs`. -/
def readSecs (disk : ℕ → α) (start nsec : ℕ) : List α := (List.range nsec).map fun i => disk (start + i)

/-- `write_secs`. -/
def writeSecs (disk : ℕ → α) (start : ℕ) (data : List α) : ℕ → α := fun a =>
  if start ≤ a then (data[a - start]?).getD (disk a) else disk a

/-! ## Buffers -/

namespace Buf

/-- `b_nsec`. -/
def bNsec (b : Buf α) : ℕ := b.bData.length

/-- The sectors behind the first are read, and the first if it is not there. -/
def fillAll (b : Buf α) (disk : ℕ → α) (start : ℕ) : Buf α :=
  { b with
    bData :=
      if b.sec0 then b.bData.take 1 ++ readSecs disk (start + 1) (b.bNsec - 1)
      else readSecs disk start b.bNsec
    sec0 := true
    secs := true }

/-- The reads of `index_buf`. -/
def load (b : Buf α) (disk : ℕ → α) (start i n : ℕ) : Buf α :=
  if i = 0 ∧ n = 1 then
    if !b.sec0 then { b with bData := b.bData.set 0 (disk start), sec0 := true } else b
  else if !b.secs then b.fillAll disk start
  else b

/-- Bytes are written in place. -/
def poke (b : Buf α) (i : ℕ) (data : List α) : Buf α :=
  { b with bData := b.bData.take i ++ data ++ b.bData.drop (i + data.length) }

/-- The place of `handle` in the tags of a dirty buffer: its own, the last that is empty, or a new
one. -/
def tagged (tags : List (Option Handle)) (handle : Handle) : List (Option Handle) :=
  if some handle ∈ tags then tags
  else if none ∈ tags then
    let back := tags.reverse
    (back.set (back.findIdx (· == none)) (some handle)).reverse
  else tags ++ [some handle]

/-- `dirty_buf`. -/
def dirtyBuf (b : Buf α) (handle : Option Handle) : Buf α :=
  { b with
    dirty := true
    bHandles := match handle with
      | none => b.bHandles
      | some handle => tagged b.bHandles handle }

/-- What is left of the flags and tags when a dirty buffer was written. -/
def clean (b : Buf α) : Buf α := { b with dirty := false, bHandles := b.bHandles.map fun _ => none }

/-- What `_sync_buf` writes: everything, or the first sector. -/
def image (b : Buf α) : List α := if b.secs then b.bData else b.bData.take 1

/-- `sync_bufs` flushes the buffer. -/
def wanted (b : Buf α) (handle : Option Handle) : Bool :=
  b.dirty && handle.all fun handle => some handle ∈ b.bHandles

end Buf

/-! ## The cache -/

namespace State

variable (s : State α)

/-- A buffer by its address. -/
def buf (d : ULong) : M (Buf α) :=
  match s.bufpool.lookup d with
  | some b => .ok b
  | none => .error .wild

def setBuf (d : ULong) (b : Buf α) : State α :=
  { s with bufpool := s.bufpool.modify d fun _ => b }

/-- `get`: the foreground sleeps if the buffer is busy. -/
def get (d : ULong) (rest : Buf α → M (State α × Note α)) : M (State α × Note α) := do
  let b ← s.buf d
  if b.busy then return ({ s.setBuf d { b with want := true } with asleep := true }, .quiet)
  rest b

/-- `ll_movehead`. -/
def movehead (d : ULong) : State α := { s with allbufs := d :: s.allbufs.erase d }

/-- `free_buf`. -/
def freeBuf (d : ULong) (b : Buf α) : State α :=
  { s with
    allbufs := s.allbufs.erase d
    bufpool := s.bufpool.delete d
    bufsize := s.bufsize - b.bNsec }

/-- `_sync_buf` of a dirty buffer. -/
def writeBuf (d : ULong) (b : Buf α) : State α :=
  { s.setBuf d b.clean with disk := writeSecs s.disk d.toNat b.image }

/-- `qio`. -/
def qio (d : ULong) (op : Op) : M (State α) := do
  let b ← s.buf d
  match s.qios s.qnext with
  | some _ => .error .wait
  | none =>
      let s' := s.setBuf d { b with busy := true }
      return { s' with
        qios := Function.update s.qios s.qnext (some (d, op))
        qnext := (s.qnext + 1) % NQIO
        ready := s.ready + 1 }

/-- The end of `find_buf`, for which there is room. -/
def insertBuf (new : New α) : M (State α × Note α) :=
  match new.memory with
  | none => .ok ({ s with fg := .user }, .quiet)
  | some memory =>
      let b : Buf α :=
        ⟨(List.range new.nsec).map memory, !new.fill, !new.fill, false, false, false, 0, []⟩
      .ok ({ s with
        bufpool := s.bufpool.insert new.start b
        allbufs := s.allbufs ++ [new.start]
        bufsize := s.bufsize + new.nsec
        fg := if new.bg then .queue new.start else .user },
        if new.fill then .quiet else .gone new.start.toNat new.nsec)

/-- The loop `while (bufsize + nsec > coresec) age_buf()` and what comes behind it. -/
def makeRoom (left : Option (List ULong)) (new : Option (New α)) : M (State α × Note α) :=
  match left with
  | none =>
      if s.coresec < s.bufsize + new.elim 0 New.nsec then
        .ok ({ s with fg := .loop (some s.allbufs.reverse) new }, .quiet)
      else match new with
        | none => .ok ({ s with fg := .user }, .quiet)
        | some new => s.insertBuf new
  | some [] => .ok ({ s with fg := .loop none new }, .quiet)
  | some (d :: left) => do
      let b ← s.buf d
      if 0 < b.bLocks || b.busy then return ({ s with fg := .loop (some left) new }, .quiet)
      if !b.dirty then return ({ s.freeBuf d b with fg := .loop none new }, .quiet)
      let s ← s.qio d .flush
      return ({ s with fg := .loop (some left) new }, .quiet)

/-- `index_buf`, and what the caller does there. -/
def indexBuf (d : ULong) (i n : ℕ) (use : Use α) : M (State α × Note α) :=
  s.get d fun b =>
    let b := b.load s.disk d.toNat i n
    let s := { s.movehead d with fg := .user }
    match use with
    | .load => .ok (s.setBuf d b, .read (d.toNat + i) ((b.bData.drop i).take n))
    | .store data handle =>
        .ok (s.setBuf d ((b.poke i data).dirtyBuf handle), .stored (d.toNat + i) data)

/-- `resize_buf`, from where it waits for the buffer. -/
def resizeBuf (d : ULong) (newsize : ℕ) (fill : Bool) (memory : Option (ℕ → α)) :
    M (State α × Note α) :=
  s.get d fun b =>
    match memory with
    | none => .ok ({ s with fg := .user }, .quiet)
    | some memory =>
        let more := newsize - b.bNsec
        let gained := if fill && b.secs then readSecs s.disk (d.toNat + b.bNsec) more
          else (List.range more).map memory
        let s' := s.setBuf d { b with bData := b.bData.take newsize ++ gained }
        .ok ({ s' with bufsize := s.bufsize + newsize - b.bNsec, fg := .loop none none },
          if newsize < b.bNsec then .gone (d.toNat + newsize) (b.bNsec - newsize)
          else if fill then .quiet else .gone (d.toNat + b.bNsec) more)

/-- The loop of `inval_buf`. -/
def invalBuf (d : ULong) (len : ℕ) : M (State α × Note α) :=
  let rest : Fg α :=
    if len ≤ EXTSIZ then .user else .inval (d + BitVec.ofNat 32 EXTSIZ) (len - EXTSIZ)
  match s.bufpool.lookup d with
  | none => .ok ({ s with fg := rest }, .quiet)
  | some _ => s.get d fun b =>
      .ok ({ s.freeBuf d b with fg := rest }, .gone d.toNat b.bNsec)

/-- The loop of `sync_bufs`. -/
def syncBufs (left : List ULong) (handle : Option Handle) : M (State α × Note α) :=
  match left with
  | [] => .ok ({ s with fg := .user }, .quiet)
  | d :: left => do
      let b ← s.buf d
      if !b.dirty then return ({ s with fg := .sync left handle }, .quiet)
      s.get d fun b => do
        if !b.wanted handle then return ({ s with fg := .sync left handle }, .quiet)
        let s ← s.qio d .flush
        return ({ s with fg := .sync left handle }, .quiet)

/-- The foreground goes on. -/
def go : M (State α × Note α) :=
  if s.asleep then .error .wait
  else match s.fg with
    | .user => .error .wait
    | .loop left new => s.makeRoom left new
    | .queue d => do
        let s ← s.qio d .fill
        return ({ s with fg := .user }, .quiet)
    | .index d i n use => s.indexBuf d i n use
    | .flush d => s.get d fun b => .ok ({ s.writeBuf d b with fg := .user }, .quiet)
    | .resize d newsize fill memory => s.resizeBuf d newsize fill memory
    | .inval d len => s.invalBuf d len
    | .sync left handle => s.syncBufs left handle

/-- A call, up to where it may wait. -/
def call (c : Call α) : M (State α × Note α) :=
  match s.fg with
  | .user =>
      match c with
      | .find new =>
          match s.bufpool.lookup new.start with
          | some _ => .ok (s, .quiet)
          | none => .ok ({ s with fg := .loop none (some new) }, .quiet)
      | .resize d newsize fill memory =>
          match s.bufpool.lookup d with
          | none => .ok (s, .quiet)
          | some b =>
              if newsize = b.bNsec then .ok (s.movehead d, .quiet)
              else .ok ({ s.movehead d with fg := .resize d newsize fill memory }, .quiet)
      | .index d i n use => .ok ({ s with fg := .index d i n use }, .quiet)
      | .lock d => do
          let b ← s.buf d
          return (s.setBuf d { b with bLocks := b.bLocks + 1 }, .quiet)
      | .unlock d => do
          let b ← s.buf d
          return (s.setBuf d { b with bLocks := b.bLocks - 1 }, .quiet)
      | .sync d => do
          let b ← s.buf d
          if !b.dirty then return (s, .quiet)
          return ({ s with fg := .flush d }, .quiet)
      | .inval d len => .ok ({ s with fg := .inval d len }, .quiet)
      | .syncAll handle => .ok ({ s with fg := .sync s.allbufs handle }, .quiet)
  | _ => .error .wait

/-- `exec_qio`. -/
def execQio (d : ULong) (op : Op) : M (State α) := do
  let b ← s.buf d
  match op with
  | .fill => return s.setBuf d (b.fillAll s.disk d.toNat)
  | .flush => if !b.dirty then return s else return s.writeBuf d b

/-- `bg_thread`, up to the end of the operation. -/
def work : M (State α × Note α) :=
  if s.ready = 0 || s.doing.isSome then .error .wait
  else match s.qios s.next with
    | none => .error .wild
    | some (d, op) => do
        let t ← s.execQio d op
        return ({ t with
          next := (s.next + 1) % NQIO
          ready := s.ready - 1
          doing := some s.next }, .quiet)

/-- `bg_thread` gives the place in the ring and the buffer back. -/
def done : M (State α × Note α) :=
  match s.doing with
  | none => .error .wait
  | some slot => match s.qios slot with
    | none => .error .wild
    | some (d, _) => do
        let b ← s.buf d
        let s' := s.setBuf d { b with busy := false, want := false }
        return ({ s' with
          qios := Function.update s.qios slot none
          doing := none
          asleep := if b.want then false else s.asleep }, .quiet)

/-- A step. -/
def exec : Label α → M (State α × Note α)
  | .call c => s.call c
  | .go => s.go
  | .work => s.work
  | .done => s.done

end State

/-- `init_buf`. -/
def start (disk : ℕ → α) (coresec : ℕ) : State α :=
  ⟨disk, [], [], 0, coresec, fun _ => none, 0, 0, 0, none, false, .user⟩

/-! ## A plain disk -/

/-- The content of the sectors, as far as the caller may rely on it. -/
abbrev Plain (α : Type) := ℕ → Option α

/-- What a step makes of it. -/
def Note.onto (plain : Plain α) : Note α → Plain α
  | .quiet | .read _ _ => plain
  | .stored a data => fun x => if a ≤ x ∧ x < a + data.length then data[x - a]? else plain x
  | .gone a n => fun x => if a ≤ x ∧ x < a + n then none else plain x

/-- The server, the plain disk, and the handle of the last call of `sync_bufs` behind which nothing
was written. -/
structure World (α : Type) where
  server : State α
  plain : Plain α
  synced : Option (Option Handle)

def World.start (disk : ℕ → α) (coresec : ℕ) : World α :=
  ⟨Abc.start disk coresec, fun a => some (disk a), none⟩

/-- What is known to be flushed after a step. -/
def World.syncs (w : World α) (label : Label α) (note : Note α) : Option (Option Handle) :=
  match label, note with
  | .call (.syncAll handle), _ => some handle
  | _, .stored _ _ => none
  | _, _ => w.synced

/-- One step after the other. -/
def World.Step (w : World α) (label : Label α) (w' : World α) : Prop :=
  ∃ note, w.server.exec label = .ok (w'.server, note) ∧ w'.plain = note.onto w.plain ∧
    w'.synced = w.syncs label note

/-- Sectors are in no other buffer. -/
def Alone (pool : Hash (Buf α)) (d : ULong) (n : ℕ) : Prop :=
  ∀ d' b a, d' ≠ d → pool.lookup d' = some b → d'.toNat ≤ a → a < d'.toNat + b.bNsec →
    ¬(d.toNat ≤ a ∧ a < d.toNat + n)

/-- There is as much to write as `index_buf` was asked for. -/
def Use.Sized (n : ℕ) : Use α → Prop
  | .load => True
  | .store data _ => data.length = n

/-- What the caller has to keep to: sizes are within bounds, the sectors of a buffer are in no other
one, and pointers are to buffers that are there. -/
def Meets (w : World α) : Label α → Prop
  | .call (.find new) => 0 < new.nsec ∧ new.nsec ≤ EXTSIZ ∧
      (w.server.bufpool.lookup new.start = none → Alone w.server.bufpool new.start new.nsec)
  | .call (.resize d newsize _ _) => 0 < newsize ∧ newsize ≤ EXTSIZ ∧
      (w.server.bufpool.lookup d ≠ none → Alone w.server.bufpool d newsize)
  | .call (.index d i n use) =>
      ∃ b, w.server.bufpool.lookup d = some b ∧ 0 < n ∧ i + n ≤ b.bNsec ∧ use.Sized n
  | .call (.lock d) | .call (.unlock d) | .call (.sync d) => w.server.bufpool.lookup d ≠ none
  | .call (.inval _ _) | .call (.syncAll _) | .go | .work | .done => True

end Vsta.Abc
