import Vsta.Hash
import Vsta.Library.Mailbox
import Vsta.Vstafs.Requests

/-!
# The select server

`srv/selfs`: a client waits in a read until a server posts an event for one of its descriptors, or
its time has passed. Events that come while it does not wait are queued, at most one for each
descriptor.

A `struct file` is found through its connection, also where the server keeps a pointer to it
(`time_waiters`): a pointer to one that was freed is a connection that is gone. Beside the queues is
the history of what was posted and delivered. The thread that sends `SEL_TIME` is a client like
others.
-/

set_option autoImplicit false

namespace Vsta.Selfs

open Service Vstafs

/-- Why the server does not get to the end of a message: a list head that was copied from another
struct, a struct that was freed, or memory that was not there is used. -/
inductive Fault where
  | wild | freed | nomem
  deriving DecidableEq, Repr

/-- `struct event`. -/
structure Event where
  eIndex : Uint
  eIocount : ULong
  eMask : Uint
  deriving DecidableEq, Repr

/-- `struct select_event`. -/
structure SelectEvent where
  seClid : Handle
  seKey : ULong
  seIndex : Uint
  seMask : Uint
  seIocount : ULong
  deriving DecidableEq, Repr

/-- `struct time`. -/
structure Time where
  tSec : ℤ
  tUsec : ℤ
  deriving DecidableEq, Repr

/-- `f_mode`. -/
inductive Mode where
  | ROOT | CLIENT | SERVER
  deriving DecidableEq, Repr

/-- `struct file`. The events are not known where the list head was copied: its pointers lead into
another struct. -/
structure File where
  fEvents : Option (List Event)
  fKey : ULong
  fMode : Mode
  fSender : Handle
  fSize : ℕ
  fTimeq : Bool
  fTime : Time
  deriving DecidableEq, Repr

/-- The clients, those that wait for a time to pass, the request of the timer thread and whether
there is one. -/
structure State where
  filehash : Hash File
  timeWaiters : List Handle
  timerHandle : Option Handle
  timerTid : Bool
  box : Mailbox Handle Uint Event

/-- What a message finds: memory, a random key, and the time. -/
structure Outcome where
  mem : Bool
  key : ULong
  now : Time
  deriving DecidableEq, Repr

/-- What a name in `FS_OPEN` says. -/
inductive Node where
  | client | server | other
  deriving DecidableEq, Repr

/-- A message. That of a write is `m_arg` and what is in memory from `m_buf` on. -/
inductive Request where
  | connect
  | disconnect
  | dup (mArg : Handle)
  | abort
  | open_ (mArg : ULong) (name : Node)
  | read (mArg mArg1 : ℤ)
  | write (mArg : ℕ) (se : ℕ → SelectEvent)
  | stat
  | time
  | unknown

/-- An answer: an error, events, or nothing else. -/
inductive Body where
  | err | plain | events (sc : List Event)
  deriving DecidableEq, Repr

/-- An answer on its way. -/
structure Reply where
  who : Handle
  body : Body
  deriving DecidableEq, Repr

abbrev MAXIO : ℕ := 32 * 1024
abbrev ACC_DIR : ULong := 0x20

/-- Sizes of `struct select_complete` and `struct select_event`. -/
abbrev COMPLETE : ℕ := 12
abbrev EVENT : ℕ := 20

/-- A time is before another, or the same. -/
def Time.atMost (t tp : Time) : Bool := t.tSec < tp.tSec || t.tSec = tp.tSec && t.tUsec ≤ tp.tUsec

/-- The time that is so many milliseconds later. -/
def Time.later (t : Time) (ms : ℤ) : Time :=
  let sec := t.tSec + ms.tdiv 1000
  let usec := t.tUsec + ms.tmod 1000 * 1000
  -- the loop takes a million away as long as there is more
  if 1000000 < usec then ⟨sec + (usec - 1) / 1000000, (usec - 1) % 1000000 + 1⟩ else ⟨sec, usec⟩

/-- Where an event goes in the queue: after a search that finds no entry of the index, `e` is the
last of the list. -/
def store (e : Event) : List Event → List Event
  | [] => [e]
  | [_] => [e]
  | first :: rest => if first.eIndex = e.eIndex then e :: rest else first :: store e rest

namespace State

/-- A struct is changed. -/
def put (s : State) (h : Handle) (f : File) : State :=
  { s with filehash := s.filehash.modify h fun _ => f }

/-- A client waits no more, and is off the list of those that wait for a time. -/
def unqueue (s : State) (h : Handle) (f : File) : State :=
  { s.put h { f with fSize := 0, fTimeq := false } with
    timeWaiters := if f.fTimeq then s.timeWaiters.erase h else s.timeWaiters }

/-- A struct is changed by an event that was posted for it. -/
def queueEvent (s : State) (h : Handle) (f : File) (e : Event) : State :=
  { s.put h f with box := s.box.post h e.eIndex e }

/-- `run_queue`. -/
def runQueue (s : State) (x : Outcome) (h : Handle) (f : File) :
    Except Fault (State × List Reply) :=
  match f.fEvents with
  | none => .error .wild
  | some events =>
      let out := events.take (f.fSize / COMPLETE)
      if !out.isEmpty && !x.mem then .error .nomem
      else
        let s := s.unqueue h { f with fEvents := some (events.drop (f.fSize / COMPLETE)) }
        .ok ({ s with box := out.foldl (Mailbox.deliver Event.eIndex h) s.box },
          [⟨f.fSender, .events out⟩])

/-- `soonest`. -/
def soonest (s : State) (t : Time) : List Handle → Except Fault Bool
  | [] => .ok true
  | l :: rest =>
      match s.filehash.lookup l with
      | none => .error .freed
      | some f => if f.fTime.atMost t then .ok false else soonest s t rest

/-- The part of `selfs_read` that begins to wait for a time. -/
def waitTimed (s : State) (x : Outcome) (h : Handle) (f : File) (mArg1 : ℤ) :
    Except Fault (State × List Reply) := do
  let f := { f with fTime := x.now.later mArg1, fTimeq := x.mem }
  let (s, sent) ← match s.timerHandle with
    | some timer => pure ({ s with timerHandle := none }, [⟨timer, .plain⟩])
    | none =>
        if s.timerTid then do
          let _ ← s.soonest f.fTime s.timeWaiters
          pure (s, [])
        else pure ({ s with timerTid := true }, [])
  return ({ s.put h f with
    timeWaiters := if x.mem then s.timeWaiters ++ [h] else s.timeWaiters }, sent)

/-- `selfs_read`. -/
def selfsRead (s : State) (x : Outcome) (h : Handle) (f : File) (mArg mArg1 : ℤ) :
    Except Fault (State × List Reply) :=
  if f.fMode ≠ .CLIENT ∨ mArg < 1 ∨ MAXIO < mArg then .ok (s, [⟨h, .err⟩])
  else
    let f := { f with fSize := mArg.toNat }
    if f.fEvents ≠ some [] then s.runQueue x h f
    else if mArg1 = -1 then .ok (s.put h { f with fSize := 0 }, [⟨h, .plain⟩])
    else if mArg1 ≠ 0 then s.waitTimed x h f mArg1
    else .ok (s.put h f, [])

/-- A round of the loop of `selfs_write`, unless the event is not for a client. -/
def post (s : State) (x : Outcome) (se : SelectEvent) :
    Except Fault (Option (State × List Reply)) :=
  match s.filehash.lookup se.seClid with
  | none => .ok none
  | some f =>
      if f.fKey ≠ se.seKey ∨ f.fMode ≠ .CLIENT then .ok none
      else
        match f.fEvents with
        | none => .error .wild
        | some events =>
            let e : Event := ⟨se.seIndex, se.seIocount, se.seMask⟩
            if events.isEmpty && !x.mem then .error .nomem
            else
              let f := { f with fEvents := some (store e events) }
              let s := s.queueEvent se.seClid f e
              if f.fSize ≠ 0 then some <$> s.runQueue x se.seClid f else .ok (some (s, []))

/-- The loop of `selfs_write`, and whether it got to its end. -/
def postAll (s : State) (x : Outcome) : List SelectEvent → Except Fault (State × List Reply × Bool)
  | [] => .ok (s, [], true)
  | se :: rest => do
      match ← s.post x se with
      | none => return (s, [], false)
      | some (s, sent) =>
          let (s, sent', all) ← postAll s x rest
          return (s, sent ++ sent', all)

/-- `selfs_write`. -/
def selfsWrite (s : State) (x : Outcome) (h : Handle) (mArg : ℕ) (se : ℕ → SelectEvent) :
    Except Fault (State × List Reply) :=
  if MAXIO < mArg then .ok (s, [⟨h, .err⟩])
  else if mArg % EVENT ≠ 0 then .ok (s, [⟨h, .err⟩])
  else do
    let (s, sent, all) ← s.postAll x ((List.range (mArg / EVENT)).map se)
    return (s, sent ++ [⟨h, if all then .plain else .err⟩])

/-- `selfs_abort`. -/
def selfsAbort (s : State) (h : Handle) (f : File) : State × List Reply :=
  (s.unqueue h f, [⟨h, .plain⟩])

/-- `timeout`, of a client that is on the list. -/
def timeout (s : State) (h : Handle) (f : File) : State × List Reply :=
  (s.unqueue h f, [⟨f.fSender, .plain⟩])

/-- The loop of `selfs_timeout`, with the time and the next one to come. -/
def expire (t : Time) : List Handle → State → Time → Except Fault (State × List Reply × Time)
  | [], s, next => .ok (s, [], next)
  | l :: rest, s, next =>
      match s.filehash.lookup l with
      | none => .error .freed
      | some f =>
          if f.fTime.atMost t then
            if f.fTimeq then do
              let (s, sent) := s.timeout l f
              let (s, sent', next) ← expire t rest s next
              return (s, sent ++ sent', next)
            else .error .wild
          else expire t rest s (if f.fTime.atMost next then t else next)

/-- `selfs_timeout`. -/
def selfsTimeout (s : State) (x : Outcome) (h : Handle) : Except Fault (State × List Reply) := do
  let (s, sent, next) ← expire x.now s.timeWaiters s ⟨0, 0⟩
  if next = ⟨0, 0⟩ then return ({ s with timerHandle := some h }, sent)
  else return ({ s with timerHandle := none }, sent ++ [⟨h, .plain⟩])

/-- `new_client`. -/
def newClient (s : State) (x : Outcome) (h : Handle) : State × List Reply :=
  if !x.mem then (s, [⟨h, .err⟩])
  else
    ({ s with
      filehash := s.filehash.insert h ⟨some [], x.key, .ROOT, h, 0, false, ⟨0, 0⟩⟩
      box := s.box.forget h }, [⟨h, .plain⟩])

/-- `dup_client`. -/
def dupClient (s : State) (x : Outcome) (h : Handle) (fold : File) (mArg : Handle) :
    State × List Reply :=
  if !x.mem then (s, [⟨h, .err⟩])
  else
    ({ s with
      filehash := s.filehash.insert mArg { fold with fEvents := none, fSender := mArg }
      box := s.box.forget mArg }, [⟨h, .plain⟩])

/-- `dead_client`. -/
def deadClient (s : State) (h : Handle) : State :=
  { s with filehash := s.filehash.delete h, box := s.box.forget h }

/-- `selfs_open`. -/
def selfsOpen (s : State) (h : Handle) (f : File) (mArg : ULong) (name : Node) :
    State × List Reply :=
  if f.fMode ≠ .ROOT then (s, [⟨h, .err⟩])
  else if has mArg ACC_DIR || has mArg ACC_CREATE then (s, [⟨h, .err⟩])
  else
    match name with
    | .client => (s.put h { f with fMode := .CLIENT }, [⟨h, .plain⟩])
    | .server => (s.put h { f with fMode := .SERVER }, [⟨h, .plain⟩])
    | .other => (s, [⟨h, .err⟩])

/-- The switch of `selfs_main`. Operations other than a connect and `SEL_TIME` use the sender's
struct. -/
def exec (s : State) (x : Outcome) (h : Handle) (m : Request) :
    Except Fault (State × List Reply) :=
  match m, s.filehash.lookup h with
  | .connect, _ => .ok (s.newClient x h)
  | .time, _ => s.selfsTimeout x h
  | .unknown, _ => .ok (s, [⟨h, .err⟩])
  | _, none => .error .wild
  | .disconnect, some _ => .ok (s.deadClient h, [])
  | .dup mArg, some f => .ok (s.dupClient x h f mArg)
  | .abort, some f => .ok (s.selfsAbort h f)
  | .open_ mArg name, some f => .ok (s.selfsOpen h f mArg name)
  | .read mArg mArg1, some f => s.selfsRead x h f mArg mArg1
  | .write mArg se, some _ => s.selfsWrite x h mArg se
  | .stat, some _ => .ok (s, [⟨h, .plain⟩])

end State

/-- No client. -/
def start : State := ⟨[], [], none, false, ⟨fun _ _ => none, false⟩⟩

/-- The messages that can arrive: a connect and a duplicate name a connection that does not exist,
and a client that waits sends nothing but an abort or a disconnect. -/
def Legal (s : State) (h : Handle) : Request → Prop
  | .connect => s.filehash.lookup h = none
  | .disconnect => s.filehash.lookup h ≠ none
  | .abort => s.filehash.lookup h ≠ none
  | .dup mArg => (∃ f, s.filehash.lookup h = some f ∧ f.fSize = 0) ∧ s.filehash.lookup mArg = none
  | _ => ∃ f, s.filehash.lookup h = some f ∧ f.fSize = 0

/-- A message with its sender and what it finds. -/
structure Label where
  x : Outcome
  sender : Handle
  request : Request

/-- One message. -/
def Step (s : State) (l : Label) (t : State) : Prop :=
  Legal s l.sender l.request ∧ ∃ sent, s.exec l.x l.sender l.request = .ok (t, sent)

end Vsta.Selfs
