import Vsta.Hash
import Vsta.Perm.Permission

/-!
# Events for threads and processes

`os/kern/event.c`. A thread has one slot for an event of a process, `t_evproc`, and one for an event
of the system, `t_evsys`. `notify2` puts an event into the slot of a thread, of every thread of a
process, or of every thread of the processes of a group; `check_events` hands the events of the two
slots to the thread on its way back to user mode.

`p_sema` of the target is held while its slots are filled, so a `notify2` is one step, with one
exception: `signal_thread` lets `runq_lock` go and starts over when the semaphore its target sleeps
on is busy, and the target may wake and take its events in between. What happens at each such
attempt is part of the call.
-/

set_option autoImplicit false

namespace Vsta.Events

open Permissions

/-- Longest event string, with its end. -/
abbrev EVLEN : Nat := 16

/-- `P_SIG`: the bit that lets events be sent. -/
abbrev P_SIG : UChar := 2#8

/-- The thread that stands for the process group. -/
abbrev NOTIFY_PG : ULong := 0xffffffff#32

/-- An event string that `get_ustr` lets pass. An empty string in a slot is no event. -/
structure Event where
  text : List UChar
  sane : text ≠ [] ∧ text.length < EVLEN
  deriving DecidableEq

/-- `t_state`. -/
inductive TState where
  | sleep | run | onproc | dead
  deriving DecidableEq, Repr

/-- What happens to the slot `t_evproc`. A placement has the number of the call that made it. -/
inductive SlotAct where
  | placed (call : Nat) (ev : Event)
  | taken (ev : Event)
  deriving DecidableEq

/-- `struct thread`, and what has happened to its slot, the newest first. -/
structure Thread where
  tPid : ULong
  tEvproc : Option Event
  tEvsys : Option Event
  tState : TState
  tNointr : Bool
  slotLog : List SlotAct
  deriving DecidableEq

/-- `struct proc`. -/
structure Proc where
  pIds : List Perm
  pProt : Prot
  pPgrp : Nat
  pThreads : List Thread

/-- The processes by their pid, the members of each group, and how many calls of `notify2` there
have been. -/
structure World where
  pidHash : Hash Proc
  pgMembers : Nat → List ULong
  calls : Nat

/-- Errors of `notify2`. -/
inductive NotifyErr where
  | EINTR | ESRCH | EPERM | EAGAIN
  deriving DecidableEq, Repr

/-- A call of `notify2` by a thread of the process `cur`. `busy` lists, for a thread the call wakes,
the attempts that found its semaphore busy: whether the thread took its events before the next. -/
structure Call where
  cur : ULong
  argProc : ULong
  argThread : ULong
  evname : Event
  interrupted : Bool
  busy : ULong → List Bool

namespace Thread

/-- `check_events`. -/
def checkEvents (t : Thread) : Thread :=
  match t.tEvsys with
  | some _ => { t with tEvsys := none }
  | none =>
      match t.tEvproc with
      | some ev => { t with tEvproc := none, slotLog := .taken ev :: t.slotLog }
      | none => t

/-- `strcpy(t->t_evproc, event)`: the event stands in the slot, or is placed there. -/
def put (t : Thread) (call : Nat) (ev : Event) : Thread :=
  if t.tEvproc = some ev then t
  else { t with tEvproc := some ev, slotLog := .placed call ev :: t.slotLog }

/-- The part of `signal_thread` after `retry:`, with the attempts that find the semaphore busy. -/
def retry (call : Nat) (ev : Event) : List Bool → Thread → Thread
  | [], t =>
      let t := t.put call ev
      if t.tState = .sleep ∧ t.tNointr = false then { t with tState := .run } else t
  | took :: rest, t =>
      let t := t.put call ev
      if t.tState = .sleep ∧ t.tNointr = false then
        retry call ev rest (if took then { t.checkEvents with tState := .onproc } else t)
      else t

/-- `signal_thread` for an event of a process. -/
def signalThread (t : Thread) (call : Nat) (ev : Event) (busy : List Bool) :
    Except NotifyErr Thread :=
  if t.tEvproc.isSome then .error .EAGAIN else .ok (t.retry call ev busy)

end Thread

/-- The search for a single thread. It goes on behind the thread it finds. -/
def signalOne (c : Call) (n : Nat) (tid : ULong) :
    List Thread → List Thread × Except NotifyErr Unit
  | [] => ([], .error .ESRCH)
  | t :: rest =>
      if t.tPid = tid then
        match t.signalThread n c.evname (c.busy t.tPid) with
        | .error e => (t :: rest, .error e)
        | .ok t' => let (rest', r) := signalOne c n tid rest; (t' :: rest', r)
      else let (rest', r) := signalOne c n tid rest; (t :: rest', r)

/-- Hit each guy in a row. -/
def signalAll (c : Call) (n : Nat) : List Thread → List Thread × Except NotifyErr Unit
  | [] => ([], .ok ())
  | t :: rest =>
      match t.signalThread n c.evname (c.busy t.tPid) with
      | .error e => (t :: rest, .error e)
      | .ok t' => let (rest', r) := signalAll c n rest; (t' :: rest', r)

namespace World

def setThreads (w : World) (pid : ULong) (threads : List Thread) : World :=
  { w with pidHash := w.pidHash.modify pid fun p => { p with pThreads := threads } }

/-- The permissions of the process that calls. -/
def callerIds (w : World) (c : Call) : List Perm :=
  (w.pidHash.lookup c.cur).elim [] Proc.pIds

/-- `perm_calc` allows the caller to send events to the process. -/
def maySignal (w : World) (c : Call) (p : Proc) : Bool :=
  permCalc (w.callerIds c) p.pProt &&& P_SIG ≠ 0#8

/-- `notify2` of all threads of a process that is looked up by its pid, as `notifypg` calls it. The
error is ignored. -/
def notifyMember (w : World) (c : Call) (pid : ULong) : World :=
  match w.pidHash.lookup pid with
  | none => w
  | some p =>
      if w.maySignal c p then w.setThreads pid (signalAll c w.calls p.pThreads).1 else w

/-- `notifypg`. -/
def notifypg (w : World) (c : Call) (members : List ULong) : World :=
  members.foldl (fun w pid => w.notifyMember c pid) w

/-- The process a call is for. -/
def target (w : World) (c : Call) : Option (ULong × Proc) :=
  let pid := if c.argProc = 0#32 then c.cur else c.argProc
  (w.pidHash.lookup pid).map (pid, ·)

/-- `notify2`. -/
def notify2 (w : World) (c : Call) : World × Except NotifyErr Unit :=
  if c.argProc = 0#32 ∧ c.interrupted then (w, .error .EINTR)
  else
    match w.target c with
    | none => (w, .error .ESRCH)
    | some (pid, p) =>
        if !w.maySignal c p then (w, .error .EPERM)
        else if c.argThread = NOTIFY_PG then (w.notifypg c (w.pgMembers p.pPgrp), .ok ())
        else if c.argThread ≠ 0#32 then
          let (threads, r) := signalOne c w.calls c.argThread p.pThreads
          (w.setThreads pid threads, r)
        else
          let (threads, r) := signalAll c w.calls p.pThreads
          (w.setThreads pid threads, r)

end World

end Vsta.Events
