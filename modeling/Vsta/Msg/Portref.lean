import Vsta.Basic
import Mathlib.Logic.Function.Basic

/-!
# A connection

`struct portref` and what the functions of `os/kern/msg.c`, `msgcon.c` and
`msgkern.c` do to it while they hold its lock.

A portref's semaphore `p_sema` lets one thread at a time do I/O through it, so the
record holds the control point of that thread (`io`), which starts as `idle`. The
thread's `sysmsg` lives on its stack; the record keeps every `sysmsg` made through
the portref in `sent`, under a key that is never used twice, so that a pointer to a
`sysmsg` whose function has returned stays distinct from a pointer to a new one.
`p_msg` holds such a key: `msg_receive` only ever sets it to a message that the
portref sent.

The semaphores `p_iowait` and `p_svwait` keep their counts. Only the thread in `io`
sleeps on `p_iowait`; the threads that sleep on `p_svwait` are listed by the message
they replied to. `received` and `replied` are history: nothing in the code reads
them.
-/

set_option autoImplicit false

namespace Vsta.Msg

abbrev PrId := Nat
abbrev PortId := Nat
abbrev ProcId := Nat

/-! ## Message types -/

abbrev M_CONNECT : Nat := 1
abbrev M_DISCONNECT : Nat := 2
abbrev M_DUP : Nat := 3
abbrev M_ABORT : Nat := 4
abbrev M_ISR : Nat := 5
abbrev M_RESVD : Nat := 99

/-- `M_READ`: the buffer is the destination of the reply. -/
abbrev M_READ : Nat := 0x80000000

/-- `MSG_MASK`, as the number of operations it lets through. -/
abbrev MSG_OPS : Nat := 0x1000

/-- A `sysmsg` of a portref: the message of its `n`-th request, the `M_ABORT` that
this request queued when it was interrupted, or its `M_DISCONNECT`. -/
inductive MsgKey where
  | sm (n : Nat)
  | sm2 (n : Nat)
  | disc
  deriving DecidableEq, Repr

/-- `struct sysmsg`. `mNseg` is the user's `m_nseg`, `nseg` the kernel's `sm_nseg`. -/
structure Sysmsg where
  op : Nat
  arg : Int
  arg1 : Int
  mNseg : Int
  nseg : Nat
  received : Bool := false
  replied : Bool := false
  deriving DecidableEq, Repr

/-- Values of `p_state`. -/
inductive PState where
  | PS_IOWAIT | PS_IODONE | PS_ABWAIT | PS_ABDONE | PS_OPENING | PS_CLOSING
  deriving DecidableEq, Repr

/-- What the thread that holds `p_sema` is doing: `msg_send()`, `kernmsg_send()`, the
`kernmsg_send()` of `dup_port()` with its new portref, or `msg_connect()`. -/
inductive Job where
  | send
  | kern
  | dup (newpr : PrId)
  | connect
  deriving DecidableEq, Repr

/-- The control point of the thread that does I/O through a portref. -/
inductive Io where
  /-- `p_sema` is free. -/
  | idle
  /-- Asleep on `p_iowait`. -/
  | asleep (n : Nat) (job : Job)
  /-- Past `p_iowait`, has not run yet. -/
  | woken (n : Nat) (job : Job)
  /-- An event took `msg_send()` off `p_iowait`. -/
  | broken (n : Nat)
  /-- Asleep on `p_iowait` for the second time, after queueing `M_ABORT`. -/
  | abAsleep (n : Nat)
  | abWoken (n : Nat)
  /-- `msg_send()` at `out1`, with whether it reports an error. -/
  | out1 (n : Nat) (error : Bool)
  /-- About to release `p_sema`. -/
  | release (n : Nat) (job : Job) (error : Bool)
  deriving DecidableEq, Repr

/-- A V on the semaphore the thread sleeps on. -/
def Io.wake : Io → Io
  | .asleep n job => .woken n job
  | .abAsleep n => .abWoken n
  | io => io

/-- The request the thread is at work on. -/
def Io.req : Io → Option Nat
  | .idle => none
  | .asleep n _ | .woken n _ | .broken n | .abAsleep n | .abWoken n | .out1 n _ |
    .release n _ _ => some n

@[simp] theorem Io.req_wake (io : Io) : io.wake.req = io.req := by
  cases io <;> rfl

/-- The function the thread executes. -/
def Io.job : Io → Option Job
  | .idle => none
  | .asleep _ job | .woken _ job | .release _ job _ => some job
  | .broken _ | .abAsleep _ | .abWoken _ | .out1 _ _ => some .send

@[simp] theorem Io.job_wake (io : Io) : io.wake.job = io.job := by
  cases io <;> rfl

@[simp] theorem Io.wake_idle : Io.idle.wake = .idle := rfl

/-- A portref's memory. `opening` is a portref that `msg_connect()` or `dup_port()` has
not yet handed to its process. -/
inductive Life where
  | unallocated | opening | opened | freed
  deriving DecidableEq, Repr

/-- `struct portref`, with the threads that are working on it. -/
structure Portref where
  life : Life
  pPort : Option PortId
  pState : PState
  /-- `PF_NODUP`. -/
  nodup : Bool
  /-- `p_refs`: open slots that lead here. -/
  pRefs : Nat
  pMsg : Option MsgKey
  /-- The count of `p_iowait`. -/
  pIowait : Int
  /-- The count of `p_svwait`, and the message each of its sleepers replied to. -/
  pSvwait : Int
  svSleepers : List MsgKey
  io : Io
  /-- Threads that wait for `p_sema`. -/
  waiters : Nat
  /-- `shut_client()` dropped the last reference and has not taken the lock again. -/
  shutting : Bool
  /-- The number of requests made. -/
  serial : Nat
  sent : MsgKey → Sysmsg
  /-- Replies that accepted a duplication of this portref and have not woken the client:
  the new portref, and the process that replies. -/
  dupWakes : List (PrId × ProcId)
  /-- A reply that made this new portref a client of its process and has not hashed it. -/
  dupHash : Option ProcId
  /-- The portref whose `dup_port()` made this one. -/
  parent : Option PrId

namespace Portref

/-- A portref that does not exist. -/
def unborn : Portref where
  life := .unallocated
  pPort := none
  pState := .PS_OPENING
  nodup := false
  pRefs := 0
  pMsg := none
  pIowait := 0
  pSvwait := 0
  svSleepers := []
  io := .idle
  waiters := 0
  shutting := false
  serial := 0
  sent := fun _ => ⟨0, 0, 0, 0, 0, false, false⟩
  dupWakes := []
  dupHash := none
  parent := none

/-- `alloc_portref()`. -/
def alloc (nodup : Bool) : Portref := { unborn with life := .opening, nodup := nodup, pRefs := 1 }

/-- Write a `sysmsg` of the portref. -/
def setSent (pr : Portref) (key : MsgKey) (m : Sysmsg) : Portref :=
  { pr with sent := Function.update pr.sent key m }

/-! ## Semaphores -/

/-- `v_sema(&pr->p_iowait)`. -/
def vIowait (pr : Portref) : Portref :=
  { pr with pIowait := pr.pIowait + 1, io := pr.io.wake }

/-- `p_sema_v_lock(&pr->p_iowait, …)` by the thread in `io`. -/
def pSemaIowait (pr : Portref) (asleep awake : Io) : Portref :=
  { pr with pIowait := pr.pIowait - 1, io := if 0 ≤ pr.pIowait - 1 then awake else asleep }

/-- `v_sema(&pr->p_svwait)`. -/
def vSvwait (pr : Portref) : Portref :=
  { pr with pSvwait := pr.pSvwait + 1, svSleepers := pr.svSleepers.tail }

/-- `p_sema_v_lock(&pr->p_svwait, …)` by the thread that replied to `key`. -/
def pSemaSvwait (pr : Portref) (key : MsgKey) : Portref :=
  { pr with
    pSvwait := pr.pSvwait - 1
    svSleepers := if 0 ≤ pr.pSvwait - 1 then pr.svSleepers else pr.svSleepers ++ [key] }

/-! ## The client's sections -/

/-- `msg_send()` and `kernmsg_send()` from the check of `p_port` to the sleep on
`p_iowait`, where the port is still there. -/
def post (pr : Portref) (job : Job) (m : Sysmsg) : Portref :=
  { pr.setSent (.sm pr.serial) m with
    waiters := pr.waiters - 1, serial := pr.serial + 1, pState := .PS_IOWAIT }
    |>.pSemaIowait (.asleep pr.serial job) (.woken pr.serial job)

/-- `msg_connect()`: a new portref with its `M_CONNECT` and its thread asleep. -/
def connecting (nodup : Bool) (port : PortId) (m : Sysmsg) : Portref :=
  { (alloc nodup).setSent (.sm 0) m with serial := 1, pPort := some port }
    |>.pSemaIowait (.asleep 0 .connect) (.woken 0 .connect)

/-- An event takes `msg_send()` off `p_iowait`. -/
def event (pr : Portref) (n : Nat) : Portref :=
  { pr with pIowait := pr.pIowait + 1, io := .broken n }

/-- The interrupted `msg_send()` gives up without talking to the server. -/
def giveUp (pr : Portref) (n : Nat) : Portref :=
  { pr with pState := .PS_IODONE, io := .out1 n true }

/-- The interrupted `msg_send()` has queued `M_ABORT` and waits for its acknowledgement. -/
def abort (pr : Portref) (n : Nat) : Portref :=
  { pr.setSent (.sm2 n) ⟨M_ABORT, 0, 0, 0, 0, false, false⟩ with pState := .PS_ABWAIT }
    |>.pSemaIowait (.abAsleep n) (.abWoken n)

/-- The interrupted `msg_send()` finds that it raced with the server's completion. -/
def raced (pr : Portref) (n : Nat) : Portref :=
  let pr := { pr with pIowait := 0, io := .out1 n true }
  if pr.pSvwait < 0 then pr.vSvwait else pr

/-- How copying the reply's segments to the client ends. -/
inductive Copy where
  | mapFails | copyFails | copied
  deriving DecidableEq, Repr

/-- `msg_send()` after a normal wake-up, up to `out1`. -/
def collect (pr : Portref) (n : Nat) (copy : Copy) : Portref :=
  let m := pr.sent (.sm n)
  if m.arg = -1 then { pr with io := .out1 n true }
  else if m.nseg = 0 then { pr with io := .out1 n false }
  else match copy with
    | .mapFails => { pr with io := .out1 n true }
    | .copyFails =>
        { pr.setSent (.sm n) { m with mNseg := m.nseg, nseg := 0 } with io := .out1 n true }
    | .copied =>
        { pr.setSent (.sm n) { m with mNseg := m.nseg, nseg := 0 } with io := .out1 n false }

/-- `msg_send()` at `out1`: let a server go that waits for the copy. -/
def out1 (pr : Portref) (n : Nat) (error : Bool) : Portref :=
  let pr := { pr with io := .release n .send error }
  if (pr.sent (.sm n)).mNseg ≠ 0 then pr.vSvwait else pr

/-- `kernmsg_send()` after its wake-up. The caller still holds `p_sema`. -/
def kernOut (pr : Portref) (n : Nat) (job : Job) : Portref :=
  { pr.vSvwait with io := .release n job (decide ((pr.sent (.sm n)).arg = -1)) }

/-! ## The server's sections -/

/-- `msg_receive()` takes the message. -/
def receive (pr : Portref) (key : MsgKey) : Portref :=
  { pr.setSent key { pr.sent key with received := true } with pMsg := some key }

/-- `mapsegs()`, `sm_to_m()` and the copy out to the server. When the server cannot map
the segments they are freed, and the user's count keeps its value. -/
def smToM (pr : Portref) (key : MsgKey) (mapped : Bool) : Portref :=
  let m := pr.sent key
  if m.nseg = 0 ∨ mapped then pr.setSent key { m with mNseg := m.nseg, nseg := 0 }
  else pr.setSent key { m with nseg := 0 }

/-- The fields of the reply that `msg_reply()` passes on. -/
structure Reply where
  op : Nat
  arg : Int
  arg1 : Int
  nseg : Nat
  deriving DecidableEq, Repr

/-- `msg_reply()` answers the request `om`. -/
def answer (pr : Portref) (om : MsgKey) (r : Reply) : Portref :=
  let m := pr.sent om
  let pr := { pr.setSent om
      { m with op := r.op, arg := r.arg, arg1 := r.arg1, nseg := r.nseg, replied := true } with
    pMsg := none, pState := .PS_IODONE }
  if r.nseg ≠ 0 then ({ pr with pSvwait := 0 }.vIowait).pSemaSvwait om else pr.vIowait

/-- `msg_reply()` by process `p` accepts the `M_DUP` request `om`; the client is woken later. -/
def acceptDup (pr : Portref) (om : MsgKey) (newpr : PrId) (p : ProcId) : Portref :=
  { pr.setSent om { pr.sent om with replied := true } with
    pState := .PS_IODONE, dupWakes := pr.dupWakes ++ [(newpr, p)] }

/-- `msg_reply()` wakes the client whose duplication it accepted. -/
def dupWake (pr : Portref) (newpr : PrId) (p : ProcId) : Portref :=
  { pr with dupWakes := pr.dupWakes.erase (newpr, p) }.vIowait

/-- `msg_reply()` acknowledges an `M_ABORT`. -/
def abortDone (pr : Portref) : Portref := { pr with pState := .PS_ABDONE }.vIowait

/-- `msg_err()` on the request `om`. -/
def reject (pr : Portref) (om : MsgKey) : Portref :=
  { pr.setSent om { pr.sent om with arg := -1 } with pState := .PS_IODONE }.vIowait

/-- `msg_err()` on an open. -/
def refuseOpen (pr : Portref) : Portref := { pr with pState := .PS_ABDONE }.vIowait

/-- `msg_accept()`. -/
def accept (pr : Portref) : Portref := { pr with pState := .PS_IODONE }.vIowait

/-- `bounce_msgs()` on one message. -/
def bounce (pr : Portref) (key : MsgKey) : Portref :=
  let m := { pr.sent key with nseg := 0 }
  if pr.pState = .PS_ABWAIT ∧ m.op ≠ M_ABORT then pr.setSent key m
  else { pr.setSent key { m with arg := -1, arg1 := -1 } with pPort := none }.vIowait

/-- `close_client()`, where the queue is empty. -/
def closeClient (pr : Portref) : Portref :=
  let pr := { pr with pPort := none }
  if pr.pIowait < 0 then pr.vIowait else pr

/-! ## What the sections leave alone -/

theorem pSemaIowait_req (pr : Portref) {asleep awake : Io} {n : Nat}
    (sleeps : asleep.req = some n) (runs : awake.req = some n) :
    (pr.pSemaIowait asleep awake).io.req = some n := by
  simp only [pSemaIowait]
  split
  · exact runs
  · exact sleeps

theorem pSemaIowait_job (pr : Portref) {asleep awake : Io} {job : Job}
    (sleeps : asleep.job = some job) (runs : awake.job = some job) :
    (pr.pSemaIowait asleep awake).io.job = some job := by
  simp only [pSemaIowait]
  split
  · exact runs
  · exact sleeps

@[simp] theorem post_req (pr : Portref) (job : Job) (m : Sysmsg) :
    (pr.post job m).io.req = some pr.serial :=
  pSemaIowait_req _ rfl rfl

@[simp] theorem connecting_req (nodup : Bool) (port : PortId) (m : Sysmsg) :
    (connecting nodup port m).io.req = some 0 :=
  pSemaIowait_req _ rfl rfl

@[simp] theorem abort_req (pr : Portref) (n : Nat) : (pr.abort n).io.req = some n :=
  pSemaIowait_req _ rfl rfl

@[simp] theorem post_job (pr : Portref) (job : Job) (m : Sysmsg) :
    (pr.post job m).io.job = some job :=
  pSemaIowait_job _ rfl rfl

@[simp] theorem abort_job (pr : Portref) (n : Nat) : (pr.abort n).io.job = some .send :=
  pSemaIowait_job _ rfl rfl

@[simp] theorem raced_frame (pr : Portref) (n : Nat) :
    (pr.raced n).life = pr.life ∧ (pr.raced n).pPort = pr.pPort ∧
      (pr.raced n).pState = pr.pState ∧ (pr.raced n).pRefs = pr.pRefs ∧
      (pr.raced n).pMsg = pr.pMsg ∧ (pr.raced n).shutting = pr.shutting ∧
      (pr.raced n).serial = pr.serial ∧ (pr.raced n).sent = pr.sent ∧
      (pr.raced n).dupWakes = pr.dupWakes ∧ (pr.raced n).dupHash = pr.dupHash ∧
      (pr.raced n).parent = pr.parent ∧ (pr.raced n).pIowait = 0 ∧
      (pr.raced n).io = .out1 n true := by
  simp only [raced]
  split <;> simp [vSvwait]

@[simp] theorem out1_frame (pr : Portref) (n : Nat) (error : Bool) :
    (pr.out1 n error).life = pr.life ∧ (pr.out1 n error).pPort = pr.pPort ∧
      (pr.out1 n error).pState = pr.pState ∧ (pr.out1 n error).pRefs = pr.pRefs ∧
      (pr.out1 n error).pMsg = pr.pMsg ∧ (pr.out1 n error).shutting = pr.shutting ∧
      (pr.out1 n error).serial = pr.serial ∧ (pr.out1 n error).sent = pr.sent ∧
      (pr.out1 n error).dupWakes = pr.dupWakes ∧ (pr.out1 n error).dupHash = pr.dupHash ∧
      (pr.out1 n error).parent = pr.parent ∧ (pr.out1 n error).pIowait = pr.pIowait ∧
      (pr.out1 n error).io = .release n .send error := by
  simp only [out1]
  split <;> simp [vSvwait]

@[simp] theorem smToM_frame (pr : Portref) (key : MsgKey) (mapped : Bool) :
    (pr.smToM key mapped).life = pr.life ∧ (pr.smToM key mapped).pPort = pr.pPort ∧
      (pr.smToM key mapped).pState = pr.pState ∧ (pr.smToM key mapped).pRefs = pr.pRefs ∧
      (pr.smToM key mapped).pMsg = pr.pMsg ∧ (pr.smToM key mapped).shutting = pr.shutting ∧
      (pr.smToM key mapped).serial = pr.serial ∧ (pr.smToM key mapped).io = pr.io ∧
      (pr.smToM key mapped).dupWakes = pr.dupWakes ∧
      (pr.smToM key mapped).dupHash = pr.dupHash ∧ (pr.smToM key mapped).parent = pr.parent ∧
      (pr.smToM key mapped).pIowait = pr.pIowait ∧
      (pr.smToM key mapped).pSvwait = pr.pSvwait ∧
      (pr.smToM key mapped).svSleepers = pr.svSleepers := by
  simp only [smToM]
  split <;> simp [setSent]

@[simp] theorem collect_frame (pr : Portref) (n : Nat) (copy : Copy) :
    (pr.collect n copy).life = pr.life ∧ (pr.collect n copy).pPort = pr.pPort ∧
      (pr.collect n copy).pState = pr.pState ∧ (pr.collect n copy).pRefs = pr.pRefs ∧
      (pr.collect n copy).pMsg = pr.pMsg ∧ (pr.collect n copy).shutting = pr.shutting ∧
      (pr.collect n copy).serial = pr.serial ∧ (pr.collect n copy).dupWakes = pr.dupWakes ∧
      (pr.collect n copy).dupHash = pr.dupHash ∧ (pr.collect n copy).parent = pr.parent ∧
      (pr.collect n copy).pIowait = pr.pIowait ∧ (pr.collect n copy).pSvwait = pr.pSvwait ∧
      (pr.collect n copy).svSleepers = pr.svSleepers := by
  simp only [collect]
  split
  · simp
  · split
    · simp
    · cases copy <;> simp [setSent]

/-- `msg_send()` comes to `out1` without an error only if the answer is not one. -/
theorem collect_io (pr : Portref) (n : Nat) (copy : Copy) :
    ∃ error, (pr.collect n copy).io = .out1 n error ∧
      (error = false → (pr.sent (.sm n)).arg ≠ -1) := by
  simp only [collect]
  split
  · exact ⟨true, rfl, by simp⟩
  · rename_i plain
    split
    · exact ⟨false, rfl, fun _ => plain⟩
    · cases copy <;> exact ⟨_, rfl, fun _ => plain⟩

@[simp] theorem answer_frame (pr : Portref) (om : MsgKey) (r : Reply) :
    (pr.answer om r).life = pr.life ∧ (pr.answer om r).pPort = pr.pPort ∧
      (pr.answer om r).pState = .PS_IODONE ∧ (pr.answer om r).pRefs = pr.pRefs ∧
      (pr.answer om r).pMsg = none ∧ (pr.answer om r).shutting = pr.shutting ∧
      (pr.answer om r).serial = pr.serial ∧ (pr.answer om r).io = pr.io.wake ∧
      (pr.answer om r).dupWakes = pr.dupWakes ∧ (pr.answer om r).dupHash = pr.dupHash ∧
      (pr.answer om r).parent = pr.parent ∧ (pr.answer om r).pIowait = pr.pIowait + 1 ∧
      (pr.answer om r).sent = Function.update pr.sent om { pr.sent om with
        op := r.op, arg := r.arg, arg1 := r.arg1, nseg := r.nseg, replied := true } := by
  simp only [answer]
  split <;> simp [vIowait, pSemaSvwait, setSent]

@[simp] theorem bounce_frame (pr : Portref) (key : MsgKey) :
    (pr.bounce key).life = pr.life ∧ (pr.bounce key).pState = pr.pState ∧
      (pr.bounce key).pRefs = pr.pRefs ∧ (pr.bounce key).pMsg = pr.pMsg ∧
      (pr.bounce key).shutting = pr.shutting ∧ (pr.bounce key).serial = pr.serial ∧
      (pr.bounce key).dupWakes = pr.dupWakes ∧ (pr.bounce key).dupHash = pr.dupHash ∧
      (pr.bounce key).parent = pr.parent ∧ (pr.bounce key).pSvwait = pr.pSvwait ∧
      (pr.bounce key).svSleepers = pr.svSleepers := by
  simp only [bounce]
  split <;> simp [vIowait, setSent]

@[simp] theorem closeClient_frame (pr : Portref) :
    pr.closeClient.life = pr.life ∧ pr.closeClient.pPort = none ∧
      pr.closeClient.pState = pr.pState ∧ pr.closeClient.pRefs = pr.pRefs ∧
      pr.closeClient.pMsg = pr.pMsg ∧ pr.closeClient.shutting = pr.shutting ∧
      pr.closeClient.serial = pr.serial ∧ pr.closeClient.sent = pr.sent ∧
      pr.closeClient.dupWakes = pr.dupWakes ∧ pr.closeClient.dupHash = pr.dupHash ∧
      pr.closeClient.parent = pr.parent ∧ pr.closeClient.pSvwait = pr.pSvwait ∧
      pr.closeClient.svSleepers = pr.svSleepers := by
  simp only [closeClient]
  split <;> simp [vIowait]

/-- A bounced message wakes its sender, or is ignored while the sender waits to abort. -/
theorem bounce_wake (pr : Portref) (key : MsgKey) :
    (pr.bounce key).pPort = pr.pPort ∧ (pr.bounce key).io = pr.io ∧ pr.pState = .PS_ABWAIT ∧
        (pr.bounce key).pIowait = pr.pIowait ∨
      (pr.bounce key).pPort = none ∧ (pr.bounce key).io = pr.io.wake ∧
        (pr.bounce key).pIowait = pr.pIowait + 1 ∧ ((pr.bounce key).sent key).arg = -1 := by
  simp only [bounce]
  split
  · rename_i ignored
    exact .inl ⟨rfl, rfl, ignored.1, rfl⟩
  · exact .inr ⟨rfl, rfl, rfl, by simp [vIowait, setSent]⟩

/-- Closing a connection wakes its thread if somebody sleeps on `p_iowait`. -/
theorem closeClient_wake (pr : Portref) :
    pr.closeClient.io = if pr.pIowait < 0 then pr.io.wake else pr.io := by
  simp only [closeClient]
  split <;> simp [vIowait]

end Portref

end Vsta.Msg
