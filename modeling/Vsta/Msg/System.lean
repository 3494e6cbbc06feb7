import Vsta.Library.Runs
import Vsta.Msg.Port

/-!
# The message system as a step relation

The state holds every portref, every port and the hash `p_prefs` of every process.
One step is one section that runs under a lock: sections under nested locks are one
step, a sleep ends a step, and the thread that is woken goes on in a later one. Calls
that fail before they take a lock leave no trace here.

The functions carry the names of the source functions they are sections of; where
one function has several, the name says which. A section returns nothing where the
kernel would stop: at a failed `ASSERT`, or at a null pointer.
-/

set_option autoImplicit false

namespace Vsta.Msg

open Errno

/-- A request that has returned to its caller. -/
structure Done where
  pr : PrId
  n : Nat
  job : Job
  error : Bool
  received : Bool
  replied : Bool
  deriving DecidableEq, Repr

/-- `struct isr_msg`: the port an interrupt is vectored to, and its message. -/
structure Isr where
  port : Option PortId
  m : Sysmsg
  deriving DecidableEq, Repr

/-- The state of the message system. -/
structure Kernel where
  prs : PrId → Portref
  ports : PortId → Port
  /-- `p_prefs` of each process. -/
  prefs : ProcId → PrId → Bool
  isrs : Nat → Isr
  /-- History: the requests that have returned, latest first. -/
  done : List Done

/-- A request of `msg_send()` after the checks it makes before it takes a lock. -/
structure Request where
  op : Nat
  arg : Int
  arg1 : Int
  mNseg : Int
  nseg : Nat
  deriving DecidableEq, Repr

/-- The operation is not reserved; a request that reads keeps its segments for the
reply, and any other has had each of its segments converted by `m_to_sm()`. -/
def Request.Passes (r : Request) : Prop :=
  M_RESVD ≤ r.op % MSG_OPS ∧
    if r.op / M_READ % 2 = 1 then r.nseg = 0 else (r.nseg : Int) = r.mNseg ∧ r.nseg ≤ MSGSEGS

instance (r : Request) : Decidable r.Passes := by
  unfold Request.Passes
  infer_instance

/-- What a system call tells its caller. -/
inductive Result where
  | ok
  | fails (error : Errno)
  deriving DecidableEq, Repr

namespace Kernel

/-- No connection, no port. -/
def boot : Kernel where
  prs := fun _ => Portref.unborn
  ports := fun _ => Port.unborn
  prefs := fun _ _ => false
  isrs := fun _ => ⟨none, 0, 0, 0, 0, 0, false, false⟩
  done := []

def setPr (s : Kernel) (id : PrId) (pr : Portref) : Kernel :=
  { s with prs := Function.update s.prs id pr }

def setPort (s : Kernel) (id : PortId) (port : Port) : Kernel :=
  { s with ports := Function.update s.ports id port }

/-- `hash_insert(p->p_prefs, pr)` and `hash_delete(p->p_prefs, pr)`. -/
def setPref (s : Kernel) (p : ProcId) (pr : PrId) (present : Bool) : Kernel :=
  { s with prefs := Function.update s.prefs p (Function.update (s.prefs p) pr present) }

@[simp] theorem setPr_prs (s : Kernel) (id : PrId) (pr : Portref) :
    (s.setPr id pr).prs = Function.update s.prs id pr := rfl
@[simp] theorem setPr_ports (s : Kernel) (id : PrId) (pr : Portref) :
    (s.setPr id pr).ports = s.ports := rfl
@[simp] theorem setPr_prefs (s : Kernel) (id : PrId) (pr : Portref) :
    (s.setPr id pr).prefs = s.prefs := rfl
@[simp] theorem setPr_done (s : Kernel) (id : PrId) (pr : Portref) :
    (s.setPr id pr).done = s.done := rfl
@[simp] theorem setPort_prs (s : Kernel) (id : PortId) (port : Port) :
    (s.setPort id port).prs = s.prs := rfl
@[simp] theorem setPort_ports (s : Kernel) (id : PortId) (port : Port) :
    (s.setPort id port).ports = Function.update s.ports id port := rfl
@[simp] theorem setPort_prefs (s : Kernel) (id : PortId) (port : Port) :
    (s.setPort id port).prefs = s.prefs := rfl
@[simp] theorem setPort_done (s : Kernel) (id : PortId) (port : Port) :
    (s.setPort id port).done = s.done := rfl
@[simp] theorem setPref_prs (s : Kernel) (p : ProcId) (pr : PrId) (present : Bool) :
    (s.setPref p pr present).prs = s.prs := rfl
@[simp] theorem setPref_ports (s : Kernel) (p : ProcId) (pr : PrId) (present : Bool) :
    (s.setPref p pr present).ports = s.ports := rfl
@[simp] theorem setPref_done (s : Kernel) (p : ProcId) (pr : PrId) (present : Bool) :
    (s.setPref p pr present).done = s.done := rfl
@[simp] theorem setPref_prefs (s : Kernel) (p : ProcId) (pr : PrId) (present : Bool) :
    (s.setPref p pr present).prefs =
      Function.update s.prefs p (Function.update (s.prefs p) pr present) := rfl

/-- The thread of request `n` releases `p_sema` and returns. -/
def finish (s : Kernel) (id : PrId) (n : Nat) (job : Job) (error : Bool) : Kernel :=
  let m := (s.prs id).sent (.sm n)
  { s.setPr id { s.prs id with io := .idle } with
    done := ⟨id, n, job, error, m.received, m.replied⟩ :: s.done }

/-! ## The client's calls -/

/-- `find_portref()`: take the thread's place in the line for `p_sema`. -/
def findPortref (s : Kernel) (id : PrId) : Option Kernel :=
  let pr := s.prs id
  if pr.life = .opened ∧ 0 < pr.pRefs then
    if pr.pPort = none then some s
    else some (s.setPr id { pr with waiters := pr.waiters + 1 })
  else none

/-- `p_sema(&pr->p_sema)` by a thread of the kernel. -/
def lockPortref (s : Kernel) (id : PrId) : Option Kernel :=
  let pr := s.prs id
  if pr.life = .opened then some (s.setPr id { pr with waiters := pr.waiters + 1 }) else none

/-- `find_portref()` is interrupted while it waits. -/
def findIntr (s : Kernel) (id : PrId) : Option Kernel :=
  let pr := s.prs id
  if 0 < pr.waiters then some (s.setPr id { pr with waiters := pr.waiters - 1 }) else none

/-- A thread gets `p_sema` and queues its request; if the server is gone it gives the
semaphore back and fails. -/
def send (s : Kernel) (id : PrId) (job : Job) (m : Sysmsg) : Option Kernel :=
  let pr := s.prs id
  if pr.io = .idle ∧ 0 < pr.waiters then
    match pr.pPort with
    | none => some (s.setPr id { pr with waiters := pr.waiters - 1 })
    | some port =>
        some ((s.setPort port ((s.ports port).lqueueMsg (.of id (.sm pr.serial)))).setPr id
          (pr.post job m))
  else none

/-- `msg_send()`, once it has the portref. -/
def msgSend (s : Kernel) (id : PrId) (r : Request) : Option Kernel :=
  if r.Passes then s.send id .send ⟨r.op, r.arg, r.arg1, r.mNseg, r.nseg, false, false⟩ else none

/-- `kernmsg_send()` with an operation of its own. -/
def kernmsgSend (s : Kernel) (id : PrId) (op : Nat) (arg arg1 : Int) : Option Kernel :=
  if M_RESVD ≤ op then s.send id .kern ⟨op, arg, arg1, 0, 0, false, false⟩ else none

/-- `dup_port()`: allocate the new portref and send `M_DUP` with its address. -/
def dupPort (s : Kernel) (id newpr : PrId) : Option Kernel :=
  let pr := s.prs id
  if (s.prs newpr).life = .unallocated ∧ pr.nodup = false ∧ newpr ≠ id then
    match s.send id (.dup newpr) ⟨M_DUP, newpr, 0, 0, 0, false, false⟩ with
    | none => none
    | some s' =>
        if pr.pPort = none then some s'
        else some (s'.setPr newpr { Portref.alloc false with
          pPort := pr.pPort, pState := .PS_IODONE, parent := some id })
  else none

/-- An event interrupts `msg_send()`. -/
def eventSend (s : Kernel) (id : PrId) : Option Kernel :=
  match (s.prs id).io with
  | .asleep n .send => some (s.setPr id ((s.prs id).event n))
  | _ => none

/-- `msg_send()` after its sleep was interrupted. -/
def sendIntr (s : Kernel) (id : PrId) : Option Kernel :=
  let pr := s.prs id
  match pr.io with
  | .broken n =>
      match pr.pState with
      | .PS_IOWAIT =>
          match pr.pPort with
          | none => some (s.setPr id (pr.giveUp n))
          | some port =>
              if .of id (.sm n) ∈ (s.ports port).pHd then
                some ((s.setPort port ((s.ports port).pullBack (.of id (.sm n)))).setPr id
                  (pr.giveUp n))
              else
                some ((s.setPort port ((s.ports port).lqueueMsg (.of id (.sm2 n)))).setPr id
                  (pr.abort n))
      | .PS_IODONE => some (s.setPr id (pr.raced n))
      | _ => none
  | _ => none

/-- `msg_send()` after a normal wake-up. -/
def sendWoken (s : Kernel) (id : PrId) (copy : Portref.Copy) : Option Kernel :=
  match (s.prs id).io with
  | .woken n .send => some (s.setPr id ((s.prs id).collect n copy))
  | _ => none

/-- `msg_send()` after its wait for the acknowledgement of `M_ABORT`. -/
def sendAborted (s : Kernel) (id : PrId) : Option Kernel :=
  match (s.prs id).io with
  | .abWoken n => some (s.setPr id { s.prs id with io := .out1 n true })
  | _ => none

/-- `msg_send()` at `out1`. -/
def sendOut1 (s : Kernel) (id : PrId) : Option Kernel :=
  match (s.prs id).io with
  | .out1 n error => some (s.setPr id ((s.prs id).out1 n error))
  | _ => none

/-- `kernmsg_send()` after its wake-up lets the server go. -/
def kernWoken (s : Kernel) (id : PrId) : Option Kernel :=
  match (s.prs id).io with
  | .woken n .kern => some (s.setPr id ((s.prs id).kernOut n .kern))
  | .woken n (.dup newpr) => some (s.setPr id ((s.prs id).kernOut n (.dup newpr)))
  | _ => none

/-- The thread releases `p_sema`. A `kernmsg_send()` that got segments back would have
failed its `ASSERT`; `dup_port()` hands out or frees the new portref. -/
def release (s : Kernel) (id : PrId) : Option Kernel :=
  match (s.prs id).io with
  | .release n .send error => some (s.finish id n .send error)
  | .release n .kern error =>
      if error = false ∧ ((s.prs id).sent (.sm n)).nseg ≠ 0 then none
      else some (s.finish id n .kern error)
  | .release n (.dup newpr) error =>
      if error = false ∧ ((s.prs id).sent (.sm n)).nseg ≠ 0 then none
      else
        some ((s.finish id n (.dup newpr) error).setPr newpr
          { s.prs newpr with life := if error then .freed else .opened })
  | _ => none

/-- `msg_connect()` up to its sleep. -/
def msgConnect (s : Kernel) (id : PrId) (port : PortId) (nodup : Bool) (mode : Int) :
    Option Kernel :=
  if (s.prs id).life = .unallocated ∧ (s.ports port).named then
    some ((s.setPort port ((s.ports port).lqueueMsg (.of id (.sm 0)))).setPr id
      (Portref.connecting nodup port ⟨M_CONNECT, mode, 0, 0, 0, false, false⟩))
  else none

/-- `msg_connect()` after its sleep: the portref goes into service or is freed. -/
def connectDone (s : Kernel) (id : PrId) : Option Kernel :=
  let pr := s.prs id
  match pr.io with
  | .woken _ .connect =>
      if pr.pPort = none ∨ pr.pState ≠ .PS_IODONE then
        some (s.setPr id { pr with io := .idle, life := .freed })
      else some (s.setPr id { pr with io := .idle, life := .opened })
  | _ => none

/-- `fork_ports()` on one portref. -/
def forkPorts (s : Kernel) (id : PrId) : Option Kernel :=
  let pr := s.prs id
  if pr.life = .opened ∧ 0 < pr.pRefs ∧ pr.nodup = false then
    some (s.setPr id { pr with pRefs := pr.pRefs + 1 })
  else none

/-- `shut_client()` drops a reference. -/
def shutClientRef (s : Kernel) (id : PrId) : Option Kernel :=
  let pr := s.prs id
  if pr.life = .opened ∧ 0 < pr.pRefs then
    some (s.setPr id { pr with pRefs := pr.pRefs - 1, shutting := decide (pr.pRefs = 1) })
  else none

/-- `shut_client()` after the last reference: free the portref of a server that is
gone, or tell the server. -/
def shutClient (s : Kernel) (id : PrId) : Option Kernel :=
  let pr := s.prs id
  if pr.shutting then
    match pr.pPort with
    | none => some (s.setPr id { pr with shutting := false, life := .freed })
    | some port =>
        some ((s.setPort port ((s.ports port).lqueueMsg (.of id .disc))).setPr id
          { pr.setSent .disc ⟨M_DISCONNECT, id, 0, 0, 0, false, false⟩ with
            shutting := false, pState := .PS_CLOSING })
  else none

/-! ## The server's calls -/

/-- `msg_port()`. -/
def msgPort (s : Kernel) (id : PortId) (owner : ProcId) : Option Kernel :=
  if (s.ports id).life = .unallocated then some (s.setPort id (Port.alloc owner)) else none

/-- `enable_isr()`. -/
def enableIsr (s : Kernel) (id : PortId) (irq : Nat) : Option Kernel :=
  if (s.ports id).life = .opened ∧ (s.ports id).recv = .idle ∧ (s.isrs irq).port = none then
    some { s with isrs := Function.update s.isrs irq ⟨some id, 0, 0, 0, 0, 0, false, false⟩ }
  else none

/-- `deliver_isr()`. -/
def deliverIsr (s : Kernel) (irq : Nat) : Option Kernel :=
  let i := s.isrs irq
  match i.port with
  | none => none
  | some port =>
      if i.m.op = 0 then
        some { s.setPort port ((s.ports port).lqueueMsg (.isr irq)) with
          isrs := Function.update s.isrs irq
            { i with m := { i.m with op := M_ISR, arg := irq, arg1 := 1 } } }
      else
        some { s with
          isrs := Function.update s.isrs irq
            { i with m := { i.m with arg1 := i.m.arg1 + 1 } } }

/-- `find_port()` and the wait of `msg_receive()` for a message. -/
def findPort (s : Kernel) (id : PortId) : Option Kernel :=
  let port := s.ports id
  if port.life = .opened ∧ port.recv = .idle then some (s.setPort id port.pSemaWait) else none

/-- An event interrupts `msg_receive()`. -/
def eventReceive (s : Kernel) (id : PortId) : Option Kernel :=
  let port := s.ports id
  if port.recv = .asleep then some (s.setPort id port.event) else none

/-- `msg_receive()` takes the first message off the queue. -/
def msgReceive (s : Kernel) (id : PortId) : Option Kernel :=
  let port := s.ports id
  if port.recv = .woken then
    match port.pHd with
    | [] => none
    | .isr irq :: rest =>
        some { s.setPort id { port with pHd := rest, recv := .deliver (.isr irq) } with
          isrs := Function.update s.isrs irq
            ({ s.isrs irq with m := { (s.isrs irq).m with op := 0 } }) }
    | .of pr key :: rest =>
        let s' := s.setPr pr ((s.prs pr).receive key)
        let port := { port with pHd := rest }
        if ((s.prs pr).sent key).op = M_CONNECT then
          some (s'.setPort id { port.refPort pr with recv := .newClient pr key })
        else if ((s.prs pr).sent key).op = M_DISCONNECT then
          some (s'.setPort id { port.derefPort pr with recv := .delClient pr key })
        else some (s'.setPort id { port with recv := .deliver (.of pr key) })
  else none

/-- `new_client()`; the message then carries the client's permissions as a segment. -/
def newClient (s : Kernel) (id : PortId) : Option Kernel :=
  let port := s.ports id
  match port.recv with
  | .newClient pr key =>
      let m := (s.prs pr).sent key
      some (((s.setPref port.owner pr true).setPr pr
        ((s.prs pr).setSent key { m with nseg := 1 })).setPort id
          { port with recv := .deliver (.of pr key) })
  | _ => none

/-- `del_client()`. -/
def delClient (s : Kernel) (id : PortId) : Option Kernel :=
  let port := s.ports id
  match port.recv with
  | .delClient pr key =>
      some (((s.setPref port.owner pr false).setPr pr { s.prs pr with life := .freed }).setPort id
        { port with recv := .deliver (.of pr key) })
  | _ => none

/-- `msg_receive()` hands the message to the user and gives up the port. -/
def deliver (s : Kernel) (id : PortId) (mapped : Bool) : Option Kernel :=
  let port := s.ports id
  match port.recv with
  | .deliver (.of pr key) =>
      some ((s.setPr pr ((s.prs pr).smToM key mapped)).setPort id { port with recv := .idle })
  | .deliver (.isr _) => some (s.setPort id { port with recv := .idle })
  | _ => none

/-- `msg_reply()` by process `p`. -/
def msgReply (s : Kernel) (p : ProcId) (id : PrId) (r : Portref.Reply) :
    Option (Result × Kernel) :=
  let pr := s.prs id
  if s.prefs p id = false then some (.fails EINVAL, s)
  else match pr.pState with
    | .PS_IOWAIT =>
        match pr.pMsg with
        | none => some (.fails EINVAL, s)
        | some om =>
            if (pr.sent om).op = M_DUP ∧ r.arg ≠ -1 then
              match pr.pPort with
              | none => none
              | some port =>
                  let newpr := (pr.sent om).arg.toNat
                  -- an argument that an error has overwritten is no pointer
                  if (pr.sent om).arg < 0 then none
                  else some (.ok, (s.setPort port ((s.ports port).refPort newpr)).setPr id
                    (pr.acceptDup om newpr p))
            else some (.ok, s.setPr id (pr.answer om r))
    | .PS_ABWAIT =>
        if r.op ≠ M_ABORT then some (.fails EIO, s) else some (.ok, s.setPr id pr.abortDone)
    | _ => some (.fails EINVAL, s)

/-- `msg_reply()` has accepted a duplication, and wakes the client. -/
def dupWake (s : Kernel) (id newpr : PrId) (p : ProcId) : Option Kernel :=
  if (newpr, p) ∈ (s.prs id).dupWakes ∧ newpr ≠ id then
    some ((s.setPr newpr { s.prs newpr with dupHash := some p }).setPr id
      ((s.prs id).dupWake newpr p))
  else none

/-- `msg_reply()` has accepted a duplication, and hashes the new portref. -/
def dupHash (s : Kernel) (newpr : PrId) : Option Kernel :=
  match (s.prs newpr).dupHash with
  | some p => some ((s.setPref p newpr true).setPr newpr { s.prs newpr with dupHash := none })
  | none => none

/-- `msg_err()` by process `p`. -/
def msgErr (s : Kernel) (p : ProcId) (id : PrId) : Result × Kernel :=
  let pr := s.prs id
  if s.prefs p id = false then (.fails EINVAL, s)
  else
    let s := if pr.pState = .PS_OPENING then s.setPref p id false else s
    match pr.pPort, pr.pMsg with
    | none, _ => (.fails EIO, s)
    | _, none => (.fails EINVAL, s)
    | some port, some om =>
        match pr.pState with
        | .PS_IOWAIT => (.ok, s.setPr id (pr.reject om))
        | .PS_OPENING =>
            (.ok, (s.setPort port ((s.ports port).derefPort id)).setPr id pr.refuseOpen)
        | _ => (.fails EINVAL, s)

/-- `msg_accept()` by process `p`. -/
def msgAccept (s : Kernel) (p : ProcId) (id : PrId) : Result × Kernel :=
  let pr := s.prs id
  if s.prefs p id = false then (.fails EINVAL, s)
  else if pr.pState ≠ .PS_OPENING then (.fails EINVAL, s)
  else (.ok, s.setPr id pr.accept)

/-- `msg_disconnect()` on a server port: `delete_port()`, and `shut_server()` up to its
loop. -/
def msgDisconnect (s : Kernel) (id : PortId) : Option Kernel :=
  let port := s.ports id
  if port.life = .opened ∧ port.recv = .idle then
    some { s.setPort id { port with named := false, recv := .shut .bounce } with
      isrs := fun irq =>
        if (s.isrs irq).port = some id then { s.isrs irq with port := none } else s.isrs irq }
  else none

/-- `bounce_msgs()` takes the messages off the port. -/
def bounceMsgs (s : Kernel) (id : PortId) : Option Kernel :=
  let port := s.ports id
  match port.recv with
  | .shut .bounce => some (s.setPort id { port with pHd := [], recv := .shut (.bouncing port.pHd) })
  | _ => none

/-- `bounce_msgs()` on the next of them. -/
def bounceMsg (s : Kernel) (id : PortId) : Option Kernel :=
  let port := s.ports id
  match port.recv with
  | .shut (.bouncing (.isr _ :: rest)) =>
      some (s.setPort id { port with recv := .shut (.bouncing rest) })
  | .shut (.bouncing (.of pr key :: rest)) =>
      some ((s.setPort id { port with recv := .shut (.bouncing rest) }).setPr pr
        ((s.prs pr).bounce key))
  | _ => none

/-- `shut_server()` looks at the next client: done, more messages to bounce, or one
client closed. -/
def closeClient (s : Kernel) (id : PortId) : Option Kernel :=
  let port := s.ports id
  match port.recv with
  | .shut (.bouncing []) =>
      match port.pRefs with
      | [] => some (s.setPort id { port with life := .freed, recv := .shut .done })
      | pr :: _ =>
          if port.pHd ≠ [] then some (s.setPort id { port with recv := .shut .bounce })
          else
            some ((s.setPort id { port.derefPort pr with recv := .shut (.unhash pr) }).setPr pr
              (s.prs pr).closeClient)
  | _ => none

/-- `shut_server()` deletes the closed client from the hash. -/
def hashDelete (s : Kernel) (id : PortId) : Option Kernel :=
  let port := s.ports id
  match port.recv with
  | .shut (.unhash pr) =>
      if s.prefs port.owner pr then
        some ((s.setPref port.owner pr false).setPort id
          { port with recv := .shut (.bouncing []) })
      else none
  | _ => none

end Kernel

/-! ## Steps -/

/-- The sections, with what their callers and the environment choose. -/
inductive Action where
  | msgPort (port : PortId) (owner : ProcId)
  | enableIsr (port : PortId) (irq : Nat)
  | deliverIsr (irq : Nat)
  | msgConnect (pr : PrId) (port : PortId) (nodup : Bool) (mode : Int)
  | connectDone (pr : PrId)
  | findPortref (pr : PrId)
  | lockPortref (pr : PrId)
  | findIntr (pr : PrId)
  | msgSend (pr : PrId) (r : Request)
  | kernmsgSend (pr : PrId) (op : Nat) (arg arg1 : Int)
  | dupPort (pr newpr : PrId)
  | eventSend (pr : PrId)
  | sendIntr (pr : PrId)
  | sendWoken (pr : PrId) (copy : Portref.Copy)
  | sendAborted (pr : PrId)
  | sendOut1 (pr : PrId)
  | kernWoken (pr : PrId)
  | release (pr : PrId)
  | forkPorts (pr : PrId)
  | shutClientRef (pr : PrId)
  | shutClient (pr : PrId)
  | findPort (port : PortId)
  | eventReceive (port : PortId)
  | msgReceive (port : PortId)
  | newClient (port : PortId)
  | delClient (port : PortId)
  | deliver (port : PortId) (mapped : Bool)
  | msgReply (p : ProcId) (pr : PrId) (r : Portref.Reply)
  | dupWake (pr newpr : PrId) (p : ProcId)
  | dupHash (newpr : PrId)
  | msgErr (p : ProcId) (pr : PrId)
  | msgAccept (p : ProcId) (pr : PrId)
  | msgDisconnect (port : PortId)
  | bounceMsgs (port : PortId)
  | bounceMsg (port : PortId)
  | closeClient (port : PortId)
  | hashDelete (port : PortId)
  deriving DecidableEq, Repr

/-- One step of the message system. -/
def step (s : Kernel) : Action → Option Kernel
  | .msgPort port owner => s.msgPort port owner
  | .enableIsr port irq => s.enableIsr port irq
  | .deliverIsr irq => s.deliverIsr irq
  | .msgConnect pr port nodup mode => s.msgConnect pr port nodup mode
  | .connectDone pr => s.connectDone pr
  | .findPortref pr => s.findPortref pr
  | .lockPortref pr => s.lockPortref pr
  | .findIntr pr => s.findIntr pr
  | .msgSend pr r => s.msgSend pr r
  | .kernmsgSend pr op arg arg1 => s.kernmsgSend pr op arg arg1
  | .dupPort pr newpr => s.dupPort pr newpr
  | .eventSend pr => s.eventSend pr
  | .sendIntr pr => s.sendIntr pr
  | .sendWoken pr copy => s.sendWoken pr copy
  | .sendAborted pr => s.sendAborted pr
  | .sendOut1 pr => s.sendOut1 pr
  | .kernWoken pr => s.kernWoken pr
  | .release pr => s.release pr
  | .forkPorts pr => s.forkPorts pr
  | .shutClientRef pr => s.shutClientRef pr
  | .shutClient pr => s.shutClient pr
  | .findPort port => s.findPort port
  | .eventReceive port => s.eventReceive port
  | .msgReceive port => s.msgReceive port
  | .newClient port => s.newClient port
  | .delClient port => s.delClient port
  | .deliver port mapped => s.deliver port mapped
  | .msgReply p pr r => (s.msgReply p pr r).map Prod.snd
  | .dupWake pr newpr p => s.dupWake pr newpr p
  | .dupHash newpr => s.dupHash newpr
  | .msgErr p pr => some (s.msgErr p pr).2
  | .msgAccept p pr => some (s.msgAccept p pr).2
  | .msgDisconnect port => s.msgDisconnect port
  | .bounceMsgs port => s.bounceMsgs port
  | .bounceMsg port => s.bounceMsg port
  | .closeClient port => s.closeClient port
  | .hashDelete port => s.hashDelete port

/-- The step relation of the message system. -/
def Step (s : Kernel) (action : Action) (t : Kernel) : Prop := step s action = some t

/-- Take the steps, and test each state a step is taken from. -/
def runWith (guard : Kernel → Action → Bool) (s : Kernel) : List Action → Option Kernel
  | [] => some s
  | action :: rest =>
      if guard s action then (step s action).bind fun t => runWith guard t rest else none

theorem reaches_of_runWith {guard : Kernel → Action → Bool} {good : Kernel → Action → Prop}
    (sound : ∀ s action, guard s action = true → good s action) :
    ∀ {actions : List Action} {s t : Kernel}, runWith guard s actions = some t →
      Transition.Reaches Step good s t
  | [], s, t, h => Option.some.inj h ▸ .refl s
  | action :: rest, s, t, h => by
      simp only [runWith] at h
      split at h
      · rename_i meets
        obtain ⟨next, taken, later⟩ := Option.bind_eq_some_iff.mp h
        exact (Transition.Reaches.tail (.refl s) (sound s action meets) taken).trans
          (reaches_of_runWith sound later)
      · cases h

/-- A state with a property that a run from the start can be computed to reach. -/
theorem exists_of_runWith (guard : Kernel → Action → Bool) {good : Kernel → Action → Prop}
    (sound : ∀ s action, guard s action = true → good s action) (actions : List Action)
    (holds : Kernel → Prop) [DecidablePred holds]
    (computed : (runWith guard Kernel.boot actions).any (fun s => decide (holds s)) = true) :
    ∃ s, Transition.Reaches Step good Kernel.boot s ∧ holds s := by
  obtain ⟨s, reached, has⟩ := (Option.any_eq_true _ _).mp computed
  exact ⟨s, reaches_of_runWith sound reached, of_decide_eq_true has⟩

/-- A process makes a port, and a client connects to it. -/
def opening (pr : PrId) (port : PortId) (owner : ProcId) : List Action :=
  [.msgPort port owner, .msgConnect pr port false 0, .findPort port, .msgReceive port,
    .newClient port, .deliver port true, .msgAccept owner pr, .connectDone pr]

/-- A message of `msg_send()` without segments. -/
def plainRequest : Request := ⟨100, 0, 0, 0, 0⟩

end Vsta.Msg
