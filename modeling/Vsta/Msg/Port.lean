import Vsta.Msg.Portref

/-!
# A port

`struct port` and what the kernel does to it while it holds its lock. A port's
semaphore `p_sema` lets one thread at a time receive through it, and `shut_server`
never gives it back, so the record holds the control point of that thread (`recv`).
Only that thread sleeps on `p_wait`.
-/

set_option autoImplicit false

namespace Vsta.Msg

/-- A message on a queue: one that a portref sent, or the message of an interrupt. -/
inductive MsgId where
  | of (pr : PrId) (key : MsgKey)
  | isr (irq : Nat)
  deriving DecidableEq, Repr

/-- The control point of `shut_server()`. -/
inductive Shut where
  /-- About to take the queue in `bounce_msgs()`. -/
  | bounce
  /-- Walking the messages taken; with none left, enumerating the clients. -/
  | bouncing (msgs : List MsgId)
  /-- `close_client()` is done with the portref, which is still hashed. -/
  | unhash (pr : PrId)
  | done
  deriving DecidableEq, Repr

/-- The control point of the thread that holds a port's `p_sema`. -/
inductive Recv where
  /-- `p_sema` is free. -/
  | idle
  /-- Asleep on `p_wait`. -/
  | asleep
  /-- Past `p_wait`, about to take the port lock. -/
  | woken
  /-- Took an `M_CONNECT` and has to hash its portref. -/
  | newClient (pr : PrId) (key : MsgKey)
  /-- Took an `M_DISCONNECT` and has to remove and free its portref. -/
  | delClient (pr : PrId) (key : MsgKey)
  /-- Has the message, and has to hand it to the user. -/
  | deliver (m : MsgId)
  | shut (shut : Shut)
  deriving DecidableEq, Repr

/-- The messages `bounce_msgs()` has taken off the queue and not bounced. -/
def Recv.bouncing : Recv → List MsgId
  | .shut (.bouncing msgs) => msgs
  | _ => []

/-- `struct port`. -/
structure Port where
  life : Life
  /-- The process whose `p_ports` holds the port. -/
  owner : ProcId
  /-- The port's name is in `portnames`. -/
  named : Bool
  /-- The messages from `p_hd` to `p_tl`. -/
  pHd : List MsgId
  /-- The count of `p_wait`. -/
  pWait : Int
  /-- The ring of references, from the one `p_refs` points at. -/
  pRefs : List PrId
  recv : Recv
  deriving DecidableEq, Repr

namespace Port

def unborn : Port := ⟨.unallocated, 0, false, [], 0, [], .idle⟩

/-- `alloc_port()`, entered in its process and in the table of names. -/
def alloc (owner : ProcId) : Port := ⟨.opened, owner, true, [], 0, [], .idle⟩

/-- `v_sema(&port->p_wait)`. -/
def vWait (port : Port) : Port :=
  { port with
    pWait := port.pWait + 1
    recv := match port.recv with
      | .asleep => .woken
      | recv => recv }

/-- `lqueue_msg()`. -/
def lqueueMsg (port : Port) (m : MsgId) : Port := { port with pHd := port.pHd ++ [m] }.vWait

/-- An interrupted sender unlinks its message, and adjusts the count by hand. -/
def pullBack (port : Port) (m : MsgId) : Port :=
  { port with pHd := port.pHd.erase m, pWait := port.pWait - 1 }

/-- `msg_receive()` has the port and waits for a message. -/
def pSemaWait (port : Port) : Port :=
  { port with
    pWait := port.pWait - 1
    recv := if 0 ≤ port.pWait - 1 then .woken else .asleep }

/-- An event takes the receiver off `p_wait`, and it gives up the port. -/
def event (port : Port) : Port := { port with pWait := port.pWait + 1, recv := .idle }

/-- `ref_port()`: link the portref in behind the one `p_refs` points at. -/
def refPort (port : Port) (pr : PrId) : Port :=
  { port with pRefs := match port.pRefs with
      | [] => [pr]
      | ref :: rest => ref :: pr :: rest }

/-- `deref_port()`. -/
def derefPort (port : Port) (pr : PrId) : Port := { port with pRefs := port.pRefs.erase pr }

/-- The messages nobody has received. -/
def unread (port : Port) : List MsgId := port.pHd ++ port.recv.bouncing

theorem mem_unread_of_mem_pHd {port : Port} {m : MsgId} (queued : m ∈ port.pHd) :
    m ∈ port.unread :=
  List.mem_append_left _ queued

@[simp] theorem bouncing_lqueueMsg (port : Port) (m : MsgId) :
    (port.lqueueMsg m).recv.bouncing = port.recv.bouncing := by
  cases at_ : port.recv <;> simp only [lqueueMsg, vWait, at_, Recv.bouncing]

@[simp] theorem mem_pRefs_refPort (port : Port) (pr other : PrId) :
    other ∈ (port.refPort pr).pRefs ↔ other = pr ∨ other ∈ port.pRefs := by
  simp only [refPort]
  cases port.pRefs with
  | nil => simp
  | cons ref rest =>
      simp only [List.mem_cons]
      tauto

end Port

end Vsta.Msg
