import Vsta.Library.Runs
import Vsta.Msg.Steps

/-!
# The queue of a port and its semaphore

A port's `p_wait` counts the messages on its queue that no receiver has been given
(`Port.Counted`). A V hands its unit to a receiver before that receiver takes the port
lock, so an interrupted sender that pulls its message back may pull the one the
receiver was woken for. `msg_send` asserts that this cannot be, and it can
(`pullBack_underflows`). In every run whose senders pull back only while the count is
positive, a receiver past its wait finds a message, and the count is negative only
while a receiver sleeps (`queue_agrees`).
-/

set_option autoImplicit false

namespace Vsta.Msg

/-- The count of `p_wait` against the queue, by where the receiver is. A port that is
shutting down has given its messages away and is only bounded from below. -/
def Port.Counted (port : Port) : Prop :=
  match port.recv with
  | .asleep => port.pWait = -1 ∧ port.pHd = []
  | .woken => 0 ≤ port.pWait ∧ (port.pHd.length : Int) = port.pWait + 1
  | .shut _ => 0 ≤ port.pWait
  | _ => (port.pHd.length : Int) = port.pWait

namespace Port

theorem counted_lqueueMsg {port : Port} (counted : port.Counted) (m : MsgId) :
    (port.lqueueMsg m).Counted := by
  cases at_ : port.recv <;>
    simp only [Counted, lqueueMsg, vWait, at_] at counted ⊢
  case asleep =>
    obtain ⟨count, empty⟩ := counted
    simp [count, empty]
  case shut => omega
  all_goals
    simp only [List.length_append, List.length_singleton, Nat.cast_add, Nat.cast_one]
    omega

theorem counted_pullBack {port : Port} (counted : port.Counted) {m : MsgId}
    (queued : m ∈ port.pHd) (positive : 0 < port.pWait) : (port.pullBack m).Counted := by
  have shorter := List.length_erase_add_one queued
  cases at_ : port.recv <;> simp only [Counted, pullBack, at_] at counted ⊢ <;> omega

theorem counted_pSemaWait {port : Port} (counted : port.Counted) (free : port.recv = .idle) :
    port.pSemaWait.Counted := by
  simp only [Counted, free] at counted
  by_cases ready : 0 ≤ port.pWait - 1
  · simp only [Counted, pSemaWait, if_pos ready]
    omega
  · have empty : port.pHd.length = 0 := by omega
    simp only [Counted, pSemaWait, if_neg ready]
    exact ⟨by omega, List.length_eq_zero_iff.mp empty⟩

theorem counted_event {port : Port} (counted : port.Counted) (at_ : port.recv = .asleep) :
    port.event.Counted := by
  simp only [Counted, at_] at counted
  simp [Counted, event, counted]

/-- Taking the first message uses up the unit the receiver was given. -/
theorem counted_take {port : Port} (counted : port.Counted) (at_ : port.recv = .woken)
    {m : MsgId} {rest : List MsgId} (first : port.pHd = m :: rest) :
    (rest.length : Int) = port.pWait := by
  simp only [Counted, at_, first, List.length_cons, Nat.cast_add, Nat.cast_one] at counted
  omega

/-- Outside its wait a port's count is not negative. -/
theorem pWait_nonneg {port : Port} (counted : port.Counted) (awake : port.recv ≠ .asleep) :
    0 ≤ port.pWait := by
  cases at_ : port.recv <;> simp only [Counted, at_] at counted
  case asleep => exact absurd at_ awake
  all_goals omega

end Port

/-- A sender pulls its message back only while the count of `p_wait` is positive, as
`msg_send` asserts. -/
def PullsCounted (s : Kernel) : Action → Prop
  | .sendIntr id => ∀ n port, (s.prs id).io = .broken n → (s.prs id).pState = .PS_IOWAIT →
      (s.prs id).pPort = some port → .of id (.sm n) ∈ (s.ports port).pHd →
        0 < (s.ports port).pWait
  | _ => True

/-- What a step does to a port keeps its count. -/
theorem counted_portStep {s : Kernel} {action : Action} {id : PortId} {port : Port}
    (counted : (s.ports id).Counted) (pulls : PullsCounted s action)
    (change : PortStep s action id port) : port.Counted := by
  cases change with
  | same => exact counted
  | alloc fresh => exact rfl
  | posted _ _ _ _ => exact Port.counted_lqueueMsg counted _
  | connecting _ _ _ => exact Port.counted_lqueueMsg counted _
  | aborted _ _ _ _ _ => exact Port.counted_lqueueMsg counted _
  | closing _ _ _ => exact Port.counted_lqueueMsg counted _
  | isr => exact Port.counted_lqueueMsg counted _
  | pullBack act at_ state there queued =>
      subst act
      exact Port.counted_pullBack counted queued (pulls _ _ at_ state there queued)
  | waits free => exact Port.counted_pSemaWait counted free
  | event at_ => exact Port.counted_event counted at_
  | takeIsr at_ first => exact Port.counted_take counted at_ first
  | takeConnect _ at_ first _ => exact Port.counted_take counted at_ first
  | takeDisconnect _ at_ first _ => exact Port.counted_take counted at_ first
  | take _ at_ first _ => exact Port.counted_take counted at_ first
  | hashed _ at_ => simpa only [Port.Counted, at_] using counted
  | deleted _ at_ => simpa only [Port.Counted, at_] using counted
  | delivered at_ => simpa only [Port.Counted, at_] using counted
  | refDup => exact counted
  | refused => exact counted
  | disconnect _ free =>
      have bound := Port.pWait_nonneg counted (by simp [free])
      exact bound
  | bounce _ at_ => simpa only [Port.Counted, at_] using counted
  | bounced _ at_ => simpa only [Port.Counted, at_] using counted
  | gone at_ _ => simpa only [Port.Counted, at_] using counted
  | again at_ => simpa only [Port.Counted, at_] using counted
  | closed _ at_ _ _ => simpa only [Port.Counted, Port.derefPort, at_] using counted
  | unhashed _ at_ => simpa only [Port.Counted, at_] using counted

/-- In a run whose senders pull back only while the count is positive, every port's
count agrees with its queue. -/
theorem counted_reaches {s : Kernel}
    (run : Transition.Reaches Step PullsCounted Kernel.boot s) (id : PortId) :
    (s.ports id).Counted :=
  run.invariant (fun _ => rfl)
    (fun _ _ _ counted pulls step => fun id =>
      counted_portStep (counted id) pulls ((step_changes step).ports id)) id

/-- **The queue and its semaphore agree.** A receiver past its wait finds a message,
and the count is negative only while a receiver sleeps. -/
theorem queue_agrees {s : Kernel}
    (run : Transition.Reaches Step PullsCounted Kernel.boot s) (id : PortId) :
    ((s.ports id).recv = .woken → (s.ports id).pHd ≠ []) ∧
      ((s.ports id).pWait < 0 → (s.ports id).recv = .asleep) := by
  have counted := counted_reaches run id
  refine ⟨fun woken empty => ?_, fun negative => ?_⟩
  · simp only [Port.Counted, woken, empty, List.length_nil, Nat.cast_zero] at counted
    omega
  · by_contra awake
    exact absurd (Port.pWait_nonneg counted awake) (by omega)

/-- A test of the guard: the port of an interrupted sender has a positive count. -/
def pullsCounted (s : Kernel) : Action → Bool
  | .sendIntr id => match (s.prs id).io, (s.prs id).pPort with
    | .broken _, some port => decide (0 < (s.ports port).pWait)
    | _, _ => true
  | _ => true

theorem pullsCounted_sound (s : Kernel) (action : Action) (test : pullsCounted s action = true) :
    PullsCounted s action := by
  cases action with
  | sendIntr id =>
      intro n port at_ _ there _
      simpa only [pullsCounted, at_, there, decide_eq_true_eq] using test
  | _ => trivial

/-- The receiver is woken for the message of client 0, and client 1 pulls its own back. -/
theorem queue_agrees_twoClients :
    ∃ s, Transition.Reaches Step PullsCounted Kernel.boot s ∧
      (s.ports 0).recv = .woken ∧ (s.ports 0).pWait = 0 ∧ (s.ports 0).pHd ≠ [] := by
  obtain ⟨s, reached, woken, count⟩ := exists_of_runWith pullsCounted pullsCounted_sound
    (opening 0 0 0 ++ (opening 1 0 0).tail ++
      [.findPort 0, .findPortref 0, .msgSend 0 plainRequest, .findPortref 1,
        .msgSend 1 plainRequest, .eventSend 1, .sendIntr 1])
    (fun s => (s.ports 0).recv = .woken ∧ (s.ports 0).pWait = 0) (by decide +kernel)
  exact ⟨s, reached, woken, count, (queue_agrees reached 0).1 woken⟩

/-- **A sender pulls back the message a receiver was woken for.** The receiver is past
its wait, the queue is empty, and the count is negative with nobody asleep. -/
theorem pullBack_underflows :
    ∃ s, Transition.Reaches Step Transition.Any Kernel.boot s ∧
      (s.ports 0).recv = .woken ∧ (s.ports 0).pHd = [] ∧ (s.ports 0).pWait < 0 :=
  exists_of_runWith (fun _ _ => true) (fun _ _ _ => trivial)
    (opening 0 0 0 ++ [.findPort 0, .findPortref 0, .msgSend 0 plainRequest, .eventSend 0,
      .sendIntr 0]) _ (by decide +kernel)

end Vsta.Msg
