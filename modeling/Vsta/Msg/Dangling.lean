import Vsta.Msg.Lives

/-!
# Messages that outlive their sender

The message of a request lives on its sender's stack. `msg_reply` clears `p_msg` when it
answers, but `msg_err` and the acknowledgement of an `M_ABORT` do not, and an abort can be
acknowledged before its own message has been received: `msg_send` then returns and leaves
its message in `p_msg` or on the queue (`msgErr_dangles`). A later `msg_reply` on the
connection finds it there.

In every run without these two, whose answers are to the request that is waited for,
nothing is left behind (`nothing_dangles`), and a server that answers when it has nothing
to answer is refused (`unasked_refused`). The runs are those of clients and servers on
ports that stay open.
-/

set_option autoImplicit false

namespace Vsta.Msg

/-- No `msg_err` on a request of `msg_send`, no acknowledged `M_ABORT`; ports stay open. -/
def ClearsMsg (s : Kernel) : Action → Prop
  | .msgErr p id => s.prefs p id = true → (s.prs id).pState = .PS_IOWAIT →
      (s.prs id).pPort ≠ none → (s.prs id).pMsg ≠ none → (s.prs id).io.job ≠ some .send
  | .msgReply p id r => s.prefs p id = true → (s.prs id).pState = .PS_ABWAIT → r.op ≠ M_ABORT
  | .msgDisconnect _ => False
  | _ => True

def LeavesNothing (s : Kernel) (action : Action) : Prop :=
  AnswersPending s action ∧ ClearsMsg s action

/-- The message is in `p_msg` or on the queue of a port. -/
def Kernel.Holds (s : Kernel) (id : PrId) (key : MsgKey) : Prop :=
  (s.prs id).pMsg = some key ∨ ∃ port, .of id key ∈ (s.ports port).pHd

/-- The message is in `p_msg`, or nobody has received it. -/
def Kernel.Keeps (s : Kernel) (id : PrId) (key : MsgKey) : Prop :=
  (s.prs id).pMsg = some key ∨ ∃ port, .of id key ∈ (s.ports port).unread

theorem Kernel.Keeps.of_holds {s : Kernel} {id : PrId} {key : MsgKey} (holds : s.Holds id key) :
    s.Keeps id key :=
  holds.imp_right fun ⟨port, queued⟩ => ⟨port, Port.mem_unread_of_mem_pHd queued⟩

/-- What is kept after a step was kept before, or has entered a queue. -/
theorem keeps_step {s t : Kernel} {action : Action} (step : Step s action t) {id : PrId}
    {key : MsgKey} (keeps : t.Keeps id key) :
    s.Keeps id key ∨ ∃ port, Enters s action port (.of id key) := by
  have changes := step_changes step
  rcases keeps with has | ⟨port, unread⟩
  · rcases pMsg_prStep (changes.prs id) has with before | ⟨port, rest, _, first⟩
    · exact .inl (.inl before)
    · exact .inl (.inr ⟨port, Port.mem_unread_of_mem_pHd (first ▸ List.mem_cons_self)⟩)
  · rcases mem_unread_portStep (changes.ports port) unread with before | enters
    · exact .inl (.inr ⟨port, before⟩)
    · exact .inr ⟨port, enters⟩

/-- Neither the message of the request nor its `M_ABORT` is kept. -/
def Kernel.Clear (s : Kernel) (id : PrId) (n : Nat) : Prop :=
  ¬s.Keeps id (.sm n) ∧ ¬s.Keeps id (.sm2 n)

/-- A request that was made and is not waited for any more stays clear. -/
theorem clear_step {s t : Kernel} {action : Action} (queues : s.Queues) (step : Step s action t)
    {id : PrId} {n : Nat} (clear : s.Clear id n) (made : n < (s.prs id).serial)
    (past : (s.prs id).io = .broken n → (s.prs id).pState ≠ .PS_IOWAIT) : t.Clear id n := by
  constructor
  · intro keeps
    rcases keeps_step step keeps with before | ⟨port, enters⟩
    · exact clear.1 before
    · exact (posted_of_enters step (queues.numbered id) enters).1 made
  · intro keeps
    rcases keeps_step step keeps with before | ⟨port, enters⟩
    · exact clear.2 before
    · cases enters with
      | aborted _ at_ state _ _ => exact past at_ state

/-! ## Ports that stay open -/

/-- No port is being shut down, so every connection has its server. -/
structure Kernel.StaysOpen (s : Kernel) : Prop where
  recv : ∀ port shut, (s.ports port).recv ≠ .shut shut
  there : ∀ id, (s.prs id).life ≠ .unallocated → (s.prs id).pPort ≠ none

theorem recv_portStep {s : Kernel} {action : Action} {id : PortId} {port : Port}
    (open_ : ∀ shut, (s.ports id).recv ≠ .shut shut) (stays : action ≠ .msgDisconnect id)
    (change : PortStep s action id port) (shut : Shut) : port.recv ≠ .shut shut := by
  have queued : ∀ m, ((s.ports id).lqueueMsg m).recv ≠ .shut shut := by
    intro m
    cases before : (s.ports id).recv <;> simp [Port.lqueueMsg, Port.vWait, before]
    exact fun eq => open_ shut (before.trans (by rw [eq]))
  cases change with
  | posted => exact queued _
  | connecting => exact queued _
  | aborted => exact queued _
  | closing => exact queued _
  | isr => exact queued _
  | waits =>
      simp only [Port.pSemaWait, ne_eq]
      split <;> simp
  | same => exact open_ shut
  | pullBack => exact open_ shut
  | refDup => exact open_ shut
  | refused => exact open_ shut
  | disconnect act _ => exact absurd act stays
  | bounce _ at_ => exact absurd at_ (open_ _)
  | bounced _ at_ => exact absurd at_ (open_ _)
  | gone at_ _ => exact absurd at_ (open_ _)
  | again at_ => exact absurd at_ (open_ _)
  | closed _ at_ _ _ => exact absurd at_ (open_ _)
  | unhashed _ at_ => exact absurd at_ (open_ _)
  | _ => simp [Port.alloc, Port.event]

theorem there_prStep {s : Kernel} {action : Action} {id : PrId} {pr : Portref} (lives : s.Lives)
    (open_ : s.StaysOpen) (change : PrStep s action id pr) (exists_ : pr.life ≠ .unallocated) :
    pr.pPort ≠ none := by
  by_cases fresh : (s.prs id).life = .unallocated
  · cases change with
    | born _ _ there _ => simp [there]
    | connecting => simp [Portref.connecting, Portref.pSemaIowait]
    | handed _ at_ =>
        have opening := (lives.dup _ id (by rw [at_]; rfl)).1
        exact absurd (fresh.symm.trans opening) (by simp)
    | connectFails _ at_ _ =>
        have opening := (lives.connect id (by rw [at_]; rfl)).1
        exact absurd (fresh.symm.trans opening) (by simp)
    | connected _ at_ _ _ =>
        have opening := (lives.connect id (by rw [at_]; rfl)).1
        exact absurd (fresh.symm.trans opening) (by simp)
    | free _ shutting _ => exact absurd (fresh.symm.trans (lives.closing id shutting)) (by simp)
    | deleted _ at_ => exact absurd fresh (lives.leaving _ _ _ at_).1
    | _ => first | exact absurd fresh exists_ | exact absurd (by simpa using fresh) exists_
  · have there := open_.there id fresh
    cases change with
    | born _ _ there _ => simp [there]
    | connecting => simp [Portref.connecting, Portref.pSemaIowait]
    | bounce _ at_ => exact absurd at_ (open_.recv _ _)
    | closeClient _ at_ _ _ => exact absurd at_ (open_.recv _ _)
    | _ => first | exact there | simpa using there

theorem staysOpen_reaches {s : Kernel}
    (run : Transition.Reaches Step LeavesNothing Kernel.boot s) : s.StaysOpen := by
  refine run.invariant_on_run
    ⟨by simp [Kernel.boot, Port.unborn], by simp [Kernel.boot, Portref.unborn]⟩ ?_
  intro source action target before open_ meets step
  have changes := step_changes step
  refine ⟨fun port => recv_portStep (open_.recv port) (fun act => ?_) (changes.ports port),
    fun id => there_prStep (lives_reaches before) open_ (changes.prs id)⟩
  subst act
  exact meets.2

/-! ## The thread of a request that is over -/

/-- The request of `msg_send` whose thread has passed `p_iowait`. -/
def Io.past : Io → Option Nat
  | .woken n .send | .out1 n _ | .release n .send _ => some n
  | _ => none

theorem Io.past_wake {io : Io} (awake : ∀ n, io ≠ .asleep n .send) : io.wake.past = io.past := by
  cases io with
  | asleep n job =>
      cases job with
      | send => exact absurd rfl (awake n)
      | _ => rfl
  | _ => rfl

theorem Io.req_of_past {io : Io} {n : Nat} (past : io.past = some n) : io.req = some n := by
  cases io with
  | woken m job => cases job <;> first | exact past | cases past
  | release m job error => cases job <;> first | exact past | cases past
  | out1 m error => exact past
  | _ => cases past

/-- The thread has its answer to the request, or has given it up. -/
def Portref.Over (pr : Portref) (n : Nat) : Prop :=
  pr.io.past = some n ∨ pr.io = .broken n ∧ pr.pState = .PS_IODONE

theorem Portref.Over.req {pr : Portref} {n : Nat} (finished : pr.Over n) : pr.io.req = some n := by
  rcases finished with past | ⟨at_, _⟩
  · exact Io.req_of_past past
  · rw [at_, Io.req]

theorem Portref.Over.job {pr : Portref} {n : Nat} (finished : pr.Over n) :
    pr.io.job = some .send := by
  rcases finished with past | ⟨at_, _⟩
  · cases at_ : pr.io with
    | woken m job => cases job <;> rw [at_] at past <;> first | rfl | cases past
    | release m job error => cases job <;> rw [at_] at past <;> first | rfl | cases past
    | out1 m error => rfl
    | _ =>
        rw [at_] at past
        cases past
  · rw [at_, Io.job]

theorem Portref.Over.state {pr : Portref} {n : Nat} (finished : pr.Over n)
    (at_ : pr.io = .broken n) : pr.pState ≠ .PS_IOWAIT := by
  rcases finished with past | ⟨_, state⟩
  · rw [at_] at past
    cases past
  · simp [state]

/-- While its thread waits, a request of `msg_send` is waited for in `p_state` too, and an
acknowledgement of its `M_ABORT` never comes. -/
structure Portref.Asks (pr : Portref) : Prop where
  asleep : ∀ n, pr.io = .asleep n .send → pr.pState = .PS_IOWAIT ∨ pr.pState = .PS_CLOSING
  noAck : ∀ n, pr.io ≠ .abWoken n

theorem asks_prStep {s : Kernel} {action : Action} {id : PrId} {pr : Portref}
    (open_ : s.StaysOpen) (waits : (s.prs id).Waits) (asks : (s.prs id).Asks)
    (meets : LeavesNothing s action) (change : PrStep s action id pr) : pr.Asks := by
  have still : ∀ {after : Portref}, after.io = (s.prs id).io →
      after.pState = (s.prs id).pState → after.Asks := fun io state =>
    ⟨fun n => by rw [io, state]; exact asks.asleep n, fun n => by rw [io]; exact asks.noAck n⟩
  have quiet : ∀ {after : Portref}, (∀ n, after.io ≠ .asleep n .send) →
      (∀ n, after.io ≠ .abWoken n) → after.Asks := fun asleep ab =>
    ⟨fun n at_ => absurd at_ (asleep n), ab⟩
  have wakes : ∀ {after : Portref}, after.io = (s.prs id).io.wake →
      (∀ n, (s.prs id).io ≠ .abAsleep n) → after.Asks := by
    intro after io ab
    cases at_ : (s.prs id).io with
    | abAsleep n => exact absurd at_ (ab n)
    | abWoken n => exact absurd at_ (asks.noAck n)
    | _ => exact quiet (by simp [io, at_, Io.wake]) (by simp [io, at_, Io.wake])
  have iowait : (s.prs id).pState = .PS_IOWAIT → ∀ n, (s.prs id).io ≠ .abAsleep n := by
    intro state n at_
    simp only [Portref.Waits, at_] at waits
    exact waits.2.2.2.1 state
  have opening : (s.prs id).pState = .PS_OPENING → ∀ n, (s.prs id).io ≠ .abAsleep n := by
    intro state n at_
    simp only [Portref.Waits, at_] at waits
    exact waits.2.2.2.2 state
  cases change with
  | @post job m _ idle there =>
      simp only [Portref.Waits, idle] at waits
      obtain ⟨count, _⟩ := waits (by simp [there])
      have io : ((s.prs id).post job m).io = .asleep (s.prs id).serial job := by
        simp [Portref.post, Portref.pSemaIowait, Portref.setSent, count]
      exact ⟨fun _ _ => .inl rfl, by simp [io]⟩
  | abort _ at_ state there _ =>
      simp only [Portref.Waits, at_] at waits
      have count := ((waits (by simp [there])).2.2.2 state).1
      apply quiet <;> simp [Portref.abort, Portref.pSemaIowait, Portref.setSent, count]
  | born => exact quiet (by simp [Portref.alloc, Portref.unborn]) (by simp [Portref.alloc,
      Portref.unborn])
  | connecting =>
      apply quiet <;> simp [Portref.connecting, Portref.pSemaIowait, Portref.setSent,
        Portref.alloc, Portref.unborn]
  | event => exact quiet (by simp [Portref.event]) (by simp [Portref.event])
  | giveUp => exact quiet (by simp [Portref.giveUp]) (by simp [Portref.giveUp])
  | raced => exact quiet (by simp) (by simp)
  | collect =>
      obtain ⟨error, out, _⟩ := Portref.collect_io (s.prs id) ‹Nat› ‹Portref.Copy›
      exact quiet (by simp [out]) (by simp [out])
  | aborted => exact quiet (by simp) (by simp)
  | out1 => exact quiet (by simp) (by simp)
  | kernOut => exact quiet (by simp [Portref.kernOut]) (by simp [Portref.kernOut])
  | release => exact quiet (by simp) (by simp)
  | connectFails => exact quiet (by simp) (by simp)
  | connected => exact quiet (by simp) (by simp)
  | shut => exact ⟨fun _ _ => .inr rfl, asks.noAck⟩
  | smToM => exact still (by simp) (by simp)
  | answer _ _ state _ _ => exact wakes (by simp) (iowait state)
  | acceptDup act known state has dup there =>
      subst act
      have there : (s.prs id).pPort ≠ none := by simp [there]
      refine ⟨fun n at_ => ?_, asks.noAck⟩
      obtain ⟨k, rfl, broken | ⟨job, asleep⟩⟩ := meets.1 known state there _ has
      · exact absurd (broken.symm.trans at_) (by simp)
      · obtain ⟨rfl, rfl⟩ := Io.asleep.inj (asleep.symm.trans at_)
        simp only [Portref.Waits, asleep] at waits
        obtain ⟨newpr, eq⟩ := waits.2.2.2.2.2.1 dup.1
        cases eq
  | abortDone act known state ack =>
      subst act
      exact absurd ack (meets.2 known state)
  | dupWake _ pending =>
      refine wakes rfl fun n at_ => ?_
      simp only [Portref.Waits, at_] at waits
      exact List.ne_nil_of_mem pending waits.2.2.1
  | reject _ _ state _ _ => exact wakes rfl (iowait state)
  | refuseOpen _ _ state _ _ => exact wakes rfl (opening state)
  | accept _ _ state => exact wakes rfl (opening state)
  | bounce _ at_ => exact absurd at_ (open_.recv _ _)
  | closeClient _ at_ _ _ => exact absurd at_ (open_.recv _ _)
  | _ => exact still rfl rfl

/-- A request is over after a step because it was before, because the server has just
answered it, or because its sender pulls it back. -/
theorem over_prStep {s : Kernel} {action : Action} {id : PrId} {pr : Portref}
    (open_ : s.StaysOpen) (waits : (s.prs id).Waits) (asks : (s.prs id).Asks)
    (exists_ : (s.prs id).life ≠ .unallocated) (meets : LeavesNothing s action)
    (change : PrStep s action id pr) {n : Nat} (finished : pr.Over n) :
    (s.prs id).Over n ∨
      ((∃ p r, action = .msgReply p id r) ∧ (s.prs id).pMsg = some (.sm n) ∧ pr.pMsg = none ∧
        ((s.prs id).io = .broken n ∨ ∃ job, (s.prs id).io = .asleep n job)) ∨
      (action = .sendIntr id ∧ (s.prs id).io = .broken n ∧ (s.prs id).pState = .PS_IOWAIT ∧
        ∃ port, (s.prs id).pPort = some port ∧ .of id (.sm n) ∈ (s.ports port).pHd) := by
  -- a V that does not wake a sleeping `msg_send`
  have wakes : ∀ {after : Portref}, after.io = (s.prs id).io.wake →
      (∀ n, (s.prs id).io ≠ .asleep n .send) → (∀ n, (s.prs id).io ≠ .broken n) →
        after.Over n → (s.prs id).Over n := by
    intro after io asleep broken finished
    rcases finished with past | ⟨at_, _⟩
    · exact .inl (by rw [← past, io, Io.past_wake asleep])
    · rw [io] at at_
      cases before : (s.prs id).io <;> rw [before] at at_ <;> cases at_
      exact absurd before (broken n)
  have elsewhere : ∀ {after : Portref}, after.io.past = none → (∀ n, after.io ≠ .broken n) →
      after.Over n → False := by
    rintro after none broken (past | ⟨at_, _⟩)
    · rw [none] at past
      cases past
    · exact broken n at_
  have there := open_.there id exists_
  have opening : (s.prs id).pState = .PS_OPENING → (∀ n, (s.prs id).io ≠ .asleep n .send) ∧
      ∀ n, (s.prs id).io ≠ .broken n := by
    refine fun state => ⟨fun n at_ => ?_, fun n at_ => ?_⟩ <;>
      simp only [Portref.Waits, at_] at waits
    · simpa using waits.2.2.2.1 state
    · exact (waits there).2.2.1 state
  cases change with
  | same => exact .inl finished
  | @post job m _ idle _ =>
      simp only [Portref.Waits, idle] at waits
      have count := (waits there).1
      exact (elsewhere (by simp [Portref.post, Portref.pSemaIowait, Portref.setSent, count, Io.past])
        (by simp [Portref.post, Portref.pSemaIowait, Portref.setSent, count]) finished).elim
  | born => exact (elsewhere rfl (by simp [Portref.alloc, Portref.unborn]) finished).elim
  | connecting =>
      exact (elsewhere (by simp [Portref.connecting, Portref.pSemaIowait, Portref.setSent,
        Portref.alloc, Portref.unborn, Io.past]) (by simp [Portref.connecting,
          Portref.pSemaIowait, Portref.setSent, Portref.alloc, Portref.unborn]) finished).elim
  | abort _ at_ state _ _ =>
      simp only [Portref.Waits, at_] at waits
      have count := ((waits there).2.2.2 state).1
      exact (elsewhere (by simp [Portref.abort, Portref.pSemaIowait, Portref.setSent, count,
        Io.past]) (by simp [Portref.abort, Portref.pSemaIowait, Portref.setSent, count]) finished).elim
  | event at_ =>
      rcases finished with past | ⟨_, state⟩
      · cases past
      · rcases asks.asleep _ at_ with iowait | closing
        · exact absurd (iowait.symm.trans state) (by simp)
        · exact absurd (closing.symm.trans state) (by simp)
  | giveUp act at_ state why =>
      rcases finished with past | ⟨eq, _⟩
      · cases past
        rcases why with gone | queued
        · exact absurd gone there
        · exact .inr (.inr ⟨act, at_, state, queued⟩)
      · cases eq
  | raced at_ state =>
      rcases finished with past | ⟨eq, _⟩
      · simp only [Portref.raced_frame, Io.past, Option.some.injEq] at past
        subst past
        exact .inl (.inr ⟨at_, state⟩)
      · simp at eq
  | collect _ at_ =>
      obtain ⟨error, out, _⟩ := Portref.collect_io (s.prs id) ‹Nat› ‹Portref.Copy›
      rcases finished with past | ⟨eq, _⟩
      · rw [out] at past
        exact .inl (.inl (by rw [at_]; exact past))
      · rw [out] at eq
        cases eq
  | aborted at_ => exact absurd at_ (asks.noAck _)
  | out1 at_ =>
      rcases finished with past | ⟨eq, _⟩
      · simp only [Portref.out1_frame] at past
        exact .inl (.inl (by rw [at_]; exact past))
      · simp at eq
  | answer act known state has _ =>
      subst act
      obtain ⟨k, rfl, pending⟩ := meets.1 known state there _ has
      have here : k = n := by
        have req := finished.req
        simp only [Portref.answer_frame, Io.req_wake] at req
        rcases pending with at_ | ⟨job, at_⟩ <;> rw [at_] at req <;> exact Option.some.inj req
      subst here
      exact .inr (.inl ⟨⟨_, _, rfl⟩, has, by simp, pending⟩)
  | kernOut _ kern =>
      rcases kern with rfl | ⟨_, rfl⟩ <;>
        exact (elsewhere rfl (by simp [Portref.kernOut]) finished).elim
  | release => exact (elsewhere rfl (by simp) finished).elim
  | connectFails => exact (elsewhere rfl (by simp) finished).elim
  | connected => exact (elsewhere rfl (by simp) finished).elim
  | shut =>
      rcases finished with past | ⟨_, state⟩
      · exact .inl (.inl past)
      · cases state
  | smToM => exact .inl (by simpa [Portref.Over] using finished)
  | acceptDup act known state has dup _ =>
      subst act
      obtain ⟨k, rfl, at_ | ⟨job, at_⟩⟩ := meets.1 known state there _ has
      · simp only [Portref.Waits, at_] at waits
        exact absurd dup.1 ((waits there).2.2.2 state).2
      · simp only [Portref.Waits, at_] at waits
        obtain ⟨newpr, rfl⟩ := waits.2.2.2.2.2.1 dup.1
        rcases finished with past | ⟨eq, _⟩
        · replace past : (s.prs id).io.past = some n := past
          rw [at_] at past
          cases past
        · exact absurd (at_.symm.trans eq) (by simp)
  | abortDone act known state ack =>
      subst act
      exact absurd ack (meets.2 known state)
  | dupWake _ pending =>
      have some := List.ne_nil_of_mem pending
      refine .inl (wakes rfl (fun n at_ => ?_) (fun n at_ => ?_) finished) <;>
        simp only [Portref.Waits, at_] at waits
      · exact some (waits.2.2.2.2.2.2.resolve_right (by simp))
      · exact some (waits there).1
  | reject act known state has _ =>
      subst act
      have other := meets.2 known state there (by simp [has])
      refine .inl (wakes rfl (fun n at_ => other ?_) (fun n at_ => other ?_) finished)
      · rw [at_, Io.job]
      · rw [at_, Io.job]
  | refuseOpen _ _ state _ _ => exact .inl (wakes rfl (opening state).1 (opening state).2 finished)
  | accept _ _ state => exact .inl (wakes rfl (opening state).1 (opening state).2 finished)
  | bounce _ at_ => exact absurd at_ (open_.recv _ _)
  | closeClient _ at_ _ _ => exact absurd at_ (open_.recv _ _)
  | _ => exact .inl finished

/-- An interrupted sender takes its message off the queue. -/
theorem pullBack_of_sendIntr {s t : Kernel} {id : PrId} {n : Nat} {port : PortId}
    (step : Step s (.sendIntr id) t) (at_ : (s.prs id).io = .broken n)
    (state : (s.prs id).pState = .PS_IOWAIT) (there : (s.prs id).pPort = some port)
    (queued : .of id (.sm n) ∈ (s.ports port).pHd) :
    t.prs id = (s.prs id).giveUp n ∧ t.ports port = (s.ports port).pullBack (.of id (.sm n)) ∧
      ∀ other, other ≠ port → t.ports other = s.ports other := by
  simp only [Step, Vsta.Msg.step, Kernel.sendIntr, at_, state, there, if_pos queued] at step
  cases step
  exact ⟨Function.update_self _ _ _, Function.update_self _ _ _,
    fun other ne => Function.update_of_ne ne _ _⟩

/-! ## Nothing is left behind -/

/-- The requests whose thread is past its wait, and those that have returned, are clear. -/
structure Kernel.Tidy (s : Kernel) : Prop where
  asks : ∀ id, (s.prs id).Asks
  finished : ∀ id n, (s.prs id).Over n → s.Clear id n
  done : ∀ d ∈ s.done, d.job = .send → s.Clear d.pr d.n

theorem Kernel.Taken.answered {s t : Kernel} {action : Action} (queues : s.Queues)
    (taken : s.Taken) (step : Step s action t) {id : PrId} {n : Nat}
    (act : ∃ p r, action = .msgReply p id r) (has : (s.prs id).pMsg = some (.sm n))
    (after : (t.prs id).pMsg = none)
    (waiting : (s.prs id).io = .broken n ∨ ∃ job, (s.prs id).io = .asleep n job) :
    t.Clear id n := by
  obtain ⟨p, r, rfl⟩ := act
  have unread : ∀ {key port}, .of id key ∈ (t.ports port).unread →
      .of id key ∈ (s.ports port).unread := by
    intro key port unread
    rcases mem_unread_portStep ((step_changes step).ports port) unread with before | enters
    · exact before
    · cases enters <;> simp_all
  constructor <;> rintro (same | ⟨port, queued⟩)
  · rw [after] at same
    cases same
  · exact taken.read id _ port has (unread queued)
  · rw [after] at same
    cases same
  · have posted := queues.posted port id _ (unread queued)
    rcases waiting with at_ | ⟨job, at_⟩
    · exact posted.2.1 at_
    · exact posted.2.2 job at_

/-- A sender that pulls its message back leaves neither it nor an `M_ABORT`. -/
theorem clear_of_pullBack {s t : Kernel} (queues : s.Queues) (taken : s.Taken) {id : PrId} {n : Nat}
    {port : PortId} (step : Step s (.sendIntr id) t) (at_ : (s.prs id).io = .broken n)
    (state : (s.prs id).pState = .PS_IOWAIT) (there : (s.prs id).pPort = some port)
    (queued : .of id (.sm n) ∈ (s.ports port).pHd) : t.Clear id n := by
  obtain ⟨after, here, others⟩ := pullBack_of_sendIntr step at_ state there queued
  have msg : (t.prs id).pMsg = (s.prs id).pMsg := by rw [after, Portref.giveUp]
  have unread := Port.mem_unread_of_mem_pHd queued
  constructor <;> rintro (has | ⟨other, still⟩)
  · exact taken.read id _ port (msg ▸ has) unread
  · by_cases same : other = port
    · subst same
      have once := queues.nodup other id (.sm n)
      have left := List.count_pos_iff.mpr still
      rw [here] at left
      simp only [Port.unread, Port.pullBack, List.count_append, List.count_erase_self] at once left
      have first := List.count_pos_iff.mpr queued
      omega
    · rw [others other same] at still
      exact same (queues.one _ _ _ _ _ still unread)
  · have posted := taken.posted id (.sm2 n) (msg ▸ has)
    exact posted.2.1 at_
  · have before : .of id (.sm2 n) ∈ (s.ports other).unread := by
      by_cases same : other = port
      · subst same
        rw [here] at still
        simp only [Port.unread, Port.pullBack, List.mem_append] at still ⊢
        exact still.imp_left List.mem_of_mem_erase
      · rwa [others other same] at still
    exact (queues.posted other id _ before).2.1 at_

theorem tidy_step {s t : Kernel} {action : Action} (queues : s.Queues) (taken : s.Taken)
    (returned : s.Returned) (waits : ∀ id, (s.prs id).Waits) (open_ : s.StaysOpen)
    (tidy : s.Tidy) (meets : LeavesNothing s action) (step : Step s action t) : t.Tidy := by
  have changes := step_changes step
  have exists_ : ∀ {id n}, n < (s.prs id).serial → (s.prs id).life ≠ .unallocated :=
    fun made fresh => Portref.not_posted_of_fresh (queues.numbered _) fresh (.sm _) made
  refine ⟨fun id => asks_prStep open_ (waits id) (tidy.asks id) meets (changes.prs id),
    fun id n finished => ?_, fun d member send => ?_⟩
  · have alive : (s.prs id).life ≠ .unallocated := by
      intro fresh
      obtain ⟨gone, _, idle, _⟩ := (queues.numbered id).fresh fresh
      have works := works_prStep (changes.prs id)
      have req := finished.req
      have job := finished.job
      generalize (t.prs id).io = io at works req job
      cases works with
      | goes same _ =>
          rw [same, idle] at req
          cases req
      | ends => cases req
      | posts _ there _ _ _ _ => exact there gone
      | connects _ _ has => cases has.symm.trans job
    rcases over_prStep open_ (waits id) (tidy.asks id) alive meets (changes.prs id) finished with
      before | ⟨act, has, after, waiting⟩ | ⟨rfl, at_, state, port, there, queued⟩
    · have made := (queues.numbered id).current n before.req
      exact clear_step queues step (tidy.finished id n before) made before.state
    · exact taken.answered queues step act has after waiting
    · exact clear_of_pullBack queues taken step at_ state there queued
  · have done := changes.done
    generalize t.done = list at done member
    cases done with
    | same =>
        obtain ⟨made, past⟩ := returned d member
        exact clear_step queues step (tidy.done d member send) made fun at_ =>
          absurd (by rw [at_, Io.req]) past
    | returned act at_ =>
        rcases List.mem_cons.mp member with rfl | old
        · obtain rfl : _ = Job.send := send
          have finished : (s.prs _).Over _ := .inl (by rw [at_]; rfl)
          exact clear_step queues step (tidy.finished _ _ finished) ((queues.numbered _).current _ finished.req)
            finished.state
        · obtain ⟨made, past⟩ := returned d old
          exact clear_step queues step (tidy.done d old send) made fun at_ =>
            absurd (by rw [at_, Io.req]) past

theorem LeavesNothing.answers {s : Kernel}
    (run : Transition.Reaches Step LeavesNothing Kernel.boot s) :
    Transition.Reaches Step AnswersPending Kernel.boot s :=
  run.mono fun _ _ meets => meets.1

theorem tidy_reaches {s : Kernel} (run : Transition.Reaches Step LeavesNothing Kernel.boot s) :
    s.Tidy := by
  refine run.invariant_on_run ⟨fun _ => ⟨by simp [Kernel.boot, Portref.unborn], by
    simp [Kernel.boot, Portref.unborn]⟩, by simp [Kernel.boot, Portref.unborn, Portref.Over,
      Io.past], by simp [Kernel.boot]⟩ ?_
  intro source action target before tidy meets step
  exact tidy_step (queues_reaches before) (taken_reaches before) (returned_reaches before)
    (waits_reaches (LeavesNothing.answers before)) (staysOpen_reaches before) tidy meets step

/-! ## A server that has nothing to answer -/

/-- A request that the server has received and that its thread waits for. -/
def Kernel.Outstanding (s : Kernel) (id : PrId) : Prop :=
  ∃ n, ((s.prs id).io = .broken n ∨ (s.prs id).io = .abAsleep n ∨
      ∃ job, (s.prs id).io = .asleep n job) ∧
    ((s.prs id).sent (.sm n)).received = true ∧ ((s.prs id).sent (.sm n)).replied = false

/-- While `p_state` asks for an answer, the request has none. -/
def Portref.Unanswered (pr : Portref) : Prop :=
  ∀ n, ¬pr.pState.Settled → pr.io.req = some n → (pr.sent (.sm n)).replied = false

theorem unanswered_prStep {s : Kernel} {action : Action} {id : PrId} {pr : Portref}
    (unanswered : (s.prs id).Unanswered) (change : PrStep s action id pr) : pr.Unanswered := by
  have update : ∀ {key : MsgKey} {m : Sysmsg} {n}, ¬(s.prs id).pState.Settled →
      (s.prs id).io.req = some n → m.replied = ((s.prs id).sent key).replied →
        (Function.update (s.prs id).sent key m (.sm n)).replied = false := by
    intro key m n state req same
    by_cases here : MsgKey.sm n = key
    · subst here
      rw [Function.update_self, same]
      exact unanswered n state req
    · rw [Function.update_of_ne here]
      exact unanswered n state req
  have settled : ∀ {after : Portref}, after.pState.Settled → after.Unanswered :=
    fun done _ state => absurd done state
  have goes : ∀ {after : Portref}, (¬after.pState.Settled → ¬(s.prs id).pState.Settled) →
      (∀ n, after.io.req = some n → (s.prs id).io.req = some n) →
        (∀ n, (after.sent (.sm n)).replied = ((s.prs id).sent (.sm n)).replied) →
          after.Unanswered := by
    intro after state io sent n asks req
    rw [sent]
    exact unanswered n (state asks) (io n req)
  cases change with
  | @post job m _ _ _ _ _ unread =>
      intro n _ req
      rw [Portref.post_req, Option.some.injEq] at req
      subst req
      simp [Portref.post, Portref.pSemaIowait, Portref.setSent, unread.2]
  | born => exact settled (by simp [PState.Settled])
  | connecting =>
      intro n _ req
      rw [Portref.connecting_req, Option.some.injEq] at req
      subst req
      simp [Portref.connecting, Portref.pSemaIowait, Portref.setSent]
  | event at_ => exact goes (fun h => h) (by simp [Portref.event, at_, Io.req]) fun _ => rfl
  | giveUp => exact settled (by simp [Portref.giveUp, PState.Settled])
  | abort _ at_ state _ _ =>
      refine goes (fun _ => by simp [state, PState.Settled]) (fun n req => ?_)
        (by simp [Portref.abort, Portref.pSemaIowait, Portref.setSent])
      rw [Portref.abort_req] at req
      rw [at_]
      exact req
  | raced _ state => exact settled (by simp [state, PState.Settled])
  | collect _ at_ =>
      obtain ⟨error, out, _⟩ := Portref.collect_io (s.prs id) ‹Nat› ‹Portref.Copy›
      intro n asks req
      rw [out] at req
      replace req : (s.prs id).io.req = some n := by
        rw [at_]
        exact req
      rw [(Portref.collect_frame _ _ _).2.2.1] at asks
      simp only [Portref.collect]
      split
      · exact unanswered n asks req
      · split
        · exact unanswered n asks req
        · cases ‹Portref.Copy›
          · exact unanswered n asks req
          · exact update asks req rfl
          · exact update asks req rfl
  | aborted at_ => exact goes (fun h => h) (by simp [at_, Io.req]) fun _ => rfl
  | out1 at_ => exact goes (by simp) (by simp [at_, Io.req]) (by simp)
  | kernOut at_ _ =>
      exact goes (fun h => h) (by simp [Portref.kernOut, at_, Io.req]) fun _ => rfl
  | release => exact fun _ _ req => by cases req
  | connectFails => exact fun _ _ req => by cases req
  | connected => exact fun _ _ req => by cases req
  | shut => exact settled (by simp [PState.Settled])
  | receive => exact fun _ asks req => update asks req rfl
  | hashed => exact fun _ asks req => update asks req rfl
  | smToM =>
      intro n asks req
      simp only [Portref.smToM_frame] at asks req
      simp only [Portref.smToM]
      split <;> exact update asks req rfl
  | answer => exact settled (by simp [PState.Settled])
  | acceptDup => exact settled (by simp [Portref.acceptDup, PState.Settled])
  | abortDone => exact settled (by simp [Portref.abortDone, Portref.vIowait, PState.Settled])
  | dupWake =>
      exact goes (fun h => h) (by simp [Portref.dupWake, Portref.vIowait]) fun _ => rfl
  | reject => exact settled (by simp [Portref.reject, Portref.vIowait, PState.Settled])
  | refuseOpen => exact settled (by simp [Portref.refuseOpen, Portref.vIowait, PState.Settled])
  | accept => exact settled (by simp [Portref.accept, Portref.vIowait, PState.Settled])
  | bounce =>
      intro n asks req
      have req : (s.prs id).io.req = some n := by
        rcases Portref.bounce_wake (s.prs id) ‹MsgKey› with ⟨_, io, _⟩ | ⟨_, io, _⟩ <;>
          simpa [io] using req
      rw [(Portref.bounce_frame _ _).2.1] at asks
      simp only [Portref.bounce]
      split <;> exact update asks req rfl
  | closeClient =>
      have io := Portref.closeClient_wake (s.prs id)
      refine goes (by simp) (fun n req => ?_) (by simp)
      split at io <;> simpa [io] using req
  | _ => exact unanswered

theorem unanswered_reaches {s : Kernel} {guard : Kernel → Action → Prop}
    (run : Transition.Reaches Step guard Kernel.boot s) (id : PrId) : (s.prs id).Unanswered :=
  run.invariant (by simp [Kernel.boot, Portref.unborn, Portref.Unanswered, Io.req])
    (fun _ _ _ unanswered _ step id => unanswered_prStep (unanswered id) ((step_changes step).prs id))
    id

/-- What becomes of an unread message. -/
theorem unread_left {s : Kernel} {action : Action} {id : PortId} {port : Port} (made : s.Made)
    (change : PortStep s action id port) {pr : PrId} {key : MsgKey}
    (queued : .of pr key ∈ (s.ports id).unread) :
    .of pr key ∈ port.unread ∨
      (action = .msgReceive id ∧ ∃ rest, (s.ports id).pHd = .of pr key :: rest) ∨
      (∃ n, key = .sm n ∧ action = .sendIntr pr ∧ (s.prs pr).io = .broken n ∧
        (s.prs pr).pState = .PS_IOWAIT ∧ (s.prs pr).pPort = some id ∧
          .of pr (.sm n) ∈ (s.ports id).pHd) ∨
      ∃ shut, (s.ports id).recv = .shut shut := by
  have joins : ∀ m, .of pr key ∈ ((s.ports id).lqueueMsg m).unread := by
    intro m
    rw [Port.unread, Port.bouncing_lqueueMsg]
    exact List.mem_append.mpr ((List.mem_append.mp queued).imp_left (List.mem_append_left _))
  have keeps : ∀ {after : Port}, after.pHd = (s.ports id).pHd →
      after.recv.bouncing = (s.ports id).recv.bouncing → .of pr key ∈ after.unread := by
    intro after hd same
    rwa [Port.unread, hd, same]
  have takes : ∀ {m rest}, (s.ports id).recv = .woken → (s.ports id).pHd = m :: rest →
      .of pr key = m ∨ .of pr key ∈ rest := by
    intro m rest at_ first
    simpa [Port.unread, first, at_, Recv.bouncing] using queued
  cases change with
  | same => exact .inl queued
  | alloc fresh =>
      obtain ⟨_, idle, _, none⟩ := made.port id fresh
      simp [Port.unread, idle, Recv.bouncing, none] at queued
  | posted => exact .inl (joins _)
  | connecting => exact .inl (joins _)
  | aborted => exact .inl (joins _)
  | closing => exact .inl (joins _)
  | isr => exact .inl (joins _)
  | @pullBack other n act at_ state there here =>
      by_cases own : MsgId.of pr key = .of other (.sm n)
      · cases own
        exact .inr (.inr (.inl ⟨n, rfl, act, at_, state, there, here⟩))
      · refine .inl (List.mem_append.mpr ((List.mem_append.mp queued).imp_left fun before => ?_))
        exact (List.mem_erase_of_ne own).mpr before
  | waits free _ =>
      refine .inl (keeps rfl ?_)
      simp only [Port.pSemaWait, free]
      split <;> rfl
  | event at_ => exact .inl (keeps rfl (by simp [Port.event, at_, Recv.bouncing]))
  | takeIsr at_ first =>
      exact .inl (List.mem_append_left _ ((takes at_ first).resolve_left (by simp)))
  | takeConnect act at_ first _ =>
      rcases takes at_ first with own | left
      · exact .inr (.inl ⟨act, _, own ▸ first⟩)
      · exact .inl (List.mem_append_left _ left)
  | takeDisconnect act at_ first _ =>
      rcases takes at_ first with own | left
      · exact .inr (.inl ⟨act, _, own ▸ first⟩)
      · exact .inl (List.mem_append_left _ left)
  | take act at_ first _ =>
      rcases takes at_ first with own | left
      · exact .inr (.inl ⟨act, _, own ▸ first⟩)
      · exact .inl (List.mem_append_left _ left)
  | hashed _ at_ => exact .inl (keeps rfl (by simp [at_, Recv.bouncing]))
  | deleted _ at_ => exact .inl (keeps rfl (by simp [at_, Recv.bouncing]))
  | delivered at_ => exact .inl (keeps rfl (by simp [at_, Recv.bouncing]))
  | refDup => exact .inl (keeps rfl rfl)
  | refused => exact .inl (keeps rfl rfl)
  | disconnect _ free _ => exact .inl (keeps rfl (by simp [free, Recv.bouncing]))
  | bounce _ at_ => exact .inr (.inr (.inr ⟨_, at_⟩))
  | bounced _ at_ => exact .inr (.inr (.inr ⟨_, at_⟩))
  | gone at_ _ => exact .inr (.inr (.inr ⟨_, at_⟩))
  | again at_ => exact .inr (.inr (.inr ⟨_, at_⟩))
  | closed _ at_ _ _ => exact .inr (.inr (.inr ⟨_, at_⟩))
  | unhashed _ at_ => exact .inr (.inr (.inr ⟨_, at_⟩))

/-- A sender aborts a request that is not on the queue any more. -/
theorem aborting_prStep {s : Kernel} {action : Action} {id : PrId} {pr : Portref}
    (change : PrStep s action id pr) {n : Nat} (at_ : pr.io = .abAsleep n) :
    (s.prs id).io = .abAsleep n ∨ (s.prs id).io = .broken n ∧ (s.prs id).pState = .PS_IOWAIT ∧
      ∃ port, (s.prs id).pPort = some port ∧ .of id (.sm n) ∉ (s.ports port).pHd := by
  have woken : ∀ {io : Io}, io.wake ≠ .abAsleep n := by
    intro io
    cases io <;> simp [Io.wake]
  cases change with
  | post =>
      simp only [Portref.post, Portref.pSemaIowait] at at_
      split at at_ <;> cases at_
  | born => cases at_
  | connecting =>
      simp only [Portref.connecting, Portref.pSemaIowait] at at_
      split at at_ <;> cases at_
  | event => cases at_
  | giveUp => cases at_
  | abort _ broken state there gone =>
      simp only [Portref.abort, Portref.pSemaIowait] at at_
      split at at_
      · cases at_
      · cases at_
        exact .inr ⟨broken, state, _, there, gone⟩
  | raced => simp at at_
  | collect =>
      obtain ⟨error, out, _⟩ := Portref.collect_io (s.prs id) ‹Nat› ‹Portref.Copy›
      rw [out] at at_
      cases at_
  | aborted => cases at_
  | out1 => simp at at_
  | kernOut => cases at_
  | release => cases at_
  | connectFails => cases at_
  | connected => cases at_
  | answer => exact absurd (by simpa using at_) woken
  | abortDone => exact absurd at_ woken
  | dupWake => exact absurd at_ woken
  | reject => exact absurd at_ woken
  | refuseOpen => exact absurd at_ woken
  | accept => exact absurd at_ woken
  | smToM => exact .inl (by simpa using at_)
  | bounce =>
      rcases Portref.bounce_wake (s.prs id) ‹MsgKey› with ⟨_, io, _⟩ | ⟨_, io, _⟩
      · exact .inl (io ▸ at_)
      · exact absurd (io.symm.trans at_) woken
  | closeClient =>
      have io := Portref.closeClient_wake (s.prs id)
      split at io
      · exact absurd (io.symm.trans at_) woken
      · exact .inl (io ▸ at_)
  | _ => exact .inl at_

/-- A request that is waited for has been received or is queued, and one that its sender
aborts has been received. -/
structure Kernel.Follows (s : Kernel) : Prop where
  asked : ∀ id n, (s.prs id).io.req = some n → (s.prs id).pState = .PS_IOWAIT →
    ((s.prs id).sent (.sm n)).received = true ∨ ∃ port, .of id (.sm n) ∈ (s.ports port).unread
  aborting : ∀ id n, (s.prs id).io = .abAsleep n → ((s.prs id).sent (.sm n)).received = true

theorem follows_step {s t : Kernel} {action : Action} (queues : s.Queues) (made : s.Made)
    (open_ : s.StaysOpen) (follows : s.Follows) (step : Step s action t) : t.Follows := by
  have changes := step_changes step
  have received : ∀ {id n}, (s.prs id).io.req = some n →
      ((s.prs id).sent (.sm n)).received = true → ((t.prs id).sent (.sm n)).received = true := by
    intro id n req
    have posted : (s.prs id).Posted (.sm n) := (queues.numbered id).current n req
    exact (sent_prStep (queues.numbered id) (changes.prs id) posted).2
  refine ⟨fun id n req state => ?_, fun id n at_ => ?_⟩
  · rcases asked_prStep (changes.prs id) req state with ⟨before, iowait⟩ | ⟨act, ⟨port, there⟩, rfl⟩
    · rcases follows.asked id n before iowait with taken | ⟨port, unread⟩
      · exact .inl (received before taken)
      · rcases unread_left made (changes.ports port) unread with still | ⟨rfl, rest, first⟩ |
          ⟨_, eq, rfl, at_, _, there, queued⟩ | ⟨shut, at_⟩
        · exact .inr ⟨port, still⟩
        · refine .inl ?_
          rw [receive_of_msgReceive step first]
          simp [Portref.receive, Portref.setSent]
        · cases eq
          rw [(pullBack_of_sendIntr step at_ iowait there queued).1] at state
          cases state
        · exact absurd at_ (open_.recv port shut)
    · exact .inr ⟨port, Port.mem_unread_of_mem_pHd (post_of_posting step there act).2⟩
  · rcases aborting_prStep (changes.prs id) at_ with before | ⟨broken, iowait, port, there, gone⟩
    · exact received (by rw [before, Io.req]) (follows.aborting id n before)
    · have req : (s.prs id).io.req = some n := by rw [broken, Io.req]
      rcases follows.asked id n req iowait with taken | ⟨other, unread⟩
      · exact received req taken
      · exfalso
        rcases queues.dest other id _ unread with none | here
        · exact absurd (none.symm.trans there) (by simp)
        · obtain rfl := Option.some.inj (here.symm.trans there)
          have none : (s.ports other).recv.bouncing = [] := by
            cases at' : (s.ports other).recv with
            | shut shut => exact absurd at' (open_.recv other shut)
            | _ => rfl
          rw [Port.unread, none, List.append_nil] at unread
          exact gone unread

theorem follows_reaches {s : Kernel} (run : Transition.Reaches Step LeavesNothing Kernel.boot s) :
    s.Follows :=
  run.invariant_on_run (by constructor <;> simp [Kernel.boot, Portref.unborn, Io.req])
    fun _ _ _ before follows _ step =>
      follows_step (queues_reaches before) (made_reaches before) (staysOpen_reaches before) follows
        step

/-- What is in `p_msg` has been received. -/
def Kernel.Received (s : Kernel) : Prop :=
  ∀ id key, (s.prs id).pMsg = some key → ((s.prs id).sent key).received = true

theorem received_reaches {s : Kernel} {guard : Kernel → Action → Prop}
    (run : Transition.Reaches Step guard Kernel.boot s) : s.Received := by
  refine run.invariant_on_run (by simp [Kernel.Received, Kernel.boot, Portref.unborn]) ?_
  intro source action target before received _ step id key has
  have change := (step_changes step).prs id
  rcases pMsg_prStep change has with same | ⟨port, rest, rfl, first⟩
  · exact (sent_prStep ((queues_reaches before).numbered id) change
      ((taken_reaches before).posted id key same)).2 (received id key same)
  · rw [receive_of_msgReceive step first]
    simp [Portref.receive, Portref.setSent]

section Answers

variable {s : Kernel} (run : Transition.Reaches Step LeavesNothing Kernel.boot s) {id : PrId}
include run

/-- A connection that is hashed has its server. -/
theorem there_of_hashed {p : ProcId} (hashed : s.prefs p id = true) : (s.prs id).pPort ≠ none :=
  (staysOpen_reaches run).there id
    ((known_reaches (LeavesNothing.answers run)).prefs p id hashed)

/-- The message a server may answer was received, and is not answered. -/
theorem outstanding_of_pending {om : MsgKey} (state : (s.prs id).pState = .PS_IOWAIT)
    (has : (s.prs id).pMsg = some om) (pending : (s.prs id).Pending om) : s.Outstanding id := by
  obtain ⟨n, rfl, at_⟩ := pending
  refine ⟨n, at_.imp_right .inr, received_reaches run id _ has,
    unanswered_reaches run id n (by simp [state, PState.Settled]) ?_⟩
  rcases at_ with at_ | ⟨job, at_⟩ <;> rw [at_, Io.req]

/-- A request that its sender aborts was received, and is not answered. -/
theorem outstanding_of_abwait (there : (s.prs id).pPort ≠ none)
    (state : (s.prs id).pState = .PS_ABWAIT) : s.Outstanding id := by
  have waits := waits_reaches (LeavesNothing.answers run) id
  cases at_ : (s.prs id).io <;> simp only [Portref.Waits, at_] at waits
  case abAsleep n =>
    exact ⟨n, .inr (.inl at_), (follows_reaches run).aborting id n at_,
      unanswered_reaches run id n (by simp [state, PState.Settled]) (by rw [at_, Io.req])⟩
  case asleep n job => exact absurd state waits.2.2.1
  case broken n => exact absurd state (waits there).2.1
  all_goals exact absurd state (waits there).2.2.2.1

/-- An open that `msg_err` may refuse was received, and is not answered. -/
theorem outstanding_of_opening (there : (s.prs id).pPort ≠ none)
    (state : (s.prs id).pState = .PS_OPENING) (has : (s.prs id).pMsg ≠ none) :
    s.Outstanding id := by
  have waits := waits_reaches (LeavesNothing.answers run) id
  cases at_ : (s.prs id).io <;> simp only [Portref.Waits, at_] at waits
  case asleep n job =>
    obtain rfl := waits.2.2.2.1 state
    obtain ⟨key, has⟩ := Option.ne_none_iff_exists'.mp has
    have posted := (taken_reaches run).posted id key has
    obtain rfl := key_of_connecting (lives_reaches run) at_ posted
    exact ⟨n, .inr (.inr ⟨_, at_⟩), received_reaches run id _ has,
      unanswered_reaches run id n (by simp [state, PState.Settled]) (by rw [at_, Io.req])⟩
  case abAsleep n => exact absurd state waits.2.2.2.2
  case broken n => exact absurd state (waits there).2.2.1
  all_goals exact absurd state (waits there).2.2.2.2

/-- `msg_reply` is refused where there is nothing to answer. -/
theorem msgReply_refused (nothing : ¬s.Outstanding id) (p : ProcId) (r : Portref.Reply)
    (meets : LeavesNothing s (.msgReply p id r)) :
    s.msgReply p id r = some (.fails .EINVAL, s) := by
  simp only [Kernel.msgReply]
  split
  · rfl
  · rename_i unknown
    have hashed : s.prefs p id = true := by simpa using unknown
    have there := there_of_hashed run hashed
    split
    · rename_i state
      split
      · rfl
      · rename_i om has
        exact absurd (outstanding_of_pending run state has (meets.1 hashed state there om has))
          nothing
    · rename_i state
      exact absurd (outstanding_of_abwait run there state) nothing
    · rfl

/-- `msg_err` is refused where there is nothing to answer. -/
theorem msgErr_refused (nothing : ¬s.Outstanding id) (p : ProcId)
    (meets : LeavesNothing s (.msgErr p id)) : (s.msgErr p id).1 = .fails .EINVAL := by
  simp only [Kernel.msgErr]
  split
  · rfl
  · rename_i unknown
    have hashed : s.prefs p id = true := by simpa using unknown
    have there := there_of_hashed run hashed
    split
    · rename_i gone
      exact absurd gone there
    · rfl
    · rename_i om _ has
      split
      · rename_i state
        exact absurd (outstanding_of_pending run state has (meets.1 hashed state there om has))
          nothing
      · rename_i state
        exact absurd (outstanding_of_opening run there state (by simp [has])) nothing
      · rfl

end Answers

/-- A test of the guard. -/
def leavesNothing (s : Kernel) (action : Action) : Bool :=
  answersPending s action && match action with
    | .msgErr _ id => (s.prs id).pState ≠ .PS_IOWAIT
    | .msgReply _ _ r => r.op ≠ M_ABORT
    | .msgDisconnect _ => false
    | _ => true

theorem leavesNothing_sound (s : Kernel) (action : Action)
    (test : leavesNothing s action = true) : LeavesNothing s action := by
  simp only [leavesNothing, Bool.and_eq_true] at test
  refine ⟨answersPending_sound test.1, ?_⟩
  cases action with
  | msgErr p id => exact fun _ state _ _ => absurd state (by simpa using test.2)
  | msgReply p id r => exact fun _ _ => by simpa using test.2
  | msgDisconnect port => simp at test
  | _ => trivial

end Vsta.Msg
