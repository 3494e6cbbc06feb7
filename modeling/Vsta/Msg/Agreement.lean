import Vsta.Msg.Queued
import Vsta.Msg.Waiting

/-!
# A send that succeeds was answered

A sender that is woken by a reply finds the server's values in its message, and one that
is woken by an error or a bounced queue finds `-1` there. `close_client` wakes a sender
without writing anything: the message of a request that the server took and did not
answer still holds the sender's own values, and `msg_send` returns them as a success
(`closeClient_success`). In every run in which a server that shuts down wakes only
senders whose messages it bounces or has answered (`WakesAnswered`), and each answer is
to the request that is waited for, success means that the server received the message
and replied to it (`send_agrees`).
-/

set_option autoImplicit false

namespace Vsta.Msg

/-- The message holds an answer: that of a server, or an error. -/
def Sysmsg.Answered (m : Sysmsg) : Prop := m.arg = -1 ∨ m.replied = true

/-- `shut_server` wakes a sender by bouncing its message, or finds it answered. -/
def WakesAnswered (s : Kernel) : Action → Prop
  | .bounceMsg port => ∀ id key rest n job,
      (s.ports port).recv = .shut (.bouncing (.of id key :: rest)) →
        (s.prs id).io = .asleep n job → job ≠ .connect →
          key = .sm n ∨ ((s.prs id).sent (.sm n)).Answered
  | .closeClient port => ∀ id rest n job, (s.ports port).recv = .shut (.bouncing []) →
      (s.ports port).pHd = [] → (s.ports port).pRefs = id :: rest →
        (s.prs id).io = .asleep n job → job ≠ .connect → ((s.prs id).sent (.sm n)).Answered
  | _ => True

/-- What a connection's thread knows about its message. -/
structure Portref.Agrees (pr : Portref) : Prop where
  woken : ∀ n job, pr.io = .woken n job → job ≠ .connect → (pr.sent (.sm n)).Answered
  out : ∀ n, pr.io = .out1 n false → (pr.sent (.sm n)).replied = true
  release : ∀ n job, pr.io = .release n job false → (pr.sent (.sm n)).replied = true
  accepted : ∀ n job, pr.dupWakes ≠ [] → pr.io = .asleep n job →
    (pr.sent (.sm n)).replied = true
  taken : ∀ k, pr.pMsg = some (.sm k) → k < pr.serial ∧ (pr.sent (.sm k)).received = true
  received : ∀ k, (pr.sent (.sm k)).replied = true → (pr.sent (.sm k)).received = true

namespace Portref

theorem agrees_unborn : unborn.Agrees := by
  constructor <;> simp [unborn]

/-- What is known about a message is still known. -/
def Grows (pr after : Portref) : Prop :=
  ∀ k, ((pr.sent (.sm k)).Answered → (after.sent (.sm k)).Answered) ∧
    ((pr.sent (.sm k)).replied = true → (after.sent (.sm k)).replied = true) ∧
    ((pr.sent (.sm k)).received = true → (after.sent (.sm k)).received = true) ∧
    ((after.sent (.sm k)).replied = true → (after.sent (.sm k)).received = true)

theorem grows_of_sent {pr after : Portref} (agrees : pr.Agrees)
    (same : ∀ k, after.sent (.sm k) = pr.sent (.sm k)) : pr.Grows after := by
  intro k
  rw [same]
  exact ⟨id, id, id, agrees.received k⟩

/-- Writing one message. -/
theorem grows_update {pr after : Portref} (agrees : pr.Agrees) {key : MsgKey} {m : Sysmsg}
    (sent : after.sent = Function.update pr.sent key m)
    (answered : (pr.sent key).Answered → m.Answered)
    (replied : (pr.sent key).replied = true → m.replied = true)
    (received : (pr.sent key).received = true → m.received = true)
    (reason : ∀ k, key = .sm k → m.replied = true → m.received = true) : pr.Grows after := by
  intro k
  rw [sent]
  by_cases here : MsgKey.sm k = key
  · subst here
    simp only [Function.update_self]
    exact ⟨answered, replied, received, reason k rfl⟩
  · simp only [Function.update_of_ne here]
    exact ⟨id, id, id, agrees.received k⟩

/-- A section that takes the thread on. -/
theorem agrees_of_grows {pr after : Portref} (agrees : pr.Agrees) (grows : pr.Grows after)
    (serial : after.serial = pr.serial) (msg : after.pMsg = pr.pMsg ∨ after.pMsg = none)
    (wakes : after.dupWakes ≠ [] → pr.dupWakes ≠ [])
    (woken : ∀ n job, after.io = .woken n job → job ≠ .connect → (after.sent (.sm n)).Answered)
    (out : ∀ n, after.io = .out1 n false → (after.sent (.sm n)).replied = true)
    (release : ∀ n job, after.io = .release n job false → (after.sent (.sm n)).replied = true)
    (asleep : ∀ n job, after.io = .asleep n job → pr.io = .asleep n job) : after.Agrees where
  woken := woken
  out := out
  release := release
  accepted n job some at_ := (grows n).2.1 (agrees.accepted n job (wakes some) (asleep n job at_))
  taken k has := by
    rcases msg with same | cleared
    · have taken := agrees.taken k (same ▸ has)
      exact ⟨serial ▸ taken.1, (grows k).2.2.1 taken.2⟩
    · simp [cleared] at has
  received k := (grows k).2.2.2

/-- A section that leaves the thread where it is. -/
theorem agrees_still {pr after : Portref} (agrees : pr.Agrees) (grows : pr.Grows after)
    (serial : after.serial = pr.serial) (msg : after.pMsg = pr.pMsg ∨ after.pMsg = none)
    (wakes : after.dupWakes ≠ [] → pr.dupWakes ≠ []) (io : after.io = pr.io) : after.Agrees :=
  agrees_of_grows agrees grows serial msg wakes
    (fun n job at_ ne => (grows n).1 (agrees.woken n job (io ▸ at_) ne))
    (fun n at_ => (grows n).2.1 (agrees.out n (io ▸ at_)))
    (fun n job at_ => (grows n).2.1 (agrees.release n job (io ▸ at_))) (fun _ _ at_ => io ▸ at_)

/-- A section that wakes the thread, whose message then is answered. -/
theorem agrees_wake {pr after : Portref} (agrees : pr.Agrees) (grows : pr.Grows after)
    (serial : after.serial = pr.serial) (msg : after.pMsg = pr.pMsg ∨ after.pMsg = none)
    (wakes : after.dupWakes ≠ [] → pr.dupWakes ≠ []) (io : after.io = pr.io.wake)
    (answers : ∀ n job, pr.io = .asleep n job → job ≠ .connect →
      (after.sent (.sm n)).Answered) : after.Agrees := by
  cases at_ : pr.io with
  | asleep n job =>
      rw [at_, Io.wake] at io
      refine agrees_of_grows agrees grows serial msg wakes (fun k job' woken ne => ?_)
        (by simp [io]) (by simp [io]) (by simp [io])
      rw [io, Io.woken.injEq] at woken
      obtain ⟨rfl, rfl⟩ := woken
      exact answers n job at_ ne
  | abAsleep n =>
      rw [at_, Io.wake] at io
      exact agrees_of_grows agrees grows serial msg wakes (by simp [io]) (by simp [io])
        (by simp [io]) (by simp [io])
  | _ => exact agrees_still agrees grows serial msg wakes (by rw [io, at_]; rfl)

theorem agrees_post {pr : Portref} (agrees : pr.Agrees) (waits : pr.Waits) {job : Job}
    {m : Sysmsg} (idle : pr.io = .idle) (there : pr.pPort ≠ none)
    (unread : m.received = false ∧ m.replied = false) : (pr.post job m).Agrees := by
  simp only [Waits, idle] at waits
  obtain ⟨count, none, _⟩ := waits there
  refine ⟨?_, ?_, ?_, ?_, fun k has => ?_, fun k replied => ?_⟩
  · simp [post, pSemaIowait, setSent, count]
  · simp [post, pSemaIowait, setSent, count]
  · simp [post, pSemaIowait, setSent, count]
  · simp [post, pSemaIowait, setSent, none]
  · have taken := agrees.taken k has
    have older : MsgKey.sm k ≠ .sm pr.serial := by
      simp only [ne_eq, MsgKey.sm.injEq]
      omega
    refine ⟨Nat.lt_succ_of_lt taken.1, ?_⟩
    simpa only [post, pSemaIowait, setSent, Function.update_of_ne older] using taken.2
  · by_cases here : MsgKey.sm k = .sm pr.serial
    · simp [post, pSemaIowait, setSent, here, unread.2] at replied
    · simp only [post, pSemaIowait, setSent, Function.update_of_ne here] at replied ⊢
      exact agrees.received k replied

theorem agrees_collect {pr : Portref} (agrees : pr.Agrees) {n : Nat}
    (at_ : pr.io = .woken n .send) (copy : Copy) : (pr.collect n copy).Agrees := by
  obtain ⟨error, out, plain⟩ := collect_io pr n copy
  have grows : pr.Grows (pr.collect n copy) := by
    simp only [collect]
    split
    · exact grows_of_sent agrees fun _ => rfl
    · split
      · exact grows_of_sent agrees fun _ => rfl
      · cases copy
        · exact grows_of_sent agrees fun _ => rfl
        · exact grows_update agrees rfl id id id fun _ _ => agrees.received n
        · exact grows_update agrees rfl id id id fun _ _ => agrees.received n
  refine agrees_of_grows agrees grows (by simp) (by simp) (by simp) (by simp [out])
    (fun k at' => ?_) (by simp [out]) (by simp [out])
  rw [out, Io.out1.injEq] at at'
  obtain ⟨rfl, rfl⟩ := at'
  exact (grows n).2.1 ((agrees.woken n .send at_ (by simp)).resolve_left (plain rfl))

theorem agrees_kernOut {pr : Portref} (agrees : pr.Agrees) {n : Nat} {job : Job}
    (at_ : pr.io = .woken n job) (job_ne : job ≠ .connect) : (pr.kernOut n job).Agrees := by
  refine agrees_of_grows agrees (grows_of_sent agrees fun _ => rfl) rfl (.inl rfl) id
    (by simp [kernOut]) (by simp [kernOut]) (fun k job' out => ?_) (by simp [kernOut])
  simp only [kernOut, Io.release.injEq, decide_eq_false_iff_not] at out
  obtain ⟨rfl, rfl, plain⟩ := out
  exact (agrees.woken n job at_ job_ne).resolve_left plain

theorem agrees_answer {pr : Portref} (agrees : pr.Agrees) (waits : pr.Waits) {om : MsgKey}
    (r : Reply) (has : pr.pMsg = some om) (pending : pr.pPort ≠ none → pr.Pending om) :
    (pr.answer om r).Agrees := by
  have grows : pr.Grows (pr.answer om r) := by
    intro k
    simp only [answer_frame]
    by_cases here : MsgKey.sm k = om
    · subst here
      simpa [Sysmsg.Answered] using (agrees.taken k has).2
    · simp only [Function.update_of_ne here]
      exact ⟨id, id, id, agrees.received k⟩
  refine agrees_wake agrees grows (by simp) (.inr (by simp)) (by simp) (by simp)
    fun n job at_ _ => ?_
  simp only [Waits, at_] at waits
  obtain ⟨k, rfl, broken | ⟨job', same⟩⟩ := pending waits.1
  · rw [at_] at broken
    cases broken
  · rw [at_, Io.asleep.injEq] at same
    obtain ⟨rfl, rfl⟩ := same
    simp [Sysmsg.Answered]

theorem agrees_reject {pr : Portref} (agrees : pr.Agrees) (waits : pr.Waits) {om : MsgKey}
    (pending : pr.pPort ≠ none → pr.Pending om) : (pr.reject om).Agrees := by
  have grows : pr.Grows (pr.reject om) := by
    intro k
    by_cases here : MsgKey.sm k = om
    · subst here
      simpa [reject, vIowait, setSent, Sysmsg.Answered] using agrees.received k
    · simp only [reject, vIowait, setSent, Function.update_of_ne here]
      exact ⟨id, id, id, agrees.received k⟩
  refine agrees_wake agrees grows rfl (.inl rfl) id rfl fun n job at_ _ => ?_
  simp only [Waits, at_] at waits
  obtain ⟨k, rfl, broken | ⟨job', same⟩⟩ := pending waits.1
  · rw [at_] at broken
    cases broken
  · rw [at_, Io.asleep.injEq] at same
    obtain ⟨rfl, rfl⟩ := same
    simp [reject, vIowait, setSent, Sysmsg.Answered]

theorem agrees_acceptDup {pr : Portref} (agrees : pr.Agrees) {om : MsgKey} (newpr : PrId)
    (p : ProcId) (has : pr.pMsg = some om) (pending : pr.Pending om) :
    (pr.acceptDup om newpr p).Agrees := by
  have grows : pr.Grows (pr.acceptDup om newpr p) := by
    intro k
    by_cases here : MsgKey.sm k = om
    · subst here
      simpa [acceptDup, setSent, Sysmsg.Answered] using (agrees.taken k has).2
    · simp only [acceptDup, setSent, Function.update_of_ne here]
      exact ⟨id, id, id, agrees.received k⟩
  have still : ∀ n, (pr.sent (.sm n)).replied = true →
      ((pr.acceptDup om newpr p).sent (.sm n)).replied = true := fun n => (grows n).2.1
  refine ⟨fun n job at_ ne => (grows n).1 (agrees.woken n job at_ ne),
    fun n at_ => still n (agrees.out n at_), fun n job at_ => still n (agrees.release n job at_),
    fun n job _ at_ => ?_, fun k taken => ?_, fun k => (grows k).2.2.2⟩
  · obtain ⟨k, rfl, broken | ⟨job', same⟩⟩ := pending
    · exact absurd (broken.symm.trans at_) (by simp)
    · obtain ⟨rfl, rfl⟩ := Io.asleep.inj (same.symm.trans at_)
      simp [acceptDup, setSent]
  · have taken := agrees.taken k taken
    exact ⟨taken.1, (grows k).2.2.1 taken.2⟩

/-- Writing the segments of a message. -/
theorem agrees_segs {pr : Portref} (agrees : pr.Agrees) {key : MsgKey} {m : Sysmsg}
    (arg : m.arg = (pr.sent key).arg) (replied : m.replied = (pr.sent key).replied)
    (received : m.received = (pr.sent key).received) : (pr.setSent key m).Agrees := by
  refine agrees_still agrees (grows_update agrees rfl ?_ ?_ ?_ fun k here => ?_) rfl (.inl rfl)
    (fun some => some) rfl
  · simp only [Sysmsg.Answered, arg, replied, imp_self]
  · simp only [replied, imp_self]
  · simp only [received, imp_self]
  · rw [replied, received, here]
    exact agrees.received k

theorem agrees_smToM {pr : Portref} (agrees : pr.Agrees) (key : MsgKey) (mapped : Bool) :
    (pr.smToM key mapped).Agrees := by
  simp only [smToM]
  split <;> exact agrees_segs agrees rfl rfl rfl

theorem agrees_bounce {pr : Portref} (agrees : pr.Agrees) {key : MsgKey}
    (answered : ∀ n job, pr.io = .asleep n job → job ≠ .connect →
      key = .sm n ∨ (pr.sent (.sm n)).Answered) : (pr.bounce key).Agrees := by
  have grows : pr.Grows (pr.bounce key) := by
    simp only [bounce]
    split
    · exact grows_update agrees rfl id id id fun k here => here ▸ agrees.received k
    · exact grows_update agrees rfl (fun _ => .inl rfl) id id
        fun k here => here ▸ agrees.received k
  rcases bounce_wake pr key with ⟨_, io, _⟩ | ⟨_, io, _, arg⟩
  · exact agrees_still agrees grows (by simp) (.inl (by simp)) (by simp) io
  · refine agrees_wake agrees grows (by simp) (.inl (by simp)) (by simp) io
      fun n job at_ ne => ?_
    rcases answered n job at_ ne with rfl | before
    · exact .inl arg
    · exact (grows n).1 before

theorem agrees_closeClient {pr : Portref} (agrees : pr.Agrees)
    (answered : ∀ n job, pr.io = .asleep n job → job ≠ .connect →
      (pr.sent (.sm n)).Answered) : pr.closeClient.Agrees := by
  have grows : pr.Grows pr.closeClient := grows_of_sent agrees (by simp)
  have io := closeClient_wake pr
  split at io
  · refine agrees_wake agrees grows (by simp) (.inl (by simp)) (by simp) io
      fun n job at_ ne => ?_
    exact (grows n).1 (answered n job at_ ne)
  · exact agrees_still agrees grows (by simp) (.inl (by simp)) (by simp) io

theorem agrees_receive {pr : Portref} (agrees : pr.Agrees) {key : MsgKey}
    (posted : pr.Posted key) : (pr.receive key).Agrees := by
  have grows : pr.Grows (pr.receive key) :=
    grows_update agrees rfl id id (fun _ => rfl) fun _ _ _ => rfl
  refine ⟨fun n job at_ ne => (grows n).1 (agrees.woken n job at_ ne),
    fun n at_ => (grows n).2.1 (agrees.out n at_),
    fun n job at_ => (grows n).2.1 (agrees.release n job at_),
    fun n job accepted at_ => (grows n).2.1 (agrees.accepted n job accepted at_),
    fun k has => ?_, fun k => (grows k).2.2.2⟩
  obtain rfl : key = .sm k := Option.some.inj has
  exact ⟨posted, by simp [receive, setSent]⟩

end Portref

/-- What a step does to a connection keeps what its thread knows. -/
theorem agrees_prStep {s : Kernel} {action : Action} {id : PrId} {pr : Portref}
    (queues : s.Queues) (waits : (s.prs id).Waits) (agrees : (s.prs id).Agrees)
    (answers : AnswersPending s action) (wakes : WakesAnswered s action)
    (change : PrStep s action id pr) : pr.Agrees := by
  have still : ∀ {after : Portref}, after.sent = (s.prs id).sent →
      after.serial = (s.prs id).serial → after.pMsg = (s.prs id).pMsg →
        after.dupWakes = (s.prs id).dupWakes → after.io = (s.prs id).io → after.Agrees :=
    fun sent serial msg same io => Portref.agrees_still agrees
      (Portref.grows_of_sent agrees fun _ => by rw [sent]) serial (.inl msg) (by simp [same]) io
  -- the thread comes to a point at which nothing is known about its message
  have quiet : ∀ {after : Portref}, (∀ k, after.sent (.sm k) = (s.prs id).sent (.sm k)) →
      after.serial = (s.prs id).serial → after.pMsg = (s.prs id).pMsg →
        after.dupWakes = (s.prs id).dupWakes → (∀ n job, after.io ≠ .woken n job) →
          (∀ n, after.io ≠ .out1 n false) → (∀ n job, after.io ≠ .release n job false) →
            (∀ n job, after.io ≠ .asleep n job) → after.Agrees :=
    fun sent serial msg same woken out release asleep => Portref.agrees_of_grows agrees
      (Portref.grows_of_sent agrees sent) serial (.inl msg) (by simp [same])
      (fun n job at_ => absurd at_ (woken n job)) (fun n at_ => absurd at_ (out n))
      (fun n job at_ => absurd at_ (release n job)) (fun n job at_ => absurd at_ (asleep n job))
  cases change with
  | same => exact agrees
  | line => exact still rfl rfl rfl rfl rfl
  | unline => exact still rfl rfl rfl rfl rfl
  | post idle there _ _ unread _ _ =>
      exact Portref.agrees_post agrees waits idle (by simp [there]) unread
  | born => constructor <;> simp [Portref.alloc, Portref.unborn]
  | connecting =>
      refine ⟨?_, ?_, ?_, ?_, ?_, fun k replied => ?_⟩
      all_goals
        simp [Portref.connecting, Portref.pSemaIowait, Portref.setSent, Portref.alloc,
          Portref.unborn] at *
      by_cases first : k = 0
      · simp [first] at replied
      · simp [Function.update_of_ne, first] at replied
  | event => apply quiet <;> simp [Portref.event]
  | giveUp => apply quiet <;> simp [Portref.giveUp]
  | abort _ at_ state there _ =>
      simp only [Portref.Waits, at_] at waits
      have count := ((waits (by simp [there])).2.2.2 state).1
      apply quiet <;> simp [Portref.abort, Portref.pSemaIowait, Portref.setSent, count]
  | raced => apply quiet <;> simp
  | collect _ at_ => exact Portref.agrees_collect agrees at_ _
  | aborted => apply quiet <;> simp
  | out1 at_ =>
      refine Portref.agrees_of_grows agrees (Portref.grows_of_sent agrees (by simp)) (by simp)
        (.inl (by simp)) (by simp) (by simp) (by simp) (fun n job released => ?_) (by simp)
      rw [(Portref.out1_frame _ _ _).2.2.2.2.2.2.2.2.2.2.2.2, Io.release.injEq] at released
      obtain ⟨rfl, _, rfl⟩ := released
      simpa using agrees.out _ at_
  | kernOut at_ kern =>
      refine Portref.agrees_kernOut agrees at_ fun connect => ?_
      obtain rfl | ⟨_, rfl⟩ := kern <;> cases connect
  | release => apply quiet <;> simp
  | handed => exact still rfl rfl rfl rfl rfl
  | connectFails => apply quiet <;> simp
  | connected => apply quiet <;> simp
  | fork => exact still rfl rfl rfl rfl rfl
  | unref => exact still rfl rfl rfl rfl rfl
  | free => exact still rfl rfl rfl rfl rfl
  | shut =>
      exact Portref.agrees_still agrees (Portref.grows_of_sent agrees (by simp [Portref.setSent]))
        rfl (.inl rfl) (fun some => some) rfl
  | receive _ _ first =>
      exact Portref.agrees_receive agrees
        (queues.posted _ _ _ (Port.mem_unread_of_mem_pHd (first ▸ List.mem_cons_self)))
  | hashed => exact Portref.agrees_segs agrees rfl rfl rfl
  | deleted => exact still rfl rfl rfl rfl rfl
  | smToM => exact Portref.agrees_smToM agrees _ _
  | answer act known state has _ =>
      subst act
      exact Portref.agrees_answer agrees waits _ has fun there => answers known state there _ has
  | acceptDup act known state has _ there =>
      subst act
      exact Portref.agrees_acceptDup agrees _ _ has (answers known state (by simp [there]) _ has)
  | abortDone _ _ state _ =>
      refine Portref.agrees_wake agrees (Portref.grows_of_sent agrees fun _ => rfl) rfl (.inl rfl)
        (fun some => some) rfl fun n job at_ _ => ?_
      simp only [Portref.Waits, at_] at waits
      exact absurd state waits.2.2.1
  | dupWake _ pending =>
      exact Portref.agrees_wake agrees (Portref.grows_of_sent agrees fun _ => rfl) rfl (.inl rfl)
        (fun _ => List.ne_nil_of_mem pending) rfl
        fun n job at_ _ => .inr (agrees.accepted n job (List.ne_nil_of_mem pending) at_)
  | dupWoken => exact still rfl rfl rfl rfl rfl
  | dupHash => exact still rfl rfl rfl rfl rfl
  | reject act known state has there =>
      subst act
      exact Portref.agrees_reject agrees waits fun there => answers known state there _ has
  | refuseOpen _ _ state _ _ =>
      refine Portref.agrees_wake agrees (Portref.grows_of_sent agrees fun _ => rfl) rfl (.inl rfl)
        (fun some => some) rfl fun n job at_ ne => ?_
      simp only [Portref.Waits, at_] at waits
      exact absurd (waits.2.2.2.1 state) ne
  | accept _ _ state =>
      refine Portref.agrees_wake agrees (Portref.grows_of_sent agrees fun _ => rfl) rfl (.inl rfl)
        (fun some => some) rfl fun n job at_ ne => ?_
      simp only [Portref.Waits, at_] at waits
      exact absurd (waits.2.2.2.1 state) ne
  | bounce act at_ =>
      subst act
      exact Portref.agrees_bounce agrees fun n job asleep ne => wakes _ _ _ n job at_ asleep ne
  | closeClient act at_ empty first =>
      subst act
      exact Portref.agrees_closeClient agrees fun n job asleep ne =>
        wakes _ _ n job at_ empty first asleep ne

/-- A request that returned without error was received and replied to. -/
def Kernel.Agrees (s : Kernel) : Prop :=
  ∀ d ∈ s.done, d.error = false → d.received = true ∧ d.replied = true

theorem agrees_doneStep {s : Kernel} {action : Action} {done : List Done} (agrees : s.Agrees)
    (cells : ∀ id, (s.prs id).Agrees) (change : DoneStep s action done) :
    ∀ d ∈ done, d.error = false → d.received = true ∧ d.replied = true := by
  cases change with
  | same => exact agrees
  | @returned id n job error act at_ =>
      intro d member success
      rcases List.mem_cons.mp member with rfl | before
      · subst success
        have replied := (cells id).release n job at_
        exact ⟨(cells id).received n replied, replied⟩
      · exact agrees d before success

/-- The runs of the message system in which an answer is to the request that is waited
for, and a server that shuts down cuts off no request that it has taken. -/
def CutsOffNobody (s : Kernel) (action : Action) : Prop :=
  AnswersPending s action ∧ WakesAnswered s action

theorem CutsOffNobody.answers {s : Kernel}
    (run : Transition.Reaches Step CutsOffNobody Kernel.boot s) :
    Transition.Reaches Step AnswersPending Kernel.boot s :=
  run.mono fun _ _ meets => meets.1

theorem agrees_cells {s : Kernel} (run : Transition.Reaches Step CutsOffNobody Kernel.boot s)
    (id : PrId) : (s.prs id).Agrees :=
  run.invariant_on_run (fun _ => Portref.agrees_unborn)
    (fun _ _ _ before cells meets step => fun id =>
      agrees_prStep (queues_reaches before) (waits_reaches (CutsOffNobody.answers before) id)
        (cells id) meets.1 meets.2 ((step_changes step).prs id)) id

theorem agrees_reaches {s : Kernel} (run : Transition.Reaches Step CutsOffNobody Kernel.boot s) :
    s.Agrees :=
  run.invariant_on_run (by simp [Kernel.Agrees, Kernel.boot])
    fun _ _ _ before agrees _ step =>
      agrees_doneStep agrees (agrees_cells before) (step_changes step).done

/-- **A send that succeeds was answered.** The server received the message, and then
executed a `msg_reply` for it. -/
theorem send_agrees {s : Kernel} (run : Transition.Reaches Step CutsOffNobody Kernel.boot s)
    (d : Done) (returned : d ∈ s.done) (success : d.error = false) :
    d.received = true ∧ d.replied = true :=
  agrees_reaches run d returned success

/-- A test of the guard: no server shuts down. -/
def cutsOffNobody (s : Kernel) (action : Action) : Bool :=
  answersPending s action && match action with
    | .bounceMsg _ | .closeClient _ => false
    | _ => true

theorem cutsOffNobody_sound (s : Kernel) (action : Action)
    (test : cutsOffNobody s action = true) : CutsOffNobody s action := by
  simp only [cutsOffNobody, Bool.and_eq_true] at test
  refine ⟨answersPending_sound test.1, ?_⟩
  cases action with
  | bounceMsg port => simp at test
  | closeClient port => simp at test
  | _ => trivial

/-- The server takes the request of client 0 and replies to it. -/
theorem send_agrees_answered :
    ∃ s d, Transition.Reaches Step CutsOffNobody Kernel.boot s ∧ d ∈ s.done ∧
      d.error = false ∧ d.received = true ∧ d.replied = true := by
  obtain ⟨s, reached, returned⟩ := exists_of_runWith cutsOffNobody cutsOffNobody_sound
    (opening 0 0 0 ++ [.findPortref 0, .msgSend 0 plainRequest, .findPort 0, .msgReceive 0,
      .deliver 0 true, .msgReply 0 0 ⟨0, 7, 0, 0⟩, .sendWoken 0 .copied, .sendOut1 0, .release 0])
    (fun s => ∃ d ∈ s.done, d.error = false) (by decide +kernel)
  obtain ⟨d, member, success⟩ := returned
  exact ⟨s, d, reached, member, success, send_agrees reached d member success⟩

/-- **A send succeeds without an answer.** The server takes the request and shuts its port
down; the sender is told that its request is done. -/
theorem closeClient_success :
    ∃ s d, Transition.Reaches Step Transition.Any Kernel.boot s ∧ d ∈ s.done ∧
      d.job = .send ∧ d.error = false ∧ d.received = true ∧ d.replied = false := by
  obtain ⟨s, reached, d, member, holds⟩ := exists_of_runWith (fun _ _ => true)
    (fun _ _ _ => trivial)
    (opening 0 0 0 ++ [.findPortref 0, .msgSend 0 plainRequest, .findPort 0, .msgReceive 0,
      .deliver 0 true, .msgDisconnect 0, .bounceMsgs 0, .closeClient 0, .sendWoken 0 .copied,
      .sendOut1 0, .release 0])
    (fun s => ∃ d ∈ s.done, d.job = .send ∧ d.error = false ∧ d.received = true ∧
      d.replied = false) (by decide +kernel)
  exact ⟨s, d, reached, member, holds⟩

end Vsta.Msg
