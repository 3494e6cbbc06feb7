import Vsta.Msg.Steps

/-!
# The state of a connection and its semaphore

While its server is there, the count of a portref's `p_iowait` and its `p_state` follow
from what the thread that does I/O through it is doing (`Portref.Waits`): the count is
`-1` while the thread sleeps and `0` otherwise, and only a thread that waits leaves
`p_state` at one of the values a server answers to. So a server wakes nobody by
accident, and nobody twice.

This holds in every run in which each answer is to the request that is waited for
(`AnswersPending`, `waits_reaches`). The kernel looks for that request in `p_msg`, which
several of its paths leave set to an older one.
-/

set_option autoImplicit false

namespace Vsta.Msg

/-- A server's call finds nobody to answer in this state. -/
def PState.Settled (state : PState) : Prop :=
  state ≠ .PS_IOWAIT ∧ state ≠ .PS_ABWAIT ∧ state ≠ .PS_OPENING

/-- The message `om` is the one whose sender waits for an answer. -/
def Portref.Pending (pr : Portref) (om : MsgKey) : Prop :=
  ∃ n, om = .sm n ∧ (pr.io = .broken n ∨ ∃ job, pr.io = .asleep n job)

/-- An answer by `msg_reply` or `msg_err` to a connection that has its server is to the
message that is waited for. -/
def AnswersPending (s : Kernel) : Action → Prop
  | .msgReply p id _ | .msgErr p id => s.prefs p id = true → (s.prs id).pState = .PS_IOWAIT →
      (s.prs id).pPort ≠ none → ∀ om, (s.prs id).pMsg = some om → (s.prs id).Pending om
  | _ => True

/-- The count of `p_iowait`, `p_state` and the accepted duplications, by what the thread
of the connection is doing. A connection without its server is not constrained, but
nobody sleeps on it. -/
def Portref.Waits (pr : Portref) : Prop :=
  match pr.io with
  | .asleep n job =>
      pr.pPort ≠ none ∧ pr.pIowait = -1 ∧ pr.pState ≠ .PS_ABWAIT ∧
        (pr.pState = .PS_OPENING → job = .connect) ∧
        (pr.pState = .PS_IOWAIT → job ≠ .connect ∧ pr.dupWakes = []) ∧
        ((pr.sent (.sm n)).op = M_DUP → ∃ newpr, job = .dup newpr) ∧
        (pr.dupWakes = [] ∨ ∃ wake newpr, pr.dupWakes = [wake] ∧ job = .dup newpr)
  | .abAsleep _ =>
      pr.pPort ≠ none ∧ pr.pIowait = -1 ∧ pr.dupWakes = [] ∧ pr.pState ≠ .PS_IOWAIT ∧
        pr.pState ≠ .PS_OPENING
  | .broken n =>
      pr.pPort ≠ none → pr.dupWakes = [] ∧ pr.pState ≠ .PS_ABWAIT ∧ pr.pState ≠ .PS_OPENING ∧
        (pr.pState = .PS_IOWAIT → pr.pIowait = 0 ∧ (pr.sent (.sm n)).op ≠ M_DUP)
  | _ => pr.pPort ≠ none → pr.pIowait = 0 ∧ pr.dupWakes = [] ∧ pr.pState.Settled

namespace Portref

theorem waits_unborn : unborn.Waits := fun there => absurd rfl there

/-- Nobody sleeps on a connection whose server is gone. -/
theorem waits_of_gone {pr : Portref} (gone : pr.pPort = none)
    (awake : ∀ n job, pr.io ≠ .asleep n job) (ab : ∀ n, pr.io ≠ .abAsleep n) : pr.Waits := by
  cases at_ : pr.io with
  | asleep n job => exact absurd at_ (awake n job)
  | abAsleep n => exact absurd at_ (ab n)
  | _ => simp [Waits, at_, gone]

/-- Writing a message without touching its operation changes nothing here. -/
theorem waits_setSent {pr : Portref} (waits : pr.Waits) {key : MsgKey} {m : Sysmsg}
    (op : m.op = (pr.sent key).op) : (pr.setSent key m).Waits := by
  have same : ∀ other, ((pr.setSent key m).sent other).op = (pr.sent other).op := by
    intro other
    by_cases here : other = key
    · subst here
      simpa [setSent] using op
    · simp [setSent, here]
  simp only [Waits, same] at waits ⊢
  exact waits

theorem waits_post {pr : Portref} (waits : pr.Waits) {job : Job} {m : Sysmsg}
    (idle : pr.io = .idle) (there : pr.pPort ≠ none) (job_ne : job ≠ .connect)
    (dup : m.op = M_DUP → ∃ newpr, job = .dup newpr) : (pr.post job m).Waits := by
  simp only [Waits, idle] at waits
  obtain ⟨count, none, _⟩ := waits there
  simp [Waits, post, pSemaIowait, setSent, count, none, there, job_ne]
  exact dup

theorem waits_event {pr : Portref} (waits : pr.Waits) {n : Nat} (at_ : pr.io = .asleep n .send) :
    (pr.event n).Waits := by
  simp only [Waits, at_] at waits
  obtain ⟨_, count, abwait, opening, iowait, op, none⟩ := waits
  simp only [Waits, event]
  intro _
  refine ⟨by simpa using none, abwait, fun state => by simpa using opening state, fun state => ?_⟩
  exact ⟨by omega, fun dup => by simpa using op dup⟩

theorem waits_giveUp {pr : Portref} (waits : pr.Waits) {n : Nat} (at_ : pr.io = .broken n)
    (state : pr.pState = .PS_IOWAIT) : (pr.giveUp n).Waits := by
  simp only [Waits, at_] at waits
  intro there
  obtain ⟨none, _, _, count⟩ := waits there
  exact ⟨(count state).1, none, by simp [giveUp, PState.Settled]⟩

theorem waits_abort {pr : Portref} (waits : pr.Waits) {n : Nat} (at_ : pr.io = .broken n)
    (state : pr.pState = .PS_IOWAIT) (there : pr.pPort ≠ none) : (pr.abort n).Waits := by
  simp only [Waits, at_] at waits
  obtain ⟨none, _, _, count⟩ := waits there
  simp [Waits, abort, pSemaIowait, setSent, (count state).1, none, there]

theorem waits_raced {pr : Portref} (waits : pr.Waits) {n : Nat} (at_ : pr.io = .broken n)
    (state : pr.pState = .PS_IODONE) : (pr.raced n).Waits := by
  simp only [Waits, at_] at waits
  simp only [raced]
  split
  · exact fun there => ⟨rfl, (waits there).1, by simp [vSvwait, state, PState.Settled]⟩
  · exact fun there => ⟨rfl, (waits there).1, by simp [state, PState.Settled]⟩

theorem waits_collect {pr : Portref} (waits : pr.Waits) {n : Nat} (at_ : pr.io = .woken n .send)
    (copy : Copy) : (pr.collect n copy).Waits := by
  simp only [Waits, at_] at waits
  simp only [collect]
  split
  · exact waits
  · split
    · exact waits
    · cases copy <;> exact waits

theorem waits_out1 {pr : Portref} (waits : pr.Waits) {n : Nat} {error : Bool}
    (at_ : pr.io = .out1 n error) : (pr.out1 n error).Waits := by
  simp only [Waits, at_] at waits
  simp only [out1]
  split <;> exact waits

/-- Nobody sleeps on a connection whose server is gone, so a V there wakes nobody. -/
theorem waits_vIowait_of_gone {pr : Portref} (waits : pr.Waits) (gone : pr.pPort = none)
    {after : Portref} (port : after.pPort = none) (io : after.io = pr.io.wake) : after.Waits := by
  cases at_ : pr.io with
  | asleep n job =>
      simp only [Waits, at_] at waits
      exact absurd gone waits.1
  | abAsleep n =>
      simp only [Waits, at_] at waits
      exact absurd gone waits.1
  | _ => exact waits_of_gone port (by simp [io, at_, Io.wake]) (by simp [io, at_, Io.wake])

/-- An answer to the message that is waited for wakes its sender, or its sender finds it. -/
theorem waits_answered {pr after : Portref} (waits : pr.Waits) {om : MsgKey}
    (state : pr.pState = .PS_IOWAIT)
    (pending : pr.pPort ≠ none → pr.Pending om) (port : after.pPort = pr.pPort)
    (io : after.io = pr.io.wake) (count : after.pIowait = pr.pIowait + 1)
    (wakes : after.dupWakes = pr.dupWakes) (done : after.pState = .PS_IODONE) : after.Waits := by
  by_cases there : pr.pPort = none
  · exact waits_vIowait_of_gone waits there (by simp [port, there]) io
  obtain ⟨n, rfl, at_ | ⟨job, at_⟩⟩ := pending there
  · simp only [Waits, at_] at waits
    obtain ⟨none, _⟩ := waits there
    simp [Waits, io, Io.wake, at_, wakes, none, done]
  · simp only [Waits, at_] at waits
    obtain ⟨_, before, _, _, iowait, _⟩ := waits
    simp [Waits, io, Io.wake, at_, count, before, wakes, (iowait state).2, done, PState.Settled]

theorem waits_answer {pr : Portref} (waits : pr.Waits) {om : MsgKey} (r : Reply)
    (state : pr.pState = .PS_IOWAIT) (pending : pr.pPort ≠ none → pr.Pending om) :
    (pr.answer om r).Waits :=
  waits_answered waits state pending (by simp) (by simp) (by simp) (by simp) (by simp)

theorem waits_reject {pr : Portref} (waits : pr.Waits) {om : MsgKey}
    (state : pr.pState = .PS_IOWAIT) (pending : pr.pPort ≠ none → pr.Pending om) :
    (pr.reject om).Waits :=
  waits_answered waits state pending rfl rfl rfl rfl rfl

theorem waits_acceptDup {pr : Portref} (waits : pr.Waits) {om : MsgKey} (newpr : PrId)
    (p : ProcId) (state : pr.pState = .PS_IOWAIT) (there : pr.pPort ≠ none)
    (pending : pr.Pending om) (dup : (pr.sent om).op = M_DUP) :
    (pr.acceptDup om newpr p).Waits := by
  obtain ⟨n, rfl, at_ | ⟨job, at_⟩⟩ := pending
  · simp only [Waits, at_] at waits
    exact absurd dup ((waits there).2.2.2 state).2
  · simp only [Waits, at_] at waits
    obtain ⟨_, count, abwait, opening, iowait, op, _⟩ := waits
    obtain ⟨newpr', rfl⟩ := op dup
    simp [Waits, acceptDup, setSent, at_, there, count, (iowait state).2]

theorem waits_dupWake {pr : Portref} (waits : pr.Waits) {newpr : PrId} {p : ProcId}
    (pending : (newpr, p) ∈ pr.dupWakes) : (pr.dupWake newpr p).Waits := by
  by_cases there : pr.pPort = none
  · exact waits_vIowait_of_gone waits there there rfl
  have some : pr.dupWakes ≠ [] := List.ne_nil_of_mem pending
  cases at_ : pr.io <;> simp only [Waits, at_] at waits
  case asleep n job =>
    obtain ⟨_, count, abwait, opening, iowait, _, none | ⟨wake, newpr', one, rfl⟩⟩ := waits
    · exact absurd none some
    · rw [one, List.mem_singleton] at pending
      subst pending
      have settled : pr.pState.Settled :=
        ⟨fun state => some (iowait state).2, abwait, fun state => by simpa using opening state⟩
      simpa [Waits, dupWake, vIowait, Io.wake, at_, one, count, there] using settled
  case abAsleep n => exact absurd waits.2.2.1 some
  case broken n => exact absurd (waits there).1 some
  all_goals exact absurd (waits there).2.1 some

theorem waits_abortDone {pr : Portref} (waits : pr.Waits) (state : pr.pState = .PS_ABWAIT) :
    pr.abortDone.Waits := by
  by_cases there : pr.pPort = none
  · exact waits_vIowait_of_gone waits there there rfl
  cases at_ : pr.io <;> simp only [Waits, at_] at waits
  case asleep n job => exact absurd state waits.2.2.1
  case abAsleep n =>
    obtain ⟨_, count, none, _⟩ := waits
    simp [Waits, abortDone, vIowait, Io.wake, at_, count, none, PState.Settled]
  case broken n => exact absurd state (waits there).2.1
  all_goals exact absurd state (waits there).2.2.2.1

/-- Only the thread of an open waits on a portref that is opening. -/
theorem waits_opened {pr after : Portref} (waits : pr.Waits) (state : pr.pState = .PS_OPENING)
    (port : after.pPort = pr.pPort) (io : after.io = pr.io.wake)
    (count : after.pIowait = pr.pIowait + 1) (wakes : after.dupWakes = pr.dupWakes)
    (done : after.pState.Settled) : after.Waits := by
  by_cases there : pr.pPort = none
  · exact waits_vIowait_of_gone waits there (by simp [port, there]) io
  cases at_ : pr.io <;> simp only [Waits, at_] at waits
  case asleep n job =>
    obtain ⟨_, before, _, opening, _, _, none | ⟨_, _, _, rfl⟩⟩ := waits
    · simp [Waits, io, at_, Io.wake, count, before, wakes, none, done]
    · exact absurd (opening state) (by simp)
  case abAsleep n => exact absurd state waits.2.2.2.2
  case broken n => exact absurd state (waits there).2.2.1
  all_goals exact absurd state (waits there).2.2.2.2

theorem waits_bounce {pr : Portref} (waits : pr.Waits) (key : MsgKey) : (pr.bounce key).Waits := by
  simp only [bounce]
  split
  · exact waits_setSent waits rfl
  · cases at_ : pr.io <;>
      exact waits_of_gone rfl (by simp [vIowait, setSent, at_, Io.wake])
        (by simp [vIowait, setSent, at_, Io.wake])

theorem waits_closeClient {pr : Portref} (waits : pr.Waits) : pr.closeClient.Waits := by
  cases at_ : pr.io <;> simp only [Waits, at_] at waits
  case asleep n job =>
    have sleeper : pr.pIowait < 0 := by omega
    exact waits_of_gone (by simp [closeClient, sleeper, vIowait])
      (by simp [closeClient, sleeper, vIowait, at_, Io.wake])
      (by simp [closeClient, sleeper, vIowait, at_, Io.wake])
  case abAsleep n =>
    have sleeper : pr.pIowait < 0 := by omega
    exact waits_of_gone (by simp [closeClient, sleeper, vIowait])
      (by simp [closeClient, sleeper, vIowait, at_, Io.wake])
      (by simp [closeClient, sleeper, vIowait, at_, Io.wake])
  all_goals
    simp only [closeClient]
    split <;> exact waits_of_gone rfl (by simp [vIowait, at_, Io.wake])
      (by simp [vIowait, at_, Io.wake])

theorem waits_shut {pr after : Portref} (waits : pr.Waits) (port : after.pPort = pr.pPort)
    (io : after.io = pr.io) (count : after.pIowait = pr.pIowait)
    (wakes : after.dupWakes = pr.dupWakes) (closing : after.pState = .PS_CLOSING)
    (sent : ∀ n, after.sent (.sm n) = pr.sent (.sm n)) : after.Waits := by
  cases at_ : pr.io <;> simp only [Waits, at_] at waits <;>
    simp only [Waits, io, at_, port, count, wakes, closing, sent]
  case asleep n job =>
    exact ⟨waits.1, waits.2.1, by simp, by simp, by simp, waits.2.2.2.2.2⟩
  case abAsleep n => exact ⟨waits.1, waits.2.1, waits.2.2.1, by simp, by simp⟩
  case broken n => exact fun there => ⟨(waits there).1, by simp, by simp, by simp⟩
  all_goals exact fun there => ⟨(waits there).1, (waits there).2.1, by simp [PState.Settled]⟩

end Portref

/-- What a step does to a connection keeps its count. -/
theorem waits_prStep {s : Kernel} {action : Action} {id : PrId} {pr : Portref}
    (waits : (s.prs id).Waits) (answers : AnswersPending s action)
    (change : PrStep s action id pr) : pr.Waits := by
  cases change with
  | same => exact waits
  | line => exact waits
  | unline => exact waits
  | post idle there _ job_ne _ user _ =>
      refine Portref.waits_post waits idle (by simp [there]) job_ne fun dup => ?_
      obtain ⟨user, _⟩ | ⟨newpr, rfl, _⟩ := user
      · rw [dup] at user
        exact absurd user (by decide)
      · exact ⟨newpr, rfl⟩
  | born => exact fun _ => ⟨rfl, rfl, by simp [PState.Settled]⟩
  | connecting =>
      simp [Portref.Waits, Portref.connecting, Portref.pSemaIowait, Portref.setSent,
        Portref.alloc, Portref.unborn]
  | event at_ => exact Portref.waits_event waits at_
  | giveUp _ at_ state _ => exact Portref.waits_giveUp waits at_ state
  | abort _ at_ state there _ => exact Portref.waits_abort waits at_ state (by simp [there])
  | raced at_ state => exact Portref.waits_raced waits at_ state
  | collect _ at_ => exact Portref.waits_collect waits at_ _
  | aborted at_ =>
      simp only [Portref.Waits, at_] at waits
      exact waits
  | out1 at_ => exact Portref.waits_out1 waits at_
  | kernOut at_ _ =>
      simp only [Portref.Waits, at_] at waits
      exact waits
  | release _ at_ =>
      simp only [Portref.Waits, at_] at waits
      exact waits
  | handed => exact waits
  | connectFails _ at_ _ =>
      simp only [Portref.Waits, at_] at waits
      exact waits
  | connected _ at_ _ _ =>
      simp only [Portref.Waits, at_] at waits
      exact waits
  | fork => exact waits
  | unref => exact waits
  | free => exact waits
  | shut => exact Portref.waits_shut waits rfl rfl rfl rfl rfl (by simp [Portref.setSent])
  | receive => exact Portref.waits_setSent waits rfl
  | hashed => exact Portref.waits_setSent waits rfl
  | deleted => exact waits
  | smToM =>
      simp only [Portref.smToM]
      split <;> exact Portref.waits_setSent waits rfl
  | answer act known state has _ =>
      subst act
      exact Portref.waits_answer waits _ state fun there => answers known state there _ has
  | acceptDup act known state has dup there =>
      subst act
      have there : (s.prs id).pPort ≠ none := by simp [there]
      exact Portref.waits_acceptDup waits _ _ state there (answers known state there _ has) dup.1
  | abortDone _ _ state _ => exact Portref.waits_abortDone waits state
  | dupWake _ pending => exact Portref.waits_dupWake waits pending
  | dupWoken => exact waits
  | dupHash => exact waits
  | reject act known state has _ =>
      subst act
      exact Portref.waits_reject waits state fun there => answers known state there _ has
  | refuseOpen _ _ state _ _ =>
      exact Portref.waits_opened waits state rfl rfl rfl rfl (by simp [Portref.refuseOpen,
        Portref.vIowait, PState.Settled])
  | accept _ _ state =>
      exact Portref.waits_opened waits state rfl rfl rfl rfl (by simp [Portref.accept,
        Portref.vIowait, PState.Settled])
  | bounce => exact Portref.waits_bounce waits _
  | closeClient => exact Portref.waits_closeClient waits

/-- In a run whose answers are to the messages that are waited for, every connection's
count agrees with its thread. -/
theorem waits_reaches {s : Kernel}
    (run : Transition.Reaches Step AnswersPending Kernel.boot s) (id : PrId) :
    (s.prs id).Waits :=
  run.invariant (fun _ => Portref.waits_unborn)
    (fun _ _ _ waits answers step => fun id =>
      waits_prStep (waits id) answers ((step_changes step).prs id)) id

/-- A test of `Portref.Pending`. -/
def Portref.pending (pr : Portref) : MsgKey → Bool
  | .sm n => match pr.io with
    | .asleep m _ | .broken m => decide (n = m)
    | _ => false
  | _ => false

theorem Portref.pending_sound {pr : Portref} {om : MsgKey} (test : pr.pending om = true) :
    pr.Pending om := by
  cases om with
  | sm n =>
      cases at_ : pr.io with
      | asleep m job =>
          simp only [pending, at_, decide_eq_true_eq] at test
          exact ⟨n, rfl, .inr ⟨job, test ▸ at_⟩⟩
      | broken m =>
          simp only [pending, at_, decide_eq_true_eq] at test
          exact ⟨n, rfl, .inl (test ▸ at_)⟩
      | _ => simp [pending, at_] at test
  | _ => simp [pending] at test

/-- A test of `AnswersPending`. -/
def answersPending (s : Kernel) : Action → Bool
  | .msgReply _ id _ | .msgErr _ id => (s.prs id).pMsg.all fun om =>
      (s.prs id).pState ≠ .PS_IOWAIT || (s.prs id).pending om
  | _ => true

theorem answersPending_sound {s : Kernel} {action : Action}
    (test : answersPending s action = true) : AnswersPending s action := by
  cases action with
  | msgReply p id r =>
      intro _ state _ om has
      exact Portref.pending_sound (by simpa [answersPending, has, state] using test)
  | msgErr p id =>
      intro _ state _ om has
      exact Portref.pending_sound (by simpa [answersPending, has, state] using test)
  | _ => trivial

end Vsta.Msg
