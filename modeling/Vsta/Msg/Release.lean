import Vsta.Msg.Queued

/-!
# A server that waits for its segments to be copied

A server that replies with segments sleeps on `p_svwait` until the client has copied
them. The client lets it go at `out1` if `m_nseg` of its message is not zero: the field
holds the reply's count once the segments are copied, and before that the count of the
request, as `msg_receive` left it. A request without segments that is answered by
segments and an error, or by segments the client cannot map, comes to `out1` with a zero
and leaves the server asleep (`out1_leaves_server`).

In every run that meets `LetsGo` nobody is left (`server_released`): the thread of the
request is on its way to a V as long as a server sleeps (`Portref.Serves`).
-/

set_option autoImplicit false

namespace Vsta.Msg

/-- The message `om` is the one the thread of the connection takes an answer from. -/
def Portref.Listens (pr : Portref) (om : MsgKey) : Prop :=
  ∃ n, om = .sm n ∧ (pr.io = .broken n ∨
    ∃ job, job ≠ .connect ∧ (pr.io = .asleep n job ∨ pr.io = .woken n job))

/-- A reply with segments is to the message that is waited for; `msg_receive` is done with
that message by then; and a sender whose message came with no segments takes the segments
of the reply. -/
def LetsGo (s : Kernel) : Action → Prop
  | .msgReply p id r => r.nseg ≠ 0 → s.prefs p id = true → (s.prs id).pState = .PS_IOWAIT →
      ∀ om, (s.prs id).pMsg = some om → (((s.prs id).sent om).op = M_DUP → r.arg = -1) →
        (s.prs id).Listens om
  | .deliver port _ => ∀ id key, (s.ports port).recv = .deliver (.of id key) →
      key ∉ (s.prs id).svSleepers
  | .sendWoken id copy => ∀ n, (s.prs id).io = .woken n .send → (s.prs id).svSleepers ≠ [] →
      ((s.prs id).sent (.sm n)).nseg ≠ 0 → ((s.prs id).sent (.sm n)).mNseg = 0 →
        ((s.prs id).sent (.sm n)).arg ≠ -1 ∧ copy ≠ .mapFails
  | _ => True

namespace Portref

/-- The thread of request `n` is on its way to a V on `p_svwait`. -/
def Releases (pr : Portref) (n : Nat) : Prop :=
  match pr.io with
  | .woken m job => m = n ∧ job ≠ .connect ∧
      (job = .send → (pr.sent (.sm n)).nseg ≠ 0 ∨ (pr.sent (.sm n)).mNseg ≠ 0)
  | .broken m => m = n ∧ (pr.pState = .PS_IODONE ∨ pr.pState = .PS_CLOSING)
  | .out1 m _ => m = n ∧ (pr.sent (.sm n)).mNseg ≠ 0
  | _ => False

/-- At most one server sleeps on `p_svwait`, and then it will be released. -/
def Serves (pr : Portref) : Prop :=
  pr.svSleepers = [] ∨ ∃ n, pr.svSleepers = [.sm n] ∧ pr.pSvwait = -1 ∧
    pr.pState ≠ .PS_IOWAIT ∧ pr.Releases n

theorem serves_of_nil {pr : Portref} (none : pr.svSleepers = []) : pr.Serves := .inl none

/-- Nobody sleeps on `p_svwait` while the thread is not on its way to a V. -/
theorem Serves.nil_of_not_releases {pr : Portref} (serves : pr.Serves)
    (not : ∀ n, ¬pr.Releases n) : pr.svSleepers = [] := by
  rcases serves with none | ⟨n, _, _, _, releases⟩
  · exact none
  · exact absurd releases (not n)

theorem Serves.nil_of_iowait {pr : Portref} (serves : pr.Serves)
    (state : pr.pState = .PS_IOWAIT) : pr.svSleepers = [] := by
  rcases serves with none | ⟨_, _, _, state_ne, _⟩
  · exact none
  · exact absurd state state_ne

/-- A section that leaves the thread and the sleeper's message. -/
theorem serves_still {pr after : Portref} (serves : pr.Serves)
    (sleepers : after.svSleepers = pr.svSleepers) (count : after.pSvwait = pr.pSvwait)
    (io : after.io = pr.io ∨ after.io = pr.io.wake)
    (state : pr.pState ≠ .PS_IOWAIT → after.pState ≠ .PS_IOWAIT)
    (broken : ∀ n, pr.io = .broken n → pr.pState = .PS_IODONE ∨ pr.pState = .PS_CLOSING →
      after.pState = .PS_IODONE ∨ after.pState = .PS_CLOSING)
    (sent : ∀ n, .sm n ∈ pr.svSleepers →
      ((pr.sent (.sm n)).nseg ≠ 0 → (after.sent (.sm n)).nseg ≠ 0) ∧
        (after.sent (.sm n)).mNseg = (pr.sent (.sm n)).mNseg) : after.Serves := by
  rcases serves with none | ⟨n, one, sleeping, iowait, releases⟩
  · exact .inl (sleepers.trans none)
  refine .inr ⟨n, sleepers.trans one, count.trans sleeping, state iowait, ?_⟩
  obtain ⟨nseg, mNseg⟩ := sent n (by simp [one])
  cases at_ : pr.io <;> simp only [Releases, at_] at releases
  case woken m job =>
    have same : after.io = .woken m job := by
      rcases io with io | io <;> simp [io, at_, Io.wake]
    simp only [Releases, same, mNseg]
    exact ⟨releases.1, releases.2.1, fun send => (releases.2.2 send).imp_left nseg⟩
  case broken m =>
    have same : after.io = .broken m := by
      rcases io with io | io <;> simp [io, at_, Io.wake]
    simp only [Releases, same]
    exact ⟨releases.1, broken m at_ releases.2⟩
  case out1 m error =>
    have same : after.io = .out1 m error := by
      rcases io with io | io <;> simp [io, at_, Io.wake]
    simp only [Releases, same, mNseg]
    exact releases

theorem serves_raced {pr : Portref} (serves : pr.Serves) (n : Nat) : (pr.raced n).Serves := by
  refine .inl ?_
  rcases serves with none | ⟨k, one, sleeping, _⟩
  · simp only [raced]
    split <;> simp [vSvwait, none]
  · simp [raced, sleeping, vSvwait, one]

theorem serves_collect {pr : Portref} (serves : pr.Serves) {n : Nat}
    (at_ : pr.io = .woken n .send) {copy : Copy}
    (takes : pr.svSleepers ≠ [] → (pr.sent (.sm n)).nseg ≠ 0 → (pr.sent (.sm n)).mNseg = 0 →
      (pr.sent (.sm n)).arg ≠ -1 ∧ copy ≠ .mapFails) : (pr.collect n copy).Serves := by
  rcases serves with none | ⟨k, one, sleeping, iowait, releases⟩
  · exact .inl (by simpa using none)
  simp only [Releases, at_] at releases
  obtain ⟨rfl, _, segs⟩ := releases
  have takes := takes (by simp [one])
  refine .inr ⟨n, by simpa using one, by simpa using sleeping, by simpa using iowait, ?_⟩
  simp only [collect]
  split
  · rename_i error
    refine ⟨rfl, fun zero => ?_⟩
    rcases segs trivial with nseg | mNseg
    · exact (takes nseg zero).1 error
    · exact mNseg zero
  · split
    · rename_i none
      exact ⟨rfl, (segs trivial).resolve_left (not_not.mpr none)⟩
    · rename_i nseg
      cases copy with
      | mapFails => exact ⟨rfl, fun zero => (takes nseg zero).2 rfl⟩
      | copyFails => exact ⟨rfl, by simpa [setSent] using nseg⟩
      | copied => exact ⟨rfl, by simpa [setSent] using nseg⟩

theorem serves_out1 {pr : Portref} (serves : pr.Serves) {n : Nat} {error : Bool}
    (at_ : pr.io = .out1 n error) : (pr.out1 n error).svSleepers = [] := by
  rcases serves with none | ⟨k, one, _, _, releases⟩
  · simp only [out1]
    split <;> simp [vSvwait, none]
  · simp only [Releases, at_] at releases
    obtain ⟨rfl, mNseg⟩ := releases
    simp [out1, mNseg, vSvwait, one]

theorem serves_kernOut {pr : Portref} (serves : pr.Serves) (n : Nat) (job : Job) :
    (pr.kernOut n job).svSleepers = [] := by
  rcases serves with none | ⟨k, one, _⟩
  · simp [kernOut, vSvwait, none]
  · simp [kernOut, vSvwait, one]

theorem serves_answer {pr : Portref} (serves : pr.Serves) {om : MsgKey} {r : Reply}
    (state : pr.pState = .PS_IOWAIT) (listens : r.nseg ≠ 0 → pr.Listens om) :
    (pr.answer om r).Serves := by
  have none := serves.nil_of_iowait state
  by_cases segs : r.nseg = 0
  · exact .inl (by simp [answer, segs, vIowait, setSent, none])
  obtain ⟨n, rfl, hears⟩ := listens segs
  refine .inr ⟨n, ?_, ?_, by simp, ?_⟩
  · simp [answer, segs, vIowait, pSemaSvwait, setSent, none]
  · simp [answer, segs, vIowait, pSemaSvwait, setSent]
  · rcases hears with at_ | ⟨job, job_ne, at_ | at_⟩ <;>
      simp [Releases, at_, Io.wake, segs]
    · exact job_ne
    · exact job_ne

end Portref

/-- What a step does to a connection keeps the sleeper's thread on its way. -/
theorem serves_prStep {s : Kernel} {action : Action} {id : PrId} {pr : Portref}
    (serves : (s.prs id).Serves) (letsGo : LetsGo s action)
    (read : ∀ key, key ∈ (s.prs id).svSleepers → ∀ port, .of id key ∉ (s.ports port).unread)
    (change : PrStep s action id pr) : pr.Serves := by
  have still : ∀ {after : Portref}, after.svSleepers = (s.prs id).svSleepers →
      after.pSvwait = (s.prs id).pSvwait → after.io = (s.prs id).io →
        after.pState = (s.prs id).pState →
          (∀ n, .sm n ∈ (s.prs id).svSleepers →
            (((s.prs id).sent (.sm n)).nseg ≠ 0 → (after.sent (.sm n)).nseg ≠ 0) ∧
              (after.sent (.sm n)).mNseg = ((s.prs id).sent (.sm n)).mNseg) → after.Serves :=
    fun sleepers count io state sent => Portref.serves_still serves sleepers count (.inl io)
      (by rw [state]; exact fun h => h) (by rw [state]; exact fun _ _ h => h) sent
  have frame : ∀ {after : Portref}, after.svSleepers = (s.prs id).svSleepers →
      after.pSvwait = (s.prs id).pSvwait → after.io = (s.prs id).io →
        after.pState = (s.prs id).pState → after.sent = (s.prs id).sent → after.Serves :=
    fun sleepers count io state sent => still sleepers count io state fun n _ => by
      rw [sent]
      exact ⟨fun h => h, rfl⟩
  -- no server sleeps while the thread is elsewhere
  have elsewhere : (∀ n, ¬(s.prs id).Releases n) → ∀ {after : Portref},
      after.svSleepers = (s.prs id).svSleepers → after.Serves :=
    fun not _ sleepers => .inl (sleepers.trans (serves.nil_of_not_releases not))
  cases change with
  | same => exact serves
  | line => exact frame rfl rfl rfl rfl rfl
  | unline => exact frame rfl rfl rfl rfl rfl
  | post idle => exact elsewhere (by simp [Portref.Releases, idle]) rfl
  | born => exact .inl rfl
  | connecting => exact .inl rfl
  | event at_ => exact elsewhere (by simp [Portref.Releases, at_]) rfl
  | giveUp _ _ state _ => exact .inl (serves.nil_of_iowait state)
  | abort _ _ state _ _ => exact .inl (serves.nil_of_iowait state)
  | raced => exact Portref.serves_raced serves _
  | collect act at_ =>
      subst act
      exact Portref.serves_collect serves at_ (letsGo _ at_)
  | aborted at_ => exact elsewhere (by simp [Portref.Releases, at_]) rfl
  | out1 at_ => exact .inl (Portref.serves_out1 serves at_)
  | kernOut => exact .inl (Portref.serves_kernOut serves _ _)
  | release _ at_ => exact elsewhere (by simp [Portref.Releases, at_]) rfl
  | handed => exact frame rfl rfl rfl rfl rfl
  | connectFails _ at_ _ => exact elsewhere (by simp [Portref.Releases, at_]) rfl
  | connected _ at_ _ _ => exact elsewhere (by simp [Portref.Releases, at_]) rfl
  | fork => exact frame rfl rfl rfl rfl rfl
  | unref => exact frame rfl rfl rfl rfl rfl
  | free => exact frame rfl rfl rfl rfl rfl
  | shut =>
      exact Portref.serves_still serves rfl rfl (.inl rfl) (by simp) (by simp)
        (by simp [Portref.setSent])
  | receive =>
      refine still rfl rfl rfl rfl fun n _ => ?_
      by_cases here : MsgKey.sm n = ‹MsgKey›
      · simp [Portref.receive, Portref.setSent, here]
      · simp [Portref.receive, Portref.setSent, here]
  | hashed =>
      refine still rfl rfl rfl rfl fun n _ => ?_
      by_cases here : MsgKey.sm n = ‹MsgKey›
      · simp [Portref.setSent, here]
      · simp [Portref.setSent, here]
  | deleted => exact frame rfl rfl rfl rfl rfl
  | @smToM port key mapped act at_ =>
      subst act
      refine still (by simp) (by simp) (by simp) (by simp) fun n sleeper => ?_
      have other : MsgKey.sm n ≠ key := by
        rintro rfl
        exact letsGo id _ at_ sleeper
      simp only [Portref.smToM]
      split <;> simp [Portref.setSent, other]
  | answer act known state has plain =>
      subst act
      refine Portref.serves_answer serves state fun segs => letsGo segs known state _ has ?_
      intro dup
      exact not_not.mp fun arg => plain ⟨dup, arg⟩
  | acceptDup _ _ state _ _ _ => exact .inl (serves.nil_of_iowait state)
  | abortDone _ _ state _ =>
      refine Portref.serves_still serves rfl rfl (.inr rfl) (by simp [Portref.abortDone,
        Portref.vIowait]) (fun _ _ => by simp [state]) fun _ _ => ⟨fun h => h, rfl⟩
  | dupWake =>
      exact Portref.serves_still serves rfl rfl (.inr rfl) (fun h => h) (fun _ _ h => h)
        fun _ _ => ⟨fun h => h, rfl⟩
  | dupWoken => exact frame rfl rfl rfl rfl rfl
  | dupHash => exact frame rfl rfl rfl rfl rfl
  | reject _ _ state _ _ => exact .inl (serves.nil_of_iowait state)
  | refuseOpen _ _ state _ _ =>
      refine Portref.serves_still serves rfl rfl (.inr rfl) (by simp [Portref.refuseOpen,
        Portref.vIowait]) (fun _ _ => by simp [state]) fun _ _ => ⟨fun h => h, rfl⟩
  | accept _ _ state =>
      refine Portref.serves_still serves rfl rfl (.inr rfl) (by simp [Portref.accept,
        Portref.vIowait]) (fun _ _ => by simp [state]) fun _ _ => ⟨fun h => h, rfl⟩
  | @bounce port key rest _ at_ =>
      have unread : .of id key ∈ (s.ports port).unread := by
        simp [Port.unread, at_, Recv.bouncing]
      refine Portref.serves_still serves (by simp) (by simp) ?_ (by simp) (by simp)
        fun n sleeper => ?_
      · rcases Portref.bounce_wake (s.prs id) key with ⟨_, io, _⟩ | ⟨_, io, _⟩
        · exact .inl io
        · exact .inr io
      · have other : MsgKey.sm n ≠ key := by
          rintro rfl
          exact read _ sleeper port unread
        simp only [Portref.bounce]
        split <;> simp [Portref.setSent, Portref.vIowait, other]
  | closeClient =>
      refine Portref.serves_still serves (by simp) (by simp) ?_ (by simp) (by simp) (by simp)
      have io := Portref.closeClient_wake (s.prs id)
      split at io
      · exact .inr io
      · exact .inl io

/-- A server sleeps for a message that it replied to: one that was posted, and that nobody
will receive again. -/
def Kernel.Slept (s : Kernel) : Prop :=
  ∀ id key, key ∈ (s.prs id).svSleepers →
    (s.prs id).Posted key ∧ ∀ port, .of id key ∉ (s.ports port).unread

/-- A new sleeper has replied with segments to what is in `p_msg`. -/
theorem svSleepers_prStep {s : Kernel} {action : Action} {id : PrId} {pr : Portref}
    (change : PrStep s action id pr) {key : MsgKey} (sleeper : key ∈ pr.svSleepers) :
    key ∈ (s.prs id).svSleepers ∨ (s.prs id).pMsg = some key := by
  cases change with
  | born => simp [Portref.alloc, Portref.unborn] at sleeper
  | connecting =>
      simp [Portref.connecting, Portref.pSemaIowait, Portref.setSent, Portref.alloc,
        Portref.unborn] at sleeper
  | raced =>
      refine .inl ?_
      simp only [Portref.raced] at sleeper
      split at sleeper
      · exact List.mem_of_mem_tail sleeper
      · exact sleeper
  | out1 =>
      refine .inl ?_
      simp only [Portref.out1] at sleeper
      split at sleeper
      · exact List.mem_of_mem_tail sleeper
      · exact sleeper
  | kernOut => exact .inl (List.mem_of_mem_tail sleeper)
  | @answer p om r _ _ _ has _ =>
      by_cases segs : r.nseg = 0
      · exact .inl (by simpa [Portref.answer, segs, Portref.vIowait, Portref.setSent] using sleeper)
      · have sleeper : key ∈ (s.prs id).svSleepers ∨ key = om := by
          simpa [Portref.answer, segs, Portref.pSemaSvwait, Portref.vIowait, Portref.setSent]
            using sleeper
        rcases sleeper with before | rfl
        · exact .inl before
        · exact .inr has
  | _ => first | exact .inl sleeper | exact .inl (by simpa using sleeper)

theorem slept_step {s t : Kernel} {action : Action} (queues : s.Queues) (taken : s.Taken)
    (slept : s.Slept) (step : Step s action t) : t.Slept := by
  intro id key sleeper
  have changes := step_changes step
  have sleeping : (s.prs id).Posted key ∧ ∀ port, .of id key ∉ (s.ports port).unread := by
    rcases svSleepers_prStep (changes.prs id) sleeper with before | has
    · exact slept id key before
    · exact ⟨taken.posted id key has, fun port => taken.read id key port has⟩
  obtain ⟨posted, gone⟩ := sleeping
  refine ⟨posted_prStep (queues.numbered id) (changes.prs id) posted, fun port unread => ?_⟩
  rcases mem_unread_portStep (changes.ports port) unread with before | enters
  · exact gone port before
  · exact (posted_of_enters step (queues.numbered id) enters).1 posted

theorem slept_reaches {s : Kernel} {guard : Kernel → Action → Prop}
    (run : Transition.Reaches Step guard Kernel.boot s) : s.Slept :=
  run.invariant_on_run (by simp [Kernel.Slept, Kernel.boot, Portref.unborn])
    fun _ _ _ before slept _ step =>
      slept_step (queues_reaches before) (taken_reaches before) slept step

theorem serves_reaches {s : Kernel} (run : Transition.Reaches Step LetsGo Kernel.boot s)
    (id : PrId) : (s.prs id).Serves :=
  run.invariant_on_run (fun _ => .inl rfl)
    (fun _ _ _ before serves letsGo step => fun id =>
      serves_prStep (serves id) letsGo (fun key sleeper => (slept_reaches before id key sleeper).2)
        ((step_changes step).prs id)) id

/-- **A replying server is released.** Once the thread of a request has given up the
connection, no server sleeps for that request. -/
theorem server_released {s : Kernel} (run : Transition.Reaches Step LetsGo Kernel.boot s)
    (d : Done) (returned : d ∈ s.done) : .sm d.n ∉ (s.prs d.pr).svSleepers := by
  intro sleeper
  have finished := (returned_reaches run d returned).2
  rcases serves_reaches run d.pr with none | ⟨n, one, _, _, releases⟩
  · simp [none] at sleeper
  rw [one, List.mem_singleton, MsgKey.sm.injEq] at sleeper
  subst sleeper
  cases at_ : (s.prs d.pr).io <;> simp only [Portref.Releases, at_] at releases
  all_goals
    rw [at_] at finished
    exact finished (by rw [Io.req, releases.1])

/-- A test of the guard: the sender takes the segments it is sent. -/
def letsGo (s : Kernel) : Action → Bool
  | .msgReply _ id _ => (s.prs id).pMsg.all fun om =>
      match om, (s.prs id).io with
      | .sm n, .asleep m .send => n = m
      | _, _ => false
  | .deliver port _ => match (s.ports port).recv with
    | .deliver (.of id key) => key ∉ (s.prs id).svSleepers
    | _ => true
  | .sendWoken id copy => match (s.prs id).io with
    | .woken n .send => ((s.prs id).sent (.sm n)).arg ≠ -1 && copy = .copied
    | _ => true
  | _ => true

theorem letsGo_sound (s : Kernel) (action : Action) (test : letsGo s action = true) :
    LetsGo s action := by
  cases action with
  | msgReply p id r =>
      intro _ _ _ om has _
      simp only [letsGo, has, Option.all_some] at test
      split at test
      · rename_i n m at_ _
        obtain rfl : n = m := of_decide_eq_true test
        exact ⟨n, rfl, .inr ⟨.send, by simp, .inl at_⟩⟩
      · cases test
  | deliver port mapped =>
      intro id key at_
      simpa [letsGo, at_] using test
  | sendWoken id copy =>
      intro n at_ _ _ _
      have test : ((s.prs id).sent (.sm n)).arg ≠ -1 ∧ copy = .copied := by
        simpa [letsGo, at_] using test
      exact ⟨test.1, by simp [test.2]⟩
  | _ => trivial

/-- `msg_send()` of a request that reads. -/
def readRequest : Request := ⟨M_READ + 100, 0, 0, 0, 0⟩

/-- The server replies with a segment, and the client copies it. -/
theorem server_released_copied :
    ∃ s d, Transition.Reaches Step LetsGo Kernel.boot s ∧ d ∈ s.done ∧ d.replied = true ∧
      .sm d.n ∉ (s.prs d.pr).svSleepers := by
  obtain ⟨s, reached, d, member, replied⟩ := exists_of_runWith letsGo letsGo_sound
    (opening 0 0 0 ++ [.findPortref 0, .msgSend 0 readRequest, .findPort 0, .msgReceive 0,
      .deliver 0 true, .msgReply 0 0 ⟨0, 7, 0, 1⟩, .sendWoken 0 .copied, .sendOut1 0, .release 0])
    (fun s => ∃ d ∈ s.done, d.replied = true) (by decide +kernel)
  exact ⟨s, d, reached, member, replied, server_released reached d member⟩

/-- **A replying server is left asleep.** It answers a request without segments by an error
and a segment. -/
theorem out1_leaves_server :
    ∃ s d, Transition.Reaches Step Transition.Any Kernel.boot s ∧ d ∈ s.done ∧
      d.job = .send ∧ .sm d.n ∈ (s.prs d.pr).svSleepers := by
  obtain ⟨s, reached, d, member, holds⟩ := exists_of_runWith (fun _ _ => true)
    (fun _ _ _ => trivial)
    (opening 0 0 0 ++ [.findPortref 0, .msgSend 0 readRequest, .findPort 0, .msgReceive 0,
      .deliver 0 true, .msgReply 0 0 ⟨0, -1, 0, 1⟩, .sendWoken 0 .copied, .sendOut1 0, .release 0])
    (fun s => ∃ d ∈ s.done, d.job = .send ∧ .sm d.n ∈ (s.prs d.pr).svSleepers)
    (by decide +kernel)
  exact ⟨s, d, reached, member, holds⟩

end Vsta.Msg
