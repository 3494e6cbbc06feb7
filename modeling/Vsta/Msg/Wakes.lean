import Vsta.Msg.Lives

/-!
# What wakes a thread

The V's on `p_iowait` that a sleeping thread can be woken by, and what the thread of an
open or of a duplication finds when it runs again.
-/

set_option autoImplicit false

namespace Vsta.Msg

/-- The sections that V `p_iowait` of the portref. -/
inductive Wakes (s : Kernel) (action : Action) (id : PrId) : Portref → Prop where
  | answered {p : ProcId} {om : MsgKey} {r : Portref.Reply} (act : action = .msgReply p id r)
      (known : s.prefs p id = true) (state : (s.prs id).pState = .PS_IOWAIT)
      (has : (s.prs id).pMsg = some om)
      (plain : ¬(((s.prs id).sent om).op = M_DUP ∧ r.arg ≠ -1)) :
      Wakes s action id ((s.prs id).answer om r)
  | abortDone (state : (s.prs id).pState = .PS_ABWAIT) : Wakes s action id (s.prs id).abortDone
  | dupWake {newpr : PrId} {p : ProcId} (pending : (newpr, p) ∈ (s.prs id).dupWakes) :
      Wakes s action id ((s.prs id).dupWake newpr p)
  | rejected {p : ProcId} {om : MsgKey} (act : action = .msgErr p id)
      (known : s.prefs p id = true) (state : (s.prs id).pState = .PS_IOWAIT)
      (has : (s.prs id).pMsg = some om) (there : (s.prs id).pPort ≠ none) :
      Wakes s action id ((s.prs id).reject om)
  | refused {p : ProcId} (act : action = .msgErr p id) (known : s.prefs p id = true)
      (state : (s.prs id).pState = .PS_OPENING) : Wakes s action id (s.prs id).refuseOpen
  | accepted {p : ProcId} (act : action = .msgAccept p id) (known : s.prefs p id = true)
      (state : (s.prs id).pState = .PS_OPENING) : Wakes s action id (s.prs id).accept
  | bounced {port : PortId} {key : MsgKey} {rest : List MsgId} (act : action = .bounceMsg port)
      (at_ : (s.ports port).recv = .shut (.bouncing (.of id key :: rest)))
      (gone : ((s.prs id).bounce key).pPort = none) : Wakes s action id ((s.prs id).bounce key)
  | closed {port : PortId} {rest : List PrId} (at_ : (s.ports port).recv = .shut (.bouncing []))
      (first : (s.ports port).pRefs = id :: rest) : Wakes s action id (s.prs id).closeClient

/-- A thread that sleeps goes on sleeping, is interrupted, or is woken. -/
theorem asleep_prStep {s : Kernel} {action : Action} {id : PrId} {pr : Portref} {n : Nat}
    {job : Job} (at_ : (s.prs id).io = .asleep n job) (exists_ : (s.prs id).life ≠ .unallocated)
    (change : PrStep s action id pr) :
    pr.io = .asleep n job ∨ job = .send ∨ Wakes s action id pr := by
  cases change with
  | post idle => simp [at_] at idle
  | born _ fresh _ _ => exact absurd fresh exists_
  | connecting _ fresh _ => exact absurd fresh exists_
  | event here =>
      rw [at_, Io.asleep.injEq] at here
      exact .inr (.inl here.2)
  | giveUp _ here _ _ => simp [at_] at here
  | abort _ here _ _ _ => simp [at_] at here
  | raced here _ => simp [at_] at here
  | collect _ here => simp [at_] at here
  | aborted here => simp [at_] at here
  | out1 here => simp [at_] at here
  | kernOut here _ => simp [at_] at here
  | release _ here => simp [at_] at here
  | connectFails _ here _ => simp [at_] at here
  | connected _ here _ _ => simp [at_] at here
  | smToM => exact .inl (by simpa using at_)
  | answer act known state has plain => exact .inr (.inr (.answered act known state has plain))
  | abortDone _ _ state _ => exact .inr (.inr (.abortDone state))
  | dupWake _ pending => exact .inr (.inr (.dupWake pending))
  | reject act known state has there =>
      exact .inr (.inr (.rejected act known state has (by simp [there])))
  | refuseOpen act known state _ _ => exact .inr (.inr (.refused act known state))
  | accept act known state => exact .inr (.inr (.accepted act known state))
  | bounce act here =>
      rcases Portref.bounce_wake (s.prs id) ‹MsgKey› with ⟨_, io, _⟩ | ⟨gone, _⟩
      · exact .inl (io.trans at_)
      · exact .inr (.inr (.bounced act here gone))
  | closeClient _ here _ first => exact .inr (.inr (.closed here first))
  | _ => exact .inl at_

/-- A thread that was woken was so before, or was asleep and has been woken. -/
theorem woken_prStep {s : Kernel} {action : Action} {id : PrId} {pr : Portref}
    (waits : (s.prs id).Waits) (change : PrStep s action id pr) {n : Nat} {job : Job}
    (at_ : pr.io = .woken n job) :
    (s.prs id).io = .woken n job ∨ (s.prs id).io = .asleep n job ∧ Wakes s action id pr := by
  have wakes : ∀ {after : Portref}, after.io = (s.prs id).io.wake → after.io = .woken n job →
      Wakes s action id after →
        (s.prs id).io = .woken n job ∨ (s.prs id).io = .asleep n job ∧ Wakes s action id after := by
    intro after io at_ woken
    rw [io] at at_
    cases before : (s.prs id).io <;> rw [before] at at_ <;> cases at_
    · exact .inr ⟨rfl, woken⟩
    · exact .inl rfl
  cases change with
  | post idle there =>
      simp only [Portref.Waits, idle] at waits
      have count := (waits (by simp [there])).1
      simp [Portref.post, Portref.pSemaIowait, Portref.setSent, count] at at_
  | born => cases at_
  | connecting =>
      simp [Portref.connecting, Portref.pSemaIowait, Portref.setSent, Portref.alloc,
        Portref.unborn] at at_
  | event => cases at_
  | giveUp => cases at_
  | abort =>
      simp only [Portref.abort, Portref.pSemaIowait] at at_
      split at at_ <;> cases at_
  | raced => simp at at_
  | collect =>
      obtain ⟨error, out, _⟩ := Portref.collect_io (s.prs id) ‹Nat› ‹Portref.Copy›
      rw [out] at at_
      cases at_
  | aborted => cases at_
  | out1 => simp at at_
  | kernOut => cases at_
  | release => cases at_
  | connectFails => cases at_
  | connected => cases at_
  | smToM => exact .inl (by simpa using at_)
  | answer act known state has plain =>
      exact wakes (by simp) at_ (.answered act known state has plain)
  | abortDone _ _ state _ => exact wakes rfl at_ (.abortDone state)
  | dupWake _ pending => exact wakes rfl at_ (.dupWake pending)
  | reject act known state has there =>
      exact wakes rfl at_ (.rejected act known state has (by simp [there]))
  | refuseOpen act known state _ _ => exact wakes rfl at_ (.refused act known state)
  | accept act known state => exact wakes rfl at_ (.accepted act known state)
  | bounce act here =>
      rcases Portref.bounce_wake (s.prs id) ‹MsgKey› with ⟨_, io, _⟩ | ⟨gone, io, _⟩
      · exact .inl (io ▸ at_)
      · exact wakes io at_ (.bounced act here gone)
  | closeClient _ here _ first =>
      have io := Portref.closeClient_wake (s.prs id)
      split at io
      · exact wakes io at_ (.closed here first)
      · exact .inl (io ▸ at_)
  | _ => exact .inl at_

/-- A duplication that waits did so before, or is posted; it is accepted meanwhile at most. -/
theorem asleepDup_prStep {s : Kernel} {action : Action} {id : PrId} {pr : Portref}
    (change : PrStep s action id pr) {n : Nat} {newpr : PrId}
    (at_ : pr.io = .asleep n (.dup newpr)) :
    (s.prs id).io = .asleep n (.dup newpr) ∧ (pr.dupWakes = (s.prs id).dupWakes ∨
      ∃ p om r, action = .msgReply p id r ∧ s.prefs p id = true ∧
        (s.prs id).pState = .PS_IOWAIT ∧ (s.prs id).pMsg = some om ∧
        ((s.prs id).sent om).op = M_DUP ∧ (s.prs id).pPort ≠ none ∧
        pr.dupWakes = (s.prs id).dupWakes ++ [(((s.prs id).sent om).arg.toNat, p)]) ∨
    action = .dupPort id newpr ∧ (s.prs id).io = .idle ∧ (s.prs id).pPort ≠ none ∧
      n = (s.prs id).serial ∧ pr.dupWakes = (s.prs id).dupWakes := by
  have woken : ∀ {io : Io}, io.wake ≠ .asleep n (.dup newpr) := by
    intro io
    cases io <;> simp [Io.wake]
  cases change with
  | @post job m _ idle there _ _ _ _ send =>
      have job' := Portref.post_job (s.prs id) job m
      have req := Portref.post_req (s.prs id) job m
      rw [at_, Io.job, Option.some.injEq] at job'
      rw [at_, Io.req, Option.some.injEq] at req
      exact .inr ⟨(send newpr job'.symm).2.2, idle, by simp [there], req, rfl⟩
  | born => cases at_
  | connecting =>
      simp only [Portref.connecting, Portref.pSemaIowait] at at_
      split at at_ <;> cases at_
  | event => cases at_
  | giveUp => cases at_
  | abort =>
      simp only [Portref.abort, Portref.pSemaIowait] at at_
      split at at_ <;> cases at_
  | raced => simp at at_
  | collect =>
      obtain ⟨error, out, _⟩ := Portref.collect_io (s.prs id) ‹Nat› ‹Portref.Copy›
      rw [out] at at_
      cases at_
  | aborted => cases at_
  | out1 => simp at at_
  | kernOut => cases at_
  | release => cases at_
  | connectFails => cases at_
  | connected => cases at_
  | smToM => exact .inl ⟨by simpa using at_, .inl (by simp)⟩
  | answer => exact absurd (by simpa using at_) woken
  | acceptDup act known state has dup there =>
      exact .inl ⟨at_, .inr ⟨_, _, _, act, known, state, has, dup.1, by simp [there], rfl⟩⟩
  | abortDone => exact absurd at_ woken
  | dupWake => exact absurd at_ woken
  | reject => exact absurd at_ woken
  | refuseOpen => exact absurd at_ woken
  | accept => exact absurd at_ woken
  | bounce =>
      rcases Portref.bounce_wake (s.prs id) ‹MsgKey› with ⟨_, io, _⟩ | ⟨_, io, _⟩
      · exact .inl ⟨io ▸ at_, .inl (by simp)⟩
      · exact absurd (io.symm.trans at_) woken
  | closeClient =>
      have io := Portref.closeClient_wake (s.prs id)
      split at io
      · exact absurd (io.symm.trans at_) woken
      · exact .inl ⟨io ▸ at_, .inl (by simp)⟩
  | _ => exact .inl ⟨at_, .inl rfl⟩

/-- A thread is about to hand out a duplicate because it was, or because it comes from its
sleep and has looked at the answer. -/
theorem releaseDup_prStep {s : Kernel} {action : Action} {id : PrId} {pr : Portref}
    (change : PrStep s action id pr) {n : Nat} {newpr : PrId} {error : Bool}
    (at_ : pr.io = .release n (.dup newpr) error) :
    (s.prs id).io = .release n (.dup newpr) error ∨ (s.prs id).io = .woken n (.dup newpr) ∧
      error = decide (((s.prs id).sent (.sm n)).arg = -1) := by
  have wakes : ∀ {io : Io}, io.wake = .release n (.dup newpr) error →
      io = .release n (.dup newpr) error := by
    intro io
    cases io <;> simp [Io.wake]
  cases change with
  | post =>
      simp only [Portref.post, Portref.pSemaIowait] at at_
      split at at_ <;> cases at_
  | born => cases at_
  | connecting =>
      simp only [Portref.connecting, Portref.pSemaIowait] at at_
      split at at_ <;> cases at_
  | event => cases at_
  | giveUp => cases at_
  | abort =>
      simp only [Portref.abort, Portref.pSemaIowait] at at_
      split at at_ <;> cases at_
  | raced => simp at at_
  | collect =>
      obtain ⟨error, out, _⟩ := Portref.collect_io (s.prs id) ‹Nat› ‹Portref.Copy›
      rw [out] at at_
      cases at_
  | aborted => cases at_
  | out1 => simp at at_
  | kernOut here _ =>
      cases at_
      exact .inr ⟨here, rfl⟩
  | release => cases at_
  | connectFails => cases at_
  | connected => cases at_
  | smToM => exact .inl (by simpa using at_)
  | answer => exact .inl (wakes (by simpa using at_))
  | abortDone => exact .inl (wakes at_)
  | dupWake => exact .inl (wakes at_)
  | reject => exact .inl (wakes at_)
  | refuseOpen => exact .inl (wakes at_)
  | accept => exact .inl (wakes at_)
  | bounce =>
      rcases Portref.bounce_wake (s.prs id) ‹MsgKey› with ⟨_, io, _⟩ | ⟨_, io, _⟩
      · exact .inl (io ▸ at_)
      · exact .inl (wakes (io ▸ at_))
  | closeClient =>
      have io := Portref.closeClient_wake (s.prs id)
      split at io
      · exact .inl (wakes (io ▸ at_))
      · exact .inl (io ▸ at_)
  | _ => exact .inl at_

/-- Nobody answers a connection that is settled. -/
theorem settled_prStep {s : Kernel} {action : Action} {id : PrId} {pr : Portref}
    (settled : (s.prs id).pState.Settled) (busy : (s.prs id).io ≠ .idle)
    (awake : ∀ n, (s.prs id).io ≠ .broken n) (exists_ : (s.prs id).life ≠ .unallocated)
    (open_ : (s.prs id).shutting = false) (change : PrStep s action id pr) :
    pr.pState = (s.prs id).pState := by
  cases change with
  | post idle => exact absurd idle busy
  | born _ fresh _ _ => exact absurd fresh exists_
  | connecting _ fresh _ => exact absurd fresh exists_
  | giveUp _ at_ _ _ => exact absurd at_ (awake _)
  | abort _ at_ _ _ _ => exact absurd at_ (awake _)
  | raced => simp
  | collect => simp
  | out1 => simp
  | shut _ shutting _ => simp [open_] at shutting
  | smToM => simp
  | answer _ _ state _ _ => exact absurd state settled.1
  | acceptDup _ _ state _ _ _ => exact absurd state settled.1
  | abortDone _ _ state _ => exact absurd state settled.2.1
  | reject _ _ state _ _ => exact absurd state settled.1
  | refuseOpen _ _ state _ _ => exact absurd state settled.2.2
  | accept _ _ state => exact absurd state settled.2.2
  | bounce => simp
  | closeClient => simp
  | _ => rfl

/-- The state of an open that goes on sleeping does not change. -/
theorem opening_of_asleep {s : Kernel} {action : Action} {id : PrId} {pr : Portref} {n : Nat}
    (lives : s.Lives) (opening : ∀ n, (s.prs id).io = .asleep n .connect →
      (s.prs id).pState = .PS_OPENING) (change : PrStep s action id pr)
    (at_ : pr.io = .asleep n .connect) : pr.pState = .PS_OPENING := by
  have woken : ∀ {io : Io}, io.wake ≠ .asleep n .connect := by
    intro io
    cases io <;> simp [Io.wake]
  cases change with
  | post _ _ _ job_ne _ _ _ =>
      have job := Portref.post_job (s.prs id) ‹Job› ‹Sysmsg›
      rw [at_, Io.job, Option.some.injEq] at job
      exact absurd job.symm job_ne
  | born => cases at_
  | connecting => rfl
  | event => cases at_
  | giveUp => cases at_
  | abort =>
      simp only [Portref.abort, Portref.pSemaIowait] at at_
      split at at_ <;> cases at_
  | raced => simp at at_
  | collect =>
      obtain ⟨error, out, _⟩ := Portref.collect_io (s.prs id) ‹Nat› ‹Portref.Copy›
      rw [out] at at_
      cases at_
  | aborted => cases at_
  | out1 => simp at at_
  | kernOut => cases at_
  | release => cases at_
  | connectFails => cases at_
  | connected => cases at_
  | shut _ shutting _ =>
      have at_ : (s.prs id).io = .asleep n .connect := at_
      have life := (lives.connect id (by rw [at_, Io.job])).1
      exact absurd ((lives.closing id shutting).symm.trans life) (by simp)
  | smToM => simpa using opening n (by simpa using at_)
  | answer => exact absurd (by simpa using at_) woken
  | acceptDup _ _ state _ _ _ =>
      exact absurd (state.symm.trans (opening n at_)) (by simp)
  | abortDone => exact absurd at_ woken
  | dupWake => exact absurd at_ woken
  | reject => exact absurd at_ woken
  | refuseOpen => exact absurd at_ woken
  | accept => exact absurd at_ woken
  | bounce =>
      rcases Portref.bounce_wake (s.prs id) ‹MsgKey› with ⟨_, io, _⟩ | ⟨_, io, _⟩
      · simpa using opening n (io ▸ at_)
      · exact absurd (io.symm.trans at_) woken
  | closeClient =>
      have io := Portref.closeClient_wake (s.prs id)
      split at io
      · exact absurd (io.symm.trans at_) woken
      · simpa using opening n (io ▸ at_)
  | _ => exact opening n at_

/-- A duplicate that has not been handed out does nothing. -/
theorem newborn_prStep {s : Kernel} {action : Action} {id : PrId} {pr : Portref} (lives : s.Lives)
    (newborn : (s.prs id).life = .opening → (s.prs id).parent ≠ none →
      (s.prs id).io = .idle ∧ (s.prs id).waiters = 0 ∧ (s.prs id).serial = 0)
    (change : PrStep s action id pr) (life : pr.life = .opening) (parent : pr.parent ≠ none) :
    pr.io = .idle ∧ pr.waiters = 0 ∧ pr.serial = 0 := by
  have busy : ∀ {io : Io}, (s.prs id).io = io → io ≠ .idle → (s.prs id).life = .opening →
      (s.prs id).parent ≠ none → False :=
    fun at_ ne life parent => ne (at_.symm.trans (newborn life parent).1)
  cases change with
  | line opened => exact absurd (opened.symm.trans life) (by simp)
  | unline =>
      obtain ⟨idle, none, made⟩ := newborn life parent
      exact ⟨idle, by simp [none], made⟩
  | post _ _ waiting _ _ _ _ =>
      have none := (newborn life parent).2.1
      omega
  | born => exact ⟨rfl, rfl, rfl⟩
  | connecting => exact absurd rfl parent
  | event at_ => exact (busy at_ (by simp) life parent).elim
  | giveUp _ at_ _ _ => exact (busy at_ (by simp) life parent).elim
  | abort _ at_ _ _ _ => exact (busy at_ (by simp) life parent).elim
  | raced at_ _ => exact (busy at_ (by simp) (by simpa using life) (by simpa using parent)).elim
  | collect _ at_ => exact (busy at_ (by simp) (by simpa using life) (by simpa using parent)).elim
  | aborted at_ => exact (busy at_ (by simp) life parent).elim
  | out1 at_ => exact (busy at_ (by simp) (by simpa using life) (by simpa using parent)).elim
  | kernOut at_ _ => exact (busy at_ (by simp) life parent).elim
  | release _ at_ => exact (busy at_ (by simp) life parent).elim
  | handed =>
      simp only at life
      split at life <;> cases life
  | connectFails => cases life
  | connected => cases life
  | fork opened => exact absurd (opened.symm.trans life) (by simp)
  | unref opened => exact absurd (opened.symm.trans life) (by simp)
  | free => cases life
  | shut _ shutting _ =>
      exact absurd ((lives.closing id shutting).symm.trans life) (by simp)
  | deleted => cases life
  | smToM =>
      obtain ⟨idle, none, made⟩ := newborn (by simpa using life) (by simpa using parent)
      refine ⟨by simpa using idle, ?_, by simpa using made⟩
      simp only [Portref.smToM]
      split <;> exact none
  | answer =>
      obtain ⟨idle, none, made⟩ := newborn (by simpa using life) (by simpa using parent)
      refine ⟨by simp [idle], ?_, by simpa using made⟩
      simp only [Portref.answer]
      split <;> exact none
  | abortDone =>
      obtain ⟨idle, none, made⟩ := newborn life parent
      exact ⟨by simp [Portref.abortDone, Portref.vIowait, idle], none, made⟩
  | dupWake =>
      obtain ⟨idle, none, made⟩ := newborn life parent
      exact ⟨by simp [Portref.dupWake, Portref.vIowait, idle], none, made⟩
  | reject =>
      obtain ⟨idle, none, made⟩ := newborn life parent
      exact ⟨by simp [Portref.reject, Portref.vIowait, Portref.setSent, idle], none, made⟩
  | refuseOpen =>
      obtain ⟨idle, none, made⟩ := newborn life parent
      exact ⟨by simp [Portref.refuseOpen, Portref.vIowait, idle], none, made⟩
  | accept =>
      obtain ⟨idle, none, made⟩ := newborn life parent
      exact ⟨by simp [Portref.accept, Portref.vIowait, idle], none, made⟩
  | bounce =>
      obtain ⟨idle, none, made⟩ := newborn (by simpa using life) (by simpa using parent)
      refine ⟨?_, ?_, by simpa using made⟩
      · rcases Portref.bounce_wake (s.prs id) ‹MsgKey› with ⟨_, io, _⟩ | ⟨_, io, _⟩ <;>
          simp [io, idle]
      · simp only [Portref.bounce]
        split <;> exact none
  | closeClient =>
      obtain ⟨idle, none, made⟩ := newborn (by simpa using life) (by simpa using parent)
      refine ⟨by simp [Portref.closeClient_wake, idle], ?_, by simpa using made⟩
      simp only [Portref.closeClient]
      split <;> exact none
  | _ => exact newborn life parent

/-- The argument of a request changes when it is answered or bounced. -/
theorem answered_prStep {s : Kernel} {action : Action} {id : PrId} {pr : Portref} {n : Nat}
    (made : n < (s.prs id).serial) (exists_ : (s.prs id).life ≠ .unallocated)
    (change : PrStep s action id pr) :
    (pr.sent (.sm n)).arg = ((s.prs id).sent (.sm n)).arg ∨ (s.prs id).pState = .PS_IOWAIT ∨
      (pr.sent (.sm n)).arg = -1 ∧ ∃ port, .of id (.sm n) ∈ (s.ports port).unread := by
  have update : ∀ {key : MsgKey} {m : Sysmsg}, (key = .sm n → m.arg = ((s.prs id).sent key).arg) →
      (Function.update (s.prs id).sent key m (.sm n)).arg = ((s.prs id).sent (.sm n)).arg := by
    intro key m same
    by_cases here : MsgKey.sm n = key
    · subst here
      rw [Function.update_self, same rfl]
    · rw [Function.update_of_ne here]
  cases change with
  | post =>
      refine .inl (update fun here => ?_)
      have same := MsgKey.sm.inj here
      omega
  | born _ fresh _ _ => exact absurd fresh exists_
  | connecting _ fresh _ => exact absurd fresh exists_
  | abort => exact .inl (update fun here => by cases here)
  | raced => exact .inl (by simp)
  | collect =>
      refine .inl ?_
      simp only [Portref.collect]
      split
      · rfl
      · split
        · rfl
        · cases ‹Portref.Copy›
          · rfl
          · exact update fun here => here ▸ rfl
          · exact update fun here => here ▸ rfl
  | out1 => exact .inl (by simp)
  | shut => exact .inl (update fun here => by cases here)
  | receive => exact .inl (update fun _ => rfl)
  | hashed => exact .inl (update fun _ => rfl)
  | smToM =>
      refine .inl ?_
      simp only [Portref.smToM]
      split <;> exact update fun _ => rfl
  | answer _ _ state _ _ => exact .inr (.inl state)
  | acceptDup => exact .inl (update fun _ => rfl)
  | reject _ _ state _ _ => exact .inr (.inl state)
  | @bounce port key rest _ at_ =>
      by_cases here : key = .sm n
      · subst here
        have unread : .of id (.sm n) ∈ (s.ports port).unread := by
          simp [Port.unread, at_, Recv.bouncing]
        simp only [Portref.bounce]
        split
        · exact .inl (update fun _ => rfl)
        · exact .inr (.inr ⟨by simp [Portref.vIowait, Portref.setSent], port, unread⟩)
      · refine .inl ?_
        simp only [Portref.bounce]
        split <;> exact update fun eq => absurd eq here
  | closeClient => exact .inl (by simp)
  | _ => exact .inl rfl

/-- `msg_reply` alone clears `p_msg`. -/
theorem pMsg_kept {s : Kernel} {action : Action} {id : PrId} {pr : Portref}
    (exists_ : (s.prs id).life ≠ .unallocated) (has : (s.prs id).pMsg ≠ none)
    (change : PrStep s action id pr) : pr.pMsg ≠ none ∨ (s.prs id).pState = .PS_IOWAIT := by
  cases change with
  | born _ fresh _ _ => exact absurd fresh exists_
  | connecting _ fresh _ => exact absurd fresh exists_
  | receive => exact .inl (by simp [Portref.receive])
  | answer _ _ state _ _ => exact .inr state
  | _ => first | exact .inl has | exact .inl (by simpa using has)

end Vsta.Msg
