import Vsta.Msg.Waiting
import Vsta.Msg.Queued

/-!
# The life of a connection

A portref is `opening` until `msg_connect` or `dup_port` hands it to its process, which
may then send through it, share it and close it. This module says who may take it from
one stage to the next, in every run (`lives_reaches`), and that what the kernel's tables
lead to has been allocated (`known_reaches`).
-/

set_option autoImplicit false

namespace Vsta.Msg

/-- The stages of the portrefs, and the threads and messages that move them on. -/
structure Kernel.Lives (s : Kernel) : Prop where
  opening : ∀ id, (s.prs id).life = .opening → (s.prs id).pRefs = 1 ∧ (s.prs id).shutting = false
  closing : ∀ id, (s.prs id).shutting = true → (s.prs id).life = .opened
  connect : ∀ id, (s.prs id).io.job = some .connect → (s.prs id).life = .opening ∧
    (s.prs id).parent = none ∧ (s.prs id).serial = 1 ∧ (s.prs id).io.req = some 0
  dup : ∀ id newpr, (s.prs id).io.job = some (.dup newpr) →
    (s.prs newpr).life = .opening ∧ (s.prs newpr).parent = some id
  child : ∀ id, (s.prs id).parent ≠ none → (s.prs id).pState ≠ .PS_OPENING
  leaving : ∀ port id key, (s.ports port).recv = .delClient id key → (s.prs id).Posted .disc
  disc : ∀ port id key, .of id key ∈ (s.ports port).unread →
    ((s.prs id).sent key).op = M_DISCONNECT → key = .disc
  arg : ∀ id n newpr, (s.prs id).io = .asleep n (.dup newpr) →
    ((s.prs id).sent (.sm n)).op = M_DUP ∧ ((s.prs id).sent (.sm n)).arg = newpr

theorem lives_boot : Kernel.boot.Lives := by
  constructor <;> simp [Kernel.boot, Portref.unborn, Port.unborn, Port.unread, Recv.bouncing,
    Io.job]

/-- A portref that is opening was made just now, or was opening before and kept its
reference. -/
theorem opening_prStep {s : Kernel} {action : Action} {id : PrId} {pr : Portref}
    (change : PrStep s action id pr) (opening : pr.life = .opening) :
    pr.pRefs = 1 ∧ pr.shutting = false ∨ (s.prs id).life = .opening ∧
      pr.pRefs = (s.prs id).pRefs ∧ (pr.shutting = false ∨ pr.shutting = (s.prs id).shutting) := by
  cases change with
  | born => exact .inl ⟨rfl, rfl⟩
  | connecting => exact .inl ⟨rfl, rfl⟩
  | handed =>
      simp only at opening
      split at opening <;> cases opening
  | connectFails => cases opening
  | connected => cases opening
  | fork opened => exact absurd (opened.symm.trans opening) (by simp)
  | unref opened => exact absurd (opened.symm.trans opening) (by simp)
  | free => cases opening
  | shut => exact .inr ⟨opening, rfl, .inl rfl⟩
  | deleted => cases opening
  | _ =>
      first
        | exact .inr ⟨opening, rfl, .inr rfl⟩
        | exact .inr ⟨by simpa using opening, by simp, .inr (by simp)⟩

/-- The stage a portref is taken to, and by whom. -/
inductive Moves (s : Kernel) (action : Action) (id : PrId) : Life → Prop where
  | keeps : Moves s action id (s.prs id).life
  | made (fresh : (s.prs id).life = .unallocated) : Moves s action id .opening
  | handed {opr : PrId} {n : Nat} {error : Bool} (act : action = .release opr)
      (at_ : (s.prs opr).io = .release n (.dup id) error) :
      Moves s action id (if error then .freed else .opened)
  | connectFails {n : Nat} (act : action = .connectDone id)
      (at_ : (s.prs id).io = .woken n .connect)
      (why : (s.prs id).pPort = none ∨ (s.prs id).pState ≠ .PS_IODONE) : Moves s action id .freed
  | connected {n : Nat} (act : action = .connectDone id) (at_ : (s.prs id).io = .woken n .connect)
      (there : (s.prs id).pPort ≠ none) (state : (s.prs id).pState = .PS_IODONE) :
      Moves s action id .opened
  | free (act : action = .shutClient id) (shutting : (s.prs id).shutting = true)
      (gone : (s.prs id).pPort = none) : Moves s action id .freed
  | deleted {port : PortId} {key : MsgKey} (act : action = .delClient port)
      (at_ : (s.ports port).recv = .delClient id key) : Moves s action id .freed

theorem moves_prStep {s : Kernel} {action : Action} {id : PrId} {pr : Portref}
    (change : PrStep s action id pr) : Moves s action id pr.life := by
  cases change with
  | born _ fresh _ _ => exact .made fresh
  | connecting _ fresh _ => exact .made fresh
  | handed act at_ => exact .handed act at_
  | connectFails act at_ why => exact .connectFails act at_ why
  | connected act at_ there state => exact .connected act at_ there state
  | free act shutting gone => exact .free act shutting gone
  | deleted act at_ => exact .deleted act at_
  | raced => simpa using Moves.keeps
  | collect => simpa using Moves.keeps
  | out1 => simpa using Moves.keeps
  | smToM => simpa using Moves.keeps
  | answer => simpa using Moves.keeps
  | bounce => simpa using Moves.keeps
  | closeClient => simpa using Moves.keeps
  | _ => exact .keeps

/-- A portref that is closing is open. -/
theorem closing_prStep {s : Kernel} {action : Action} {id : PrId} {pr : Portref} (lives : s.Lives)
    (change : PrStep s action id pr) (shutting : pr.shutting = true) : pr.life = .opened := by
  have closing := lives.closing id
  cases change with
  | born => cases shutting
  | connecting => cases shutting
  | handed _ at_ =>
      have opening := (lives.dup _ id (by rw [at_]; rfl)).1
      exact absurd ((closing shutting).symm.trans opening) (by simp)
  | connectFails _ at_ _ =>
      have opening := (lives.connect id (by rw [at_]; rfl)).1
      exact absurd ((closing shutting).symm.trans opening) (by simp)
  | connected => rfl
  | unref opened => exact opened
  | free => cases shutting
  | shut => cases shutting
  | deleted _ at_ => exact absurd ((lives.leaving _ _ _ at_).2.2.symm.trans shutting) (by simp)
  | _ => first | exact closing shutting | simpa using closing (by simpa using shutting)

/-- Only `dup_port()` gives a portref a parent. -/
theorem parent_prStep {s : Kernel} {action : Action} {id : PrId} {pr : Portref}
    (change : PrStep s action id pr) :
    pr.parent = (s.prs id).parent ∨ (s.prs id).life = .unallocated ∧ (pr.parent = none ∨
      ∃ opr, pr.parent = some opr ∧ action = .dupPort opr id) := by
  cases change with
  | born act fresh _ _ => exact .inr ⟨fresh, .inr ⟨_, rfl, act⟩⟩
  | connecting _ fresh _ => exact .inr ⟨fresh, .inl rfl⟩
  | _ => first | exact .inl rfl | exact .inl (by simp)

/-- A portref is in `PS_OPENING` from `msg_connect()` on, and never comes back to it. -/
theorem state_prStep {s : Kernel} {action : Action} {id : PrId} {pr : Portref}
    (change : PrStep s action id pr) (state : pr.pState = .PS_OPENING) :
    (s.prs id).pState = .PS_OPENING ∧ pr.parent = (s.prs id).parent ∨
      (s.prs id).life = .unallocated ∧ pr.parent = none := by
  cases change with
  | born => cases state
  | connecting _ fresh _ => exact .inr ⟨fresh, rfl⟩
  | raced => exact .inl ⟨by simpa using state, by simp⟩
  | collect => exact .inl ⟨by simpa using state, by simp⟩
  | out1 => exact .inl ⟨by simpa using state, by simp⟩
  | smToM => exact .inl ⟨by simpa using state, by simp⟩
  | bounce => exact .inl ⟨by simpa using state, by simp⟩
  | closeClient => exact .inl ⟨by simpa using state, by simp⟩
  | answer => simp at state
  | _ => first | exact .inl ⟨state, rfl⟩ | cases state

/-- A message that was posted keeps its operation unless it is answered, and a received one
stays received. -/
theorem sent_prStep {s : Kernel} {action : Action} {id : PrId} {pr : Portref}
    (numbered : (s.prs id).Numbered) (change : PrStep s action id pr) {key : MsgKey}
    (posted : (s.prs id).Posted key) :
    ((pr.sent key).op = ((s.prs id).sent key).op ∨ (s.prs id).pMsg = some key) ∧
      (((s.prs id).sent key).received = true → (pr.sent key).received = true) := by
  have fresh : (s.prs id).life = .unallocated → False := fun fresh =>
    Portref.not_posted_of_fresh numbered fresh key posted
  have same : ∀ {after : Portref}, after.sent key = (s.prs id).sent key →
      ((after.sent key).op = ((s.prs id).sent key).op ∨ (s.prs id).pMsg = some key) ∧
        (((s.prs id).sent key).received = true → (after.sent key).received = true) := by
    intro after sent
    rw [sent]
    exact ⟨.inl rfl, fun h => h⟩
  have update : ∀ {after : Portref} {key' : MsgKey} {m : Sysmsg},
      after.sent = Function.update (s.prs id).sent key' m →
        (key' = key → (m.op = ((s.prs id).sent key).op ∨ (s.prs id).pMsg = some key) ∧
          (((s.prs id).sent key).received = true → m.received = true)) →
        ((after.sent key).op = ((s.prs id).sent key).op ∨ (s.prs id).pMsg = some key) ∧
          (((s.prs id).sent key).received = true → (after.sent key).received = true) := by
    intro after key' m sent keeps
    by_cases here : key = key'
    · subst here
      rw [sent, Function.update_self]
      exact keeps rfl
    · exact same (by rw [sent, Function.update_of_ne here])
  have frame : ∀ {after : Portref} {key' : MsgKey} {m : Sysmsg},
      after.sent = Function.update (s.prs id).sent key' m →
        m.op = ((s.prs id).sent key').op →
          (((s.prs id).sent key').received = true → m.received = true) →
        ((after.sent key).op = ((s.prs id).sent key).op ∨ (s.prs id).pMsg = some key) ∧
          (((s.prs id).sent key).received = true → (after.sent key).received = true) :=
    fun sent op received => update sent fun here => here ▸ ⟨.inl op, received⟩
  cases change with
  | post =>
      refine update rfl fun here => ?_
      subst here
      exact absurd posted (lt_irrefl _)
  | born _ unallocated _ _ => exact (fresh unallocated).elim
  | connecting _ unallocated _ => exact (fresh unallocated).elim
  | abort _ at_ _ _ _ =>
      refine update rfl fun here => ?_
      subst here
      exact absurd at_ posted.2.1
  | raced => exact same (by simp)
  | collect =>
      simp only [Portref.collect]
      split
      · exact same rfl
      · split
        · exact same rfl
        · cases ‹Portref.Copy›
          · exact same rfl
          · exact frame rfl rfl fun h => h
          · exact frame rfl rfl fun h => h
  | out1 => exact same (by simp)
  | shut _ shutting _ =>
      refine update rfl fun here => ?_
      subst here
      exact absurd (posted.2.2.symm.trans shutting) (by simp)
  | receive => exact frame rfl rfl fun _ => rfl
  | hashed => exact frame rfl rfl fun h => h
  | smToM =>
      simp only [Portref.smToM]
      split <;> exact frame rfl rfl fun h => h
  | answer _ _ _ has _ =>
      exact update (Portref.answer_frame _ _ _).2.2.2.2.2.2.2.2.2.2.2.2 fun here =>
        here ▸ ⟨.inr has, fun h => h⟩
  | acceptDup => exact frame rfl rfl fun h => h
  | reject => exact frame rfl rfl fun h => h
  | bounce =>
      simp only [Portref.bounce]
      split <;> exact frame rfl rfl fun h => h
  | closeClient => exact same (by simp)
  | _ => exact same rfl

/-- An unread message keeps its operation. -/
theorem op_prStep {s : Kernel} {action : Action} {id : PrId} {pr : Portref} (taken : s.Taken)
    (numbered : (s.prs id).Numbered) (change : PrStep s action id pr) {key : MsgKey}
    {port : PortId} (posted : (s.prs id).Posted key) (unread : .of id key ∈ (s.ports port).unread) :
    (pr.sent key).op = ((s.prs id).sent key).op :=
  (sent_prStep numbered change posted).1.resolve_right fun has =>
    taken.read id key port has unread

/-- The operations of the messages that enter a queue. -/
theorem op_of_enters {s t : Kernel} {action : Action} {port : PortId} {id : PrId} {key : MsgKey}
    (step : Step s action t) (enters : Enters s action port (.of id key)) :
    (((t.prs id).sent key).op = M_DISCONNECT → key = .disc) ∧
      (((t.prs id).sent key).op = M_CONNECT →
        key = .sm 0 ∧ ∃ nodup mode, action = .msgConnect id port nodup mode) := by
  cases enters with
  | posted there _ act =>
      obtain ⟨⟨job, m, after, op⟩, _⟩ := post_of_posting step there act
      have same : (t.prs id).sent (.sm (s.prs id).serial) = m := by
        rw [after]
        exact Function.update_self _ _ _
      rw [same]
      constructor <;> intro eq <;> rw [eq] at op <;> exact absurd op (by decide)
  | connecting act fresh =>
      subst act
      simp only [Step, Vsta.Msg.step, Kernel.msgConnect] at step
      split_ifs at step
      cases step
      refine ⟨fun eq => ?_, fun _ => ⟨rfl, _, _, rfl⟩⟩
      simp [Portref.connecting, Portref.pSemaIowait, Portref.setSent] at eq
  | aborted act at_ state there gone =>
      subst act
      simp only [Step, Vsta.Msg.step, Kernel.sendIntr, at_, state, there, if_neg gone] at step
      cases step
      constructor <;> intro eq <;>
        simp [Portref.abort, Portref.pSemaIowait, Portref.setSent] at eq
  | closing act shutting there =>
      subst act
      simp only [Step, Vsta.Msg.step, Kernel.shutClient, shutting, if_true, there] at step
      cases step
      refine ⟨fun _ => rfl, fun eq => ?_⟩
      simp [Portref.setSent] at eq

theorem connect_prStep {s : Kernel} {action : Action} {id : PrId} {pr : Portref} (lives : s.Lives)
    (change : PrStep s action id pr) (job : pr.io.job = some .connect) :
    pr.life = .opening ∧ pr.parent = none ∧ pr.serial = 1 ∧ pr.io.req = some 0 := by
  have connect := lives.connect id
  have wakes : ∀ {after : Portref}, after.life = (s.prs id).life →
      after.parent = (s.prs id).parent → after.serial = (s.prs id).serial →
        after.io = (s.prs id).io.wake → after.io.job = some .connect →
          after.life = .opening ∧ after.parent = none ∧ after.serial = 1 ∧
            after.io.req = some 0 := by
    intro after life parent serial io job
    rw [io, Io.job_wake] at job
    rw [life, parent, serial, io, Io.req_wake]
    exact connect job
  cases change with
  | post _ _ _ job_ne _ _ _ =>
      rw [Portref.post_job, Option.some.injEq] at job
      exact absurd job job_ne
  | born => cases job
  | connecting => exact ⟨rfl, rfl, rfl, Portref.pSemaIowait_req _ rfl rfl⟩
  | event => cases job
  | giveUp => cases job
  | abort =>
      rw [Portref.abort_job] at job
      cases job
  | raced => simp [Io.job] at job
  | collect =>
      obtain ⟨error, out, _⟩ := Portref.collect_io (s.prs id) ‹Nat› ‹Portref.Copy›
      rw [out] at job
      cases job
  | aborted => cases job
  | out1 => simp [Io.job] at job
  | kernOut _ kern =>
      rcases kern with rfl | ⟨_, rfl⟩ <;> cases job
  | release => cases job
  | handed _ at_ =>
      have made := (lives.dup _ id (by rw [at_]; rfl)).2
      exact absurd (made.symm.trans (connect job).2.1) (by simp)
  | connectFails => cases job
  | connected => cases job
  | fork opened => exact absurd (opened.symm.trans (connect job).1) (by simp)
  | unref opened => exact absurd (opened.symm.trans (connect job).1) (by simp)
  | free _ shutting _ =>
      exact absurd ((lives.closing id shutting).symm.trans (connect job).1) (by simp)
  | deleted _ at_ =>
      have closed := (lives.leaving _ _ _ at_).2.1
      have opening := (lives.opening id (connect job).1).1
      omega
  | smToM => simpa using connect (by simpa using job)
  | answer => exact wakes (by simp) (by simp) (by simp) (by simp) job
  | bounce =>
      rcases Portref.bounce_wake (s.prs id) ‹MsgKey› with ⟨_, io, _⟩ | ⟨_, io, _⟩
      · rw [io] at job ⊢
        simpa using connect job
      · exact wakes (by simp) (by simp) (by simp) io job
  | closeClient =>
      have io := Portref.closeClient_wake (s.prs id)
      split at io
      · exact wakes (by simp) (by simp) (by simp) io job
      · rw [io] at job ⊢
        simpa using connect job
  | abortDone => exact wakes rfl rfl rfl rfl job
  | dupWake => exact wakes rfl rfl rfl rfl job
  | reject => exact wakes rfl rfl rfl rfl job
  | refuseOpen => exact wakes rfl rfl rfl rfl job
  | accept => exact wakes rfl rfl rfl rfl job
  | _ => exact connect job

/-- A duplication that waits still carries its new portref. -/
theorem arg_prStep {s : Kernel} {action : Action} {id : PrId} {pr : Portref} (lives : s.Lives)
    (change : PrStep s action id pr) {n : Nat} {newpr : PrId}
    (at_ : pr.io = .asleep n (.dup newpr)) :
    (pr.sent (.sm n)).op = M_DUP ∧ (pr.sent (.sm n)).arg = newpr := by
  have arg := lives.arg id n newpr
  have update : ∀ {key : MsgKey} {m : Sysmsg}, (s.prs id).io = .asleep n (.dup newpr) →
      m.op = ((s.prs id).sent key).op → m.arg = ((s.prs id).sent key).arg →
        (Function.update (s.prs id).sent key m (.sm n)).op = M_DUP ∧
          (Function.update (s.prs id).sent key m (.sm n)).arg = newpr := by
    intro key m asleep op arg'
    by_cases here : MsgKey.sm n = key
    · subst here
      rw [Function.update_self, op, arg']
      exact arg asleep
    · rw [Function.update_of_ne here]
      exact arg asleep
  have woken : ∀ {io : Io}, io.wake ≠ .asleep n (.dup newpr) := by
    intro io
    cases io <;> simp [Io.wake]
  cases change with
  | @post job m _ _ _ _ _ _ user =>
      simp only [Portref.post, Portref.pSemaIowait] at at_
      split at at_
      · cases at_
      · cases at_
        have here : ((s.prs id).post (.dup newpr) m).sent (.sm (s.prs id).serial) = m :=
          Function.update_self _ _ _
        rw [here]
        rcases user with ⟨_, other⟩ | ⟨_, eq, _, op, same⟩
        · exact absurd rfl (other newpr)
        · cases eq
          exact ⟨op, same⟩
  | born => cases at_
  | connecting =>
      simp only [Portref.connecting, Portref.pSemaIowait] at at_
      split at at_ <;> cases at_
  | event => cases at_
  | giveUp => cases at_
  | abort =>
      simp only [Portref.abort, Portref.pSemaIowait] at at_
      split at at_ <;> cases at_
  | raced => simp at at_
  | collect =>
      obtain ⟨error, out, _⟩ := Portref.collect_io (s.prs id) ‹Nat› ‹Portref.Copy›
      rw [out] at at_
      cases at_
  | aborted => cases at_
  | out1 => simp at at_
  | kernOut => cases at_
  | release => cases at_
  | connectFails => cases at_
  | connected => cases at_
  | shut => simpa [Portref.setSent] using arg at_
  | receive => exact update at_ rfl rfl
  | hashed => exact update at_ rfl rfl
  | smToM =>
      have at_ : (s.prs id).io = .asleep n (.dup newpr) := by simpa using at_
      simp only [Portref.smToM]
      split <;> exact update at_ rfl rfl
  | answer => exact absurd (by simpa using at_) woken
  | acceptDup => exact update at_ rfl rfl
  | abortDone => exact absurd at_ woken
  | dupWake => exact absurd at_ woken
  | reject => exact absurd at_ woken
  | refuseOpen => exact absurd at_ woken
  | accept => exact absurd at_ woken
  | bounce =>
      simp only [Portref.bounce] at at_ ⊢
      split at at_
      · rename_i ignored
        simp only [if_pos ignored]
        exact update at_ rfl rfl
      · exact absurd at_ woken
  | closeClient =>
      have io := Portref.closeClient_wake (s.prs id)
      rw [at_] at io
      split at io
      · exact absurd io.symm woken
      · simpa using arg io.symm
  | _ => exact arg at_

/-- A receiver removes a portref whose `M_DISCONNECT` it took. -/
theorem delClient_portStep {s : Kernel} {action : Action} {id : PortId} {port : Port}
    (change : PortStep s action id port) {pr : PrId} {key : MsgKey}
    (at_ : port.recv = .delClient pr key) :
    (s.ports id).recv = .delClient pr key ∨ action = .msgReceive id ∧
      (∃ rest, (s.ports id).pHd = .of pr key :: rest) ∧
        ((s.prs pr).sent key).op = M_DISCONNECT := by
  have queued : ∀ {m}, ((s.ports id).lqueueMsg m).recv = .delClient pr key →
      (s.ports id).recv = .delClient pr key := by
    intro m
    cases before : (s.ports id).recv <;> simp [Port.lqueueMsg, Port.vWait, before]
  cases change with
  | alloc => cases at_
  | posted => exact .inl (queued at_)
  | connecting => exact .inl (queued at_)
  | aborted => exact .inl (queued at_)
  | closing => exact .inl (queued at_)
  | isr => exact .inl (queued at_)
  | waits =>
      simp only [Port.pSemaWait] at at_
      split at at_ <;> cases at_
  | event => cases at_
  | takeDisconnect act _ first op =>
      cases at_
      exact .inr ⟨act, ⟨_, first⟩, op⟩
  | same => exact .inl at_
  | pullBack => exact .inl at_
  | refDup => exact .inl at_
  | refused => exact .inl at_
  | _ => cases at_

/-- The life of a portref that `dup_port()` has made and not handed out. -/
theorem dup_step {s t : Kernel} {action : Action} (lives : s.Lives) (elsewhere : s.DupsElsewhere)
    (step : Step s action t) {id newpr : PrId} (job : (t.prs id).io.job = some (.dup newpr)) :
    (t.prs newpr).life = .opening ∧ (t.prs newpr).parent = some id := by
  have changes := step_changes step
  have works := works_prStep (changes.prs id)
  generalize io_eq : (t.prs id).io = io at works job
  cases works with
  | ends => cases job
  | connects _ _ has => cases has.symm.trans job
  | posts _ there _ has _ send =>
      obtain ⟨_, _, act⟩ := send newpr (Option.some.inj (has.symm.trans job))
      subst act
      rw [(born_of_dupPort step there).2]
      exact ⟨rfl, rfl⟩
  | goes _ same =>
      obtain ⟨opening, parent⟩ := lives.dup id newpr (same ▸ job)
      have moves := moves_prStep (changes.prs newpr)
      have kept : (t.prs newpr).parent = some id := by
        rcases parent_prStep (changes.prs newpr) with same | ⟨fresh, _⟩
        · exact same.trans parent
        · exact absurd (fresh.symm.trans opening) (by simp)
      refine ⟨?_, kept⟩
      generalize (t.prs newpr).life = life at moves
      cases moves with
      | keeps => exact opening
      | made => rfl
      | handed act at' =>
          -- only the thread that made the portref hands it out, and then it is done
          have maker := (lives.dup _ newpr (by rw [at']; rfl)).2
          obtain rfl := Option.some.inj (maker.symm.trans parent)
          subst act
          rw [io_of_release step elsewhere] at io_eq
          subst io_eq
          cases job
      | connectFails _ at' _ =>
          have orphan := (lives.connect newpr (by rw [at']; rfl)).2.1
          exact absurd (orphan.symm.trans parent) (by simp)
      | connected _ at' _ _ =>
          have orphan := (lives.connect newpr (by rw [at']; rfl)).2.1
          exact absurd (orphan.symm.trans parent) (by simp)
      | free _ shutting _ =>
          exact absurd ((lives.closing newpr shutting).symm.trans opening) (by simp)
      | deleted _ at' =>
          have closed := (lives.leaving _ _ _ at').2.1
          have opening := (lives.opening newpr opening).1
          omega

theorem lives_step {s t : Kernel} {action : Action} (queues : s.Queues) (taken : s.Taken)
    (elsewhere : s.DupsElsewhere) (lives : s.Lives) (step : Step s action t) : t.Lives := by
  have changes := step_changes step
  refine ⟨fun id opening => ?_, fun id => closing_prStep lives (changes.prs id),
    fun id => connect_prStep lives (changes.prs id), fun id newpr => dup_step lives elsewhere step,
    fun id parent state => ?_, fun port id key at_ => ?_, fun port id key unread op => ?_,
    fun id n newpr => arg_prStep lives (changes.prs id)⟩
  · rcases opening_prStep (changes.prs id) opening with made | ⟨before, refs, shutting⟩
    · exact made
    · obtain ⟨one, none⟩ := lives.opening id before
      exact ⟨refs.trans one, shutting.elim (fun h => h) fun same => same.trans none⟩
  · rcases state_prStep (changes.prs id) state with ⟨before, same⟩ | ⟨_, orphan⟩
    · exact lives.child id (same ▸ parent) before
    · exact parent orphan
  · refine posted_prStep (queues.numbered id) (changes.prs id) ?_
    rcases delClient_portStep (changes.ports port) at_ with before | ⟨_, ⟨rest, first⟩, op⟩
    · exact lives.leaving port id key before
    · have unread : .of id key ∈ (s.ports port).unread :=
        Port.mem_unread_of_mem_pHd (first ▸ List.mem_cons_self)
      have disc := lives.disc port id key unread op
      exact disc ▸ queues.posted port id key unread
  · rcases mem_unread_portStep (changes.ports port) unread with before | enters
    · have posted := queues.posted port id key before
      rw [op_prStep taken (queues.numbered id) (changes.prs id) posted before] at op
      exact lives.disc port id key before op
    · exact (op_of_enters step enters).1 op

theorem lives_reaches {s : Kernel} {guard : Kernel → Action → Prop}
    (run : Transition.Reaches Step guard Kernel.boot s) : s.Lives :=
  run.invariant_on_run lives_boot fun _ _ _ before lives _ step =>
    lives_step (queues_reaches before) (taken_reaches before) (dupsElsewhere_reaches before) lives
      step

/-- A request is waited for in `p_state` because it was before, or because it is posted. -/
theorem asked_prStep {s : Kernel} {action : Action} {id : PrId} {pr : Portref}
    (change : PrStep s action id pr) {n : Nat} (req : pr.io.req = some n)
    (state : pr.pState = .PS_IOWAIT) :
    (s.prs id).io.req = some n ∧ (s.prs id).pState = .PS_IOWAIT ∨
      action.Posts id ∧ (∃ port, (s.prs id).pPort = some port) ∧ n = (s.prs id).serial := by
  cases change with
  | post _ there _ _ _ _ _ act =>
      rw [Portref.post_req, Option.some.injEq] at req
      exact .inr ⟨act, ⟨_, there⟩, req.symm⟩
  | born => cases state
  | connecting => cases state
  | event at_ => exact .inl ⟨by rw [at_]; exact req, state⟩
  | raced _ done => simp [done] at state
  | collect _ at_ =>
      obtain ⟨error, out, _⟩ := Portref.collect_io (s.prs id) ‹Nat› ‹Portref.Copy›
      rw [out] at req
      exact .inl ⟨by rw [at_]; exact req, by simpa using state⟩
  | aborted at_ => exact .inl ⟨by rw [at_]; exact req, state⟩
  | out1 at_ =>
      simp only [Portref.out1_frame] at req state
      exact .inl ⟨by rw [at_]; exact req, state⟩
  | kernOut at_ _ => exact .inl ⟨by rw [at_]; exact req, state⟩
  | release => cases req
  | connectFails => cases req
  | connected => cases req
  | smToM => exact .inl ⟨by simpa using req, by simpa using state⟩
  | answer => simp at state
  | dupWake =>
      exact .inl ⟨by simpa [Portref.dupWake, Portref.vIowait] using req, state⟩
  | bounce =>
      refine .inl ⟨?_, by simpa using state⟩
      rcases Portref.bounce_wake (s.prs id) ‹MsgKey› with ⟨_, io, _⟩ | ⟨_, io, _⟩ <;>
        simpa [io] using req
  | closeClient =>
      refine .inl ⟨?_, by simpa using state⟩
      have io := Portref.closeClient_wake (s.prs id)
      split at io <;> simpa [io] using req
  | _ => first | exact .inl ⟨req, state⟩ | cases state

/-- A thread that opens a connection has queued one message only. -/
theorem key_of_connecting {s : Kernel} (lives : s.Lives) {id : PrId} {n : Nat}
    (at_ : (s.prs id).io = .asleep n .connect) {key : MsgKey} (posted : (s.prs id).Posted key) :
    key = .sm n := by
  obtain ⟨opening, _, one, first⟩ := lives.connect id (by rw [at_, Io.job])
  obtain rfl : n = 0 := by
    rw [at_, Io.req] at first
    exact Option.some.inj first
  cases key with
  | sm k =>
      have made : k < 1 := one ▸ posted
      rw [Nat.lt_one_iff.mp made]
  | sm2 k =>
      have made : k < 1 := one ▸ posted.1
      obtain rfl : k = 0 := Nat.lt_one_iff.mp made
      exact absurd at_ (posted.2.2 _)
  | disc =>
      have refs := (lives.opening id opening).1
      exact absurd (refs.symm.trans posted.2.1) (by simp)

/-! ## Ports -/

/-- A port that does not exist holds nothing, and no connection leads to it. -/
structure Kernel.Made (s : Kernel) : Prop where
  port : ∀ id, (s.ports id).life = .unallocated → (s.ports id).named = false ∧
    (s.ports id).recv = .idle ∧ (s.ports id).pRefs = [] ∧ ∀ pr key, .of pr key ∉ (s.ports id).pHd
  there : ∀ id port, (s.prs id).pPort = some port → (s.ports port).life ≠ .unallocated

/-- A port that a connection leads to stays, and one that does not exist stays empty. -/
theorem made_portStep {s : Kernel} {action : Action} {id : PortId} {port : Port} (made : s.Made)
    (change : PortStep s action id port) (fresh : port.life = .unallocated) :
    (s.ports id).life = .unallocated ∧ port.named = false ∧ port.recv = .idle ∧ port.pRefs = [] ∧
      ∀ pr key, .of pr key ∉ port.pHd := by
  have busy : (s.ports id).recv ≠ .idle → (s.ports id).life ≠ .unallocated :=
    fun at_ gone => at_ (made.port id gone).2.1
  cases change with
  | same => exact ⟨fresh, made.port id fresh⟩
  | alloc => cases fresh
  | posted there => exact absurd fresh (made.there _ id there)
  | connecting _ _ named =>
      exact absurd (made.port id fresh).1 (by simp [named])
  | aborted _ _ _ there _ => exact absurd fresh (made.there _ id there)
  | closing _ _ there => exact absurd fresh (made.there _ id there)
  | isr =>
      obtain ⟨named, idle, refs, queue⟩ := made.port id fresh
      refine ⟨fresh, named, by simp [Port.lqueueMsg, Port.vWait, idle], refs, fun pr key => ?_⟩
      simpa [Port.lqueueMsg, Port.vWait] using queue pr key
  | pullBack _ _ _ there _ => exact absurd fresh (made.there _ id there)
  | waits _ opened => exact absurd (opened.symm.trans fresh) (by simp)
  | event at_ => exact absurd fresh (busy (by simp [at_]))
  | takeIsr at_ _ => exact absurd fresh (busy (by simp [at_]))
  | takeConnect _ at_ _ _ => exact absurd fresh (busy (by simp [at_]))
  | takeDisconnect _ at_ _ _ => exact absurd fresh (busy (by simp [at_]))
  | take _ at_ _ _ => exact absurd fresh (busy (by simp [at_]))
  | hashed _ at_ => exact absurd fresh (busy (by simp [at_]))
  | deleted _ at_ => exact absurd fresh (busy (by simp [at_]))
  | delivered at_ => exact absurd fresh (busy (by simp [at_]))
  | refDup _ _ _ _ _ there => exact absurd fresh (made.there _ id there)
  | refused _ _ _ _ there => exact absurd fresh (made.there _ id there)
  | disconnect _ _ opened => exact absurd (opened.symm.trans fresh) (by simp)
  | bounce _ at_ => exact absurd fresh (busy (by simp [at_]))
  | bounced _ at_ => exact absurd fresh (busy (by simp [at_]))
  | gone => cases fresh
  | again at_ => exact absurd fresh (busy (by simp [at_]))
  | closed _ at_ _ _ => exact absurd fresh (busy (by simp [at_]))
  | unhashed _ at_ => exact absurd fresh (busy (by simp [at_]))

/-- A connection leads where it led, or where its maker's connection or the name leads. -/
theorem there_of_prStep {s : Kernel} {action : Action} {id : PrId} {pr : Portref}
    {port : PortId} (change : PrStep s action id pr) (there : pr.pPort = some port) :
    (s.prs id).pPort = some port ∨ (∃ opr, (s.prs opr).pPort = some port) ∨
      (s.ports port).named = true := by
  rcases port_prStep change with same | gone | _
  · exact .inl (same ▸ there)
  · exact absurd (gone.symm.trans there) (by simp)
  · cases change with
    | born => exact .inr (.inl ⟨_, there⟩)
    | connecting _ _ named =>
        obtain rfl := Option.some.inj there
        exact .inr (.inr named)
    | bounce =>
        rcases Portref.bounce_wake (s.prs id) ‹MsgKey› with ⟨same, _⟩ | ⟨gone, _⟩
        · exact .inl (same ▸ there)
        · exact absurd (gone.symm.trans there) (by simp)
    | closeClient => simp at there
    | _ => first | exact .inl there | exact .inl (by simpa using there)

theorem made_reaches {s : Kernel} {guard : Kernel → Action → Prop}
    (run : Transition.Reaches Step guard Kernel.boot s) : s.Made := by
  refine run.invariant ⟨by simp [Kernel.boot, Port.unborn], by simp [Kernel.boot, Portref.unborn]⟩ ?_
  intro source action target made _ step
  have changes := step_changes step
  refine ⟨fun id fresh => (made_portStep made (changes.ports id) fresh).2,
    fun id port there fresh => ?_⟩
  have before := (made_portStep made (changes.ports port) fresh).1
  rcases there_of_prStep (changes.prs id) there with same | ⟨opr, same⟩ | named
  · exact made.there id port same before
  · exact made.there opr port same before
  · exact absurd (made.port port before).1 (by simp [named])

/-! ## What the tables lead to -/

/-- The new portref that the reply to a duplication finds in its message. -/
theorem newpr_of_dup {s : Kernel} (lives : s.Lives) {id : PrId} {om : MsgKey}
    (waits : (s.prs id).Waits) (state : (s.prs id).pState = .PS_IOWAIT)
    (there : (s.prs id).pPort ≠ none) (pending : (s.prs id).Pending om)
    (dup : ((s.prs id).sent om).op = M_DUP) :
    ∃ n newpr, om = .sm n ∧ (s.prs id).io = .asleep n (.dup newpr) ∧
      ((s.prs id).sent om).arg = newpr := by
  obtain ⟨n, rfl, at_ | ⟨job, at_⟩⟩ := pending
  · simp only [Portref.Waits, at_] at waits
    exact absurd dup ((waits there).2.2.2 state).2
  · simp only [Portref.Waits, at_] at waits
    obtain ⟨newpr, rfl⟩ := waits.2.2.2.2.2.1 dup
    exact ⟨n, newpr, rfl, at_, (lives.arg id n newpr at_).2⟩

/-- Replies that are at work on a duplication are so because one was accepted. -/
theorem dupWakes_prStep {s : Kernel} {action : Action} {id : PrId} {pr : Portref}
    (change : PrStep s action id pr) {wake : PrId × ProcId} (pending : wake ∈ pr.dupWakes) :
    wake ∈ (s.prs id).dupWakes ∨ ∃ p om r port, action = .msgReply p id r ∧
      s.prefs p id = true ∧ (s.prs id).pState = .PS_IOWAIT ∧ (s.prs id).pMsg = some om ∧
        (((s.prs id).sent om).op = M_DUP ∧ r.arg ≠ -1) ∧ (s.prs id).pPort = some port ∧
          wake = (((s.prs id).sent om).arg.toNat, p) := by
  cases change with
  | born => simp [Portref.alloc, Portref.unborn] at pending
  | connecting =>
      simp [Portref.connecting, Portref.pSemaIowait, Portref.setSent, Portref.alloc,
        Portref.unborn] at pending
  | acceptDup act known state has dup there =>
      rcases List.mem_append.mp pending with before | new
      · exact .inl before
      · exact .inr ⟨_, _, _, _, act, known, state, has, dup, there, List.mem_singleton.mp new⟩
  | dupWake => exact .inl (List.mem_of_mem_erase pending)
  | _ => first | exact .inl pending | exact .inl (by simpa using pending)

theorem dupHash_prStep {s : Kernel} {action : Action} {id : PrId} {pr : Portref}
    (change : PrStep s action id pr) {p : ProcId} (pending : pr.dupHash = some p) :
    (s.prs id).dupHash = some p ∨ ∃ opr, action = .dupWake opr id p ∧
      (id, p) ∈ (s.prs opr).dupWakes := by
  cases change with
  | born => cases pending
  | connecting => cases pending
  | dupWoken act before _ =>
      obtain rfl := Option.some.inj pending
      exact .inr ⟨_, act, before⟩
  | dupHash => cases pending
  | _ => first | exact .inl pending | exact .inl (by simpa using pending)

/-- What a hash, a receiver or a reply is at work on has been allocated, and a duplicate
was made by the portref whose duplication was accepted. -/
structure Kernel.Known (s : Kernel) : Prop where
  fresh : ∀ id, (s.prs id).life = .unallocated → (s.prs id).dupWakes = []
  prefs : ∀ p id, s.prefs p id = true → (s.prs id).life ≠ .unallocated
  newClient : ∀ port id key, (s.ports port).recv = .newClient id key →
    (s.prs id).life ≠ .unallocated
  dupWakes : ∀ id wake, wake ∈ (s.prs id).dupWakes →
    (s.prs wake.1).life ≠ .unallocated ∧ (s.prs wake.1).parent = some id
  dupHash : ∀ id, (s.prs id).dupHash ≠ none →
    (s.prs id).life ≠ .unallocated ∧ (s.prs id).parent ≠ none

/-- A receiver hashes a portref whose `M_CONNECT` it took. -/
theorem newClient_portStep {s : Kernel} {action : Action} {id : PortId} {port : Port}
    (change : PortStep s action id port) {pr : PrId} {key : MsgKey}
    (at_ : port.recv = .newClient pr key) :
    (s.ports id).recv = .newClient pr key ∨ action = .msgReceive id ∧
      (∃ rest, (s.ports id).pHd = .of pr key :: rest) ∧
        ((s.prs pr).sent key).op = M_CONNECT := by
  have queued : ∀ {m}, ((s.ports id).lqueueMsg m).recv = .newClient pr key →
      (s.ports id).recv = .newClient pr key := by
    intro m
    cases before : (s.ports id).recv <;> simp [Port.lqueueMsg, Port.vWait, before]
  cases change with
  | alloc => cases at_
  | posted => exact .inl (queued at_)
  | connecting => exact .inl (queued at_)
  | aborted => exact .inl (queued at_)
  | closing => exact .inl (queued at_)
  | isr => exact .inl (queued at_)
  | waits =>
      simp only [Port.pSemaWait] at at_
      split at at_ <;> cases at_
  | event => cases at_
  | takeConnect act _ first op =>
      cases at_
      exact .inr ⟨act, ⟨_, first⟩, op⟩
  | same => exact .inl at_
  | pullBack => exact .inl at_
  | refDup => exact .inl at_
  | refused => exact .inl at_
  | _ => cases at_

theorem known_step {s t : Kernel} {action : Action} (queues : s.Queues) (lives : s.Lives)
    (waits : ∀ id, (s.prs id).Waits) (answers : AnswersPending s action) (known : s.Known)
    (step : Step s action t) : t.Known := by
  have changes := step_changes step
  have stays : ∀ {id}, (s.prs id).life ≠ .unallocated → (t.prs id).life ≠ .unallocated :=
    fun exists_ => life_prStep (changes.prs _) exists_
  have parents : ∀ {id parent}, (s.prs id).life ≠ .unallocated ∧ (s.prs id).parent = some parent →
      (t.prs id).life ≠ .unallocated ∧ (t.prs id).parent = some parent := by
    intro id parent before
    refine ⟨stays before.1, ?_⟩
    rcases parent_prStep (changes.prs id) with same | ⟨fresh, _⟩
    · exact same.trans before.2
    · exact absurd fresh before.1
  refine ⟨fun id unallocated => ?_, fun p id hashed => stays ?_, fun port id key at_ => stays ?_,
    fun id wake pending => parents ?_, fun id pending => ?_⟩
  · have fresh : (s.prs id).life = .unallocated := by
      by_contra exists_
      exact stays exists_ unallocated
    refine List.eq_nil_iff_forall_not_mem.mpr fun wake pending => ?_
    rcases dupWakes_prStep (changes.prs id) pending with before | ⟨_, _, _, _, _, _, _, _, _, there, _⟩
    · simp [known.fresh id fresh] at before
    · exact absurd (((queues.numbered id).fresh fresh).1.symm.trans there) (by simp)
  · have prefs := changes.prefs
    generalize t.prefs = after at prefs hashed
    have update : ∀ {p' id' present}, (s.setPref p' id' present).prefs p id = true →
        s.prefs p id = true ∨ present = true ∧ id' = id := by
      intro p' id' present
      simp only [Kernel.setPref_prefs, Function.update_apply]
      by_cases hp : p = p' <;> by_cases hid : id = id' <;> simp_all
    cases prefs with
    | same => exact known.prefs p id hashed
    | hashed _ at_ =>
        rcases update hashed with before | ⟨_, rfl⟩
        · exact known.prefs p id before
        · exact known.newClient _ _ _ at_
    | dupHashed _ pending =>
        rcases update hashed with before | ⟨_, rfl⟩
        · exact known.prefs p id before
        · exact (known.dupHash _ (by simp [pending])).1
    | deleted => exact known.prefs p id ((update hashed).resolve_right (by simp))
    | refused => exact known.prefs p id ((update hashed).resolve_right (by simp))
    | unhashed => exact known.prefs p id ((update hashed).resolve_right (by simp))
  · rcases newClient_portStep (changes.ports port) at_ with before | ⟨_, ⟨rest, first⟩, _⟩
    · exact known.newClient port id key before
    · have posted := queues.posted port id key
        (Port.mem_unread_of_mem_pHd (first ▸ List.mem_cons_self))
      exact fun fresh => Portref.not_posted_of_fresh (queues.numbered id) fresh key posted
  · rcases dupWakes_prStep (changes.prs id) pending with
      before | ⟨p, om, r, port, rfl, hashed, state, has, dup, there, rfl⟩
    · exact known.dupWakes id wake before
    · have there : (s.prs id).pPort ≠ none := by simp [there]
      obtain ⟨n, newpr, rfl, at_, arg⟩ :=
        newpr_of_dup lives (waits id) state there (answers hashed state there om has) dup.1
      obtain ⟨opening, parent⟩ := lives.dup id newpr (by rw [at_]; rfl)
      rw [arg, Int.toNat_natCast]
      exact ⟨by simp [opening], parent⟩
  · obtain ⟨p, pending⟩ := Option.ne_none_iff_exists'.mp pending
    rcases dupHash_prStep (changes.prs id) pending with before | ⟨opr, _, before⟩
    · obtain ⟨exists_, parent⟩ := known.dupHash id (by simp [before])
      obtain ⟨opr, made⟩ := Option.ne_none_iff_exists'.mp parent
      have after := parents ⟨exists_, made⟩
      exact ⟨after.1, by simp [after.2]⟩
    · have after := parents (known.dupWakes opr _ before)
      exact ⟨after.1, by simp [after.2]⟩

theorem known_reaches {s : Kernel}
    (run : Transition.Reaches Step AnswersPending Kernel.boot s) : s.Known :=
  run.invariant_on_run (by constructor <;> simp [Kernel.boot, Portref.unborn, Port.unborn])
    fun _ _ _ before known answers step =>
      known_step (queues_reaches before) (lives_reaches before) (waits_reaches before) answers known
        step

end Vsta.Msg
