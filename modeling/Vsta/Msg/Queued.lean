import Vsta.Msg.Steps

/-!
# The messages on the queues

Requests are numbered, so a portref queues each of its messages once, on the port it is
connected to. This holds in every run (`queues_reaches`): no message is on a queue twice,
and what a portref has queued is on one port only.
-/

set_option autoImplicit false

namespace Vsta.Msg

/-! ## The numbers of the requests -/

/-- The thread of a connection works on a request that was made, and a portref that does
not exist has made none. -/
structure Portref.Numbered (pr : Portref) : Prop where
  fresh : pr.life = .unallocated →
    pr.pPort = none ∧ pr.serial = 0 ∧ pr.io = .idle ∧ pr.shutting = false ∧ pr.pRefs = 0
  current : ∀ n, pr.io.req = some n → n < pr.serial
  shutting : pr.shutting = true → pr.pRefs = 0

namespace Portref

theorem numbered_unborn : unborn.Numbered :=
  ⟨fun _ => ⟨rfl, rfl, rfl, rfl, rfl⟩, by simp [unborn, Io.req], by simp [unborn]⟩

/-- A section that keeps the numbers and the references. -/
theorem numbered_of_frame {pr after : Portref} (numbered : pr.Numbered)
    (life : after.life = .unallocated → pr.life = .unallocated ∧ after.io = .idle)
    (port : after.pPort = pr.pPort ∨ after.pPort = none) (serial : after.serial = pr.serial)
    (io : ∀ n, after.io.req = some n → pr.io.req = some n)
    (shut : after.shutting = pr.shutting) (refs : after.pRefs = pr.pRefs) : after.Numbered where
  fresh unallocated := by
    obtain ⟨gone, none, _, open_, zero⟩ := numbered.fresh (life unallocated).1
    refine ⟨?_, serial.trans none, (life unallocated).2, shut.trans open_, refs.trans zero⟩
    rcases port with same | cleared
    · exact same.trans gone
    · exact cleared
  current n at_ := by
    rw [serial]
    exact numbered.current n (io n at_)
  shutting held := by
    rw [refs]
    exact numbered.shutting (shut ▸ held)

end Portref

/-- What a step does to a connection keeps its numbers. -/
theorem numbered_prStep {s : Kernel} {action : Action} {id : PrId} {pr : Portref}
    (numbered : (s.prs id).Numbered) (change : PrStep s action id pr) : pr.Numbered := by
  have idle : (s.prs id).life = .unallocated → (s.prs id).io = .idle := fun fresh =>
    (numbered.fresh fresh).2.2.1
  have busy : ∀ {io}, (s.prs id).io = io → io ≠ .idle → (s.prs id).life ≠ .unallocated :=
    fun at_ ne fresh => ne (at_ ▸ idle fresh)
  have wakes : ∀ {after : Portref}, after.life = (s.prs id).life →
      after.io = (s.prs id).io.wake → after.life = .unallocated →
        (s.prs id).life = .unallocated ∧ after.io = .idle := by
    intro after life io unallocated
    refine ⟨life ▸ unallocated, ?_⟩
    rw [io, idle (life ▸ unallocated), Io.wake_idle]
  cases change with
  | same => exact numbered
  | line => exact ⟨numbered.1, numbered.2, numbered.3⟩
  | unline => exact ⟨numbered.1, numbered.2, numbered.3⟩
  | post at_ there _ _ _ _ _ =>
      refine ⟨fun fresh => ?_, fun n current => ?_, numbered.3⟩
      · have gone := (numbered.fresh fresh).1
        exact absurd (gone.symm.trans there) (by simp)
      · rw [Portref.post_req, Option.some.injEq] at current
        exact current ▸ Nat.lt_succ_self _
  | born => exact ⟨by simp [Portref.alloc], by simp [Portref.alloc, Portref.unborn, Io.req],
      by simp [Portref.alloc, Portref.unborn]⟩
  | connecting =>
      refine ⟨by simp [Portref.connecting, Portref.pSemaIowait, Portref.setSent, Portref.alloc],
        fun n current => ?_, by simp [Portref.connecting, Portref.pSemaIowait, Portref.setSent,
          Portref.alloc, Portref.unborn]⟩
      simp [Portref.connecting, Portref.pSemaIowait, Portref.setSent, Portref.alloc,
        Portref.unborn, Io.req] at current ⊢
      omega
  | event at_ =>
      exact Portref.numbered_of_frame numbered (fun life => absurd life (busy at_ (by simp)))
        (.inl rfl) rfl (by simp [Portref.event, at_, Io.req]) rfl rfl
  | giveUp _ at_ _ _ =>
      exact Portref.numbered_of_frame numbered (fun life => absurd life (busy at_ (by simp)))
        (.inl rfl) rfl (by simp [Portref.giveUp, at_, Io.req]) rfl rfl
  | abort _ at_ _ _ _ =>
      refine Portref.numbered_of_frame numbered (fun life => absurd life (busy at_ (by simp)))
        (.inl rfl) rfl (fun m current => ?_) rfl rfl
      rw [Portref.abort_req] at current
      rw [at_]
      exact current
  | raced at_ _ =>
      exact Portref.numbered_of_frame numbered
        (fun life => absurd (by simpa using life) (busy at_ (by simp)))
        (by simp) (by simp) (by simp [at_, Io.req]) (by simp) (by simp)
  | collect _ at_ =>
      obtain ⟨error, out, _⟩ := Portref.collect_io (s.prs id) _ _
      exact Portref.numbered_of_frame numbered
        (fun life => absurd (by simpa using life) (busy at_ (by simp)))
        (by simp) (by simp) (by rw [out]; simp [at_, Io.req]) (by simp) (by simp)
  | aborted at_ =>
      exact Portref.numbered_of_frame numbered (fun life => absurd life (busy at_ (by simp)))
        (.inl rfl) rfl (by simp [at_, Io.req]) rfl rfl
  | out1 at_ =>
      exact Portref.numbered_of_frame numbered
        (fun life => absurd (by simpa using life) (busy at_ (by simp)))
        (by simp) (by simp) (by simp [at_, Io.req]) (by simp) (by simp)
  | kernOut at_ _ =>
      exact Portref.numbered_of_frame numbered (fun life => absurd life (busy at_ (by simp)))
        (.inl rfl) rfl (by simp [Portref.kernOut, at_, Io.req]) rfl rfl
  | release _ at_ =>
      exact Portref.numbered_of_frame numbered (fun life => absurd life (busy at_ (by simp)))
        (.inl rfl) rfl (by simp [Io.req]) rfl rfl
  | handed =>
      refine ⟨fun life => ?_, numbered.2, numbered.3⟩
      simp only at life
      split at life <;> cases life
  | connectFails => exact ⟨by simp, by simp [Io.req], numbered.3⟩
  | connected => exact ⟨by simp, by simp [Io.req], numbered.3⟩
  | fork opened refs =>
      exact ⟨by simp [opened], numbered.2, fun held => by
        have := numbered.shutting held
        omega⟩
  | unref opened refs => exact ⟨by simp [opened], numbered.2, by simp; omega⟩
  | free _ held _ => exact ⟨by simp, numbered.2, by simp⟩
  | shut _ held there =>
      refine ⟨fun fresh => ?_, numbered.2, by simp⟩
      exact absurd ((numbered.fresh fresh).1.symm.trans there) (by simp)
  | receive => exact ⟨numbered.1, numbered.2, numbered.3⟩
  | hashed => exact ⟨numbered.1, numbered.2, numbered.3⟩
  | deleted => exact ⟨by simp, numbered.2, numbered.3⟩
  | smToM =>
      exact Portref.numbered_of_frame numbered
        (fun life => ⟨by simpa using life, by simpa using idle (by simpa using life)⟩)
        (by simp) (by simp) (by simp) (by simp) (by simp)
  | answer =>
      exact Portref.numbered_of_frame numbered (wakes (by simp) (by simp)) (by simp) (by simp)
        (by simp) (by simp) (by simp)
  | acceptDup => exact ⟨numbered.1, numbered.2, numbered.3⟩
  | abortDone =>
      exact Portref.numbered_of_frame numbered (wakes rfl rfl) (.inl rfl) rfl
        (by simp [Portref.abortDone, Portref.vIowait]) rfl rfl
  | dupWake =>
      exact Portref.numbered_of_frame numbered (wakes rfl rfl) (.inl rfl) rfl
        (by simp [Portref.dupWake, Portref.vIowait]) rfl rfl
  | dupWoken => exact ⟨numbered.1, numbered.2, numbered.3⟩
  | dupHash => exact ⟨numbered.1, numbered.2, numbered.3⟩
  | reject =>
      exact Portref.numbered_of_frame numbered (wakes rfl rfl) (.inl rfl) rfl
        (by simp [Portref.reject, Portref.vIowait, Portref.setSent]) rfl rfl
  | refuseOpen =>
      exact Portref.numbered_of_frame numbered (wakes rfl rfl) (.inl rfl) rfl
        (by simp [Portref.refuseOpen, Portref.vIowait]) rfl rfl
  | accept =>
      exact Portref.numbered_of_frame numbered (wakes rfl rfl) (.inl rfl) rfl
        (by simp [Portref.accept, Portref.vIowait]) rfl rfl
  | bounce =>
      rename_i key _ _ _
      rcases Portref.bounce_wake (s.prs id) key with ⟨port, io, _⟩ | ⟨port, io, _⟩
      · exact Portref.numbered_of_frame numbered (fun life => ⟨by simpa using life, by
          rw [io]; exact idle (by simpa using life)⟩) (.inl port) (by simp) (by simp [io])
          (by simp) (by simp)
      · exact Portref.numbered_of_frame numbered (wakes (by simp) io) (.inr port) (by simp)
          (by simp [io]) (by simp) (by simp)
  | closeClient =>
      have io := Portref.closeClient_wake (s.prs id)
      refine Portref.numbered_of_frame numbered (fun life => ⟨by simpa using life, ?_⟩) (by simp)
        (by simp) (fun n => ?_) (by simp) (by simp)
      · rw [io, idle (by simpa using life)]
        simp [Io.wake]
      · rw [io]
        split <;> simp

/-! ## What joins a queue -/

/-- The action puts the message on the queue of port `id`. -/
inductive Enters (s : Kernel) (action : Action) (id : PortId) : MsgId → Prop where
  | posted {pr : PrId} (there : (s.prs pr).pPort = some id) (idle : (s.prs pr).io = .idle)
      (act : action.Posts pr) :
      Enters s action id (.of pr (.sm (s.prs pr).serial))
  | connecting {pr : PrId} {nodup : Bool} {mode : Int}
      (act : action = .msgConnect pr id nodup mode) (fresh : (s.prs pr).life = .unallocated) :
      Enters s action id (.of pr (.sm 0))
  | aborted {pr : PrId} {n : Nat} (act : action = .sendIntr pr) (at_ : (s.prs pr).io = .broken n)
      (state : (s.prs pr).pState = .PS_IOWAIT) (there : (s.prs pr).pPort = some id)
      (gone : .of pr (.sm n) ∉ (s.ports id).pHd) : Enters s action id (.of pr (.sm2 n))
  | closing {pr : PrId} (act : action = .shutClient pr) (shutting : (s.prs pr).shutting = true)
      (there : (s.prs pr).pPort = some id) : Enters s action id (.of pr .disc)
  | isr {irq : Nat} : Enters s action id (.isr irq)

/-- A step takes unread messages away, or adds one that enters. -/
theorem unread_portStep {s : Kernel} {action : Action} {id : PortId} {port : Port}
    (change : PortStep s action id port) :
    port.unread.Subperm (s.ports id).unread ∨
      ∃ m, Enters s action id m ∧ port.unread.Subperm (m :: (s.ports id).unread) := by
  have queues : ∀ m, ((s.ports id).lqueueMsg m).unread.Subperm (m :: (s.ports id).unread) := by
    intro m
    rw [Port.unread, Port.bouncing_lqueueMsg]
    simp only [Port.lqueueMsg, Port.vWait, List.append_assoc, List.singleton_append]
    exact List.perm_middle.subperm
  have takes : ∀ {after : Port} {m rest}, (s.ports id).recv = .woken →
      (s.ports id).pHd = m :: rest → after.pHd = rest → after.recv.bouncing = [] →
        after.unread.Subperm (s.ports id).unread := by
    intro after m rest at_ first hd none
    have before : (s.ports id).recv.bouncing = [] := by simp [at_, Recv.bouncing]
    rw [Port.unread, Port.unread, first, hd, none, before, List.append_nil, List.append_nil]
    exact (List.sublist_cons_self _ _).subperm
  have keeps : ∀ {after : Port}, after.pHd = (s.ports id).pHd →
      after.recv.bouncing = (s.ports id).recv.bouncing →
        after.unread.Subperm (s.ports id).unread := by
    intro after hd same
    rw [Port.unread, Port.unread, hd, same]
  cases change with
  | same => exact .inl (List.Subperm.refl _)
  | alloc => exact .inl List.nil_subperm
  | posted there idle _ act => exact .inr ⟨_, .posted there idle act, queues _⟩
  | connecting act fresh _ => exact .inr ⟨_, .connecting act fresh, queues _⟩
  | aborted act at_ state there gone =>
      exact .inr ⟨_, .aborted act at_ state there gone, queues _⟩
  | closing act shutting there => exact .inr ⟨_, .closing act shutting there, queues _⟩
  | isr => exact .inr ⟨_, .isr, queues _⟩
  | pullBack => exact .inl ((List.erase_sublist.append (List.Sublist.refl _)).subperm)
  | waits free =>
      refine .inl (keeps rfl ?_)
      simp only [Port.pSemaWait, free]
      split <;> rfl
  | event at_ => exact .inl (keeps rfl (by simp [Port.event, at_, Recv.bouncing]))
  | takeIsr at_ first => exact .inl (takes at_ first rfl rfl)
  | takeConnect _ at_ first _ => exact .inl (takes at_ first rfl rfl)
  | takeDisconnect _ at_ first _ => exact .inl (takes at_ first rfl rfl)
  | take _ at_ first _ => exact .inl (takes at_ first rfl rfl)
  | hashed _ at_ => exact .inl (keeps rfl (by simp [at_, Recv.bouncing]))
  | deleted _ at_ => exact .inl (keeps rfl (by simp [at_, Recv.bouncing]))
  | delivered at_ => exact .inl (keeps rfl (by simp [at_, Recv.bouncing]))
  | refDup => exact .inl (keeps rfl rfl)
  | refused => exact .inl (keeps rfl rfl)
  | disconnect _ free => exact .inl (keeps rfl (by simp [free, Recv.bouncing]))
  | bounce _ at_ =>
      refine .inl ?_
      simp only [Port.unread, at_, Recv.bouncing, List.nil_append, List.append_nil]
      exact List.Subperm.refl _
  | bounced _ at_ =>
      refine .inl ?_
      simp only [Port.unread, at_, Recv.bouncing]
      exact ((List.Sublist.refl _).append (List.sublist_cons_self _ _)).subperm
  | gone at_ _ => exact .inl (keeps rfl (by simp [at_, Recv.bouncing]))
  | again at_ => exact .inl (keeps rfl (by simp [at_, Recv.bouncing]))
  | closed _ at_ _ _ => exact .inl (keeps rfl (by simp [at_, Recv.bouncing]))
  | unhashed _ at_ => exact .inl (keeps rfl (by simp [at_, Recv.bouncing]))

/-- A message that is unread after the step was so before, or has entered. -/
theorem mem_unread_portStep {s : Kernel} {action : Action} {id : PortId} {port : Port}
    (change : PortStep s action id port) {m : MsgId} (queued : m ∈ port.unread) :
    m ∈ (s.ports id).unread ∨ Enters s action id m := by
  rcases unread_portStep change with sub | ⟨added, enters, sub⟩
  · exact .inl (sub.subset queued)
  · rcases List.mem_cons.mp (sub.subset queued) with rfl | before
    · exact .inr enters
    · exact .inl before

/-- A request that is posted takes the next number, and is queued. -/
theorem post_of_posting {s t : Kernel} {action : Action} {pr : PrId} {port : PortId}
    (step : Step s action t) (there : (s.prs pr).pPort = some port) (act : action.Posts pr) :
    (∃ job m, t.prs pr = (s.prs pr).post job m ∧ (m.op = M_DUP ∨ M_RESVD ≤ m.op)) ∧
      .of pr (.sm (s.prs pr).serial) ∈ (t.ports port).pHd := by
  have queued : ∀ {ports : PortId → Port} {m}, m ∈ (Function.update ports port
      ((s.ports port).lqueueMsg m) port).pHd := by
    intro ports m
    rw [Function.update_self]
    exact List.mem_append_right _ (List.mem_singleton_self _)
  obtain ⟨r, rfl⟩ | ⟨op, arg, arg1, rfl⟩ | ⟨newpr, rfl⟩ := act
  · simp only [Step, Vsta.Msg.step, Kernel.msgSend] at step
    split_ifs at step with passes
    obtain ⟨_, _, ⟨gone, _⟩ | ⟨_, here, rfl⟩⟩ := send_cases step
    · exact absurd (there.symm.trans gone) (by simp)
    · obtain rfl := Option.some.inj (there.symm.trans here)
      exact ⟨⟨_, _, Function.update_self _ _ _, .inr (le_trans passes.1 (Nat.mod_le _ _))⟩, queued⟩
  · simp only [Step, Vsta.Msg.step, Kernel.kernmsgSend] at step
    split_ifs at step with user
    obtain ⟨_, _, ⟨gone, _⟩ | ⟨_, here, rfl⟩⟩ := send_cases step
    · exact absurd (there.symm.trans gone) (by simp)
    · obtain rfl := Option.some.inj (there.symm.trans here)
      exact ⟨⟨_, _, Function.update_self _ _ _, .inr user⟩, queued⟩
  · simp only [Step, Vsta.Msg.step, Kernel.dupPort] at step
    split at step
    · rename_i fresh
      split at step
      · cases step
      · rename_i next sent
        obtain ⟨_, _, ⟨gone, _⟩ | ⟨_, here, rfl⟩⟩ := send_cases sent
        · exact absurd (there.symm.trans gone) (by simp)
        · obtain rfl := Option.some.inj (there.symm.trans here)
          rw [if_neg (by simp [there])] at step
          cases step
          exact ⟨⟨_, _, (Function.update_of_ne fresh.2.2.symm _ _).trans
            (Function.update_self _ _ _), .inl rfl⟩, queued⟩
    · cases step

/-- `dup_port()` makes the new portref along with its request. -/
theorem born_of_dupPort {s t : Kernel} {id newpr : PrId} (step : Step s (.dupPort id newpr) t)
    (there : (s.prs id).pPort ≠ none) :
    newpr ≠ id ∧ t.prs newpr = { Portref.alloc false with
      pPort := (s.prs id).pPort, pState := .PS_IODONE, parent := some id } := by
  simp only [Step, Vsta.Msg.step, Kernel.dupPort] at step
  split at step
  · rename_i fresh
    split at step
    · cases step
    · cases step
      exact ⟨fresh.2.2, Function.update_self _ _ _⟩
  · cases step

/-! ## What is unread -/

/-- The portref may have queued this message before. -/
def Portref.Posted (pr : Portref) : MsgKey → Prop
  | .sm n => n < pr.serial
  | .sm2 n => n < pr.serial ∧ pr.io ≠ .broken n ∧ ∀ job, pr.io ≠ .asleep n job
  | .disc => pr.life ≠ .unallocated ∧ pr.pRefs = 0 ∧ pr.shutting = false

/-- A portref that does not exist has queued nothing. -/
theorem Portref.not_posted_of_fresh {pr : Portref} (numbered : pr.Numbered)
    (fresh : pr.life = .unallocated) (key : MsgKey) : ¬pr.Posted key := by
  have none := (numbered.fresh fresh).2.1
  cases key with
  | sm n => simp [Posted, none]
  | sm2 n => simp [Posted, none]
  | disc => simp [Posted, fresh]

/-- A step keeps a connection at its port, takes the port away, or makes the connection. -/
theorem port_prStep {s : Kernel} {action : Action} {id : PrId} {pr : Portref}
    (change : PrStep s action id pr) :
    pr.pPort = (s.prs id).pPort ∨ pr.pPort = none ∨ (s.prs id).life = .unallocated := by
  cases change with
  | born _ fresh _ _ => exact .inr (.inr fresh)
  | connecting _ fresh _ => exact .inr (.inr fresh)
  | raced => exact .inl (by simp)
  | collect => exact .inl (by simp)
  | out1 => exact .inl (by simp)
  | smToM => exact .inl (by simp)
  | answer => exact .inl (by simp)
  | bounce =>
      rcases Portref.bounce_wake (s.prs id) _ with ⟨same, _⟩ | ⟨gone, _⟩
      · exact .inl same
      · exact .inr (.inl gone)
  | closeClient => exact .inr (.inl (by simp))
  | _ => exact .inl rfl

/-- What the thread does next about a request is not to sleep on it for the first time. -/
theorem Portref.posted_sm2_of_io {pr after : Portref} {n : Nat} (posted : pr.Posted (.sm2 n))
    (serial : pr.serial ≤ after.serial)
    (io : after.io = pr.io ∨ after.io = pr.io.wake ∨
      (∀ m, after.io = .broken m → ∃ job, pr.io = .asleep m job) ∧
        ∀ m job, after.io = .asleep m job → pr.serial ≤ m) : after.Posted (.sm2 n) := by
  obtain ⟨before, broken, asleep⟩ := posted
  refine ⟨by omega, ?_⟩
  rcases io with same | woken | ⟨fromSleep, fromPost⟩
  · rw [same]
    exact ⟨broken, asleep⟩
  · rw [woken]
    cases at_ : pr.io with
    | broken m =>
        rw [at_] at broken
        exact ⟨broken, by simp [Io.wake]⟩
    | _ => simp [Io.wake]
  · refine ⟨fun at_ => ?_, fun job at_ => ?_⟩
    · obtain ⟨job, earlier⟩ := fromSleep n at_
      exact asleep job earlier
    · have := fromPost n job at_
      omega

theorem serial_prStep {s : Kernel} {action : Action} {id : PrId} {pr : Portref}
    (change : PrStep s action id pr) (exists_ : (s.prs id).life ≠ .unallocated) :
    (s.prs id).serial ≤ pr.serial := by
  cases change with
  | post => exact Nat.le_succ _
  | born _ fresh _ _ => exact absurd fresh exists_
  | connecting _ fresh _ => exact absurd fresh exists_
  | _ => simp [Portref.event, Portref.giveUp, Portref.abort, Portref.pSemaIowait,
      Portref.setSent, Portref.kernOut, Portref.vSvwait, Portref.receive, Portref.acceptDup,
      Portref.abortDone, Portref.vIowait, Portref.dupWake, Portref.reject, Portref.refuseOpen,
      Portref.accept]

theorem life_prStep {s : Kernel} {action : Action} {id : PrId} {pr : Portref}
    (change : PrStep s action id pr) (exists_ : (s.prs id).life ≠ .unallocated) :
    pr.life ≠ .unallocated := by
  cases change with
  | born => simp [Portref.alloc]
  | connecting => simp [Portref.connecting, Portref.pSemaIowait, Portref.setSent, Portref.alloc]
  | handed =>
      simp only [ne_eq]
      split <;> simp
  | connectFails => simp
  | connected => simp
  | free => simp
  | deleted => simp
  | _ => simpa [Portref.post, Portref.event, Portref.giveUp, Portref.abort, Portref.pSemaIowait,
      Portref.setSent, Portref.kernOut, Portref.vSvwait, Portref.receive, Portref.acceptDup,
      Portref.abortDone, Portref.vIowait, Portref.dupWake, Portref.reject, Portref.refuseOpen,
      Portref.accept] using exists_

theorem refs_prStep {s : Kernel} {action : Action} {id : PrId} {pr : Portref}
    (change : PrStep s action id pr) (exists_ : (s.prs id).life ≠ .unallocated)
    (closed : (s.prs id).pRefs = 0 ∧ (s.prs id).shutting = false) :
    pr.pRefs = 0 ∧ pr.shutting = false := by
  cases change with
  | born _ fresh _ _ => exact absurd fresh exists_
  | connecting _ fresh _ => exact absurd fresh exists_
  | fork _ refs => omega
  | unref _ refs => omega
  | free => exact ⟨closed.1, rfl⟩
  | shut => exact ⟨closed.1, rfl⟩
  | _ => simpa [Portref.post, Portref.event, Portref.giveUp, Portref.abort, Portref.pSemaIowait,
      Portref.setSent, Portref.kernOut, Portref.vSvwait, Portref.receive, Portref.acceptDup,
      Portref.abortDone, Portref.vIowait, Portref.dupWake, Portref.reject, Portref.refuseOpen,
      Portref.accept] using closed

theorem io_prStep {s : Kernel} {action : Action} {id : PrId} {pr : Portref}
    (change : PrStep s action id pr) (exists_ : (s.prs id).life ≠ .unallocated) :
    pr.io = (s.prs id).io ∨ pr.io = (s.prs id).io.wake ∨
      (∀ m, pr.io = .broken m → ∃ job, (s.prs id).io = .asleep m job) ∧
        ∀ m job, pr.io = .asleep m job → (s.prs id).serial ≤ m := by
  cases change with
  | @post job m =>
      refine .inr (.inr ⟨fun k at_ => ?_, fun k job' at_ => ?_⟩)
      · simp only [Portref.post, Portref.pSemaIowait] at at_
        split at at_ <;> cases at_
      · have current := Portref.post_req (s.prs id) job m
        rw [at_, Io.req, Option.some.injEq] at current
        omega
  | born _ fresh _ _ => exact absurd fresh exists_
  | connecting _ fresh _ => exact absurd fresh exists_
  | event at_ =>
      refine .inr (.inr ⟨fun m broken => ?_, by simp [Portref.event]⟩)
      cases broken
      exact ⟨_, at_⟩
  | giveUp => exact .inr (.inr (by simp [Portref.giveUp]))
  | abort =>
      refine .inr (.inr ⟨fun m at_ => ?_, fun m job at_ => ?_⟩) <;>
      · simp only [Portref.abort, Portref.pSemaIowait] at at_
        split at at_ <;> cases at_
  | raced => exact .inr (.inr (by simp))
  | collect =>
      obtain ⟨error, out, _⟩ := Portref.collect_io (s.prs id) ‹Nat› ‹Portref.Copy›
      exact .inr (.inr (by simp [out]))
  | aborted => exact .inr (.inr (by simp))
  | out1 => exact .inr (.inr (by simp))
  | kernOut => exact .inr (.inr (by simp [Portref.kernOut]))
  | release => exact .inr (.inr (by simp))
  | connectFails => exact .inr (.inr (by simp))
  | connected => exact .inr (.inr (by simp))
  | smToM => exact .inl (by simp)
  | answer => exact .inr (.inl (by simp))
  | abortDone => exact .inr (.inl rfl)
  | dupWake => exact .inr (.inl rfl)
  | reject => exact .inr (.inl rfl)
  | refuseOpen => exact .inr (.inl rfl)
  | accept => exact .inr (.inl rfl)
  | bounce =>
      rcases Portref.bounce_wake (s.prs id) ‹MsgKey› with ⟨_, same, _⟩ | ⟨_, woken, _⟩
      · exact .inl same
      · exact .inr (.inl woken)
  | closeClient =>
      have io := Portref.closeClient_wake (s.prs id)
      split at io
      · exact .inr (.inl io)
      · exact .inl io
  | _ => exact .inl rfl

/-- What a portref may have queued it may have queued after any step. -/
theorem posted_prStep {s : Kernel} {action : Action} {id : PrId} {pr : Portref}
    (numbered : (s.prs id).Numbered) (change : PrStep s action id pr) {key : MsgKey}
    (posted : (s.prs id).Posted key) : pr.Posted key := by
  have exists_ : (s.prs id).life ≠ .unallocated := fun fresh =>
    Portref.not_posted_of_fresh numbered fresh key posted
  have serial := serial_prStep change exists_
  cases key with
  | sm n => exact lt_of_lt_of_le posted serial
  | sm2 n => exact Portref.posted_sm2_of_io posted serial (io_prStep change exists_)
  | disc => exact ⟨life_prStep change exists_, refs_prStep change exists_ posted.2⟩

/-- A message that enters a queue was not queued before, and counts as queued from now on. -/
theorem posted_of_enters {s t : Kernel} {action : Action} {port : PortId} {id : PrId}
    {key : MsgKey} (step : Step s action t) (numbered : (s.prs id).Numbered)
    (enters : Enters s action port (.of id key)) :
    ¬(s.prs id).Posted key ∧ (t.prs id).Posted key ∧ (t.prs id).pPort = some port ∧
      ((s.prs id).pPort = some port ∨ (s.prs id).life = .unallocated) := by
  cases enters with
  | posted there _ act =>
      obtain ⟨⟨job, m, after, _⟩, _⟩ := post_of_posting step there act
      rw [after]
      exact ⟨lt_irrefl _, Nat.lt_succ_self _, there, .inl there⟩
  | connecting act fresh =>
      subst act
      simp only [Step, Vsta.Msg.step, Kernel.msgConnect] at step
      split_ifs at step
      cases step
      rw [Kernel.setPr_prs, Function.update_self]
      exact ⟨by simp [Portref.Posted, (numbered.fresh fresh).2.1], Nat.one_pos, rfl, .inr fresh⟩
  | aborted act at_ state there gone =>
      subst act
      have last := numbered.current _ (by rw [at_, Io.req])
      simp only [Step, Vsta.Msg.step, Kernel.sendIntr, at_, state, there, if_neg gone] at step
      cases step
      rw [Kernel.setPr_prs, Function.update_self]
      refine ⟨fun posted => posted.2.1 at_, ⟨last, ?_⟩, there, .inl there⟩
      simp only [Portref.abort, Portref.pSemaIowait]
      split <;> simp
  | closing act shutting there =>
      subst act
      simp only [Step, Vsta.Msg.step, Kernel.shutClient, shutting, if_true, there] at step
      cases step
      rw [Kernel.setPr_prs, Function.update_self]
      refine ⟨fun posted => by simp [posted.2.2] at shutting, ⟨fun fresh => ?_, ?_, rfl⟩, there,
        .inl there⟩
      · exact absurd ((numbered.fresh fresh).1.symm.trans there) (by simp)
      · exact numbered.shutting shutting

/-- Every unread message was posted by its portref, to the port it is connected to, and
is there once. -/
structure Kernel.Queues (s : Kernel) : Prop where
  numbered : ∀ id, (s.prs id).Numbered
  posted : ∀ port id key, .of id key ∈ (s.ports port).unread → (s.prs id).Posted key
  dest : ∀ port id key, .of id key ∈ (s.ports port).unread →
    (s.prs id).pPort = none ∨ (s.prs id).pPort = some port
  one : ∀ port port' id key key', .of id key ∈ (s.ports port).unread →
    .of id key' ∈ (s.ports port').unread → port = port'
  nodup : ∀ port id key, (s.ports port).unread.count (.of id key) ≤ 1

theorem queues_boot : Kernel.boot.Queues :=
  ⟨fun _ => Portref.numbered_unborn, by simp [Kernel.boot, Port.unborn, Port.unread, Recv.bouncing],
    by simp [Kernel.boot, Port.unborn, Port.unread, Recv.bouncing],
    by simp [Kernel.boot, Port.unborn, Port.unread, Recv.bouncing],
    by simp [Kernel.boot, Port.unborn, Port.unread, Recv.bouncing]⟩

/-- A message that enters a queue goes where everything its portref has queued is. -/
theorem Kernel.Queues.same_port {s t : Kernel} {action : Action} (queues : s.Queues)
    (step : Step s action t) {port port' : PortId} {id : PrId} {key key' : MsgKey}
    (enters : Enters s action port (.of id key))
    (queued : .of id key' ∈ (s.ports port').unread) : port = port' := by
  obtain ⟨_, _, _, there | fresh⟩ := posted_of_enters step (queues.numbered id) enters
  · rcases queues.dest _ _ _ queued with gone | here
    · exact absurd (there.symm.trans gone) (by simp)
    · exact Option.some.inj (there.symm.trans here)
  · exact absurd (queues.posted _ _ _ queued)
      (Portref.not_posted_of_fresh (queues.numbered id) fresh key')

/-- A message that enters a queue was not there. -/
theorem Kernel.Queues.new_of_enters {s t : Kernel} {action : Action} (queues : s.Queues)
    (step : Step s action t) {port : PortId} {id : PrId} {key : MsgKey}
    (enters : Enters s action port (.of id key)) (other : PortId) :
    .of id key ∉ (s.ports other).unread := fun queued =>
  (posted_of_enters step (queues.numbered _) enters).1 (queues.posted _ _ _ queued)

theorem queues_step {s t : Kernel} {action : Action} (queues : s.Queues)
    (step : Step s action t) : t.Queues := by
  obtain ⟨prs, ports, _, _⟩ := step_changes step
  have entering : ∀ {port id key}, Enters s action port (.of id key) → (t.prs id).Posted key ∧
      (t.prs id).pPort = some port := fun enters =>
    have h := posted_of_enters step (queues.numbered _) enters
    ⟨h.2.1, h.2.2.1⟩
  refine ⟨fun id => numbered_prStep (queues.numbered id) (prs id), fun port id key queued => ?_,
    fun port id key queued => ?_, fun port port' id key key' here there => ?_,
    fun port id key => ?_⟩
  · rcases mem_unread_portStep (ports port) queued with before | enters
    · exact posted_prStep (queues.numbered id) (prs id) (queues.posted _ _ _ before)
    · exact (entering enters).1
  · rcases mem_unread_portStep (ports port) queued with before | enters
    · rcases port_prStep (prs id) with same | gone | fresh
      · rw [same]
        exact queues.dest _ _ _ before
      · exact .inl gone
      · exact absurd (queues.posted _ _ _ before)
          (Portref.not_posted_of_fresh (queues.numbered id) fresh key)
    · exact .inr (entering enters).2
  · rcases mem_unread_portStep (ports port) here with before | enters
    · rcases mem_unread_portStep (ports port') there with before' | enters'
      · exact queues.one _ _ _ _ _ before before'
      · exact (queues.same_port step enters' before).symm
    · rcases mem_unread_portStep (ports port') there with before' | enters'
      · exact queues.same_port step enters before'
      · exact Option.some.inj ((entering enters).2.symm.trans (entering enters').2)
  · rcases unread_portStep (ports port) with sub | ⟨m, enters, sub⟩
    · exact (sub.count_le _).trans (queues.nodup _ _ _)
    · have le := sub.count_le (.of id key)
      by_cases here : m = .of id key
      · subst here
        have absent := List.count_eq_zero_of_not_mem (queues.new_of_enters step enters port)
        rw [List.count_cons_self, absent] at le
        exact le
      · rw [List.count_cons_of_ne here] at le
        exact le.trans (queues.nodup port id key)

/-- **Each message is unread once.** -/
theorem queues_reaches {s : Kernel} {guard : Kernel → Action → Prop}
    (run : Transition.Reaches Step guard Kernel.boot s) : s.Queues :=
  run.invariant queues_boot fun _ _ _ queues _ step => queues_step queues step

/-- The receiver's message leaves its queue, and no other queue changes. -/
theorem ports_of_msgReceive {s t : Kernel} {port : PortId} {m : MsgId} {rest : List MsgId}
    (step : Step s (.msgReceive port) t) (first : (s.ports port).pHd = m :: rest) :
    (s.ports port).recv = .woken ∧ (t.ports port).unread = rest ∧
      ∀ other, other ≠ port → t.ports other = s.ports other := by
  simp only [Step, Vsta.Msg.step, Kernel.msgReceive, first] at step
  split_ifs at step with woken
  refine ⟨woken, ?_⟩
  have others : ∀ {ports : PortId → Port} {after : Port} {other}, other ≠ port →
      Function.update ports port after other = ports other := fun ne => Function.update_of_ne ne _ _
  cases m with
  | isr irq =>
      cases step
      exact ⟨by simp [Port.unread, Recv.bouncing], fun _ => others⟩
  | of pr key =>
      simp only at step
      split_ifs at step <;> cases step
      all_goals
        refine ⟨?_, fun _ => others⟩
        simp [Port.unread, Recv.bouncing, Port.refPort, Port.derefPort]

/-- The message that `msg_receive` takes has been received. -/
theorem receive_of_msgReceive {s t : Kernel} {port : PortId} {id : PrId} {key : MsgKey}
    {rest : List MsgId} (step : Step s (.msgReceive port) t)
    (first : (s.ports port).pHd = .of id key :: rest) : t.prs id = (s.prs id).receive key := by
  simp only [Step, Vsta.Msg.step, Kernel.msgReceive, first] at step
  split_ifs at step <;> cases step <;> exact Function.update_self _ _ _

/-! ## What has been received -/

/-- What is in `p_msg` was posted, and is no longer unread. -/
structure Kernel.Taken (s : Kernel) : Prop where
  posted : ∀ id key, (s.prs id).pMsg = some key → (s.prs id).Posted key
  read : ∀ id key port, (s.prs id).pMsg = some key → .of id key ∉ (s.ports port).unread

/-- `p_msg` comes from `msg_receive`. -/
theorem pMsg_prStep {s : Kernel} {action : Action} {id : PrId} {pr : Portref}
    (change : PrStep s action id pr) {key : MsgKey} (has : pr.pMsg = some key) :
    (s.prs id).pMsg = some key ∨ ∃ port rest, action = .msgReceive port ∧
      (s.ports port).pHd = .of id key :: rest := by
  cases change with
  | born => simp [Portref.alloc, Portref.unborn] at has
  | connecting =>
      simp [Portref.connecting, Portref.pSemaIowait, Portref.setSent, Portref.alloc,
        Portref.unborn] at has
  | receive act _ first =>
      obtain rfl := Option.some.inj has
      exact .inr ⟨_, _, act, first⟩
  | answer => simp at has
  | _ => first | exact .inl has | exact .inl (by simpa using has)

theorem taken_step {s t : Kernel} {action : Action} (queues : s.Queues) (taken : s.Taken)
    (step : Step s action t) : t.Taken := by
  obtain ⟨prs, ports, _, _⟩ := step_changes step
  refine ⟨fun id key has => ?_, fun id key port has unread => ?_⟩
  · refine posted_prStep (queues.numbered id) (prs id) ?_
    rcases pMsg_prStep (prs id) has with before | ⟨port, rest, _, first⟩
    · exact taken.posted id key before
    · exact queues.posted port id key
        (Port.mem_unread_of_mem_pHd (first ▸ List.mem_cons_self))
  · rcases pMsg_prStep (prs id) has with before | ⟨from_, rest, rfl, first⟩
    · rcases mem_unread_portStep (ports port) unread with still | enters
      · exact taken.read id key port before still
      · exact (posted_of_enters step (queues.numbered id) enters).1 (taken.posted id key before)
    · have head : .of id key ∈ (s.ports from_).unread :=
        Port.mem_unread_of_mem_pHd (first ▸ List.mem_cons_self)
      obtain ⟨woken, left, others⟩ := ports_of_msgReceive step first
      by_cases here : port = from_
      · subst here
        have once := queues.nodup port id key
        rw [left] at unread
        simp only [Port.unread, first, List.cons_append, List.count_cons_self] at once
        have again := List.count_pos_iff.mpr (List.mem_append_left
          (s.ports port).recv.bouncing unread)
        omega
      · rw [others port here] at unread
        exact here (queues.one _ _ _ _ _ unread head)

/-- **A message in `p_msg` is on no queue.** -/
theorem taken_reaches {s : Kernel} {guard : Kernel → Action → Prop}
    (run : Transition.Reaches Step guard Kernel.boot s) : s.Taken :=
  run.invariant_on_run ⟨by simp [Kernel.boot, Portref.unborn], by simp [Kernel.boot, Portref.unborn]⟩
    fun _ _ _ before taken _ step => taken_step (queues_reaches before) taken step

/-! ## The requests that have returned -/

/-- The thread goes on with its request, gives it up, or begins one. -/
inductive Works (s : Kernel) (action : Action) (id : PrId) : Io → Prop where
  | goes {io : Io} (req : io.req = (s.prs id).io.req) (job : io.job = (s.prs id).io.job) :
      Works s action id io
  | ends : Works s action id .idle
  | posts {io : Io} {job : Job} (idle : (s.prs id).io = .idle) (there : (s.prs id).pPort ≠ none)
      (req : io.req = some (s.prs id).serial) (has : io.job = some job) (job_ne : job ≠ .connect)
      (send : ∀ newpr, job = .dup newpr → (s.prs newpr).life = .unallocated ∧ newpr ≠ id ∧
        action = .dupPort id newpr) : Works s action id io
  | connects {io : Io} (fresh : (s.prs id).life = .unallocated) (req : io.req = some 0)
      (has : io.job = some .connect) : Works s action id io

theorem works_prStep {s : Kernel} {action : Action} {id : PrId} {pr : Portref}
    (change : PrStep s action id pr) : Works s action id pr.io := by
  have goes : ∀ {io io' : Io}, (s.prs id).io = io → io'.req = io.req → io'.job = io.job →
      Works s action id io' := fun at_ req job =>
    .goes (req.trans (by rw [at_])) (job.trans (by rw [at_]))
  have wakes : ∀ {io' : Io}, io' = (s.prs id).io.wake → Works s action id io' := by
    rintro _ rfl
    exact .goes (by simp) (by simp)
  cases change with
  | post idle there _ job_ne _ _ send =>
      exact .posts idle (by simp [there]) (by simp) (by simp) job_ne send
  | born => exact .ends
  | connecting _ fresh _ =>
      exact .connects fresh (Portref.pSemaIowait_req _ rfl rfl) (Portref.pSemaIowait_job _ rfl rfl)
  | event at_ => exact goes at_ rfl rfl
  | giveUp _ at_ _ _ => exact goes at_ rfl rfl
  | abort _ at_ _ _ _ => exact goes at_ (Portref.abort_req _ _) (Portref.abort_job _ _)
  | raced at_ _ => exact goes at_ (by simp [Io.req]) (by simp [Io.job])
  | collect _ at_ =>
      obtain ⟨error, out, _⟩ := Portref.collect_io (s.prs id) _ _
      exact goes at_ (by rw [out]; rfl) (by rw [out]; rfl)
  | aborted at_ => exact goes at_ rfl rfl
  | out1 at_ => exact goes at_ (by simp [Io.req]) (by simp [Io.job])
  | kernOut at_ _ => exact goes at_ rfl rfl
  | release => exact .ends
  | connectFails => exact .ends
  | connected => exact .ends
  | smToM => exact .goes (by simp) (by simp)
  | answer => exact wakes (by simp)
  | abortDone => exact wakes rfl
  | dupWake => exact wakes rfl
  | reject => exact wakes rfl
  | refuseOpen => exact wakes rfl
  | accept => exact wakes rfl
  | bounce =>
      rcases Portref.bounce_wake (s.prs id) ‹MsgKey› with ⟨_, io, _⟩ | ⟨_, io, _⟩
      · exact .goes (by rw [io]) (by rw [io])
      · exact wakes io
  | closeClient =>
      have io := Portref.closeClient_wake (s.prs id)
      split at io
      · exact wakes io
      · exact .goes (by rw [io]) (by rw [io])
  | _ => exact .goes rfl rfl

/-- A duplication makes a portref other than the one it duplicates. -/
def Kernel.DupsElsewhere (s : Kernel) : Prop :=
  ∀ id newpr, (s.prs id).io.job = some (.dup newpr) → newpr ≠ id

theorem dupsElsewhere_reaches {s : Kernel} {guard : Kernel → Action → Prop}
    (run : Transition.Reaches Step guard Kernel.boot s) : s.DupsElsewhere := by
  refine run.invariant (by simp [Kernel.DupsElsewhere, Kernel.boot, Portref.unborn, Io.job]) ?_
  intro source action target elsewhere _ step id newpr job
  have works := works_prStep ((step_changes step).prs id)
  generalize (target.prs id).io = io at works job
  cases works with
  | goes _ same => exact elsewhere id newpr (same ▸ job)
  | ends => cases job
  | posts _ _ _ has _ send => exact (send newpr (Option.some.inj (has.symm.trans job))).2.1
  | connects _ _ has => cases has.symm.trans job

/-- A thread that releases `p_sema` leaves the connection idle. -/
theorem io_of_release {s t : Kernel} {id : PrId} (step : Step s (.release id) t)
    (elsewhere : s.DupsElsewhere) : (t.prs id).io = .idle := by
  simp only [Step, Vsta.Msg.step, Kernel.release] at step
  split at step
  · cases step
    simp [Kernel.finish]
  · split_ifs at step
    cases step
    simp [Kernel.finish]
  · rename_i n newpr error at_
    split at step
    · cases step
    · cases step
      have ne := elsewhere id newpr (by rw [at_]; rfl)
      simp [Kernel.finish, ne.symm]
  · cases step

/-- Requests that have returned are over: their thread works on none of them. -/
def Kernel.Returned (s : Kernel) : Prop :=
  ∀ d ∈ s.done, d.n < (s.prs d.pr).serial ∧ (s.prs d.pr).io.req ≠ some d.n

theorem returned_reaches {s : Kernel} {guard : Kernel → Action → Prop}
    (run : Transition.Reaches Step guard Kernel.boot s) : s.Returned := by
  refine run.invariant_on_run (by simp [Kernel.Returned, Kernel.boot]) ?_
  intro source action target before returned _ step d member
  have changes := step_changes step
  have queues := queues_reaches before
  have older : d ∈ source.done → d.n < (target.prs d.pr).serial ∧
      (target.prs d.pr).io.req ≠ some d.n := by
    intro old
    obtain ⟨made, finished⟩ := returned d old
    have exists_ : (source.prs d.pr).life ≠ .unallocated := fun fresh =>
      Portref.not_posted_of_fresh (queues.numbered _) fresh (.sm d.n) made
    refine ⟨lt_of_lt_of_le made (serial_prStep (changes.prs d.pr) exists_), fun now => ?_⟩
    have works := works_prStep (changes.prs d.pr)
    generalize (target.prs d.pr).io = io at works now
    cases works with
    | goes same _ => exact finished (same ▸ now)
    | ends => cases now
    | posts _ _ same _ _ _ =>
        have := Option.some.inj (same.symm.trans now)
        omega
    | connects fresh _ _ => exact exists_ fresh
  have done := changes.done
  generalize target.done = list at done member
  cases done with
  | same => exact older member
  | returned act at_ =>
      rcases List.mem_cons.mp member with rfl | old
      · subst act
        refine ⟨?_, ?_⟩
        · have made := (queues.numbered _).current _ (by rw [at_]; rfl)
          refine lt_of_lt_of_le made (serial_prStep (changes.prs _) fun fresh => ?_)
          exact Portref.not_posted_of_fresh (queues.numbered _) fresh (.sm _) made
        · simp [io_of_release step (dupsElsewhere_reaches before), Io.req]
      · exact older old

end Vsta.Msg
