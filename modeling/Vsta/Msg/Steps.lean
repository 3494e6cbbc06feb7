import Vsta.Msg.System

/-!
# What one step can do

A step changes a portref by one of the sections of its lock, and a port by one of
the sections of its own. `PrStep` and `PortStep` list them, each with what the state
and the action say when it happens; `PrefStep` and `DoneStep` do so for the hashes and
for the requests that have returned. `step_changes` shows that the lists are complete.
The invariants are proved along these lists.
-/

set_option autoImplicit false

namespace Vsta.Msg

/-- The action queues a request of the portref. -/
abbrev Action.Posts (action : Action) (id : PrId) : Prop :=
  (∃ r, action = .msgSend id r) ∨ (∃ op arg arg1, action = .kernmsgSend id op arg arg1) ∨
    ∃ newpr, action = .dupPort id newpr

/-- What the action makes of the portref `id` in state `s`. -/
inductive PrStep (s : Kernel) (action : Action) (id : PrId) : Portref → Prop where
  | same : PrStep s action id (s.prs id)
  | line (opened : (s.prs id).life = .opened) :
      PrStep s action id { s.prs id with waiters := (s.prs id).waiters + 1 }
  | unline : PrStep s action id { s.prs id with waiters := (s.prs id).waiters - 1 }
  | post {job : Job} {m : Sysmsg} {port : PortId} (idle : (s.prs id).io = .idle)
      (there : (s.prs id).pPort = some port) (waiting : 0 < (s.prs id).waiters)
      (job_ne : job ≠ .connect) (unread : m.received = false ∧ m.replied = false)
      (user : M_RESVD ≤ m.op ∧ (∀ newpr, job ≠ .dup newpr) ∨ ∃ newpr, job = .dup newpr ∧
        action = .dupPort id newpr ∧ m.op = M_DUP ∧ m.arg = newpr)
      (send : ∀ newpr, job = .dup newpr → (s.prs newpr).life = .unallocated ∧ newpr ≠ id ∧
        action = .dupPort id newpr)
      (act : action.Posts id) : PrStep s action id ((s.prs id).post job m)
  | born {opr : PrId} {port : PortId} (act : action = .dupPort opr id)
      (fresh : (s.prs id).life = .unallocated) (there : (s.prs opr).pPort = some port)
      (idle : (s.prs opr).io = .idle) :
      PrStep s action id { Portref.alloc false with
        pPort := (s.prs opr).pPort, pState := .PS_IODONE, parent := some opr }
  | connecting {port : PortId} {nodup : Bool} {mode : Int}
      (act : action = .msgConnect id port nodup mode) (fresh : (s.prs id).life = .unallocated)
      (named : (s.ports port).named = true) :
      PrStep s action id (Portref.connecting nodup port ⟨M_CONNECT, mode, 0, 0, 0, false, false⟩)
  | event {n : Nat} (at_ : (s.prs id).io = .asleep n .send) :
      PrStep s action id ((s.prs id).event n)
  | giveUp {n : Nat} (act : action = .sendIntr id) (at_ : (s.prs id).io = .broken n)
      (state : (s.prs id).pState = .PS_IOWAIT)
      (why : (s.prs id).pPort = none ∨ ∃ port, (s.prs id).pPort = some port ∧
        .of id (.sm n) ∈ (s.ports port).pHd) : PrStep s action id ((s.prs id).giveUp n)
  | abort {n : Nat} {port : PortId} (act : action = .sendIntr id)
      (at_ : (s.prs id).io = .broken n) (state : (s.prs id).pState = .PS_IOWAIT)
      (there : (s.prs id).pPort = some port) (gone : .of id (.sm n) ∉ (s.ports port).pHd) :
      PrStep s action id ((s.prs id).abort n)
  | raced {n : Nat} (at_ : (s.prs id).io = .broken n) (state : (s.prs id).pState = .PS_IODONE) :
      PrStep s action id ((s.prs id).raced n)
  | collect {n : Nat} {copy : Portref.Copy} (act : action = .sendWoken id copy)
      (at_ : (s.prs id).io = .woken n .send) : PrStep s action id ((s.prs id).collect n copy)
  | aborted {n : Nat} (at_ : (s.prs id).io = .abWoken n) :
      PrStep s action id { s.prs id with io := .out1 n true }
  | out1 {n : Nat} {error : Bool} (at_ : (s.prs id).io = .out1 n error) :
      PrStep s action id ((s.prs id).out1 n error)
  | kernOut {n : Nat} {job : Job} (at_ : (s.prs id).io = .woken n job)
      (kern : job = .kern ∨ ∃ newpr, job = .dup newpr) :
      PrStep s action id ((s.prs id).kernOut n job)
  | release {n : Nat} {job : Job} {error : Bool} (act : action = .release id)
      (at_ : (s.prs id).io = .release n job error) : PrStep s action id { s.prs id with io := .idle }
  | handed {opr : PrId} {n : Nat} {error : Bool} (act : action = .release opr)
      (at_ : (s.prs opr).io = .release n (.dup id) error) :
      PrStep s action id { s.prs id with life := if error then .freed else .opened }
  | connectFails {n : Nat} (act : action = .connectDone id)
      (at_ : (s.prs id).io = .woken n .connect)
      (why : (s.prs id).pPort = none ∨ (s.prs id).pState ≠ .PS_IODONE) :
      PrStep s action id { s.prs id with io := .idle, life := .freed }
  | connected {n : Nat} (act : action = .connectDone id) (at_ : (s.prs id).io = .woken n .connect)
      (there : (s.prs id).pPort ≠ none) (state : (s.prs id).pState = .PS_IODONE) :
      PrStep s action id { s.prs id with io := .idle, life := .opened }
  | fork (opened : (s.prs id).life = .opened) (refs : 0 < (s.prs id).pRefs) :
      PrStep s action id { s.prs id with pRefs := (s.prs id).pRefs + 1 }
  | unref (opened : (s.prs id).life = .opened) (refs : 0 < (s.prs id).pRefs) :
      PrStep s action id { s.prs id with
        pRefs := (s.prs id).pRefs - 1, shutting := decide ((s.prs id).pRefs = 1) }
  | free (act : action = .shutClient id) (shutting : (s.prs id).shutting = true)
      (gone : (s.prs id).pPort = none) :
      PrStep s action id { s.prs id with shutting := false, life := .freed }
  | shut {port : PortId} (act : action = .shutClient id) (shutting : (s.prs id).shutting = true)
      (there : (s.prs id).pPort = some port) :
      PrStep s action id { (s.prs id).setSent .disc ⟨M_DISCONNECT, id, 0, 0, 0, false, false⟩ with
        shutting := false, pState := .PS_CLOSING }
  | receive {port : PortId} {key : MsgKey} {rest : List MsgId} (act : action = .msgReceive port)
      (woken : (s.ports port).recv = .woken) (first : (s.ports port).pHd = .of id key :: rest) :
      PrStep s action id ((s.prs id).receive key)
  | hashed {port : PortId} {key : MsgKey} (act : action = .newClient port)
      (at_ : (s.ports port).recv = .newClient id key) :
      PrStep s action id ((s.prs id).setSent key { (s.prs id).sent key with nseg := 1 })
  | deleted {port : PortId} {key : MsgKey} (act : action = .delClient port)
      (at_ : (s.ports port).recv = .delClient id key) :
      PrStep s action id { s.prs id with life := .freed }
  | smToM {port : PortId} {key : MsgKey} {mapped : Bool} (act : action = .deliver port mapped)
      (at_ : (s.ports port).recv = .deliver (.of id key)) :
      PrStep s action id ((s.prs id).smToM key mapped)
  | answer {p : ProcId} {om : MsgKey} {r : Portref.Reply} (act : action = .msgReply p id r)
      (known : s.prefs p id = true) (state : (s.prs id).pState = .PS_IOWAIT)
      (has : (s.prs id).pMsg = some om)
      (plain : ¬(((s.prs id).sent om).op = M_DUP ∧ r.arg ≠ -1)) :
      PrStep s action id ((s.prs id).answer om r)
  | acceptDup {p : ProcId} {om : MsgKey} {r : Portref.Reply} {port : PortId}
      (act : action = .msgReply p id r) (known : s.prefs p id = true)
      (state : (s.prs id).pState = .PS_IOWAIT) (has : (s.prs id).pMsg = some om)
      (dup : ((s.prs id).sent om).op = M_DUP ∧ r.arg ≠ -1) (there : (s.prs id).pPort = some port) :
      PrStep s action id ((s.prs id).acceptDup om ((s.prs id).sent om).arg.toNat p)
  | abortDone {p : ProcId} {r : Portref.Reply} (act : action = .msgReply p id r)
      (known : s.prefs p id = true) (state : (s.prs id).pState = .PS_ABWAIT) (ack : r.op = M_ABORT) :
      PrStep s action id (s.prs id).abortDone
  | dupWake {newpr : PrId} {p : ProcId} (act : action = .dupWake id newpr p)
      (pending : (newpr, p) ∈ (s.prs id).dupWakes) : PrStep s action id ((s.prs id).dupWake newpr p)
  | dupWoken {opr : PrId} {p : ProcId} (act : action = .dupWake opr id p)
      (pending : (id, p) ∈ (s.prs opr).dupWakes) (distinct : id ≠ opr) :
      PrStep s action id { s.prs id with dupHash := some p }
  | dupHash {p : ProcId} (act : action = .dupHash id) (pending : (s.prs id).dupHash = some p) :
      PrStep s action id { s.prs id with dupHash := none }
  | reject {p : ProcId} {om : MsgKey} {port : PortId} (act : action = .msgErr p id)
      (known : s.prefs p id = true) (state : (s.prs id).pState = .PS_IOWAIT)
      (has : (s.prs id).pMsg = some om) (there : (s.prs id).pPort = some port) :
      PrStep s action id ((s.prs id).reject om)
  | refuseOpen {p : ProcId} {om : MsgKey} {port : PortId} (act : action = .msgErr p id)
      (known : s.prefs p id = true) (state : (s.prs id).pState = .PS_OPENING)
      (has : (s.prs id).pMsg = some om) (there : (s.prs id).pPort = some port) :
      PrStep s action id (s.prs id).refuseOpen
  | accept {p : ProcId} (act : action = .msgAccept p id) (known : s.prefs p id = true)
      (state : (s.prs id).pState = .PS_OPENING) : PrStep s action id (s.prs id).accept
  | bounce {port : PortId} {key : MsgKey} {rest : List MsgId} (act : action = .bounceMsg port)
      (at_ : (s.ports port).recv = .shut (.bouncing (.of id key :: rest))) :
      PrStep s action id ((s.prs id).bounce key)
  | closeClient {port : PortId} {rest : List PrId} (act : action = .closeClient port)
      (at_ : (s.ports port).recv = .shut (.bouncing [])) (empty : (s.ports port).pHd = [])
      (first : (s.ports port).pRefs = id :: rest) : PrStep s action id (s.prs id).closeClient

/-- What the action makes of the port `id` in state `s`. -/
inductive PortStep (s : Kernel) (action : Action) (id : PortId) : Port → Prop where
  | same : PortStep s action id (s.ports id)
  | alloc {owner : ProcId} (fresh : (s.ports id).life = .unallocated) :
      PortStep s action id (Port.alloc owner)
  | posted {pr : PrId} (there : (s.prs pr).pPort = some id) (idle : (s.prs pr).io = .idle)
      (waiting : 0 < (s.prs pr).waiters) (act : action.Posts pr) :
      PortStep s action id ((s.ports id).lqueueMsg (.of pr (.sm (s.prs pr).serial)))
  | connecting {pr : PrId} {nodup : Bool} {mode : Int}
      (act : action = .msgConnect pr id nodup mode) (fresh : (s.prs pr).life = .unallocated)
      (named : (s.ports id).named = true) :
      PortStep s action id ((s.ports id).lqueueMsg (.of pr (.sm 0)))
  | aborted {pr : PrId} {n : Nat} (act : action = .sendIntr pr) (at_ : (s.prs pr).io = .broken n)
      (state : (s.prs pr).pState = .PS_IOWAIT) (there : (s.prs pr).pPort = some id)
      (gone : .of pr (.sm n) ∉ (s.ports id).pHd) :
      PortStep s action id ((s.ports id).lqueueMsg (.of pr (.sm2 n)))
  | closing {pr : PrId} (act : action = .shutClient pr) (shutting : (s.prs pr).shutting = true)
      (there : (s.prs pr).pPort = some id) :
      PortStep s action id ((s.ports id).lqueueMsg (.of pr .disc))
  | isr {irq : Nat} : PortStep s action id ((s.ports id).lqueueMsg (.isr irq))
  | pullBack {pr : PrId} {n : Nat} (act : action = .sendIntr pr) (at_ : (s.prs pr).io = .broken n)
      (state : (s.prs pr).pState = .PS_IOWAIT) (there : (s.prs pr).pPort = some id)
      (queued : .of pr (.sm n) ∈ (s.ports id).pHd) :
      PortStep s action id ((s.ports id).pullBack (.of pr (.sm n)))
  | waits (free : (s.ports id).recv = .idle) (opened : (s.ports id).life = .opened) :
      PortStep s action id (s.ports id).pSemaWait
  | event (at_ : (s.ports id).recv = .asleep) : PortStep s action id (s.ports id).event
  | takeIsr {irq : Nat} {rest : List MsgId} (at_ : (s.ports id).recv = .woken)
      (first : (s.ports id).pHd = .isr irq :: rest) :
      PortStep s action id { s.ports id with pHd := rest, recv := .deliver (.isr irq) }
  | takeConnect {pr : PrId} {key : MsgKey} {rest : List MsgId} (act : action = .msgReceive id)
      (at_ : (s.ports id).recv = .woken) (first : (s.ports id).pHd = .of pr key :: rest)
      (op : ((s.prs pr).sent key).op = M_CONNECT) :
      PortStep s action id
        { ({ s.ports id with pHd := rest }).refPort pr with recv := .newClient pr key }
  | takeDisconnect {pr : PrId} {key : MsgKey} {rest : List MsgId} (act : action = .msgReceive id)
      (at_ : (s.ports id).recv = .woken) (first : (s.ports id).pHd = .of pr key :: rest)
      (op : ((s.prs pr).sent key).op = M_DISCONNECT) :
      PortStep s action id
        { ({ s.ports id with pHd := rest }).derefPort pr with recv := .delClient pr key }
  | take {pr : PrId} {key : MsgKey} {rest : List MsgId} (act : action = .msgReceive id)
      (at_ : (s.ports id).recv = .woken) (first : (s.ports id).pHd = .of pr key :: rest)
      (op : ((s.prs pr).sent key).op ≠ M_CONNECT ∧ ((s.prs pr).sent key).op ≠ M_DISCONNECT) :
      PortStep s action id { s.ports id with pHd := rest, recv := .deliver (.of pr key) }
  | hashed {pr : PrId} {key : MsgKey} (act : action = .newClient id)
      (at_ : (s.ports id).recv = .newClient pr key) :
      PortStep s action id { s.ports id with recv := .deliver (.of pr key) }
  | deleted {pr : PrId} {key : MsgKey} (act : action = .delClient id)
      (at_ : (s.ports id).recv = .delClient pr key) :
      PortStep s action id { s.ports id with recv := .deliver (.of pr key) }
  | delivered {m : MsgId} (at_ : (s.ports id).recv = .deliver m) :
      PortStep s action id { s.ports id with recv := .idle }
  | refDup {pr : PrId} {p : ProcId} {om : MsgKey} {r : Portref.Reply}
      (act : action = .msgReply p pr r) (known : s.prefs p pr = true)
      (state : (s.prs pr).pState = .PS_IOWAIT) (has : (s.prs pr).pMsg = some om)
      (dup : ((s.prs pr).sent om).op = M_DUP ∧ r.arg ≠ -1)
      (there : (s.prs pr).pPort = some id) :
      PortStep s action id ((s.ports id).refPort ((s.prs pr).sent om).arg.toNat)
  | refused {pr : PrId} {p : ProcId} (act : action = .msgErr p pr) (known : s.prefs p pr = true)
      (state : (s.prs pr).pState = .PS_OPENING) (has : (s.prs pr).pMsg ≠ none)
      (there : (s.prs pr).pPort = some id) :
      PortStep s action id ((s.ports id).derefPort pr)
  | disconnect (act : action = .msgDisconnect id) (free : (s.ports id).recv = .idle)
      (opened : (s.ports id).life = .opened) :
      PortStep s action id { s.ports id with named := false, recv := .shut .bounce }
  | bounce (act : action = .bounceMsgs id) (at_ : (s.ports id).recv = .shut .bounce) :
      PortStep s action id
        { s.ports id with pHd := [], recv := .shut (.bouncing (s.ports id).pHd) }
  | bounced {m : MsgId} {rest : List MsgId} (act : action = .bounceMsg id)
      (at_ : (s.ports id).recv = .shut (.bouncing (m :: rest))) :
      PortStep s action id { s.ports id with recv := .shut (.bouncing rest) }
  | gone (at_ : (s.ports id).recv = .shut (.bouncing [])) (none : (s.ports id).pRefs = []) :
      PortStep s action id { s.ports id with life := .freed, recv := .shut .done }
  | again (at_ : (s.ports id).recv = .shut (.bouncing [])) :
      PortStep s action id { s.ports id with recv := .shut .bounce }
  | closed {pr : PrId} {rest : List PrId} (act : action = .closeClient id)
      (at_ : (s.ports id).recv = .shut (.bouncing [])) (empty : (s.ports id).pHd = [])
      (first : (s.ports id).pRefs = pr :: rest) :
      PortStep s action id { (s.ports id).derefPort pr with recv := .shut (.unhash pr) }
  | unhashed {pr : PrId} (act : action = .hashDelete id)
      (at_ : (s.ports id).recv = .shut (.unhash pr)) :
      PortStep s action id { s.ports id with recv := .shut (.bouncing []) }

/-- What the action makes of the hashes `p_prefs`. -/
inductive PrefStep (s : Kernel) (action : Action) : (ProcId → PrId → Bool) → Prop where
  | same : PrefStep s action s.prefs
  | hashed {port : PortId} {pr : PrId} {key : MsgKey} (act : action = .newClient port)
      (at_ : (s.ports port).recv = .newClient pr key) :
      PrefStep s action (s.setPref (s.ports port).owner pr true).prefs
  | deleted {port : PortId} {pr : PrId} {key : MsgKey} (act : action = .delClient port)
      (at_ : (s.ports port).recv = .delClient pr key) :
      PrefStep s action (s.setPref (s.ports port).owner pr false).prefs
  | dupHashed {newpr : PrId} {p : ProcId} (act : action = .dupHash newpr)
      (pending : (s.prs newpr).dupHash = some p) : PrefStep s action (s.setPref p newpr true).prefs
  | refused {p : ProcId} {pr : PrId} (act : action = .msgErr p pr) (known : s.prefs p pr = true)
      (state : (s.prs pr).pState = .PS_OPENING) : PrefStep s action (s.setPref p pr false).prefs
  | unhashed {port : PortId} {pr : PrId} (act : action = .hashDelete port)
      (at_ : (s.ports port).recv = .shut (.unhash pr))
      (known : s.prefs (s.ports port).owner pr = true) :
      PrefStep s action (s.setPref (s.ports port).owner pr false).prefs

/-- What the action makes of the requests that have returned. -/
inductive DoneStep (s : Kernel) (action : Action) : List Done → Prop where
  | same : DoneStep s action s.done
  | returned {id : PrId} {n : Nat} {job : Job} {error : Bool} (act : action = .release id)
      (at_ : (s.prs id).io = .release n job error) :
      DoneStep s action (⟨id, n, job, error, ((s.prs id).sent (.sm n)).received,
        ((s.prs id).sent (.sm n)).replied⟩ :: s.done)

theorem PrStep.update {s : Kernel} {action : Action} {changed : PrId} {pr : Portref}
    (here : PrStep s action changed pr) (id : PrId) :
    PrStep s action id (Function.update s.prs changed pr id) := by
  by_cases same : id = changed
  · subst same
    rwa [Function.update_self]
  · rw [Function.update_of_ne same]
    exact .same

theorem PrStep.update₂ {s : Kernel} {action : Action} {first last : PrId} {pr pr' : Portref}
    (hereFirst : PrStep s action first pr) (hereLast : PrStep s action last pr') (id : PrId) :
    PrStep s action id (Function.update (Function.update s.prs first pr) last pr' id) := by
  by_cases same : id = last
  · subst same
    rwa [Function.update_self]
  · rw [Function.update_of_ne same]
    exact hereFirst.update id

theorem PortStep.update {s : Kernel} {action : Action} {changed : PortId} {port : Port}
    (here : PortStep s action changed port) (id : PortId) :
    PortStep s action id (Function.update s.ports changed port id) := by
  by_cases same : id = changed
  · subst same
    rwa [Function.update_self]
  · rw [Function.update_of_ne same]
    exact .same

/-- The next state, component by component. -/
structure Changes (s : Kernel) (action : Action) (t : Kernel) : Prop where
  prs : ∀ id, PrStep s action id (t.prs id)
  ports : ∀ id, PortStep s action id (t.ports id)
  prefs : PrefStep s action t.prefs
  done : DoneStep s action t.done

theorem Changes.refl (s : Kernel) (action : Action) : Changes s action s :=
  ⟨fun _ => .same, fun _ => .same, .same, .same⟩

/-- One portref changes. -/
theorem Changes.pr {s t : Kernel} {action : Action} {id : PrId} {pr : Portref}
    (here : PrStep s action id pr) (prs : t.prs = Function.update s.prs id pr)
    (ports : t.ports = s.ports) (prefs : PrefStep s action t.prefs)
    (done : DoneStep s action t.done) : Changes s action t :=
  ⟨fun other => prs ▸ here.update other, fun _ => ports ▸ .same, prefs, done⟩

/-- One port changes. -/
theorem Changes.port {s t : Kernel} {action : Action} {id : PortId} {port : Port}
    (here : PortStep s action id port) (prs : t.prs = s.prs)
    (ports : t.ports = Function.update s.ports id port)
    (prefs : PrefStep s action t.prefs)
    (done : DoneStep s action t.done) : Changes s action t :=
  ⟨fun _ => prs ▸ .same, fun other => ports ▸ here.update other, prefs, done⟩

/-- One portref and one port change. -/
theorem Changes.both {s t : Kernel} {action : Action} {id : PrId} {portId : PortId}
    {pr : Portref} {port : Port} (herePr : PrStep s action id pr)
    (herePort : PortStep s action portId port) (prs : t.prs = Function.update s.prs id pr)
    (ports : t.ports = Function.update s.ports portId port)
    (prefs : PrefStep s action t.prefs)
    (done : DoneStep s action t.done) : Changes s action t :=
  ⟨fun other => prs ▸ herePr.update other, fun other => ports ▸ herePort.update other, prefs, done⟩

/-! ## The sections that do more than one thing -/

theorem send_cases {s t : Kernel} {id : PrId} {job : Job} {m : Sysmsg}
    (h : s.send id job m = some t) :
    (s.prs id).io = .idle ∧ 0 < (s.prs id).waiters ∧
      ((s.prs id).pPort = none ∧
          t = s.setPr id { s.prs id with waiters := (s.prs id).waiters - 1 } ∨
        ∃ port, (s.prs id).pPort = some port ∧
          t = (s.setPort port ((s.ports port).lqueueMsg (.of id (.sm (s.prs id).serial)))).setPr id
            ((s.prs id).post job m)) := by
  simp only [Kernel.send] at h
  split at h
  · rename_i free
    refine ⟨free.1, free.2, ?_⟩
    split at h
    · rename_i gone
      exact .inl ⟨gone, (Option.some.inj h).symm⟩
    · rename_i port there
      exact .inr ⟨port, there, (Option.some.inj h).symm⟩
  · cases h

theorem msgSend_changes {s t : Kernel} {id : PrId} {r : Request}
    (h : s.msgSend id r = some t) : Changes s (.msgSend id r) t := by
  simp only [Kernel.msgSend] at h
  split_ifs at h with passes
  obtain ⟨idle, waiting, ⟨_, rfl⟩ | ⟨port, there, rfl⟩⟩ := send_cases h
  · exact .pr .unline rfl rfl .same .same
  · refine .both (.post idle there waiting (by simp) ⟨rfl, rfl⟩ (.inl ⟨?_, by simp⟩) (by simp)
      (.inl ⟨r, rfl⟩)) (.posted there idle waiting (.inl ⟨r, rfl⟩)) rfl rfl .same .same
    exact le_trans passes.1 (Nat.mod_le _ _)

theorem kernmsgSend_changes {s t : Kernel} {id : PrId} {op : Nat} {arg arg1 : Int}
    (h : s.kernmsgSend id op arg arg1 = some t) :
    Changes s (.kernmsgSend id op arg arg1) t := by
  simp only [Kernel.kernmsgSend] at h
  split_ifs at h with user
  obtain ⟨idle, waiting, ⟨_, rfl⟩ | ⟨port, there, rfl⟩⟩ := send_cases h
  · exact .pr .unline rfl rfl .same .same
  · have act : (Action.kernmsgSend id op arg arg1).Posts id := .inr (.inl ⟨op, arg, arg1, rfl⟩)
    exact .both (.post idle there waiting (by simp) ⟨rfl, rfl⟩ (.inl ⟨user, by simp⟩) (by simp) act)
      (.posted there idle waiting act) rfl rfl .same .same

theorem dupPort_changes {s t : Kernel} {id newpr : PrId} (h : s.dupPort id newpr = some t) :
    Changes s (.dupPort id newpr) t := by
  simp only [Kernel.dupPort] at h
  split at h
  · rename_i fresh
    obtain ⟨fresh, _, distinct⟩ := fresh
    split at h
    · cases h
    · rename_i next sent
      obtain ⟨idle, waiting, ⟨gone, rfl⟩ | ⟨port, there, rfl⟩⟩ := send_cases sent
      · rw [if_pos gone] at h
        cases h
        exact .pr .unline rfl rfl .same .same
      · rw [if_neg (by simp [there])] at h
        cases h
        refine ⟨PrStep.update₂ ?_ (.born rfl fresh there idle), PortStep.update ?_, .same, .same⟩
        · refine .post idle there waiting (by simp) ⟨rfl, rfl⟩ (.inr ⟨newpr, rfl, rfl, rfl, rfl⟩)
            (fun other eq => ?_) (.inr (.inr ⟨newpr, rfl⟩))
          cases eq
          exact ⟨fresh, distinct, rfl⟩
        · exact .posted there idle waiting (.inr (.inr ⟨newpr, rfl⟩))
  · cases h

theorem sendIntr_changes {s t : Kernel} {id : PrId} (h : s.sendIntr id = some t) :
    Changes s (.sendIntr id) t := by
  simp only [Kernel.sendIntr] at h
  split at h
  · rename_i n at_
    split at h
    · rename_i state
      split at h
      · rename_i gone
        cases h
        exact .pr (.giveUp rfl at_ state (.inl gone)) rfl rfl .same .same
      · rename_i port there
        split_ifs at h with queued
        · cases h
          exact .both (.giveUp rfl at_ state (.inr ⟨port, there, queued⟩))
            (.pullBack rfl at_ state there queued) rfl rfl .same .same
        · cases h
          exact .both (.abort rfl at_ state there queued) (.aborted rfl at_ state there queued)
            rfl rfl .same .same
    · rename_i state
      cases h
      exact .pr (.raced at_ state) rfl rfl .same .same
    · cases h
  · cases h

theorem release_changes {s t : Kernel} {id : PrId} (h : s.release id = some t) :
    Changes s (.release id) t := by
  simp only [Kernel.release] at h
  split at h
  · rename_i n error at_
    cases h
    exact .pr (.release rfl at_) rfl rfl .same (.returned rfl at_)
  · rename_i n error at_
    split_ifs at h
    cases h
    exact .pr (.release rfl at_) rfl rfl .same (.returned rfl at_)
  · rename_i n newpr error at_
    split at h
    · cases h
    · cases h
      exact ⟨PrStep.update₂ (.release rfl at_) (.handed rfl at_), fun _ => .same, .same,
        .returned rfl at_⟩
  · cases h

theorem connectDone_changes {s t : Kernel} {id : PrId} (h : s.connectDone id = some t) :
    Changes s (.connectDone id) t := by
  simp only [Kernel.connectDone] at h
  split at h
  · rename_i n at_
    split_ifs at h with fails
    · cases h
      exact .pr (.connectFails rfl at_ fails) rfl rfl .same .same
    · cases h
      simp only [not_or, not_not] at fails
      exact .pr (.connected rfl at_ fails.1 fails.2) rfl rfl .same .same
  · cases h

theorem shutClient_changes {s t : Kernel} {id : PrId} (h : s.shutClient id = some t) :
    Changes s (.shutClient id) t := by
  simp only [Kernel.shutClient] at h
  split_ifs at h with shutting
  split at h
  · rename_i gone
    cases h
    exact .pr (.free rfl shutting gone) rfl rfl .same .same
  · rename_i port there
    cases h
    exact .both (.shut rfl shutting there) (.closing rfl shutting there) rfl rfl .same .same

theorem deliverIsr_changes {s t : Kernel} {irq : Nat} (h : s.deliverIsr irq = some t) :
    Changes s (.deliverIsr irq) t := by
  simp only [Kernel.deliverIsr] at h
  split at h
  · cases h
  · split_ifs at h
    · cases h
      exact .port .isr rfl rfl .same .same
    · cases h
      exact ⟨fun _ => .same, fun _ => .same, .same, .same⟩

theorem msgReceive_changes {s t : Kernel} {id : PortId} (h : s.msgReceive id = some t) :
    Changes s (.msgReceive id) t := by
  simp only [Kernel.msgReceive] at h
  split_ifs at h with woken
  split at h
  · cases h
  · rename_i irq rest first
    cases h
    exact .port (.takeIsr woken first) rfl rfl .same .same
  · rename_i pr key rest first
    have received : PrStep s (.msgReceive id) pr _ := .receive rfl woken first
    split_ifs at h with connect disconnect
    · cases h
      exact .both received (.takeConnect rfl woken first connect) rfl rfl .same .same
    · cases h
      exact .both received (.takeDisconnect rfl woken first disconnect) rfl rfl .same .same
    · cases h
      exact .both received (.take rfl woken first ⟨connect, disconnect⟩) rfl rfl .same .same

theorem deliver_changes {s t : Kernel} {id : PortId} {mapped : Bool}
    (h : s.deliver id mapped = some t) : Changes s (.deliver id mapped) t := by
  simp only [Kernel.deliver] at h
  split at h
  · rename_i pr key at_
    cases h
    exact .both (.smToM rfl at_) (.delivered at_) rfl rfl .same .same
  · rename_i irq at_
    cases h
    exact .port (.delivered at_) rfl rfl .same .same
  · cases h

theorem msgReply_changes {s t : Kernel} {p : ProcId} {id : PrId} {r : Portref.Reply}
    {result : Result} (h : s.msgReply p id r = some (result, t)) :
    Changes s (.msgReply p id r) t := by
  simp only [Kernel.msgReply] at h
  split at h
  · cases h
    exact .refl s _
  · rename_i unknown
    have known : s.prefs p id = true := by simpa using unknown
    split at h
    · rename_i state
      split at h
      · cases h
        exact .refl s _
      · rename_i om has
        split at h
        · rename_i dup
          split at h
          · cases h
          · rename_i port there
            split at h
            · cases h
            cases h
            exact .both (.acceptDup rfl known state has dup there)
              (.refDup rfl known state has dup there) rfl rfl .same .same
        · rename_i plain
          cases h
          exact .pr (.answer rfl known state has plain) rfl rfl .same .same
    · rename_i state
      split at h
      · cases h
        exact .refl s _
      · rename_i ack
        cases h
        exact .pr (.abortDone rfl known state (not_not.mp ack)) rfl rfl .same .same
    · cases h
      exact .refl s _

theorem dupWake_changes {s t : Kernel} {id newpr : PrId} {p : ProcId}
    (h : s.dupWake id newpr p = some t) : Changes s (.dupWake id newpr p) t := by
  simp only [Kernel.dupWake] at h
  split at h
  · rename_i pending
    cases h
    exact ⟨PrStep.update₂ (.dupWoken rfl pending.1 pending.2) (.dupWake rfl pending.1),
      fun _ => .same, .same, .same⟩
  · cases h

theorem msgErr_changes (s : Kernel) (p : ProcId) (id : PrId) :
    Changes s (.msgErr p id) (s.msgErr p id).2 := by
  simp only [Kernel.msgErr]
  split_ifs with unknown opening
  · exact .refl s _
  · have known : s.prefs p id = true := by simpa using unknown
    have same : Changes s (.msgErr p id) (s.setPref p id false) :=
      ⟨fun _ => .same, fun _ => .same, .refused rfl known opening, .same⟩
    split
    · exact same
    · exact same
    · rename_i port om there has
      simp only [opening]
      refine .both (.refuseOpen rfl known opening has there)
        (.refused rfl known opening (by simp [has]) there) ?_ ?_ (.refused rfl known opening) .same
        <;> rfl
  · have known : s.prefs p id = true := by simpa using unknown
    split
    · exact .refl s _
    · exact .refl s _
    · rename_i port om there has
      split
      · rename_i state
        exact .pr (.reject rfl known state has there) rfl rfl .same .same
      · rename_i state
        exact absurd state opening
      · exact .refl s _

theorem msgAccept_changes (s : Kernel) (p : ProcId) (id : PrId) :
    Changes s (.msgAccept p id) (s.msgAccept p id).2 := by
  simp only [Kernel.msgAccept]
  split_ifs with unknown opening
  · exact .refl s _
  · exact .refl s _
  · exact .pr (.accept rfl (by simpa using unknown) (not_not.mp opening)) rfl rfl .same .same

theorem bounceMsg_changes {s t : Kernel} {id : PortId} (h : s.bounceMsg id = some t) :
    Changes s (.bounceMsg id) t := by
  simp only [Kernel.bounceMsg] at h
  split at h
  · rename_i irq rest at_
    cases h
    exact .port (.bounced rfl at_) rfl rfl .same .same
  · rename_i pr key rest at_
    cases h
    exact .both (.bounce rfl at_) (.bounced rfl at_) rfl rfl .same .same
  · cases h

theorem closeClient_changes {s t : Kernel} {id : PortId} (h : s.closeClient id = some t) :
    Changes s (.closeClient id) t := by
  simp only [Kernel.closeClient] at h
  split at h
  · rename_i at_
    split at h
    · rename_i none
      cases h
      exact .port (.gone at_ none) rfl rfl .same .same
    · rename_i pr rest first
      split_ifs at h with empty
      · cases h
        exact .port (.again at_) rfl rfl .same .same
      · cases h
        have empty := not_not.mp empty
        exact .both (.closeClient rfl at_ empty first) (.closed rfl at_ empty first) rfl rfl .same .same
  · cases h

/-- Every step changes portrefs and ports by the sections listed. -/
theorem step_changes {s t : Kernel} {action : Action} (h : Step s action t) :
    Changes s action t := by
  cases action with
  | msgPort id owner =>
      simp only [Step, step, Kernel.msgPort] at h
      split_ifs at h with fresh
      cases h
      exact .port (.alloc fresh) rfl rfl .same .same
  | enableIsr id irq =>
      simp only [Step, step, Kernel.enableIsr] at h
      split_ifs at h
      cases h
      exact ⟨fun _ => .same, fun _ => .same, .same, .same⟩
  | deliverIsr irq => exact deliverIsr_changes h
  | msgConnect id port nodup mode =>
      simp only [Step, step, Kernel.msgConnect] at h
      split_ifs at h with fresh
      cases h
      exact .both (.connecting rfl fresh.1 fresh.2) (.connecting rfl fresh.1 fresh.2) rfl rfl .same .same
  | connectDone id => exact connectDone_changes h
  | findPortref id =>
      simp only [Step, step, Kernel.findPortref] at h
      split_ifs at h with opened
      · cases h
        exact .refl s _
      · cases h
        exact .pr (.line opened.1) rfl rfl .same .same
  | lockPortref id =>
      simp only [Step, step, Kernel.lockPortref] at h
      split_ifs at h with opened
      cases h
      exact .pr (.line opened) rfl rfl .same .same
  | findIntr id =>
      simp only [Step, step, Kernel.findIntr] at h
      split_ifs at h
      cases h
      exact .pr .unline rfl rfl .same .same
  | msgSend id r => exact msgSend_changes h
  | kernmsgSend id op arg arg1 => exact kernmsgSend_changes h
  | dupPort id newpr => exact dupPort_changes h
  | eventSend id =>
      simp only [Step, step, Kernel.eventSend] at h
      split at h
      · rename_i n at_
        cases h
        exact .pr (.event at_) rfl rfl .same .same
      · cases h
  | sendIntr id => exact sendIntr_changes h
  | sendWoken id copy =>
      simp only [Step, step, Kernel.sendWoken] at h
      split at h
      · rename_i n at_
        cases h
        exact .pr (.collect rfl at_) rfl rfl .same .same
      · cases h
  | sendAborted id =>
      simp only [Step, step, Kernel.sendAborted] at h
      split at h
      · rename_i n at_
        cases h
        exact .pr (.aborted at_) rfl rfl .same .same
      · cases h
  | sendOut1 id =>
      simp only [Step, step, Kernel.sendOut1] at h
      split at h
      · rename_i n error at_
        cases h
        exact .pr (.out1 at_) rfl rfl .same .same
      · cases h
  | kernWoken id =>
      simp only [Step, step, Kernel.kernWoken] at h
      split at h
      · rename_i n at_
        cases h
        exact .pr (.kernOut at_ (.inl rfl)) rfl rfl .same .same
      · rename_i n newpr at_
        cases h
        exact .pr (.kernOut at_ (.inr ⟨newpr, rfl⟩)) rfl rfl .same .same
      · cases h
  | release id => exact release_changes h
  | forkPorts id =>
      simp only [Step, step, Kernel.forkPorts] at h
      split_ifs at h with opened
      cases h
      exact .pr (.fork opened.1 opened.2.1) rfl rfl .same .same
  | shutClientRef id =>
      simp only [Step, step, Kernel.shutClientRef] at h
      split_ifs at h with opened
      cases h
      exact .pr (.unref opened.1 opened.2) rfl rfl .same .same
  | shutClient id => exact shutClient_changes h
  | findPort id =>
      simp only [Step, step, Kernel.findPort] at h
      split_ifs at h with free
      cases h
      exact .port (.waits free.2 free.1) rfl rfl .same .same
  | eventReceive id =>
      simp only [Step, step, Kernel.eventReceive] at h
      split_ifs at h with at_
      cases h
      exact .port (.event at_) rfl rfl .same .same
  | msgReceive id => exact msgReceive_changes h
  | newClient id =>
      simp only [Step, step, Kernel.newClient] at h
      split at h
      · rename_i pr key at_
        cases h
        refine .both (.hashed rfl at_) (.hashed rfl at_) ?_ ?_ (.hashed rfl at_) .same <;> rfl
      · cases h
  | delClient id =>
      simp only [Step, step, Kernel.delClient] at h
      split at h
      · rename_i pr key at_
        cases h
        refine .both (.deleted rfl at_) (.deleted rfl at_) ?_ ?_ (.deleted rfl at_) .same <;> rfl
      · cases h
  | deliver id mapped => exact deliver_changes h
  | msgReply p id r =>
      obtain ⟨⟨result, next⟩, answered, rfl⟩ := Option.map_eq_some_iff.mp h
      exact msgReply_changes answered
  | dupWake id newpr p => exact dupWake_changes h
  | dupHash newpr =>
      simp only [Step, step, Kernel.dupHash] at h
      split at h
      · rename_i p pending
        cases h
        refine .pr (.dupHash rfl pending) ?_ ?_ (.dupHashed rfl pending) .same <;> rfl
      · cases h
  | msgErr p id =>
      cases h
      exact msgErr_changes s p id
  | msgAccept p id =>
      cases h
      exact msgAccept_changes s p id
  | msgDisconnect id =>
      simp only [Step, step, Kernel.msgDisconnect] at h
      split_ifs at h with free
      cases h
      exact .port (.disconnect rfl free.2 free.1) rfl rfl .same .same
  | bounceMsgs id =>
      simp only [Step, step, Kernel.bounceMsgs] at h
      split at h
      · rename_i at_
        cases h
        exact .port (.bounce rfl at_) rfl rfl .same .same
      · cases h
  | bounceMsg id => exact bounceMsg_changes h
  | closeClient id => exact closeClient_changes h
  | hashDelete id =>
      simp only [Step, step, Kernel.hashDelete] at h
      split at h
      · rename_i pr at_
        split_ifs at h with known
        cases h
        refine .port (.unhashed rfl at_) ?_ ?_ (.unhashed rfl at_ known) .same <;> rfl
      · cases h

end Vsta.Msg
