import Vsta.Msg.Registry

/-!
# The portref whose registration a step takes on

The sections that change the entry of a portref: each makes it a client, keeps it one, or
ends its registration. What they need to know of the state is a hypothesis here; the next
module shows that it holds.
-/

set_option autoImplicit false

namespace Vsta.Msg

theorem field_update {α : Type} (field : Portref → α) {prs : PrId → Portref} {id : PrId}
    {pr : Portref} (same : field pr = field (prs id)) (other : PrId) :
    field (Function.update prs id pr other) = field (prs other) := by
  by_cases here : other = id
  · subst here
    rw [Function.update_self, same]
  · rw [Function.update_of_ne here]

theorem Kernel.registers_update {s t : Kernel} {id pr : PrId} {p : ProcId} {after : Portref}
    (prs : t.prs = Function.update s.prs id after) (parent : after.parent = (s.prs id).parent)
    (wakes : after.dupWakes = (s.prs id).dupWakes) (hash : after.dupHash = (s.prs id).dupHash) :
    t.Registers pr p ↔ s.Registers pr p := by
  simp only [Registers, prs, field_update Portref.parent parent,
    field_update Portref.dupWakes wakes, field_update Portref.dupHash hash]

theorem Kernel.setPref_iff {s : Kernel} {q p : ProcId} {pr : PrId} {present : Bool} :
    (s.setPref q pr present).prefs p pr = if p = q then present else s.prefs p pr := by
  simp only [Kernel.setPref_prefs, Function.update_apply]
  split
  · simp
  · rfl

section Touched

variable {s t : Kernel} {pr : PrId} {port : PortId}

/-- No other port has the portref. -/
def Kernel.Elsewhere (s : Kernel) (pr : PrId) (port : PortId) : Prop :=
  ∀ other, other ≠ port → (s.ports other).pRefs.count pr = 0 ∧
    (s.ports other).recv.hashing ≠ some pr ∧ (s.ports other).recv.dropping ≠ some pr

theorem Kernel.Absent.elsewhere (absent : s.Absent pr) (port : PortId) : s.Elsewhere pr port :=
  fun other _ => ⟨absent.ring other, absent.hashing other, absent.dropping other⟩

/-- A step that changes one portref and one port, and makes the one a client of the other. -/
theorem Kernel.client_update (s : Kernel) {t : Kernel} {pr : PrId} {port : PortId} {after : Portref} {port' : Port}
    (prs : t.prs = Function.update s.prs pr after)
    (ports : t.ports = Function.update s.ports port port')
    (parent : after.parent = (s.prs pr).parent) (wakes : after.dupWakes = (s.prs pr).dupWakes)
    (hash : after.dupHash = (s.prs pr).dupHash) (same : port'.owner = (s.ports port).owner)
    (elsewhere : s.Elsewhere pr port)
    (ring : port'.pRefs.count pr = if port'.recv.dropping = some pr then 0 else 1)
    (owner : ∀ p, t.prefs p pr = true ∨ s.Registers pr p → p = (s.ports port).owner)
    (listed : t.prefs (s.ports port).owner pr = true ∨ s.Registers pr (s.ports port).owner ∨
      port'.recv.hashing = some pr)
    (hashing : port'.recv.hashing = some pr →
      (∀ p, t.prefs p pr = false) ∧ ∀ p, ¬s.Registers pr p)
    (alive : after.life ≠ .unallocated ∧ after.life ≠ .freed)
    (there : after.pPort = some port ∨ after.pPort = none ∧ port'.Closing)
    (unhash : port'.recv = .shut (.unhash pr) → after.pPort = none) : t.Client pr port := by
  have registers : ∀ p, t.Registers pr p ↔ s.Registers pr p := fun p =>
    Kernel.registers_update prs parent wakes hash
  have here : t.ports port = port' := by rw [ports, Function.update_self]
  have mine : t.prs pr = after := by rw [prs, Function.update_self]
  constructor
  · rwa [here]
  · intro other ne
    rw [ports, Function.update_of_ne ne]
    exact elsewhere other ne
  · intro p
    rw [here, same, registers]
    exact owner p
  · rwa [here, same, registers]
  · intro at_
    simp only [registers]
    exact hashing (here ▸ at_)
  · rwa [mine]
  · rwa [here, mine]
  · rwa [here, mine]

/-- A step that changes one portref and one port, which has the portref no more. -/
theorem Kernel.absent_update (s : Kernel) {t : Kernel} {pr : PrId} {port : PortId} {after : Portref} {port' : Port}
    (prs : t.prs = Function.update s.prs pr after)
    (ports : t.ports = Function.update s.ports port port')
    (parent : after.parent = (s.prs pr).parent) (wakes : after.dupWakes = (s.prs pr).dupWakes)
    (hash : after.dupHash = (s.prs pr).dupHash) (elsewhere : s.Elsewhere pr port)
    (ring : port'.pRefs.count pr = 0) (hashing : port'.recv.hashing ≠ some pr)
    (dropping : port'.recv.dropping ≠ some pr) (prefs : ∀ p, t.prefs p pr = false)
    (none : ∀ p, ¬s.Registers pr p) : t.Absent pr := by
  have each : ∀ x, (t.ports x).pRefs.count pr = 0 ∧ (t.ports x).recv.hashing ≠ some pr ∧
      (t.ports x).recv.dropping ≠ some pr := by
    intro x
    by_cases here : x = port
    · subst here
      rw [ports, Function.update_self]
      exact ⟨ring, hashing, dropping⟩
    · rw [ports, Function.update_of_ne here]
      exact elsewhere x here
  exact ⟨fun x => (each x).1, fun x => (each x).2.1, fun x => (each x).2.2, prefs, fun p here =>
    none p ((Kernel.registers_update prs parent wakes hash).mp here)⟩

theorem Kernel.Client.once (client : s.Client pr port)
    (keeps : (s.ports port).recv.dropping ≠ some pr) : (s.ports port).pRefs.count pr = 1 :=
  client.ring.trans (if_neg keeps)

theorem Kernel.Client.off (client : s.Client pr port)
    (drops : (s.ports port).recv.dropping = some pr) : (s.ports port).pRefs.count pr = 0 :=
  client.ring.trans (if_pos drops)

/-- The owner's hash without its client has it nowhere. -/
theorem Kernel.Client.unhashed (client : s.Client pr port) (p : ProcId) :
    (s.setPref (s.ports port).owner pr false).prefs p pr = false := by
  rw [Kernel.setPref_iff]
  split
  · rfl
  · rename_i ne
    exact Bool.eq_false_iff.mpr fun known => ne (client.owner p (.inl known))

/-- `msg_receive` puts a portref that connects on the ring. -/
theorem client_of_connect {key : MsgKey} {rest : List MsgId}
    (step : Step s (.msgReceive port) t) (first : (s.ports port).pHd = .of pr key :: rest)
    (op : ((s.prs pr).sent key).op = M_CONNECT) (absent : s.Absent pr)
    (alive : (s.prs pr).life ≠ .unallocated ∧ (s.prs pr).life ≠ .freed)
    (there : (s.prs pr).pPort = some port) : t.Client pr port := by
  simp only [Step, Vsta.Msg.step, Kernel.msgReceive, first, op] at step
  split_ifs at step with woken
  cases step
  refine s.client_update rfl rfl rfl rfl rfl rfl (absent.elsewhere port) ?_ ?_
    (.inr (.inr rfl)) (fun _ => ⟨absent.prefs, absent.registers⟩) alive (.inl there) (by simp)
  · simp [Port.count_refPort, absent.ring, Recv.dropping]
  · rintro p (hashed | here)
    · exact absurd (hashed.symm.trans (absent.prefs p)) (by simp)
    · exact absurd here (absent.registers p)

/-- `msg_receive` takes a portref that disconnects off the ring. -/
theorem client_of_disconnect {key : MsgKey} {rest : List MsgId}
    (step : Step s (.msgReceive port) t) (first : (s.ports port).pHd = .of pr key :: rest)
    (op : ((s.prs pr).sent key).op = M_DISCONNECT) (client : s.Client pr port) :
    t.Client pr port := by
  have connect : M_DISCONNECT ≠ M_CONNECT := by decide
  simp only [Step, Vsta.Msg.step, Kernel.msgReceive, first, op, if_neg connect] at step
  split_ifs at step with woken
  cases step
  have once := client.once (by simp [woken, Recv.dropping])
  refine s.client_update rfl rfl rfl rfl rfl rfl client.elsewhere ?_ client.owner ?_
    (by simp [Recv.hashing]) client.alive ?_ (by simp)
  · simp [Port.count_derefPort, once, Recv.dropping]
  · exact client.listed.imp_right (.imp_right fun hash => by simp [woken, Recv.hashing] at hash)
  · rcases client.there with here | ⟨_, shut, at_⟩
    · exact .inl here
    · exact absurd (woken.symm.trans at_) (by simp)

/-- `new_client()`. -/
theorem client_of_newClient {key : MsgKey} (step : Step s (.newClient port) t)
    (at_ : (s.ports port).recv = .newClient pr key) (client : s.Client pr port) :
    t.Client pr port := by
  simp only [Step, Vsta.Msg.step, Kernel.newClient, at_] at step
  cases step
  have once := client.once (by simp [at_, Recv.dropping])
  obtain ⟨prefs, registers⟩ := client.hashing (by simp [at_, Recv.hashing])
  refine s.client_update rfl rfl rfl rfl rfl rfl client.elsewhere ?_ ?_ (.inl ?_)
    (by simp [Recv.hashing]) client.alive ?_ (by simp)
  · simp [once, Recv.dropping]
  · rintro p (hashed | here)
    · simp only [Kernel.setPort_prefs, Kernel.setPr_prefs, Kernel.setPref_iff] at hashed
      split at hashed
      · assumption
      · exact absurd (hashed.symm.trans (prefs p)) (by simp)
    · exact absurd here (registers p)
  · simp
  · rcases client.there with here | ⟨_, shut, at'⟩
    · exact .inl here
    · exact absurd (at_.symm.trans at') (by simp)

/-- `del_client()`. -/
theorem absent_of_delClient {key : MsgKey} (step : Step s (.delClient port) t)
    (at_ : (s.ports port).recv = .delClient pr key) (client : s.Client pr port)
    (hashed : ∀ p, ¬s.Registers pr p) : t.Absent pr := by
  simp only [Step, Vsta.Msg.step, Kernel.delClient, at_] at step
  cases step
  exact s.absent_update rfl rfl rfl rfl rfl client.elsewhere
    (client.off (by simp [at_, Recv.dropping])) (by simp [Recv.hashing]) (by simp [Recv.dropping])
    client.unhashed hashed

/-- `shut_server()` deletes the client it has closed from the hash. -/
theorem absent_of_hashDelete (step : Step s (.hashDelete port) t)
    (at_ : (s.ports port).recv = .shut (.unhash pr)) (client : s.Client pr port)
    (hashed : ∀ p, ¬s.Registers pr p) : t.Absent pr := by
  simp only [Step, Vsta.Msg.step, Kernel.hashDelete, at_] at step
  split_ifs at step with known
  cases step
  exact s.absent_update (Function.update_eq_self _ _).symm rfl rfl rfl rfl client.elsewhere
    (client.off (by simp [at_, Recv.dropping])) (by simp [Recv.hashing]) (by simp [Recv.dropping])
    client.unhashed hashed

/-- `close_client()`. -/
theorem client_of_closeClient {rest : List PrId} (step : Step s (.closeClient port) t)
    (at_ : (s.ports port).recv = .shut (.bouncing [])) (empty : (s.ports port).pHd = [])
    (first : (s.ports port).pRefs = pr :: rest) (client : s.Client pr port) :
    t.Client pr port := by
  have once := client.once (by simp [at_, Recv.dropping])
  simp only [Step, Vsta.Msg.step, Kernel.closeClient, at_, first, empty, ne_eq,
    not_true_eq_false, if_false] at step
  cases step
  refine s.client_update rfl rfl (by simp) (by simp) (by simp) rfl client.elsewhere ?_
    client.owner ?_ (by simp [Recv.hashing]) (by simpa using client.alive)
    (.inr ⟨by simp, _, rfl⟩) (by simp)
  · simp [Port.count_derefPort, once, Recv.dropping]
  · exact client.listed.imp_right (.imp_right fun hash => by simp [at_, Recv.hashing] at hash)

/-- `msg_err()` on an open. -/
theorem absent_of_msgErr {p : ProcId} {om : MsgKey} (step : Step s (.msgErr p pr) t)
    (known : s.prefs p pr = true) (state : (s.prs pr).pState = .PS_OPENING)
    (there : (s.prs pr).pPort = some port) (has : (s.prs pr).pMsg = some om)
    (client : s.Client pr port) (keeps : (s.ports port).recv.dropping ≠ some pr)
    (hashed : ∀ p, ¬s.Registers pr p) : t.Absent pr := by
  obtain rfl := client.owner p (.inl known)
  have once := client.once keeps
  have step := Option.some.inj step
  simp only [Kernel.msgErr, known, state, there, has, Bool.true_eq_false, if_true, if_false] at step
  subst step
  refine s.absent_update rfl rfl rfl rfl rfl client.elsewhere ?_ ?_ ?_ client.unhashed hashed
  · simp [Port.count_derefPort, once]
  · intro hash
    exact absurd (known.symm.trans ((client.hashing hash).1 _)) (by simp)
  · exact keeps

/-- `msg_reply()` accepts a duplicate. -/
theorem client_of_dup {opr : PrId} {p : ProcId} {om : MsgKey} {r : Portref.Reply}
    (step : Step s (.msgReply p opr r) t) (known : s.prefs p opr = true)
    (state : (s.prs opr).pState = .PS_IOWAIT) (has : (s.prs opr).pMsg = some om)
    (dup : ((s.prs opr).sent om).op = M_DUP ∧ r.arg ≠ -1) (new : ((s.prs opr).sent om).arg = pr)
    (at_ : (s.prs opr).pPort = some port) (owner : (s.ports port).owner = p)
    (parent : (s.prs pr).parent = some opr) (absent : s.Absent pr) (ne : pr ≠ opr)
    (alive : (s.prs pr).life ≠ .unallocated ∧ (s.prs pr).life ≠ .freed)
    (there : (s.prs pr).pPort = some port) :
    t.Client pr port ∧ (t.prs opr).dupWakes ≠ [] := by
  obtain ⟨⟨result, next⟩, answered, rfl⟩ := Option.map_eq_some_iff.mp step
  simp only [Kernel.msgReply, known, state, has, if_pos dup, at_, Bool.true_eq_false, if_false,
    if_neg (not_lt.mpr (new ▸ Int.natCast_nonneg pr : 0 ≤ ((s.prs opr).sent om).arg))] at answered
  have toNat : ((s.prs opr).sent om).arg.toNat = pr := by rw [new, Int.toNat_natCast]
  cases answered
  have registers : ∀ q, Kernel.Registers ((s.setPort port ((s.ports port).refPort
      ((s.prs opr).sent om).arg.toNat)).setPr opr
        ((s.prs opr).acceptDup om ((s.prs opr).sent om).arg.toNat p)) pr q ↔ q = p := by
    intro q
    have before := absent.registers q
    simp only [Kernel.Registers, parent, Option.some.injEq, exists_eq_left', not_or] at before
    simp [Kernel.Registers, Function.update_of_ne ne, parent, Portref.acceptDup, before, toNat]
  refine ⟨⟨?_, fun other ne' => ?_, fun q => ?_, .inr (.inl ?_), ?_, ?_, ?_, ?_⟩, ?_⟩
  · simp [Port.count_refPort, toNat, absent.ring, absent.dropping]
  · simp only [Kernel.setPr_ports, Kernel.setPort_ports, Function.update_of_ne ne']
    exact absent.elsewhere port other ne'
  · rintro (hashed | here)
    · exact absurd (hashed.symm.trans (absent.prefs q)) (by simp)
    · simpa [owner] using (registers q).mp here
  · exact (registers _).mpr (by simp [owner])
  · intro hash
    exact absurd (by simpa using hash) (absent.hashing port)
  · simpa [Function.update_of_ne ne] using alive
  · exact .inl (by simpa [Function.update_of_ne ne] using there)
  · intro unhash
    have unhash : (s.ports port).recv = .shut (.unhash pr) := by
      simpa using unhash
    exact absurd (by simp [unhash, Recv.dropping]) (absent.dropping port)
  · simp [Portref.acceptDup]

/-- A client whose registration goes on. -/
theorem Kernel.Client.registering (client : s.Client pr port) (ports : t.ports = s.ports)
    (owner : ∀ p, t.prefs p pr = true ∨ t.Registers pr p → s.prefs p pr = true ∨ s.Registers pr p)
    (listed : t.prefs (s.ports port).owner pr = true ∨ t.Registers pr (s.ports port).owner)
    (hashing : (s.ports port).recv.hashing ≠ some pr)
    (life : (t.prs pr).life = (s.prs pr).life) (there : (t.prs pr).pPort = (s.prs pr).pPort) :
    t.Client pr port := by
  refine ⟨?_, ?_, fun p known => ?_, ?_, ?_, ?_, ?_, ?_⟩
  · rw [ports]
    exact client.ring
  · rw [ports]
    exact client.elsewhere
  · rw [ports]
    exact client.owner p (owner p known)
  · rw [ports]
    exact listed.imp_right .inl
  · rw [ports]
    exact fun hash => absurd hash hashing
  · rw [life]
    exact client.alive
  · rw [ports, there]
    exact client.there
  · rw [ports, there]
    exact client.unhash

/-- `msg_reply()` has accepted a duplicate and wakes the client. -/
theorem client_of_dupWake {opr : PrId} {p : ProcId} (step : Step s (.dupWake opr pr p) t)
    (parent : (s.prs pr).parent = some opr) (client : s.Client pr port) : t.Client pr port := by
  simp only [Step, Vsta.Msg.step, Kernel.dupWake] at step
  split_ifs at step with pending
  cases step
  have before : s.Registers pr p := .inl ⟨opr, parent, pending.1⟩
  have owner := client.owner p (.inr before)
  refine client.registering rfl ?_ (.inr (.inr ?_)) (fun hash => ?_) ?_ ?_
  · rintro q (hashed | ⟨other, made, here⟩ | here)
    · exact .inl hashed
    · have made : (s.prs pr).parent = some other := by
        simpa [Function.update_of_ne pending.2] using made
      obtain rfl := Option.some.inj (parent.symm.trans made)
      refine .inr (.inl ⟨opr, parent, ?_⟩)
      exact List.mem_of_mem_erase (by simpa [Portref.dupWake, Portref.vIowait] using here)
    · obtain rfl : p = q := by simpa [Function.update_of_ne pending.2] using here
      exact .inr before
  · simpa [Function.update_of_ne pending.2] using owner
  · exact (client.hashing hash).2 p before
  · simp [Function.update_of_ne pending.2]
  · simp [Function.update_of_ne pending.2]

/-- `msg_reply()` has accepted a duplicate and hashes it. -/
theorem client_of_dupHash {p : ProcId} (step : Step s (.dupHash pr) t)
    (pending : (s.prs pr).dupHash = some p) (client : s.Client pr port) : t.Client pr port := by
  have before : s.Registers pr p := .inr pending
  have owner := client.owner p (.inr before)
  simp only [Step, Vsta.Msg.step, Kernel.dupHash, pending] at step
  cases step
  refine client.registering rfl ?_ (.inl ?_) (fun hash => ?_) ?_ ?_
  · rintro q (hashed | ⟨other, made, here⟩ | here)
    · simp only [Kernel.setPr_prefs, Kernel.setPref_iff] at hashed
      split at hashed
      · rename_i same
        exact .inr (same ▸ before)
      · exact .inl hashed
    · have made : (s.prs pr).parent = some other := by simpa using made
      refine .inr (.inl ⟨other, made, ?_⟩)
      by_cases self : other = pr
      · subst self
        simpa using here
      · simpa [Function.update_of_ne self] using here
    · simp at here
  · simp [owner]
  · exact (client.hashing hash).2 p before
  · simp
  · simp

end Touched

end Vsta.Msg
