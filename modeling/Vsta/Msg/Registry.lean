import Vsta.Msg.Lives

/-!
# The clients of a port

A portref that is a client of a port is on the port's ring `p_refs`, and the process
that owns the port finds it in its hash `p_prefs`. The two are changed under different
locks, so a client passes through states in which it is on one of them only:

* a receiver has put it on the ring and has not hashed it (`Recv.hashing`);
* a reply has accepted it as a duplicate, and has not hashed it (`Kernel.Registers`);
* it is off the ring and still hashed (`Recv.dropping`).

`Kernel.Client` describes a portref in any of them, and `Kernel.Absent` one that is no
client of any port. A step changes the entry of one portref at most (`Touches`,
`sameEntry_step`).
-/

set_option autoImplicit false

namespace Vsta.Msg

/-- The portref that the receiver has put on the ring and has to hash. -/
def Recv.hashing : Recv → Option PrId
  | .newClient pr _ => some pr
  | _ => none

/-- The portref that is off the ring and has to be deleted from the hash. -/
def Recv.dropping : Recv → Option PrId
  | .delClient pr _ => some pr
  | .shut (.unhash pr) => some pr
  | _ => none

/-- The port is being shut down. -/
def Port.Closing (port : Port) : Prop := ∃ shut, port.recv = .shut shut

/-- A reply by process `p` has accepted the portref as a duplicate, and has to hash it. -/
def Kernel.Registers (s : Kernel) (pr : PrId) (p : ProcId) : Prop :=
  (∃ opr, (s.prs pr).parent = some opr ∧ (pr, p) ∈ (s.prs opr).dupWakes) ∨
    (s.prs pr).dupHash = some p

/-- The portref is no client of any port. -/
structure Kernel.Absent (s : Kernel) (pr : PrId) : Prop where
  ring : ∀ port, (s.ports port).pRefs.count pr = 0
  hashing : ∀ port, (s.ports port).recv.hashing ≠ some pr
  dropping : ∀ port, (s.ports port).recv.dropping ≠ some pr
  prefs : ∀ p, s.prefs p pr = false
  registers : ∀ p, ¬s.Registers pr p

/-- The portref is a client of the port and of no other. -/
structure Kernel.Client (s : Kernel) (pr : PrId) (port : PortId) : Prop where
  ring : (s.ports port).pRefs.count pr = if (s.ports port).recv.dropping = some pr then 0 else 1
  elsewhere : ∀ other, other ≠ port → (s.ports other).pRefs.count pr = 0 ∧
    (s.ports other).recv.hashing ≠ some pr ∧ (s.ports other).recv.dropping ≠ some pr
  owner : ∀ p, s.prefs p pr = true ∨ s.Registers pr p → p = (s.ports port).owner
  listed : s.prefs (s.ports port).owner pr = true ∨ s.Registers pr (s.ports port).owner ∨
    (s.ports port).recv.hashing = some pr
  hashing : (s.ports port).recv.hashing = some pr →
    (∀ p, s.prefs p pr = false) ∧ ∀ p, ¬s.Registers pr p
  alive : (s.prs pr).life ≠ .unallocated ∧ (s.prs pr).life ≠ .freed
  there : (s.prs pr).pPort = some port ∨ (s.prs pr).pPort = none ∧ (s.ports port).Closing
  unhash : (s.ports port).recv = .shut (.unhash pr) → (s.prs pr).pPort = none

/-- Where the portref has a server, that is closing or has it for a client. -/
def Kernel.Served (s : Kernel) (pr : PrId) : Prop :=
  ∀ port, (s.prs pr).pPort = some port → s.Client pr port ∨ (s.ports port).Closing

namespace Kernel

theorem Client.unique {s : Kernel} {pr : PrId} {port : PortId} (client : s.Client pr port)
    {other : PortId} (has : (s.ports other).pRefs.count pr ≠ 0 ∨
      (s.ports other).recv.hashing = some pr ∨ (s.ports other).recv.dropping = some pr) :
    other = port := by
  by_contra ne
  obtain ⟨none, hashing, dropping⟩ := client.elsewhere other ne
  rcases has with ring | hash | drop
  · exact ring none
  · exact hashing hash
  · exact dropping drop

theorem Client.port_unique {s : Kernel} {pr : PrId} {port other : PortId}
    (client : s.Client pr port) (also : s.Client pr other) : port = other := by
  by_contra ne
  obtain ⟨none, _, dropping⟩ := also.elsewhere port ne
  have ring := client.ring
  rw [none, if_neg dropping] at ring
  cases ring

/-- A portref that is seen on a port is its client. -/
theorem Client.of_has {s : Kernel} {pr : PrId} (entry : s.Absent pr ∨ ∃ port, s.Client pr port)
    {port : PortId} (has : (s.ports port).pRefs.count pr ≠ 0 ∨
      (s.ports port).recv.hashing = some pr ∨ (s.ports port).recv.dropping = some pr) :
    s.Client pr port := by
  rcases entry with absent | ⟨other, client⟩
  · rcases has with ring | hash | drop
    · exact absurd (absent.ring port) ring
    · exact absurd hash (absent.hashing port)
    · exact absurd drop (absent.dropping port)
  · exact client.unique has ▸ client

/-- A portref that a process finds, or is about to hash, is a client of one of its ports. -/
theorem Client.of_known {s : Kernel} {pr : PrId} (entry : s.Absent pr ∨ ∃ port, s.Client pr port)
    {p : ProcId} (known : s.prefs p pr = true ∨ s.Registers pr p) :
    ∃ port, s.Client pr port ∧ (s.ports port).owner = p := by
  rcases entry with absent | ⟨port, client⟩
  · rcases known with hashed | registers
    · exact absurd (hashed.symm.trans (absent.prefs p)) (by simp)
    · exact absurd registers (absent.registers p)
  · exact ⟨port, client, (client.owner p known).symm⟩

/-- A client with a server is a client of its server. -/
theorem Client.at_ {s : Kernel} {pr : PrId} {port other : PortId} (client : s.Client pr port)
    (there : (s.prs pr).pPort = some other) : other = port := by
  rcases client.there with here | ⟨gone, _⟩
  · exact Option.some.inj (there.symm.trans here)
  · exact absurd (gone.symm.trans there) (by simp)

theorem Absent.not_client {s : Kernel} {pr : PrId} (absent : s.Absent pr) (port : PortId) :
    ¬s.Client pr port := by
  intro client
  rcases client.listed with hashed | registers | hash
  · exact absurd (hashed.symm.trans (absent.prefs _)) (by simp)
  · exact absent.registers _ registers
  · exact absent.hashing port hash

end Kernel

/-! ## What a step changes -/

/-- The action changes the entry of the portref. -/
inductive Touches (s : Kernel) (pr : PrId) : Action → Prop where
  | connect {port : PortId} {key : MsgKey} {rest : List MsgId}
      (first : (s.ports port).pHd = .of pr key :: rest) (op : ((s.prs pr).sent key).op = M_CONNECT) :
      Touches s pr (.msgReceive port)
  | disconnect {port : PortId} {key : MsgKey} {rest : List MsgId}
      (first : (s.ports port).pHd = .of pr key :: rest)
      (op : ((s.prs pr).sent key).op = M_DISCONNECT) : Touches s pr (.msgReceive port)
  | hashed {port : PortId} {key : MsgKey} (at_ : (s.ports port).recv = .newClient pr key) :
      Touches s pr (.newClient port)
  | deleted {port : PortId} {key : MsgKey} (at_ : (s.ports port).recv = .delClient pr key) :
      Touches s pr (.delClient port)
  | dup {opr : PrId} {p : ProcId} {om : MsgKey} {r : Portref.Reply}
      (known : s.prefs p opr = true) (state : (s.prs opr).pState = .PS_IOWAIT)
      (has : (s.prs opr).pMsg = some om) (dup : ((s.prs opr).sent om).op = M_DUP ∧ r.arg ≠ -1)
      (there : (s.prs opr).pPort ≠ none) (new : pr = ((s.prs opr).sent om).arg.toNat) :
      Touches s pr (.msgReply p opr r)
  | dupWake {opr : PrId} {p : ProcId} (pending : (pr, p) ∈ (s.prs opr).dupWakes) :
      Touches s pr (.dupWake opr pr p)
  | dupHash {p : ProcId} (pending : (s.prs pr).dupHash = some p) : Touches s pr (.dupHash pr)
  | refused {p : ProcId} (known : s.prefs p pr = true) (state : (s.prs pr).pState = .PS_OPENING) :
      Touches s pr (.msgErr p pr)
  | closed {port : PortId} {rest : List PrId} (at_ : (s.ports port).recv = .shut (.bouncing []))
      (empty : (s.ports port).pHd = []) (first : (s.ports port).pRefs = pr :: rest) :
      Touches s pr (.closeClient port)
  | unhashed {port : PortId} (at_ : (s.ports port).recv = .shut (.unhash pr)) :
      Touches s pr (.hashDelete port)

/-- The step leaves the entry of the portref as it is. -/
structure Kernel.SameEntry (s t : Kernel) (pr : PrId) : Prop where
  ring : ∀ port, (t.ports port).pRefs.count pr = (s.ports port).pRefs.count pr
  hashing : ∀ port, (t.ports port).recv.hashing = some pr ↔ (s.ports port).recv.hashing = some pr
  dropping : ∀ port,
    (t.ports port).recv.dropping = some pr ↔ (s.ports port).recv.dropping = some pr
  prefs : ∀ p, t.prefs p pr = s.prefs p pr
  registers : ∀ p, t.Registers pr p ↔ s.Registers pr p

namespace Port

theorem count_refPort (port : Port) (new pr : PrId) :
    (port.refPort new).pRefs.count pr = port.pRefs.count pr + if new = pr then 1 else 0 := by
  simp only [refPort]
  cases port.pRefs with
  | nil => by_cases here : new = pr <;> simp [here]
  | cons ref rest =>
      by_cases here : new = pr
      · simp only [here, List.count_cons, beq_self_eq_true, if_true]
        omega
      · simp [here, List.count_cons]

theorem count_derefPort (port : Port) (old pr : PrId) :
    (port.derefPort old).pRefs.count pr = port.pRefs.count pr - if old = pr then 1 else 0 := by
  simp only [derefPort, List.count_erase, beq_iff_eq]

@[simp] theorem refPort_frame (port : Port) (pr : PrId) :
    (port.refPort pr).recv = port.recv ∧ (port.refPort pr).owner = port.owner := ⟨rfl, rfl⟩

@[simp] theorem hashing_lqueueMsg (port : Port) (m : MsgId) :
    (port.lqueueMsg m).recv.hashing = port.recv.hashing := by
  cases at_ : port.recv <;> simp only [lqueueMsg, vWait, at_, Recv.hashing]

@[simp] theorem dropping_lqueueMsg (port : Port) (m : MsgId) :
    (port.lqueueMsg m).recv.dropping = port.recv.dropping := by
  cases at_ : port.recv <;> simp only [lqueueMsg, vWait, at_, Recv.dropping]

end Port

/-- A port keeps its entry for a portref that the step does not touch. -/
theorem entry_portStep {s : Kernel} {action : Action} {id : PortId} {port : Port} {pr : PrId}
    (made : s.Made) (untouched : ¬Touches s pr action) (change : PortStep s action id port) :
    port.pRefs.count pr = (s.ports id).pRefs.count pr ∧
      (port.recv.hashing = some pr ↔ (s.ports id).recv.hashing = some pr) ∧
        (port.recv.dropping = some pr ↔ (s.ports id).recv.dropping = some pr) := by
  have idle : ∀ {before after : Recv}, (s.ports id).recv = before → before.hashing = none →
      before.dropping = none → after.hashing = none → after.dropping = none →
        (after.hashing = some pr ↔ (s.ports id).recv.hashing = some pr) ∧
          (after.dropping = some pr ↔ (s.ports id).recv.dropping = some pr) := by
    rintro before after rfl h d h' d'
    simp [h, d, h', d']
  have queued : ∀ m, ((s.ports id).lqueueMsg m).pRefs.count pr = (s.ports id).pRefs.count pr ∧
      (((s.ports id).lqueueMsg m).recv.hashing = some pr ↔ (s.ports id).recv.hashing = some pr) ∧
        (((s.ports id).lqueueMsg m).recv.dropping = some pr ↔
          (s.ports id).recv.dropping = some pr) := by
    intro m
    rw [Port.hashing_lqueueMsg, Port.dropping_lqueueMsg]
    exact ⟨rfl, Iff.rfl, Iff.rfl⟩
  cases change with
  | same => simp
  | alloc fresh =>
      obtain ⟨_, recv, refs, _⟩ := made.port id fresh
      exact ⟨by simp [Port.alloc, refs], idle recv rfl rfl rfl rfl⟩
  | posted => exact queued _
  | connecting => exact queued _
  | aborted => exact queued _
  | closing => exact queued _
  | isr => exact queued _
  | pullBack => simp [Port.pullBack]
  | waits free _ =>
      refine ⟨rfl, ?_⟩
      simp only [Port.pSemaWait, free]
      split <;> simp [Recv.hashing, Recv.dropping]
  | event at_ => exact ⟨rfl, idle at_ rfl rfl rfl rfl⟩
  | takeIsr at_ _ => exact ⟨rfl, idle at_ rfl rfl rfl rfl⟩
  | @takeConnect new key rest act at_ first op =>
      have ne : new ≠ pr := by
        rintro rfl
        exact untouched (act ▸ .connect first op)
      refine ⟨by simp [Port.count_refPort, ne], ?_⟩
      simp [at_, Recv.hashing, Recv.dropping, ne]
  | @takeDisconnect old key rest act at_ first op =>
      have ne : old ≠ pr := by
        rintro rfl
        exact untouched (act ▸ .disconnect first op)
      refine ⟨by simp [Port.count_derefPort, ne], ?_⟩
      simp [at_, Recv.hashing, Recv.dropping, ne]
  | take _ at_ _ _ => exact ⟨rfl, idle at_ rfl rfl rfl rfl⟩
  | @hashed new key act at_ =>
      have ne : new ≠ pr := by
        rintro rfl
        exact untouched (act ▸ .hashed at_)
      simp [at_, Recv.hashing, Recv.dropping, ne]
  | @deleted old key act at_ =>
      have ne : old ≠ pr := by
        rintro rfl
        exact untouched (act ▸ .deleted at_)
      simp [at_, Recv.hashing, Recv.dropping, ne]
  | @delivered m at_ => exact ⟨rfl, idle at_ rfl rfl rfl rfl⟩
  | @refDup opr p om r act known state has dup there =>
      have ne : ((s.prs opr).sent om).arg.toNat ≠ pr := fun new =>
        untouched (act ▸ .dup known state has dup (by simp [there]) new.symm)
      exact ⟨by simp [Port.count_refPort, ne], Iff.rfl, Iff.rfl⟩
  | @refused old p act known state _ _ =>
      have ne : old ≠ pr := by
        rintro rfl
        exact untouched (act ▸ .refused known state)
      exact ⟨by simp [Port.count_derefPort, ne], Iff.rfl, Iff.rfl⟩
  | disconnect _ free _ => exact ⟨rfl, idle free rfl rfl rfl rfl⟩
  | bounce _ at_ => exact ⟨rfl, idle at_ rfl rfl rfl rfl⟩
  | bounced _ at_ => exact ⟨rfl, idle at_ rfl rfl rfl rfl⟩
  | gone at_ _ => exact ⟨rfl, idle at_ rfl rfl rfl rfl⟩
  | again at_ => exact ⟨rfl, idle at_ rfl rfl rfl rfl⟩
  | @closed old rest act at_ empty first =>
      have ne : old ≠ pr := by
        rintro rfl
        exact untouched (act ▸ .closed at_ empty first)
      refine ⟨by simp [Port.count_derefPort, ne], ?_⟩
      simp [at_, Recv.hashing, Recv.dropping, ne]
  | @unhashed old act at_ =>
      have ne : old ≠ pr := by
        rintro rfl
        exact untouched (act ▸ .unhashed at_)
      simp [at_, Recv.hashing, Recv.dropping, ne]

/-- The hashes keep their entry for a portref that the step does not touch. -/
theorem entry_prefStep {s : Kernel} {action : Action} {prefs : ProcId → PrId → Bool} {pr : PrId}
    (untouched : ¬Touches s pr action) (change : PrefStep s action prefs) (p : ProcId) :
    prefs p pr = s.prefs p pr := by
  have update : ∀ {q other present}, other ≠ pr →
      (s.setPref q other present).prefs p pr = s.prefs p pr := by
    intro q other present ne
    simp only [Kernel.setPref_prefs, Function.update_apply]
    split
    · rename_i here
      rw [Function.update_of_ne ne.symm, here]
    · rfl
  cases change with
  | same => rfl
  | @hashed port other key act at_ => exact update fun eq => untouched (act ▸ .hashed (eq ▸ at_))
  | @deleted port other key act at_ => exact update fun eq => untouched (act ▸ .deleted (eq ▸ at_))
  | @dupHashed other q act pending =>
      refine update ?_
      rintro rfl
      exact untouched (act ▸ .dupHash pending)
  | @refused q other act known state =>
      refine update ?_
      rintro rfl
      exact untouched (act ▸ .refused known state)
  | @unhashed port other act at_ _ =>
      exact update fun eq => untouched (act ▸ .unhashed (eq ▸ at_))

/-- The replies at work on a portref that the step does not touch stay the same. -/
theorem dupWakes_same {s : Kernel} {action : Action} {opr : PrId} {after : Portref} {pr : PrId}
    (known : s.Known) (untouched : ¬Touches s pr action) (change : PrStep s action opr after)
    (p : ProcId) : (pr, p) ∈ after.dupWakes ↔ (pr, p) ∈ (s.prs opr).dupWakes := by
  constructor
  · intro pending
    rcases dupWakes_prStep change pending with
      before | ⟨q, om, r, port, rfl, hashed, state, has, dup, there, eq⟩
    · exact before
    · exact absurd (.dup hashed state has dup (by simp [there]) (congrArg Prod.fst eq)) untouched
  · intro pending
    have fresh : (s.prs opr).life = .unallocated → False := fun fresh => by
      simp [known.fresh opr fresh] at pending
    cases change with
    | born _ unallocated _ _ => exact (fresh unallocated).elim
    | connecting _ unallocated _ => exact (fresh unallocated).elim
    | acceptDup => exact List.mem_append_left _ pending
    | dupWake act _ =>
        refine (List.mem_erase_of_ne fun eq => ?_).mpr pending
        obtain ⟨rfl, rfl⟩ := Prod.mk.inj eq
        exact untouched (act ▸ .dupWake pending)
    | _ => first | exact pending | simpa using pending

theorem dupHash_same {s : Kernel} {action : Action} {pr : PrId} {after : Portref}
    (known : s.Known) (untouched : ¬Touches s pr action) (change : PrStep s action pr after)
    (p : ProcId) : after.dupHash = some p ↔ (s.prs pr).dupHash = some p := by
  constructor
  · intro pending
    rcases dupHash_prStep change pending with before | ⟨opr, rfl, before⟩
    · exact before
    · exact absurd (.dupWake before) untouched
  · intro pending
    have fresh : (s.prs pr).life = .unallocated → False :=
      (known.dupHash pr (by simp [pending])).1
    cases change with
    | born _ unallocated _ _ => exact (fresh unallocated).elim
    | connecting _ unallocated _ => exact (fresh unallocated).elim
    | dupWoken act before _ => exact absurd (act ▸ .dupWake before) untouched
    | dupHash act before => exact absurd (act ▸ .dupHash before) untouched
    | _ => first | exact pending | simpa using pending

/-- A step changes no entry but that of the portref it touches. -/
theorem sameEntry_step {s t : Kernel} {action : Action} {pr : PrId} (made : s.Made)
    (known : s.Known) (step : Step s action t) (untouched : ¬Touches s pr action) :
    s.SameEntry t pr := by
  have changes := step_changes step
  have ports := fun port => entry_portStep made untouched (changes.ports port)
  refine ⟨fun port => (ports port).1, fun port => (ports port).2.1, fun port => (ports port).2.2,
    entry_prefStep untouched changes.prefs, fun p => ?_⟩
  have wakes := fun opr => dupWakes_same known untouched (changes.prs opr) p
  refine or_congr ?_ (dupHash_same known untouched (changes.prs pr) p)
  rcases parent_prStep (changes.prs pr) with same | ⟨fresh, _⟩
  · rw [same]
    exact exists_congr fun opr => and_congr_right fun _ => wakes opr
  · -- no reply is at work on a portref that does not exist
    refine iff_of_false ?_ ?_ <;> rintro ⟨opr, _, pending⟩
    · exact (known.dupWakes opr _ ((wakes opr).mp pending)).1 fresh
    · exact (known.dupWakes opr _ pending).1 fresh

theorem Kernel.Absent.same {s t : Kernel} {pr : PrId} (absent : s.Absent pr)
    (same : s.SameEntry t pr) : t.Absent pr where
  ring port := (same.ring port).trans (absent.ring port)
  hashing port := fun here => absent.hashing port ((same.hashing port).mp here)
  dropping port := fun here => absent.dropping port ((same.dropping port).mp here)
  prefs p := (same.prefs p).trans (absent.prefs p)
  registers p := fun here => absent.registers p ((same.registers p).mp here)

/-! ## What the step does to the portref -/

theorem closing_portStep {s : Kernel} {action : Action} {id : PortId} {port : Port} (made : s.Made)
    (closing : (s.ports id).Closing) (change : PortStep s action id port) : port.Closing := by
  obtain ⟨shut, at_⟩ := closing
  have queued : ∀ m, ((s.ports id).lqueueMsg m).Closing := fun m =>
    ⟨shut, by simp [Port.lqueueMsg, Port.vWait, at_]⟩
  have busy : ∀ {recv}, (s.ports id).recv = recv → (∀ shut, recv ≠ .shut shut) → port.Closing :=
    fun here ne => absurd (here.symm.trans at_) (ne shut)
  cases change with
  | same => exact ⟨shut, at_⟩
  | alloc fresh => exact busy (made.port id fresh).2.1 (by simp)
  | posted => exact queued _
  | connecting => exact queued _
  | aborted => exact queued _
  | closing => exact queued _
  | isr => exact queued _
  | pullBack => exact ⟨shut, at_⟩
  | waits free _ => exact busy free (by simp)
  | event here => exact busy here (by simp)
  | takeIsr here _ => exact busy here (by simp)
  | takeConnect _ here _ _ => exact busy here (by simp)
  | takeDisconnect _ here _ _ => exact busy here (by simp)
  | take _ here _ _ => exact busy here (by simp)
  | hashed _ here => exact busy here (by simp)
  | deleted _ here => exact busy here (by simp)
  | delivered here => exact busy here (by simp)
  | refDup => exact ⟨shut, at_⟩
  | refused => exact ⟨shut, at_⟩
  | _ => exact ⟨_, rfl⟩

/-- A connection loses its server when the server bounces one of its messages, or closes it. -/
theorem gone_prStep {s : Kernel} {action : Action} {id : PrId} {pr : Portref}
    (change : PrStep s action id pr) (gone : pr.pPort = none) :
    (s.prs id).pPort = none ∨
      (∃ port key rest, (s.ports port).recv = .shut (.bouncing (.of id key :: rest))) ∨
        ∃ port rest, (s.ports port).recv = .shut (.bouncing []) ∧
          (s.ports port).pRefs = id :: rest := by
  cases change with
  | born _ _ there _ => exact absurd (there.symm.trans gone) (by simp)
  | connecting => cases gone
  | bounce _ at_ => exact .inr (.inl ⟨_, _, _, at_⟩)
  | closeClient _ at_ _ first => exact .inr (.inr ⟨_, _, at_, first⟩)
  | _ => first | exact .inl gone | exact .inl (by simpa using gone)

theorem owner_portStep {s : Kernel} {action : Action} {id : PortId} {port : Port}
    (exists_ : (s.ports id).life ≠ .unallocated) (change : PortStep s action id port) :
    port.owner = (s.ports id).owner := by
  cases change with
  | alloc fresh => exact absurd fresh exists_
  | _ => rfl

theorem unhash_portStep {s : Kernel} {action : Action} {id : PortId} {port : Port} {pr : PrId}
    (untouched : ¬Touches s pr action) (change : PortStep s action id port)
    (at_ : port.recv = .shut (.unhash pr)) : (s.ports id).recv = .shut (.unhash pr) := by
  have queued : ∀ m, ((s.ports id).lqueueMsg m).recv = .shut (.unhash pr) →
      (s.ports id).recv = .shut (.unhash pr) := by
    intro m
    cases before : (s.ports id).recv <;> simp [Port.lqueueMsg, Port.vWait, before]
  cases change with
  | same => exact at_
  | posted => exact queued _ at_
  | connecting => exact queued _ at_
  | aborted => exact queued _ at_
  | closing => exact queued _ at_
  | isr => exact queued _ at_
  | pullBack => exact at_
  | waits =>
      simp only [Port.pSemaWait] at at_
      split at at_ <;> cases at_
  | refDup => exact at_
  | refused => exact at_
  | closed act here empty first =>
      cases at_
      exact absurd (act ▸ .closed here empty first) untouched
  | _ => cases at_

/-- A client that the step neither touches nor frees is a client after it. -/
theorem Kernel.Client.same {s t : Kernel} {action : Action} {pr : PrId} {port : PortId}
    (client : s.Client pr port) (made : s.Made) (queues : s.Queues) (known : s.Known)
    (step : Step s action t) (untouched : ¬Touches s pr action)
    (alive : (t.prs pr).life ≠ .freed) : t.Client pr port := by
  have changes := step_changes step
  have same := sameEntry_step made known step untouched
  have there : (s.ports port).life ≠ .unallocated := by
    rcases client.there with here | ⟨_, shut, at_⟩
    · exact made.there pr port here
    · exact fun fresh => absurd (at_.symm.trans (made.port port fresh).2.1) (by simp)
  have owner := owner_portStep there (changes.ports port)
  have none_of_none : (s.prs pr).pPort = none → (t.prs pr).pPort = none := by
    intro gone
    rcases port_prStep (changes.prs pr) with kept | gone' | fresh
    · exact kept.trans gone
    · exact gone'
    · exact absurd fresh client.alive.1
  refine ⟨?_, fun other ne => ?_, fun p => ?_, ?_, fun at_ => ?_,
    ⟨life_prStep (changes.prs pr) client.alive.1, alive⟩, ?_, fun at_ => ?_⟩
  · rw [same.ring, client.ring]
    simp only [same.dropping port]
  · obtain ⟨none, hashing, dropping⟩ := client.elsewhere other ne
    exact ⟨(same.ring other).trans none, fun at_ => hashing ((same.hashing other).mp at_),
      fun at_ => dropping ((same.dropping other).mp at_)⟩
  · rw [same.prefs, same.registers, owner]
    exact client.owner p
  · rw [owner, same.prefs, same.registers, same.hashing]
    exact client.listed
  · obtain ⟨prefs, registers⟩ := client.hashing ((same.hashing port).mp at_)
    exact ⟨fun p => (same.prefs p).trans (prefs p), fun p reg =>
      registers p ((same.registers p).mp reg)⟩
  · rcases client.there with here | ⟨gone, closing⟩
    · rcases port_prStep (changes.prs pr) with kept | gone | fresh
      · exact .inl (kept.trans here)
      · refine .inr ⟨gone, closing_portStep made ?_ (changes.ports port)⟩
        rcases gone_prStep (changes.prs pr) gone with before | ⟨other, key, rest, at_⟩ |
          ⟨other, rest, at_, first⟩
        · exact absurd (before.symm.trans here) (by simp)
        · have unread : .of pr key ∈ (s.ports other).unread := by
            simp [Port.unread, at_, Recv.bouncing]
          rcases queues.dest other pr key unread with none | same
          · exact absurd (none.symm.trans here) (by simp)
          · obtain rfl := Option.some.inj (same.symm.trans here)
            exact ⟨_, at_⟩
        · obtain rfl : other = port := client.unique (.inl (by simp [first]))
          exact ⟨_, at_⟩
      · exact absurd fresh client.alive.1
    · exact .inr ⟨none_of_none gone, closing_portStep made closing (changes.ports port)⟩
  · exact none_of_none (client.unhash (unhash_portStep untouched (changes.ports port) at_))

end Vsta.Msg
