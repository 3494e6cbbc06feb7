import Vsta.Msg.Touched
import Vsta.Msg.Wakes

/-!
# No freed portref is left on a table

The steps that take a portref through its registration run under different locks, and
nothing keeps them apart. A server that shuts down clears `p_port` of a client whose
message it bounces, while the portref is still on the ring and hashed; the client may
free it there (`free_registered`). A reply that accepted a duplicate hashes it after it
has woken the client, whose `M_DISCONNECT` may come first; and `msg_err` deletes the hash
entry of an open that the closing server then does not find.

In every run in which none of these overtakes a registration (`HashesFirst`), what
`shut_server` and `del_client` look for in the hash is there, and a freed portref is in
no hash and on no ring (`registration_agrees`).
-/

set_option autoImplicit false

namespace Vsta.Msg

/-- A portref is dropped after the reply that accepted it has hashed it; a client frees a
portref only when no port has it on its ring or is dropping it; and `msg_err` is about an
open that has its server. -/
def HashesFirst (s : Kernel) : Action → Prop
  | .hashDelete port | .delClient port =>
      ∀ pr, (s.ports port).recv.dropping = some pr → ∀ p, ¬s.Registers pr p
  | .shutClient id | .connectDone id => (s.prs id).pPort = none →
      ∀ port, id ∉ (s.ports port).pRefs ∧ (s.ports port).recv.dropping ≠ some id
  | .msgErr p id => s.prefs p id = true → (s.prs id).pState = .PS_OPENING →
      (s.prs id).pPort ≠ none
  | _ => True

def RegistersInOrder (s : Kernel) (action : Action) : Prop :=
  AnswersPending s action ∧ HashesFirst s action

/-! ## The stages of a registration -/

/-- Every portref is a client of one port or of none, and the threads and messages that
will change that know which. -/
structure Kernel.Registered (s : Kernel) : Prop where
  entry : ∀ pr, s.Absent pr ∨ ∃ port, s.Client pr port
  unread : ∀ port pr key, .of pr key ∈ (s.ports port).unread →
    (s.prs pr).pPort = some port ∨ (s.ports port).Closing
  connecting : ∀ port pr key, .of pr key ∈ (s.ports port).unread →
    ((s.prs pr).sent key).op = M_CONNECT → (s.prs pr).io = .asleep 0 .connect ∧ s.Absent pr
  opening : ∀ pr n, (s.prs pr).io = .asleep n .connect → (s.prs pr).pState = .PS_OPENING
  connected : ∀ pr n, (s.prs pr).io = .woken n .connect → (s.prs pr).pPort ≠ none →
    ((s.prs pr).pState = .PS_IODONE → s.Served pr) ∧
      ((s.prs pr).pState ≠ .PS_IODONE → s.Absent pr)
  newborn : ∀ pr, (s.prs pr).life = .opening → (s.prs pr).parent ≠ none →
    (s.prs pr).io = .idle ∧ (s.prs pr).waiters = 0 ∧ (s.prs pr).serial = 0
  duplicating : ∀ id n newpr, (s.prs id).io = .asleep n (.dup newpr) → (s.prs id).dupWakes = [] →
    s.Absent newpr ∧ (s.prs newpr).pPort = (s.prs id).pPort
  accepted : ∀ id n newpr, (s.prs id).io = .asleep n (.dup newpr) → (s.prs id).dupWakes ≠ [] →
    (∃ p, (s.prs id).dupWakes = [(newpr, p)]) ∧ ∀ port, .of id (.sm n) ∉ (s.ports port).unread
  duplicated : ∀ id n newpr, (s.prs id).io = .woken n (.dup newpr) →
    (((s.prs id).sent (.sm n)).arg = -1 ∨ (s.prs id).pState = .PS_IOWAIT ∨
      (∃ port, .of id (.sm n) ∈ (s.ports port).unread) → s.Absent newpr) ∧
    (((s.prs id).sent (.sm n)).arg ≠ -1 ∨ (s.prs id).pState = .PS_IOWAIT → s.Served newpr)
  handing : ∀ id n newpr error, (s.prs id).io = .release n (.dup newpr) error →
    (error = true → s.Absent newpr) ∧ (error = false → s.Served newpr)
  opened : ∀ pr, (s.prs pr).life = .opened → (s.prs pr).pState ≠ .PS_OPENING ∧ s.Served pr
  closing : ∀ port pr, .of pr .disc ∈ (s.ports port).unread → (s.prs pr).life = .opened
  leaving : ∀ port pr key, (s.ports port).recv = .delClient pr key →
    ∀ other, .of pr .disc ∉ (s.ports other).unread
  received : ∀ pr port, s.Client pr port → (s.prs pr).pState = .PS_OPENING →
    (s.prs pr).pMsg ≠ none

/-- What is known of every state of a run. -/
structure Kernel.Sound (s : Kernel) : Prop where
  made : s.Made
  queues : s.Queues
  taken : s.Taken
  elsewhere : s.DupsElsewhere
  lives : s.Lives
  known : s.Known
  waits : ∀ id, (s.prs id).Waits

section Stages

variable {s t : Kernel} {action : Action}

/-- The receiver that takes a message is not shutting the port down. -/
theorem there_of_first (registered : s.Registered) {port : PortId} {pr : PrId}
    {key : MsgKey} {rest : List MsgId} (step : Step s (.msgReceive port) t)
    (first : (s.ports port).pHd = .of pr key :: rest) :
    .of pr key ∈ (s.ports port).unread ∧ (s.prs pr).pPort = some port := by
  have unread : .of pr key ∈ (s.ports port).unread :=
    Port.mem_unread_of_mem_pHd (first ▸ List.mem_cons_self)
  refine ⟨unread, (registered.unread port pr key unread).resolve_right ?_⟩
  rintro ⟨shut, at_⟩
  exact absurd ((ports_of_msgReceive step first).1.symm.trans at_) (by simp)

/-- A portref that disconnects is a client of the receiver's port. -/
theorem client_of_first (sound : s.Sound) (registered : s.Registered) {port : PortId} {pr : PrId}
    {key : MsgKey} {rest : List MsgId} (step : Step s (.msgReceive port) t)
    (first : (s.ports port).pHd = .of pr key :: rest)
    (op : ((s.prs pr).sent key).op = M_DISCONNECT) : s.Client pr port := by
  obtain ⟨unread, there⟩ := there_of_first registered step first
  obtain rfl := sound.lives.disc port pr key unread op
  rcases (registered.opened pr (registered.closing port pr unread)).2 port there with
    client | ⟨shut, at_⟩
  · exact client
  · exact absurd ((ports_of_msgReceive step first).1.symm.trans at_) (by simp)

/-- A reply that accepts a duplicate finds it registered nowhere. -/
theorem absent_of_dup (sound : s.Sound) (registered : s.Registered) {p : ProcId} {opr pr : PrId}
    {om : MsgKey} {r : Portref.Reply} (answers : AnswersPending s (.msgReply p opr r))
    (known : s.prefs p opr = true) (state : (s.prs opr).pState = .PS_IOWAIT)
    (has : (s.prs opr).pMsg = some om) (dup : ((s.prs opr).sent om).op = M_DUP)
    (there : (s.prs opr).pPort ≠ none) (new : pr = ((s.prs opr).sent om).arg.toNat) :
    ∃ n, (s.prs opr).io = .asleep n (.dup pr) ∧ om = .sm n ∧ ((s.prs opr).sent om).arg = pr ∧
      s.Absent pr ∧ (s.prs pr).pPort = (s.prs opr).pPort ∧ (s.prs opr).dupWakes = [] := by
  obtain ⟨n, newpr, rfl, at_, arg⟩ :=
    newpr_of_dup sound.lives (sound.waits opr) state there (answers known state there om has) dup
  obtain rfl : pr = newpr := by rw [new, arg, Int.toNat_natCast]
  have waits := sound.waits opr
  simp only [Portref.Waits, at_] at waits
  have none := (waits.2.2.2.2.1 state).2
  obtain ⟨absent, same⟩ := registered.duplicating opr n pr at_ none
  exact ⟨n, at_, rfl, arg, absent, same, none⟩

/-- `msg_err` on an open ends its registration. -/
theorem absent_of_refused (sound : s.Sound) (registered : s.Registered) {p : ProcId} {pr : PrId}
    (meets : RegistersInOrder s (.msgErr p pr)) (step : Step s (.msgErr p pr) t)
    (known : s.prefs p pr = true) (state : (s.prs pr).pState = .PS_OPENING) :
    ∃ port, s.Client pr port ∧ t.Absent pr := by
  obtain ⟨port, client, _⟩ := Kernel.Client.of_known (registered.entry pr) (.inl known)
  obtain ⟨other, there⟩ := Option.ne_none_iff_exists'.mp (meets.2 known state)
  obtain rfl := client.at_ there
  obtain ⟨om, has⟩ := Option.ne_none_iff_exists'.mp (registered.received pr other client state)
  have keeps : (s.ports other).recv.dropping ≠ some pr := by
    intro drops
    cases at_ : (s.ports other).recv with
    | delClient leaving key =>
        obtain rfl : leaving = pr := by simpa [at_, Recv.dropping] using drops
        obtain ⟨_, refs, _⟩ := sound.lives.leaving other leaving key at_
        cases life : (s.prs leaving).life with
        | unallocated => exact client.alive.1 life
        | opening =>
            have one := (sound.lives.opening leaving life).1
            omega
        | opened => exact (registered.opened leaving life).1 state
        | freed => exact client.alive.2 life
    | shut shut =>
        cases shut with
        | unhash leaving =>
            obtain rfl : leaving = pr := by simpa [at_, Recv.dropping] using drops
            exact absurd (there.symm.trans (client.unhash at_)) (by simp)
        | _ => simp [at_, Recv.dropping] at drops
    | _ => simp [at_, Recv.dropping] at drops
  have hashed : ∀ q, ¬s.Registers pr q := by
    rintro q (⟨opr, _, pending⟩ | pending)
    · exact sound.lives.child pr (by simp [(sound.known.dupWakes opr _ pending).2]) state
    · exact sound.lives.child pr (sound.known.dupHash pr (by simp [pending])).2 state
  exact ⟨other, client, absent_of_msgErr step known state there has client keeps hashed⟩

/-- The receiver takes the `M_CONNECT` of the portref, which becomes its client. -/
def Kernel.Connects (s t : Kernel) (pr : PrId) : Prop :=
  (s.prs pr).io = .asleep 0 .connect ∧ ∃ port key, .of pr key ∈ (s.ports port).unread ∧
    (t.prs pr).pMsg = some key ∧ t.Client pr port

/-- The portref that a step touches is absent because it enters, or is a client. -/
theorem touched_cases (sound : s.Sound) (registered : s.Registered)
    (meets : RegistersInOrder s action) (step : Step s action t) {pr : PrId}
    (touches : Touches s pr action) :
    ((∃ port, s.Client pr port ∧ t.Client pr port) ∨
      s.Absent pr ∧ Kernel.Connects s t pr) ∨
    (s.Absent pr ∧ ∃ opr n, (s.prs opr).io = .asleep n (.dup pr) ∧ (t.prs opr).dupWakes ≠ [] ∧
      ∃ port, t.Client pr port) ∨
    ∃ port, s.Client pr port ∧ t.Absent pr ∧ ((∃ key, (s.ports port).recv = .delClient pr key ∧
      (t.prs pr).life = .freed) ∨ (s.prs pr).pState = .PS_OPENING ∨ (s.ports port).Closing) := by
  cases touches with
  | @connect port key rest first op =>
      obtain ⟨unread, there⟩ := there_of_first registered step first
      obtain ⟨at_, absent⟩ := registered.connecting port pr key unread op
      have opening := (sound.lives.connect pr (by rw [at_, Io.job])).1
      have has : (t.prs pr).pMsg = some key := by
        rw [receive_of_msgReceive step first, Portref.receive]
      exact .inl (.inr ⟨absent, at_, port, key, unread, has,
        client_of_connect step first op absent (by simp [opening]) there⟩)
  | @disconnect port key rest first op =>
      have client := client_of_first sound registered step first op
      exact .inl (.inl ⟨port, client, client_of_disconnect step first op client⟩)
  | @hashed port key at_ =>
      have hash : (s.ports port).recv.hashing = some pr := by simp [at_, Recv.hashing]
      have client := Kernel.Client.of_has (registered.entry pr) (.inr (.inl hash))
      exact .inl (.inl ⟨port, client, client_of_newClient step at_ client⟩)
  | @deleted port key at_ =>
      have drops : (s.ports port).recv.dropping = some pr := by simp [at_, Recv.dropping]
      have client := Kernel.Client.of_has (registered.entry pr) (.inr (.inr drops))
      have freed : (t.prs pr).life = .freed := by
        simp only [Step, Vsta.Msg.step, Kernel.delClient, at_] at step
        cases step
        simp
      exact .inr (.inr ⟨port, client, absent_of_delClient step at_ client (meets.2 pr drops),
        .inl ⟨key, at_, freed⟩⟩)
  | @dup opr p om r known state has dup there new =>
      obtain ⟨n, at_, rfl, arg, absent, same, _⟩ :=
        absent_of_dup sound registered meets.1 known state has dup.1 there new
      have job : (s.prs opr).io.job = some (.dup pr) := by rw [at_, Io.job]
      obtain ⟨opening, parent⟩ := sound.lives.dup opr pr job
      obtain ⟨port, client, owner⟩ := Kernel.Client.of_known (registered.entry opr) (.inl known)
      obtain ⟨other, here⟩ := Option.ne_none_iff_exists'.mp there
      obtain rfl := client.at_ here
      obtain ⟨after, pending⟩ := client_of_dup step known state has dup arg here owner parent
        absent (sound.elsewhere opr pr job) (by simp [opening]) (same.trans here)
      exact .inr (.inl ⟨absent, opr, n, at_, pending, other, after⟩)
  | @dupWake opr p pending =>
      have parent := (sound.known.dupWakes opr _ pending).2
      obtain ⟨port, client, _⟩ := Kernel.Client.of_known (registered.entry pr)
        (.inr (.inl ⟨opr, parent, pending⟩))
      exact .inl (.inl ⟨port, client, client_of_dupWake step parent client⟩)
  | @dupHash p pending =>
      obtain ⟨port, client, _⟩ := Kernel.Client.of_known (registered.entry pr)
        (.inr (.inr pending))
      exact .inl (.inl ⟨port, client, client_of_dupHash step pending client⟩)
  | @refused p known state =>
      obtain ⟨port, client, after⟩ := absent_of_refused sound registered meets step known state
      exact .inr (.inr ⟨port, client, after, .inr (.inl state)⟩)
  | @closed port rest at_ empty first =>
      have client := Kernel.Client.of_has (registered.entry pr) (.inl (by simp [first] :
        (s.ports port).pRefs.count pr ≠ 0))
      exact .inl (.inl ⟨port, client, client_of_closeClient step at_ empty first client⟩)
  | @unhashed port at_ =>
      have drops : (s.ports port).recv.dropping = some pr := by simp [at_, Recv.dropping]
      have client := Kernel.Client.of_has (registered.entry pr) (.inr (.inr drops))
      exact .inr (.inr ⟨port, client, absent_of_hashDelete step at_ client (meets.2 pr drops),
        .inr (.inr ⟨_, at_⟩)⟩)

/-- A portref that is freed is no client, or its receiver deletes it. -/
theorem freed_step (registered : s.Registered)
    (meets : RegistersInOrder s action) (step : Step s action t) {pr : PrId} {port : PortId}
    (client : s.Client pr port) (freed : (t.prs pr).life = .freed) : Touches s pr action := by
  have unlisted : (∀ other, pr ∉ (s.ports other).pRefs ∧
      (s.ports other).recv.dropping ≠ some pr) → False := by
    intro none
    have ring := client.ring
    rw [if_neg (none port).2] at ring
    exact (none port).1 (List.count_pos_iff.mp (by omega))
  have moves := moves_prStep ((step_changes step).prs pr)
  rw [freed] at moves
  generalize life : Life.freed = after at moves
  cases moves with
  | keeps => exact absurd life.symm client.alive.2
  | made => cases life
  | @handed opr n error act at_ =>
      cases error with
      | false => cases life
      | true => exact absurd client (((registered.handing opr n pr true at_).1 rfl).not_client port)
  | connectFails act at_ why =>
      subst act
      by_cases gone : (s.prs pr).pPort = none
      · exact (unlisted (meets.2 gone)).elim
      · have state := why.resolve_left gone
        exact absurd client (((registered.connected pr _ at_ gone).2 state).not_client port)
  | connected => cases life
  | free act shutting gone =>
      subst act
      exact (unlisted (meets.2 gone)).elim
  | deleted act at_ => exact act ▸ .deleted at_

/-- What becomes of a client. -/
theorem client_step (sound : s.Sound) (registered : s.Registered)
    (meets : RegistersInOrder s action) (step : Step s action t) {pr : PrId} {port : PortId}
    (client : s.Client pr port) :
    t.Client pr port ∨ t.Absent pr ∧ ((∃ key, (s.ports port).recv = .delClient pr key ∧
      (t.prs pr).life = .freed) ∨ (s.prs pr).pState = .PS_OPENING ∨ (s.ports port).Closing) := by
  by_cases touches : Touches s pr action
  · rcases touched_cases sound registered meets step touches with
      (⟨other, before, after⟩ | ⟨absent, _⟩) | ⟨absent, _⟩ | ⟨other, before, after, why⟩
    · exact .inl (before.port_unique client ▸ after)
    · exact absurd client (absent.not_client port)
    · exact absurd client (absent.not_client port)
    · exact .inr ⟨after, before.port_unique client ▸ why⟩
  · exact .inl (client.same sound.made sound.queues sound.known step touches fun freed =>
      touches (freed_step registered meets step client freed))

/-- A portref becomes a client when the server takes its `M_CONNECT`, or accepts it as a
duplicate. -/
theorem absent_step (sound : s.Sound) (registered : s.Registered)
    (meets : RegistersInOrder s action) (step : Step s action t) {pr : PrId}
    (absent : s.Absent pr) :
    t.Absent pr ∨ Kernel.Connects s t pr ∨
      ∃ opr n, (s.prs opr).io = .asleep n (.dup pr) ∧ (t.prs opr).dupWakes ≠ [] ∧
        ∃ port, t.Client pr port := by
  by_cases touches : Touches s pr action
  · rcases touched_cases sound registered meets step touches with
      (⟨port, client, _⟩ | ⟨_, enters⟩) | ⟨_, enters⟩ | ⟨port, client, _⟩
    · exact absurd client (absent.not_client port)
    · exact .inr (.inl enters)
    · exact .inr (.inr enters)
    · exact absurd client (absent.not_client port)
  · exact .inl (absent.same (sameEntry_step sound.made sound.known step touches))

theorem entry_step (sound : s.Sound) (registered : s.Registered)
    (meets : RegistersInOrder s action) (step : Step s action t) (pr : PrId) :
    t.Absent pr ∨ ∃ port, t.Client pr port := by
  rcases registered.entry pr with absent | ⟨port, client⟩
  · rcases absent_step sound registered meets step absent with
      after | ⟨_, port, _, _, _, after⟩ | ⟨_, _, _, _, after⟩
    · exact .inl after
    · exact .inr ⟨port, after⟩
    · exact .inr after
  · rcases client_step sound registered meets step client with after | ⟨after, _⟩
    · exact .inr ⟨port, after⟩
    · exact .inl after

/-- A portref that stays in service keeps its server. -/
theorem served_step (sound : s.Sound) (registered : s.Registered)
    (meets : RegistersInOrder s action) (step : Step s action t) {pr : PrId}
    (served : s.Served pr) (exists_ : (s.prs pr).life ≠ .unallocated)
    (state : (s.prs pr).pState ≠ .PS_OPENING) (kept : (t.prs pr).life ≠ .freed) : t.Served pr := by
  have changes := step_changes step
  intro port there
  have closing := fun before => closing_portStep sound.made before (changes.ports port)
  have before : (s.prs pr).pPort = some port := by
    rcases port_prStep (changes.prs pr) with same | gone | fresh
    · exact same ▸ there
    · exact absurd (gone.symm.trans there) (by simp)
    · exact absurd fresh exists_
  rcases served port before with client | shut
  · rcases client_step sound registered meets step client with
      after | ⟨_, ⟨_, _, freed⟩ | opening | shut⟩
    · exact .inl after
    · exact absurd freed kept
    · exact absurd opening state
    · exact .inr (closing shut)
  · exact .inr (closing shut)

/-- A duplicate that its maker holds and that nobody is accepting stays absent. -/
theorem absent_of_parent (sound : s.Sound) (registered : s.Registered)
    (meets : RegistersInOrder s action) (step : Step s action t) {id newpr : PrId}
    (parent : (s.prs newpr).parent = some id) (absent : s.Absent newpr)
    (quiet : (∀ n, (s.prs id).io ≠ .asleep n (.dup newpr)) ∨ (t.prs id).dupWakes = []) :
    t.Absent newpr := by
  rcases absent_step sound registered meets step absent with
    after | ⟨at_, _⟩ | ⟨opr, n, at_, pending, _⟩
  · exact after
  · have orphan := (sound.lives.connect newpr (by rw [at_, Io.job])).2.1
    exact absurd (orphan.symm.trans parent) (by simp)
  · have maker := (sound.lives.dup opr newpr (by rw [at_, Io.job])).2
    obtain rfl := Option.some.inj (maker.symm.trans parent)
    rcases quiet with awake | none
    · exact absurd at_ (awake n)
    · exact absurd none pending

/-- A portref that does not exist is absent, and stays so unless it is posted about. -/
theorem absent_of_fresh (sound : s.Sound) (registered : s.Registered)
    (meets : RegistersInOrder s action) (step : Step s action t) {pr : PrId}
    (fresh : (s.prs pr).life = .unallocated) : t.Absent pr := by
  have absent : s.Absent pr := by
    rcases registered.entry pr with absent | ⟨port, client⟩
    · exact absent
    · exact absurd fresh client.alive.1
  rcases absent_step sound registered meets step absent with
    after | ⟨at_, _⟩ | ⟨opr, n, at_, _⟩
  · exact after
  · have life := (sound.lives.connect pr (by rw [at_, Io.job])).1
    exact absurd (fresh.symm.trans life) (by simp)
  · have life := (sound.lives.dup opr pr (by rw [at_, Io.job])).1
    exact absurd (fresh.symm.trans life) (by simp)

theorem unread_step (sound : s.Sound) (registered : s.Registered) (step : Step s action t)
    {port : PortId} {pr : PrId} {key : MsgKey} (unread : .of pr key ∈ (t.ports port).unread) :
    (t.prs pr).pPort = some port ∨ (t.ports port).Closing := by
  have changes := step_changes step
  rcases mem_unread_portStep (changes.ports port) unread with before | enters
  · rcases registered.unread port pr key before with there | closing
    · rcases port_prStep (changes.prs pr) with same | gone | fresh
      · exact .inl (same.trans there)
      · refine .inr (closing_portStep sound.made ?_ (changes.ports port))
        rcases gone_prStep (changes.prs pr) gone with none | ⟨other, key', rest, at_⟩ |
          ⟨other, rest, at_, first⟩
        · exact absurd (none.symm.trans there) (by simp)
        · have also : .of pr key' ∈ (s.ports other).unread := by
            simp [Port.unread, at_, Recv.bouncing]
          obtain rfl := sound.queues.one _ _ _ _ _ also before
          exact ⟨_, at_⟩
        · have ring : (s.ports other).pRefs.count pr ≠ 0 := by simp [first]
          obtain rfl := (Kernel.Client.of_has (registered.entry pr) (.inl ring)).at_ there
          exact ⟨_, at_⟩
      · exact absurd ((sound.queues.numbered pr).fresh fresh).1 (by simp [there])
    · exact .inr (closing_portStep sound.made closing (changes.ports port))
  · exact .inl (posted_of_enters step (sound.queues.numbered pr) enters).2.2.1

theorem connecting_step (sound : s.Sound) (after : t.Sound) (registered : s.Registered)
    (meets : RegistersInOrder s action) (step : Step s action t) {port : PortId} {pr : PrId}
    {key : MsgKey} (unread : .of pr key ∈ (t.ports port).unread)
    (op : ((t.prs pr).sent key).op = M_CONNECT) :
    (t.prs pr).io = .asleep 0 .connect ∧ t.Absent pr := by
  have changes := step_changes step
  rcases mem_unread_portStep (changes.ports port) unread with before | enters
  · have posted := sound.queues.posted port pr key before
    rw [op_prStep sound.taken (sound.queues.numbered pr) (changes.prs pr) posted before] at op
    obtain ⟨at_, absent⟩ := registered.connecting port pr key before op
    obtain ⟨opening, orphan, _⟩ := sound.lives.connect pr (by rw [at_, Io.job])
    obtain rfl := key_of_connecting sound.lives at_ posted
    have waits := sound.waits pr
    simp only [Portref.Waits, at_] at waits
    have state := registered.opening pr 0 at_
    refine ⟨?_, ?_⟩
    · rcases asleep_prStep at_ (by simp [opening]) (changes.prs pr) with still | send | wakes
      · exact still
      · cases send
      · generalize (t.prs pr) = pr' at wakes
        exfalso
        cases wakes with
        | answered _ _ iowait _ _ => exact absurd (iowait.symm.trans state) (by simp)
        | abortDone abwait => exact absurd (abwait.symm.trans state) (by simp)
        | dupWake pending =>
            rcases waits.2.2.2.2.2.2 with none | ⟨_, _, _, job⟩
            · exact List.ne_nil_of_mem pending none
            · cases job
        | rejected _ _ iowait _ _ => exact absurd (iowait.symm.trans state) (by simp)
        | refused _ known _ => exact absurd (known.symm.trans (absent.prefs _)) (by simp)
        | accepted _ known _ => exact absurd (known.symm.trans (absent.prefs _)) (by simp)
        | @bounced other key rest act here _ =>
            -- the message bounced is the only one, and it is unread no more
            subst act
            have also : .of pr key ∈ (s.ports other).unread := by
              simp [Port.unread, here, Recv.bouncing]
            obtain rfl := sound.queues.one _ _ _ _ _ also before
            obtain rfl := key_of_connecting sound.lives at_ (sound.queues.posted _ _ _ also)
            have once := sound.queues.nodup other pr (.sm 0)
            simp only [Step, Vsta.Msg.step, Kernel.bounceMsg, here] at step
            cases step
            have left := List.count_pos_iff.mpr unread
            simp only [Port.unread, here, Recv.bouncing, List.count_append,
              List.count_cons_self, Kernel.setPr_ports, Kernel.setPort_ports,
              Function.update_self] at once left
            omega
        | @closed other rest _ first =>
            have none := absent.ring other
            simp [first] at none
    · rcases absent_step sound registered meets step absent with
        still | ⟨_, other, key, also, has, _⟩ | ⟨opr, n, dup, _⟩
      · exact still
      · obtain rfl := key_of_connecting sound.lives at_ (sound.queues.posted _ _ _ also)
        exact absurd unread (after.taken.read pr _ port has)
      · have maker := (sound.lives.dup opr pr (by rw [dup, Io.job])).2
        exact absurd (orphan.symm.trans maker) (by simp)
  · obtain ⟨rfl, nodup, mode, rfl⟩ := (op_of_enters step enters).2 op
    have fresh : (s.prs pr).life = .unallocated := by
      simp only [Step, Vsta.Msg.step, Kernel.msgConnect] at step
      split_ifs at step with free
      exact free.1
    refine ⟨?_, absent_of_fresh sound registered meets step fresh⟩
    simp only [Step, Vsta.Msg.step, Kernel.msgConnect] at step
    split_ifs at step
    cases step
    simp [Portref.connecting, Portref.pSemaIowait, Portref.setSent, Portref.alloc, Portref.unborn]

/-- The server has accepted an open that has its server: it is a client, or refused it. -/
theorem connected_step (sound : s.Sound) (after : t.Sound) (registered : s.Registered)
    (meets : RegistersInOrder s action) (step : Step s action t) {pr : PrId} {n : Nat}
    (at_ : (t.prs pr).io = .woken n .connect) (there : (t.prs pr).pPort ≠ none) :
    ((t.prs pr).pState = .PS_IODONE → t.Served pr) ∧
      ((t.prs pr).pState ≠ .PS_IODONE → t.Absent pr) := by
  have change := (step_changes step).prs pr
  have life := (after.lives.connect pr (by rw [at_, Io.job])).1
  have alive : (t.prs pr).life ≠ .freed := by simp [life]
  rcases woken_prStep (sound.waits pr) change at_ with before | ⟨before, wakes⟩
  · obtain ⟨opening, orphan, _⟩ := sound.lives.connect pr (by rw [before, Io.job])
    have here : (s.prs pr).pPort ≠ none := by
      rcases port_prStep change with same | gone | fresh
      · exact same ▸ there
      · exact absurd gone there
      · exact absurd fresh (by simp [opening])
    have waits := sound.waits pr
    simp only [Portref.Waits, before] at waits
    have settled := (waits here).2.2
    have state := settled_prStep settled (by simp [before]) (by simp [before]) (by simp [opening])
      (sound.lives.opening pr opening).2 change
    obtain ⟨served, absent⟩ := registered.connected pr n before here
    refine ⟨fun done => ?_, fun refused => ?_⟩
    · exact served_step sound registered meets step (served (state ▸ done)) (by simp [opening])
        settled.2.2 alive
    · rcases absent_step sound registered meets step (absent (state ▸ refused)) with
        still | ⟨asleep, _⟩ | ⟨opr, m, dup, _⟩
      · exact still
      · exact absurd (before.symm.trans asleep) (by simp)
      · have maker := (sound.lives.dup opr pr (by rw [dup, Io.job])).2
        exact absurd (orphan.symm.trans maker) (by simp)
  · have state := registered.opening pr n before
    have waits := sound.waits pr
    simp only [Portref.Waits, before] at waits
    generalize eq : t.prs pr = pr' at wakes there
    cases wakes with
    | answered _ _ iowait _ _ => exact absurd (iowait.symm.trans state) (by simp)
    | abortDone abwait => exact absurd (abwait.symm.trans state) (by simp)
    | dupWake pending =>
        rcases waits.2.2.2.2.2.2 with none | ⟨_, _, _, job⟩
        · exact absurd none (List.ne_nil_of_mem pending)
        · cases job
    | rejected _ _ iowait _ _ => exact absurd (iowait.symm.trans state) (by simp)
    | refused act known _ =>
        subst act
        obtain ⟨_, _, absent⟩ := absent_of_refused sound registered meets step known state
        exact ⟨fun done => (by cases done), fun _ => absent⟩
    | accepted act known _ =>
        subst act
        refine ⟨fun _ port here => .inl ?_, fun refused => absurd rfl refused⟩
        obtain ⟨other, client, _⟩ := Kernel.Client.of_known (registered.entry pr) (.inl known)
        have still : t.Client pr other := client.same sound.made sound.queues sound.known step
          (fun touches => by cases touches) alive
        exact still.at_ here ▸ still
    | bounced _ _ gone => exact absurd gone there
    | closed => simp at there

theorem duplicating_step (sound : s.Sound) (after : t.Sound) (registered : s.Registered)
    (meets : RegistersInOrder s action) (step : Step s action t) {id newpr : PrId} {n : Nat}
    (at_ : (t.prs id).io = .asleep n (.dup newpr)) (nobody : (t.prs id).dupWakes = []) :
    t.Absent newpr ∧ (t.prs newpr).pPort = (t.prs id).pPort := by
  have changes := step_changes step
  have there : (t.prs id).pPort ≠ none := by
    have waits := after.waits id
    simp only [Portref.Waits, at_] at waits
    exact waits.1
  rcases asleepDup_prStep (changes.prs id) at_ with ⟨before, wakes⟩ | ⟨act, idle, here, _, _⟩
  · have quiet : (s.prs id).dupWakes = [] := by
      rcases wakes with same | ⟨_, _, _, _, _, _, _, _, _, more⟩
      · exact same ▸ nobody
      · simp [nobody] at more
    obtain ⟨absent, same⟩ := registered.duplicating id n newpr before quiet
    obtain ⟨opening, parent⟩ := sound.lives.dup id newpr (by rw [before, Io.job])
    refine ⟨absent_of_parent sound registered meets step parent absent (.inr nobody), ?_⟩
    have here : (t.prs id).pPort = (s.prs id).pPort := by
      rcases port_prStep (changes.prs id) with kept | gone | fresh
      · exact kept
      · exact absurd gone there
      · exact absurd ((sound.queues.numbered id).fresh fresh).2.2.1 (by simp [before])
    rw [here, ← same]
    rcases port_prStep (changes.prs newpr) with kept | gone | fresh
    · exact kept
    · exfalso
      rcases gone_prStep (changes.prs newpr) gone with lost | ⟨port, key, rest, shut⟩ |
        ⟨port, rest, _, first⟩
      · exact there (here.trans (same.symm.trans lost))
      · have unread : .of newpr key ∈ (s.ports port).unread := by
          simp [Port.unread, shut, Recv.bouncing]
        have posted := sound.queues.posted port newpr key unread
        have quiet := (registered.newborn newpr opening (by simp [parent])).2.2
        have refs := (sound.lives.opening newpr opening).1
        cases key <;> simp [Portref.Posted, quiet, refs] at posted
      · have none := absent.ring port
        simp [first] at none
    · exact absurd fresh (by simp [opening])
  · subst act
    obtain ⟨_, made⟩ := born_of_dupPort step here
    have fresh : (s.prs newpr).life = .unallocated := by
      simp only [Step, Vsta.Msg.step, Kernel.dupPort] at step
      split at step
      · rename_i free
        exact free.1
      · cases step
    refine ⟨absent_of_fresh sound registered meets step fresh, ?_⟩
    rw [made]
    rcases port_prStep (changes.prs id) with kept | gone | unborn
    · exact kept.symm
    · exact absurd gone there
    · exact absurd ((sound.queues.numbered id).fresh unborn).1 here

theorem accepted_step (sound : s.Sound) (registered : s.Registered)
    (meets : RegistersInOrder s action) (step : Step s action t) {id newpr : PrId} {n : Nat}
    (at_ : (t.prs id).io = .asleep n (.dup newpr)) (some : (t.prs id).dupWakes ≠ []) :
    (∃ p, (t.prs id).dupWakes = [(newpr, p)]) ∧
      ∀ port, .of id (.sm n) ∉ (t.ports port).unread := by
  have changes := step_changes step
  rcases asleepDup_prStep (changes.prs id) at_ with ⟨before, wakes⟩ | ⟨_, idle, here, _, same⟩
  · have made : n < (s.prs id).serial := (sound.queues.numbered id).current n (by rw [before, Io.req])
    have still : (∀ port, .of id (.sm n) ∉ (s.ports port).unread) →
        ∀ port, .of id (.sm n) ∉ (t.ports port).unread := by
      intro none port unread
      rcases mem_unread_portStep (changes.ports port) unread with old | enters
      · exact none port old
      · exact (posted_of_enters step (sound.queues.numbered id) enters).1 made
    rcases wakes with same | ⟨p, om, r, rfl, known, state, has, dup, there, more⟩
    · rw [same] at some ⊢
      obtain ⟨one, none⟩ := registered.accepted id n newpr before some
      exact ⟨one, still none⟩
    · obtain ⟨m, asleep, rfl, arg, _, _, none⟩ :=
        absent_of_dup sound registered meets.1 known state has dup there rfl
      obtain ⟨rfl, new⟩ := Io.asleep.inj (before.symm.trans asleep)
      refine ⟨⟨p, ?_⟩, still fun port => sound.taken.read id _ port has⟩
      rw [more, none, ← Job.dup.inj new]
      rfl
  · have waits := sound.waits id
    simp only [Portref.Waits, idle] at waits
    exact absurd (same.trans (waits here).2.1) some

/-- The duplicate of a request whose server is closing, or has accepted it. -/
theorem served_of_asleep (registered : s.Registered) {id newpr : PrId} {n : Nat}
    (at_ : (s.prs id).io = .asleep n (.dup newpr))
    (parent : (s.prs newpr).parent = some id)
    (closing : (s.prs id).dupWakes = [] → ∀ port, (s.prs id).pPort = some port →
      (s.ports port).Closing) : s.Served newpr := by
  intro port there
  by_cases nobody : (s.prs id).dupWakes = []
  · obtain ⟨_, same⟩ := registered.duplicating id n newpr at_ nobody
    exact .inr (closing nobody port (same ▸ there))
  · obtain ⟨⟨p, one⟩, _⟩ := registered.accepted id n newpr at_ nobody
    have registers : s.Registers newpr p := .inl ⟨id, parent, by simp [one]⟩
    obtain ⟨other, client, _⟩ := Kernel.Client.of_known (registered.entry newpr) (.inr registers)
    obtain rfl := client.at_ there
    exact .inl client

theorem duplicated_step (sound : s.Sound) (after : t.Sound) (registered : s.Registered)
    (meets : RegistersInOrder s action) (step : Step s action t) {id newpr : PrId} {n : Nat}
    (at_ : (t.prs id).io = .woken n (.dup newpr)) :
    (((t.prs id).sent (.sm n)).arg = -1 ∨ (t.prs id).pState = .PS_IOWAIT ∨
      (∃ port, .of id (.sm n) ∈ (t.ports port).unread) → t.Absent newpr) ∧
    (((t.prs id).sent (.sm n)).arg ≠ -1 ∨ (t.prs id).pState = .PS_IOWAIT → t.Served newpr) := by
  have changes := step_changes step
  have change := changes.prs id
  have alive : (t.prs newpr).life ≠ .freed := by
    simp [(after.lives.dup id newpr (by rw [at_, Io.job])).1]
  have req : (t.prs id).io.req = some n := by rw [at_, Io.req]
  -- what holds of the waiting request before the step holds of it after the step
  have older : (s.prs id).io.req = some n → n < (s.prs id).serial ∧
      (s.prs id).life ≠ .unallocated ∧
      ((t.prs id).pState = .PS_IOWAIT → (s.prs id).pState = .PS_IOWAIT) ∧
      ((∃ port, .of id (.sm n) ∈ (t.ports port).unread) →
        ∃ port, .of id (.sm n) ∈ (s.ports port).unread) := by
    intro before
    have made := (sound.queues.numbered id).current n before
    refine ⟨made, fun fresh => ?_, fun state => ?_, fun queued => ?_⟩
    · exact Portref.not_posted_of_fresh (sound.queues.numbered id) fresh (.sm n) made
    · rcases asked_prStep change req state with ⟨_, iowait⟩ | ⟨_, _, new⟩
      · exact iowait
      · omega
    · obtain ⟨port, unread⟩ := queued
      rcases mem_unread_portStep (changes.ports port) unread with old | enters
      · exact ⟨port, old⟩
      · exact absurd made (posted_of_enters step (sound.queues.numbered id) enters).1
  rcases woken_prStep (sound.waits id) change at_ with before | ⟨before, wakes⟩
  · obtain ⟨made, exists_, iowait, unread⟩ := older (by rw [before, Io.req])
    obtain ⟨opening, parent⟩ := sound.lives.dup id newpr (by rw [before, Io.job])
    obtain ⟨absent, served⟩ := registered.duplicated id n newpr before
    have arg := answered_prStep made exists_ change
    refine ⟨fun why => ?_, fun why => ?_⟩
    · refine absent_of_parent sound registered meets step parent (absent ?_)
        (.inl (by simp [before]))
      rcases why with failed | state | queued
      · rcases arg with same | state | ⟨_, queued⟩
        · exact .inl (same ▸ failed)
        · exact .inr (.inl state)
        · exact .inr (.inr queued)
      · exact .inr (.inl (iowait state))
      · exact .inr (.inr (unread queued))
    · refine served_step sound registered meets step (served ?_) (by simp [opening])
        (sound.lives.child newpr (by simp [parent])) alive
      rcases why with success | state
      · rcases arg with same | state | ⟨failed, _⟩
        · exact .inl (same ▸ success)
        · exact .inr state
        · exact absurd failed success
      · exact .inr (iowait state)
  · obtain ⟨made, exists_, iowait, unread⟩ := older (by rw [before, Io.req])
    obtain ⟨opening, parent⟩ := sound.lives.dup id newpr (by rw [before, Io.job])
    obtain ⟨op, arg⟩ := sound.lives.arg id n newpr before
    have waits := sound.waits id
    simp only [Portref.Waits, before] at waits
    obtain ⟨there, _, noabort, opens, waiting, _, _⟩ := waits
    have quiet : (s.prs id).dupWakes = [] → (t.prs id).dupWakes = [] → t.Absent newpr :=
      fun nobody still => absent_of_parent sound registered meets step parent
        (registered.duplicating id n newpr before nobody).1 (.inr still)
    have serves : s.Served newpr → t.Served newpr := fun served =>
      served_step sound registered meets step served (by simp [opening])
        (sound.lives.child newpr (by simp [parent])) alive
    have plain : ((s.prs id).sent (.sm n)).arg ≠ -1 := by
      rw [arg]
      omega
    generalize eq : t.prs id = pr' at wakes iowait quiet
    cases wakes with
    | @answered p om r act known state has reply =>
        subst act
        obtain ⟨m, rfl, pending⟩ := meets.1 known state there om has
        obtain rfl : m = n := by
          rcases pending with broken | ⟨job, asleep⟩
          · exact absurd (before.symm.trans broken) (by simp)
          · exact (Io.asleep.inj (asleep.symm.trans before)).1
        have failed : r.arg = -1 := by simpa [op] using reply
        have nobody := (waiting state).2
        exact ⟨fun _ => quiet nobody (by simpa using nobody), by simp [failed]⟩
    | abortDone state => exact absurd state noabort
    | dupWake pending =>
        have some := List.ne_nil_of_mem pending
        obtain ⟨_, none⟩ := registered.accepted id n newpr before some
        refine ⟨fun why => ?_, fun _ => serves (served_of_asleep registered before parent
          fun nobody => absurd nobody some)⟩
        rcases why with failed | state | queued
        · exact absurd failed plain
        · exact absurd (waiting (iowait state)).2 some
        · obtain ⟨port, queued⟩ := unread queued
          exact absurd queued (none port)
    | @rejected p om act known state has _ =>
        subst act
        obtain ⟨m, rfl, pending⟩ := meets.1 known state there om has
        obtain rfl : m = n := by
          rcases pending with broken | ⟨job, asleep⟩
          · exact absurd (before.symm.trans broken) (by simp)
          · exact (Io.asleep.inj (asleep.symm.trans before)).1
        have nobody := (waiting state).2
        exact ⟨fun _ => quiet nobody nobody, by simp [Portref.reject, Portref.vIowait,
          Portref.setSent]⟩
    | refused _ _ state => exact absurd (opens state) (by simp)
    | accepted _ _ state => exact absurd (opens state) (by simp)
    | @bounced port key rest act here gone =>
        have bounced : .of id key ∈ (s.ports port).unread := by
          simp [Port.unread, here, Recv.bouncing]
        refine ⟨fun why => ?_, fun _ => serves (served_of_asleep registered before parent
          fun _ other at' => ?_)⟩
        · by_cases nobody : (s.prs id).dupWakes = []
          · exact quiet nobody (by simpa using nobody)
          · obtain ⟨_, none⟩ := registered.accepted id n newpr before nobody
            exfalso
            rcases why with failed | state | queued
            · rcases answered_prStep made exists_ change with same | state | ⟨_, other, queued⟩
              · rw [eq] at same
                exact plain (same ▸ failed)
              · exact nobody (waiting state).2
              · exact none other queued
            · exact nobody (waiting (iowait state)).2
            · obtain ⟨other, queued⟩ := unread queued
              exact none other queued
        · rcases sound.queues.dest port id key bounced with lost | same
          · exact absurd lost there
          · obtain rfl := Option.some.inj (same.symm.trans at')
            exact ⟨_, here⟩
    | @closed port rest here first =>
        refine ⟨fun why => ?_, fun _ => serves (served_of_asleep registered before parent
          fun _ other at' => ?_)⟩
        · by_cases nobody : (s.prs id).dupWakes = []
          · exact quiet nobody (by simpa using nobody)
          · obtain ⟨_, none⟩ := registered.accepted id n newpr before nobody
            exfalso
            rcases why with failed | state | queued
            · exact plain (by simpa using failed)
            · exact nobody (waiting (iowait state)).2
            · obtain ⟨other, queued⟩ := unread queued
              exact none other queued
        · have ring : (s.ports port).pRefs.count id ≠ 0 := by simp [first]
          obtain rfl := (Kernel.Client.of_has (registered.entry id) (.inl ring)).at_ at'
          exact ⟨_, here⟩

theorem handing_step (sound : s.Sound) (after : t.Sound) (registered : s.Registered)
    (meets : RegistersInOrder s action) (step : Step s action t) {id newpr : PrId} {n : Nat}
    {error : Bool} (at_ : (t.prs id).io = .release n (.dup newpr) error) :
    (error = true → t.Absent newpr) ∧ (error = false → t.Served newpr) := by
  have alive : (t.prs newpr).life ≠ .freed := by
    simp [(after.lives.dup id newpr (by rw [at_, Io.job])).1]
  have moves : (s.prs id).io.job = some (.dup newpr) → (∀ m, (s.prs id).io ≠ .asleep m (.dup newpr)) →
      (s.Absent newpr → t.Absent newpr) ∧ (s.Served newpr → t.Served newpr) := by
    intro job awake
    obtain ⟨opening, parent⟩ := sound.lives.dup id newpr job
    exact ⟨fun absent => absent_of_parent sound registered meets step parent absent (.inl awake),
      fun served => served_step sound registered meets step served (by simp [opening])
        (sound.lives.child newpr (by simp [parent])) alive⟩
  rcases releaseDup_prStep ((step_changes step).prs id) at_ with before | ⟨before, rfl⟩
  · obtain ⟨absent, served⟩ := moves (by rw [before, Io.job]) (by simp [before])
    obtain ⟨failed, success⟩ := registered.handing id n newpr error before
    exact ⟨fun e => absent (failed e), fun e => served (success e)⟩
  · obtain ⟨absent, served⟩ := moves (by rw [before, Io.job]) (by simp [before])
    obtain ⟨failed, success⟩ := registered.duplicated id n newpr before
    exact ⟨fun e => absent (failed (.inl (of_decide_eq_true e))),
      fun e => served (success (.inl (of_decide_eq_false e)))⟩

theorem opened_step (sound : s.Sound) (registered : s.Registered)
    (meets : RegistersInOrder s action) (step : Step s action t) {pr : PrId}
    (life : (t.prs pr).life = .opened) :
    (t.prs pr).pState ≠ .PS_OPENING ∧ t.Served pr := by
  have change := (step_changes step).prs pr
  have alive : (t.prs pr).life ≠ .freed := by simp [life]
  have moves := moves_prStep change
  rw [life] at moves
  generalize eq : Life.opened = now at moves
  have still : (s.prs pr).pState ≠ .PS_OPENING → (s.prs pr).life ≠ .unallocated →
      s.Served pr → (t.prs pr).pState ≠ .PS_OPENING ∧ t.Served pr := by
    intro state exists_ served
    refine ⟨fun opening => ?_, served_step sound registered meets step served exists_ state alive⟩
    rcases state_prStep change opening with ⟨before, _⟩ | ⟨fresh, _⟩
    · exact state before
    · exact exists_ fresh
  cases moves with
  | keeps =>
      obtain ⟨state, served⟩ := registered.opened pr eq.symm
      exact still state (by simp [← eq]) served
  | made => cases eq
  | @handed opr n error act at_ =>
      cases error with
      | true => cases eq
      | false =>
          obtain ⟨opening, parent⟩ := sound.lives.dup opr pr (by rw [at_, Io.job])
          exact still (sound.lives.child pr (by simp [parent])) (by simp [opening])
            ((registered.handing opr n pr false at_).2 rfl)
  | connectFails => cases eq
  | connected _ at_ there state =>
      have opening := (sound.lives.connect pr (by rw [at_, Io.job])).1
      exact still (by simp [state]) (by simp [opening])
        ((registered.connected pr _ at_ there).1 state)
  | free => cases eq
  | deleted => cases eq

/-- A portref whose `M_DISCONNECT` nobody has received is open. -/
theorem closing_step (sound : s.Sound) (registered : s.Registered) (step : Step s action t)
    {port : PortId} {pr : PrId} (unread : .of pr .disc ∈ (t.ports port).unread) :
    (t.prs pr).life = .opened := by
  have changes := step_changes step
  have moves := moves_prStep (changes.prs pr)
  generalize (t.prs pr).life = now at moves
  rcases mem_unread_portStep (changes.ports port) unread with before | enters
  · have opened := registered.closing port pr before
    have posted := sound.queues.posted port pr .disc before
    cases moves with
    | keeps => exact opened
    | made fresh => exact absurd (opened.symm.trans fresh) (by simp)
    | handed _ at_ =>
        have opening := (sound.lives.dup _ pr (by rw [at_, Io.job])).1
        exact absurd (opened.symm.trans opening) (by simp)
    | connectFails _ at_ _ =>
        have opening := (sound.lives.connect pr (by rw [at_, Io.job])).1
        exact absurd (opened.symm.trans opening) (by simp)
    | connected => rfl
    | free _ shutting _ => exact absurd (posted.2.2.symm.trans shutting) (by simp)
    | deleted _ at_ => exact absurd before (registered.leaving _ pr _ at_ port)
  · cases enters with
    | closing act shutting there =>
        cases moves with
        | keeps => exact sound.lives.closing pr shutting
        | made fresh => exact absurd ((sound.lives.closing pr shutting).symm.trans fresh) (by simp)
        | handed act' => simp [act] at act'
        | connectFails act' => simp [act] at act'
        | connected act' => simp [act] at act'
        | free _ _ gone => exact absurd (gone.symm.trans there) (by simp)
        | deleted act' => simp [act] at act'

theorem leaving_step (sound : s.Sound) (after : t.Sound) (registered : s.Registered)
    (step : Step s action t) {port : PortId} {pr : PrId} {key : MsgKey}
    (at_ : (t.ports port).recv = .delClient pr key) (other : PortId) :
    .of pr .disc ∉ (t.ports other).unread := by
  have changes := step_changes step
  intro unread
  rcases delClient_portStep (changes.ports port) at_ with before | ⟨rfl, ⟨rest, first⟩, op⟩
  · rcases mem_unread_portStep (changes.ports other) unread with old | enters
    · exact registered.leaving port pr key before other old
    · exact (posted_of_enters step (sound.queues.numbered pr) enters).1
        (sound.lives.leaving port pr key before)
  · have here := (there_of_first registered step first).1
    obtain rfl := sound.lives.disc port pr key here op
    have has : (t.prs pr).pMsg = some .disc := by
      rw [receive_of_msgReceive step first, Portref.receive]
    exact after.taken.read pr _ other has unread

/-- An open that the server knows of has been received. -/
theorem received_step (sound : s.Sound) (after : t.Sound) (registered : s.Registered)
    (meets : RegistersInOrder s action) (step : Step s action t) {pr : PrId} {port : PortId}
    (client : t.Client pr port) (state : (t.prs pr).pState = .PS_OPENING) :
    (t.prs pr).pMsg ≠ none := by
  have change := (step_changes step).prs pr
  rcases registered.entry pr with absent | ⟨other, before⟩
  · rcases absent_step sound registered meets step absent with
      still | ⟨_, _, _, _, has, _⟩ | ⟨opr, n, at_, _⟩
    · exact absurd client (still.not_client port)
    · simp [has]
    · obtain ⟨opening, parent⟩ := sound.lives.dup opr pr (by rw [at_, Io.job])
      refine absurd state (after.lives.child pr ?_)
      rcases parent_prStep change with same | ⟨fresh, _⟩
      · simp [same, parent]
      · exact absurd fresh (by simp [opening])
  · have opening : (s.prs pr).pState = .PS_OPENING := by
      rcases state_prStep change state with ⟨same, _⟩ | ⟨fresh, _⟩
      · exact same
      · exact absurd fresh before.alive.1
    rcases pMsg_kept before.alive.1 (registered.received pr other before opening) change with
      has | iowait
    · exact has
    · exact absurd (opening.symm.trans iowait) (by simp)

/-- A step that overtakes no registration keeps every entry in order. -/
theorem registered_step (sound : s.Sound) (after : t.Sound) (registered : s.Registered)
    (meets : RegistersInOrder s action) (step : Step s action t) : t.Registered where
  entry := entry_step sound registered meets step
  unread _ _ _ := unread_step sound registered step
  connecting _ _ _ := connecting_step sound after registered meets step
  opening pr _ := opening_of_asleep sound.lives (registered.opening pr) ((step_changes step).prs pr)
  connected _ _ := connected_step sound after registered meets step
  newborn pr := newborn_prStep sound.lives (registered.newborn pr) ((step_changes step).prs pr)
  duplicating _ _ _ := duplicating_step sound after registered meets step
  accepted _ _ _ := accepted_step sound registered meets step
  duplicated _ _ _ := duplicated_step sound after registered meets step
  handing _ _ _ _ := handing_step sound after registered meets step
  opened _ := opened_step sound registered meets step
  closing _ _ := closing_step sound registered step
  leaving _ _ _ := leaving_step sound after registered step
  received _ _ := received_step sound after registered meets step

end Stages

/-! ## Every run -/

theorem RegistersInOrder.answers {s : Kernel}
    (run : Transition.Reaches Step RegistersInOrder Kernel.boot s) :
    Transition.Reaches Step AnswersPending Kernel.boot s :=
  run.mono fun _ _ meets => meets.1

theorem sound_reaches {s : Kernel}
    (run : Transition.Reaches Step RegistersInOrder Kernel.boot s) : s.Sound where
  made := made_reaches run
  queues := queues_reaches run
  taken := taken_reaches run
  elsewhere := dupsElsewhere_reaches run
  lives := lives_reaches run
  known := known_reaches (RegistersInOrder.answers run)
  waits := waits_reaches (RegistersInOrder.answers run)

theorem registered_boot : Kernel.boot.Registered := by
  constructor
  case entry =>
    refine fun pr => .inl ⟨?_, ?_, ?_, ?_, ?_⟩ <;>
      simp [Kernel.boot, Port.unborn, Portref.unborn, Recv.hashing, Recv.dropping,
        Kernel.Registers]
  case received => exact fun pr port client => absurd rfl client.alive.1
  all_goals simp [Kernel.boot, Port.unborn, Portref.unborn, Port.unread, Recv.bouncing]

theorem registered_reaches {s : Kernel}
    (run : Transition.Reaches Step RegistersInOrder Kernel.boot s) : s.Registered :=
  run.invariant_on_run registered_boot fun _ _ _ before registered meets step =>
    registered_step (sound_reaches before) (sound_reaches (before.tail meets step)) registered meets
      step

/-- **The tables of a server agree.** The entry that `shut_server` or `del_client` deletes
from the hash is there, and a portref that was freed is in no hash and on no ring. -/
theorem registration_agrees {s : Kernel}
    (run : Transition.Reaches Step RegistersInOrder Kernel.boot s) :
    (∀ port pr, (s.ports port).recv = .shut (.unhash pr) →
        RegistersInOrder s (.hashDelete port) → s.prefs (s.ports port).owner pr = true) ∧
      (∀ port pr key, (s.ports port).recv = .delClient pr key →
        RegistersInOrder s (.delClient port) → s.prefs (s.ports port).owner pr = true) ∧
      ∀ pr, (s.prs pr).life = .freed →
        (∀ p, s.prefs p pr = false) ∧ ∀ port, pr ∉ (s.ports port).pRefs := by
  have registered := registered_reaches run
  have hashed : ∀ {port pr}, (s.ports port).recv.dropping = some pr →
      (s.ports port).recv.hashing = none → (∀ p, ¬s.Registers pr p) →
        s.prefs (s.ports port).owner pr = true := by
    intro port pr drops quiet none
    have client := Kernel.Client.of_has (registered.entry pr) (.inr (.inr drops))
    rcases client.listed with hashed | registers | hash
    · exact hashed
    · exact absurd registers (none _)
    · simp [quiet] at hash
  refine ⟨fun port pr at_ meets => ?_, fun port pr key at_ meets => ?_, fun pr freed => ?_⟩
  · exact hashed (by simp [at_, Recv.dropping]) (by simp [at_, Recv.hashing])
      (meets.2 pr (by simp [at_, Recv.dropping]))
  · exact hashed (by simp [at_, Recv.dropping]) (by simp [at_, Recv.hashing])
      (meets.2 pr (by simp [at_, Recv.dropping]))
  · rcases registered.entry pr with absent | ⟨port, client⟩
    · exact ⟨absent.prefs, fun port => List.count_eq_zero.mp (absent.ring port)⟩
    · exact absurd freed client.alive.2

/-- A test of the guard: no duplicates are about, and clients free nothing themselves. -/
def registersInOrder (s : Kernel) (action : Action) : Bool :=
  answersPending s action && match action with
    | .hashDelete port | .delClient port => (s.ports port).recv.dropping.all fun pr =>
        decide ((s.prs pr).parent = none) && decide ((s.prs pr).dupHash = none)
    | .shutClient id | .connectDone id => decide ((s.prs id).pPort ≠ none)
    | .msgErr _ _ => false
    | _ => true

theorem registersInOrder_sound (s : Kernel) (action : Action)
    (test : registersInOrder s action = true) : RegistersInOrder s action := by
  simp only [registersInOrder, Bool.and_eq_true] at test
  refine ⟨answersPending_sound test.1, ?_⟩
  have quiet : ∀ {port pr}, (s.ports port).recv.dropping.all (fun pr =>
      decide ((s.prs pr).parent = none) && decide ((s.prs pr).dupHash = none)) = true →
        (s.ports port).recv.dropping = some pr → ∀ p, ¬s.Registers pr p := by
    intro port pr all drops p
    simp only [drops, Option.all_some, Bool.and_eq_true, decide_eq_true_eq] at all
    simp [Kernel.Registers, all]
  cases action with
  | hashDelete port => exact fun pr drops => quiet test.2 drops
  | delClient port => exact fun pr drops => quiet test.2 drops
  | shutClient id => exact fun gone => absurd gone (by simpa using test.2)
  | connectDone id => exact fun gone => absurd gone (by simpa using test.2)
  | msgErr p id => simp at test
  | _ => trivial

/-- The client closes its connection; the server that takes the `M_DISCONNECT` finds the
portref hashed. -/
theorem registration_agrees_closed :
    ∃ s, Transition.Reaches Step RegistersInOrder Kernel.boot s ∧
      (s.ports 0).recv = .delClient 0 .disc ∧ s.prefs (s.ports 0).owner 0 = true := by
  obtain ⟨s, reached, at_, parent, hash⟩ := exists_of_runWith registersInOrder
    registersInOrder_sound
    (opening 0 0 0 ++ [.shutClientRef 0, .shutClient 0, .findPort 0, .msgReceive 0])
    (fun s => (s.ports 0).recv = .delClient 0 .disc ∧ (s.prs 0).parent = none ∧
      (s.prs 0).dupHash = none) (by decide +kernel)
  refine ⟨s, reached, at_, (registration_agrees reached).2.1 0 0 .disc at_ ?_⟩
  exact registersInOrder_sound _ _ (by simp [registersInOrder, answersPending, at_,
    Recv.dropping, parent, hash])

/-- **A freed portref stays on the tables.** The server shuts down and bounces the request
of client 0; the client is told, closes the connection and frees the portref, which the
server still has on its ring and in its hash. -/
theorem free_registered :
    ∃ s, Transition.Reaches Step Transition.Any Kernel.boot s ∧ (s.prs 0).life = .freed ∧
      s.prefs 0 0 = true ∧ 0 ∈ (s.ports 0).pRefs :=
  exists_of_runWith (fun _ _ => true) (fun _ _ _ => trivial)
    (opening 0 0 0 ++ [.findPortref 0, .msgSend 0 plainRequest, .msgDisconnect 0, .bounceMsgs 0,
      .bounceMsg 0, .sendWoken 0 .copied, .sendOut1 0, .release 0, .shutClientRef 0,
      .shutClient 0])
    (fun s => (s.prs 0).life = .freed ∧ s.prefs 0 0 = true ∧ 0 ∈ (s.ports 0).pRefs)
    (by decide +kernel)

end Vsta.Msg
