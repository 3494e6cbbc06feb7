import Vsta.Library.Runs
import Vsta.Vstafs.Clients

/-!
# Every message is answered once

A connection is waiting exactly while its rename is put aside, every other message is answered when
it is handled, and no answer goes to a connection that is not waiting (`replies_sound`). This
needs that no `M_ABORT` arrives for a connection whose rename is put aside: the server answers it,
but the rename stays in `rename_pending`, and its second half answers the connection again
(`abort_answers_twice`).
-/

set_option autoImplicit false

namespace Vsta.Vstafs

/-- The rename of a connection is put aside. -/
def System.Parked (s : System) (h : Handle) : Prop :=
  ∃ id f file, s.server.pendingAt id = some f ∧ s.server.files f = some file ∧
    file.fRenameId = id ∧ file.fRenameMsg.mSender = h

/-- No answer has gone astray, what is not answered yet is a rename that is put aside, and no
message that can arrive makes the server use a `struct file` that is not there. -/
structure Sound (s : System) : Prop where
  noStray : s.stray = false
  parked : ∀ h, s.conn h = .waiting ↔ s.Parked h
  live : ∀ x m, s.Legal x m → s.server.handle x m ≠ none

/-- No `M_ABORT` arrives for a connection whose rename is put aside. -/
def Fits (s : System) (label : Outcome × Msg) : Prop :=
  label.2.mOp = .M_ABORT → s.conn label.2.mSender ≠ .waiting

/-- The hashes, the memory and the connections agree. -/
structure WellFormed (s : System) : Prop where
  noStray : s.stray = false
  clients : s.server.filehash.Distinct
  pending : ∀ p, s.server.renamePending = some p → p.Distinct
  known : ∀ h, s.conn h = .absent ↔ s.server.filehash.lookup h = none
  live : ∀ h f, s.server.filehash.lookup h = some f → ∃ file, s.server.files f = some file
  own : ∀ h h' f, s.server.filehash.lookup h = some f → s.server.filehash.lookup h' = some f →
    h = h'
  parked : ∀ id f, s.server.pendingAt id = some f → ∃ h file,
    s.server.filehash.lookup h = some f ∧ s.server.files f = some file ∧ file.fRenameId = id ∧
      file.fRenameMsg.mSender = h ∧ id ≠ 0
  waiting : ∀ h f file, s.server.filehash.lookup h = some f → s.server.files f = some file →
    (s.conn h = .waiting ↔ file.fRenameId ≠ 0)
  registered : ∀ h f file, s.server.filehash.lookup h = some f → s.server.files f = some file →
    file.fRenameId ≠ 0 → s.server.pendingAt file.fRenameId = some f

namespace WellFormed

variable {s : System}

/-- A connection that exists has a `struct file`. -/
theorem client (formed : WellFormed s) {h : Handle} (exists_ : s.conn h ≠ .absent) :
    ∃ f file, s.server.filehash.lookup h = some f ∧ s.server.files f = some file := by
  cases found : s.server.filehash.lookup h with
  | none => exact absurd ((formed.known h).mpr found) exists_
  | some f =>
      obtain ⟨file, here⟩ := formed.live h f found
      exact ⟨f, file, rfl, here⟩

/-- A connection is waiting exactly while its rename is put aside. -/
theorem waiting_iff_parked (formed : WellFormed s) (h : Handle) :
    s.conn h = .waiting ↔ s.Parked h := by
  constructor
  · intro waits
    obtain ⟨f, file, found, here⟩ := formed.client (h := h) (by simp [waits])
    have id := (formed.waiting h f file found here).mp waits
    have held := formed.registered h f file found here id
    obtain ⟨h', file', found', here', _, sender, _⟩ := formed.parked _ f held
    obtain rfl := formed.own h h' f found found'
    obtain rfl : file = file' := Option.some.inj (here.symm.trans here')
    exact ⟨_, f, file, held, here, rfl, sender⟩
  · rintro ⟨id, f, file, held, here, rfl, rfl⟩
    obtain ⟨h', file', found', here', _, sender, nonzero⟩ := formed.parked _ f held
    obtain rfl : file = file' := Option.some.inj (here.symm.trans here')
    exact sender ▸ (formed.waiting h' f file found' here).mpr nonzero

end WellFormed

theorem wellFormed_start (roflag : Bool) : WellFormed (System.start roflag) := by
  refine ⟨rfl, Hash.distinct_nil, by simp [System.start], ?_, ?_, ?_, ?_, ?_, ?_⟩
  all_goals simp [System.start, Hash.lookup, Server.pendingAt]

/-! ## What a message leaves of the connections -/

/-- The operations whose answer is all that happens to the connections. -/
def Plain (op : Op) : Prop := op ≠ .M_CONNECT ∧ op ≠ .M_DISCONNECT ∧ op ≠ .M_DUP

/-- An answer to the sender leaves it idle, as it was. -/
theorem after_once {s : System} {m : Msg} (plain : Plain m.mOp) (idle : s.conn m.mSender = .idle)
    (server : Server) {sent : List Sent} (once : Once m sent) :
    s.after m (server, sent) = { s with server } := by
  obtain ⟨answer, _, rfl⟩ := once
  obtain ⟨connect, disconnect, dup⟩ := plain
  have back : Function.update s.conn m.mSender Conn.idle = s.conn := by
    rw [← idle, Function.update_eq_self]
  simp only [System.after, List.foldl_cons, List.foldl_nil, System.receive, if_neg disconnect,
    System.deliver, Function.update_self, if_true, Function.update_idem, back]
  rw [System.settle.eq_def]
  split <;> simp_all

/-! ## What a message leaves of the clients -/

namespace WellFormed

variable {s : System}

/-- An address that is not in use is that of no client and of no rename. -/
theorem unused (formed : WellFormed s) {f : Addr} (free : s.server.files f = none) :
    (∀ h, s.server.filehash.lookup h ≠ some f) ∧ ∀ id, s.server.pendingAt id ≠ some f := by
  constructor
  · intro h found
    obtain ⟨file, here⟩ := formed.live h f found
    simp [here] at free
  · intro id held
    obtain ⟨_, file, _, here, _⟩ := formed.parked id f held
    simp [here] at free

/-- A client without a rename comes in. -/
theorem enter (formed : WellFormed s) {h : Handle} {f : Addr} (file : File)
    (absent : s.conn h = .absent) (free : s.server.files f = none) (id : file.fRenameId = 0) :
    WellFormed { s with
      server := { s.server.setFile f file with filehash := s.server.filehash.insert h f }
      conn := Function.update s.conn h .idle } := by
  obtain ⟨noClient, noRename⟩ := formed.unused free
  have fresh := (formed.known h).mp absent
  have found : ∀ h', (s.server.filehash.insert h f).lookup h' =
      if h' = h then some f else s.server.filehash.lookup h' := Hash.lookup_insert _ _ _
  have other : ∀ f', f' ≠ f → (s.server.setFile f file).files f' = s.server.files f' :=
    fun f' different => Function.update_of_ne different ..
  have new : (s.server.setFile f file).files f = some file := Function.update_self ..
  refine ⟨formed.noStray, formed.clients.insert fresh, formed.pending, fun h' => ?_,
    fun h' f' here => ?_, fun h' h'' f' here there => ?_, fun id' f' held => ?_,
    fun h' f' file' here stored => ?_, fun h' f' file' here stored nonzero => ?_⟩
  · simp only [found]
    by_cases same : h' = h
    · simp [same]
    · simp [same, formed.known h']
  · simp only [found] at here
    by_cases same : h' = h
    · simp only [same, if_true, Option.some.injEq] at here
      exact ⟨file, here ▸ new⟩
    · simp only [same, if_false] at here
      obtain ⟨file', stored⟩ := formed.live h' f' here
      exact ⟨file', (other f' fun equal => noClient h' (equal ▸ here)).trans stored⟩
  · simp only [found] at here there
    split_ifs at here there with first second second
    · exact first.trans second.symm
    · exact absurd (here ▸ there) (noClient h'')
    · exact absurd (there ▸ here) (noClient h')
    · exact formed.own h' h'' f' here there
  · obtain ⟨h', file', here, stored, rest⟩ := formed.parked id' f' held
    refine ⟨h', file', ?_, ?_, rest⟩
    · simp only [found]
      rw [if_neg fun same => by simp [same, fresh] at here]
      exact here
    · exact (other f' fun equal => noRename id' (equal ▸ held)).trans stored
  · simp only [found] at here
    by_cases same : h' = h
    · simp only [same, if_true, Option.some.injEq] at here
      obtain rfl : file = file' := Option.some.inj (new.symm.trans (here ▸ stored))
      simp [same, id]
    · simp only [same, if_false] at here
      have kept := other f' fun equal => noClient h' (equal ▸ here)
      simp only [Function.update_of_ne same]
      exact formed.waiting h' f' file' here (kept.symm.trans stored)
  · simp only [found] at here
    by_cases same : h' = h
    · simp only [same, if_true, Option.some.injEq] at here
      obtain rfl : file = file' := Option.some.inj (new.symm.trans (here ▸ stored))
      exact absurd id nonzero
    · simp only [same, if_false] at here
      have kept := other f' fun equal => noClient h' (equal ▸ here)
      exact formed.registered h' f' file' here (kept.symm.trans stored) nonzero

/-- The rename of a client leaves `rename_pending`, and the client has none. -/
theorem release (formed : WellFormed s) {h : Handle} {f : Addr} {file : File}
    (found : s.server.filehash.lookup h = some f) (here : s.server.files f = some file)
    (nonzero : file.fRenameId ≠ 0) :
    WellFormed { s with
      server := s.server.cancelRename f file
      conn := Function.update s.conn h .idle } := by
  have erased : ∀ id, (s.server.cancelRename f file).pendingAt id =
      if id = file.fRenameId then none else s.server.pendingAt id := by
    intro id
    simp only [Server.pendingAt, Server.cancelRename, Server.setFile, Server.deletePending]
    cases table : s.server.renamePending with
    | none => simp
    | some p => exact (formed.pending p table).lookup_delete _ id
  have other : ∀ f', f' ≠ f →
      (s.server.cancelRename f file).files f' = s.server.files f' :=
    fun f' different => Function.update_of_ne different ..
  have new : (s.server.cancelRename f file).files f = some { file with fRenameId := 0 } :=
    Function.update_self ..
  refine ⟨formed.noStray, formed.clients, fun p table => ?_, fun h' => ?_,
    fun h' f' here' => ?_, formed.own, fun id' f' held => ?_,
    fun h' f' file' here' stored => ?_, fun h' f' file' here' stored nonzero' => ?_⟩
  · obtain ⟨p', table', rfl⟩ := Option.map_eq_some_iff.mp table
    exact (formed.pending p' table').delete _
  · by_cases same : h' = h
    · simp [same, Server.cancelRename, Server.setFile, Server.deletePending, found]
    · simp only [Function.update_of_ne same]
      exact formed.known h'
  · by_cases same : f' = f
    · obtain rfl := same
      exact ⟨_, new⟩
    · obtain ⟨file', stored⟩ := formed.live h' f' here'
      exact ⟨file', (other f' same).trans stored⟩
  · simp only [erased] at held
    split_ifs at held with cancelled
    obtain ⟨h', file', here', stored, id, rest⟩ := formed.parked id' f' held
    refine ⟨h', file', here', (other f' ?_).trans stored, id, rest⟩
    rintro rfl
    obtain rfl : file = file' := Option.some.inj (here.symm.trans stored)
    exact cancelled id.symm
  · by_cases same : f' = f
    · obtain rfl := same
      obtain rfl := formed.own h' h f' here' found
      obtain rfl := Option.some.inj (new.symm.trans stored)
      simp
    · have different : h' ≠ h := fun equal =>
        same (Option.some.inj ((equal ▸ here').symm.trans found))
      simp only [Function.update_of_ne different]
      exact formed.waiting h' f' file' here' ((other f' same).symm.trans stored)
  · by_cases same : f' = f
    · obtain rfl := same
      obtain rfl := Option.some.inj (new.symm.trans stored)
      exact absurd rfl nonzero'
    · have held := formed.registered h' f' file' here' ((other f' same).symm.trans stored) nonzero'
      rw [erased, if_neg]
      · exact held
      · intro equal
        rw [equal, formed.registered h f file found here nonzero] at held
        exact same (Option.some.inj held).symm

/-- A client without a rename goes. -/
theorem dismiss (formed : WellFormed s) {h : Handle} {f : Addr} (file : File)
    (found : s.server.filehash.lookup h = some f) (here : s.server.files f = some file)
    (id : file.fRenameId = 0) :
    WellFormed { s with
      server := { s.server with
        filehash := s.server.filehash.delete h
        files := Function.update s.server.files f none }
      conn := Function.update s.conn h .absent } := by
  have left : ∀ h', (s.server.filehash.delete h).lookup h' =
      if h' = h then none else s.server.filehash.lookup h' := formed.clients.lookup_delete h
  have other : ∀ h' f', h' ≠ h → s.server.filehash.lookup h' = some f' →
      Function.update s.server.files f none f' = s.server.files f' := by
    intro h' f' different here'
    refine Function.update_of_ne ?_ ..
    rintro rfl
    exact different (formed.own h' h f' here' found)
  refine ⟨formed.noStray, formed.clients.delete h, formed.pending, fun h' => ?_,
    fun h' f' here' => ?_, fun h' h'' f' here' there => ?_, fun id' f' held => ?_,
    fun h' f' file' here' stored => ?_, fun h' f' file' here' stored nonzero => ?_⟩
  · simp only [left]
    by_cases same : h' = h
    · simp [same]
    · simp [same, formed.known h']
  · simp only [left] at here'
    split_ifs at here' with same
    obtain ⟨file', stored⟩ := formed.live h' f' here'
    exact ⟨file', (other h' f' same here').trans stored⟩
  · simp only [left] at here' there
    split_ifs at here' there
    exact formed.own h' h'' f' here' there
  · obtain ⟨h', file', here', stored, id'', sender, nonzero⟩ := formed.parked id' f' held
    have different : h' ≠ h := by
      rintro rfl
      obtain rfl := Option.some.inj (found.symm.trans here')
      obtain rfl := Option.some.inj (here.symm.trans stored)
      exact nonzero (id''.symm.trans id)
    refine ⟨h', file', ?_, (other h' f' different here').trans stored, id'', sender, nonzero⟩
    simp only [left, if_neg different]
    exact here'
  all_goals
    simp only [left] at here'
    split_ifs at here' with same
    have kept := other h' f' same here'
  · simp only [Function.update_of_ne same]
    exact formed.waiting h' f' file' here' (kept.symm.trans stored)
  · exact formed.registered h' f' file' here' (kept.symm.trans stored) nonzero

/-- A client puts a rename aside under an id that is not taken. -/
theorem register (formed : WellFormed s) {h : Handle} {f : Addr} {file : File} {p : Hash Addr}
    {m : Msg} (table : s.server.renamePending = some p)
    (found : s.server.filehash.lookup h = some f) (here : s.server.files f = some file)
    (idle : s.conn h = .idle) (free : p.lookup m.mArg1 = none) (nonzero : m.mArg1 ≠ 0)
    (sender : m.mSender = h) :
    WellFormed { s with
      server := { s.server.setFile f ⟨m.mArg1, m⟩ with
        renamePending := some (p.insert m.mArg1 f) }
      conn := Function.update s.conn h .waiting } := by
  have held : ∀ id, (p.insert m.mArg1 f).lookup id =
      if id = m.mArg1 then some f else s.server.pendingAt id := by
    intro id
    rw [Hash.lookup_insert, Server.pendingAt, table]
    rfl
  have other : ∀ f', f' ≠ f → (s.server.setFile f ⟨m.mArg1, m⟩).files f' = s.server.files f' :=
    fun f' different => Function.update_of_ne different ..
  have new : (s.server.setFile f ⟨m.mArg1, m⟩).files f = some ⟨m.mArg1, m⟩ :=
    Function.update_self ..
  have none_ : file.fRenameId = 0 := by
    by_contra has
    have waits := (formed.waiting h f file found here).mpr has
    simp [idle] at waits
  have nowhere : ∀ id, s.server.pendingAt id ≠ some f := by
    intro id taken
    obtain ⟨_, file', _, stored, id', _, nonzero'⟩ := formed.parked id f taken
    obtain rfl := Option.some.inj (here.symm.trans stored)
    exact nonzero' (id'.symm.trans none_)
  refine ⟨formed.noStray, formed.clients, fun p' table' => ?_, fun h' => ?_,
    fun h' f' here' => ?_, formed.own, fun id' f' held' => ?_,
    fun h' f' file' here' stored => ?_, fun h' f' file' here' stored nonzero' => ?_⟩
  · obtain rfl := Option.some.inj table'
    exact (formed.pending p table).insert free
  · by_cases same : h' = h
    · simp [same, Server.setFile, found]
    · simp only [Function.update_of_ne same]
      exact formed.known h'
  · by_cases same : f' = f
    · obtain rfl := same
      exact ⟨_, new⟩
    · obtain ⟨file', stored⟩ := formed.live h' f' here'
      exact ⟨file', (other f' same).trans stored⟩
  · replace held' : (p.insert m.mArg1 f).lookup id' = some f' := held'
    rw [held] at held'
    split_ifs at held' with same
    · obtain rfl := Option.some.inj held'
      exact ⟨h, _, found, new, same.symm, sender, same ▸ nonzero⟩
    · obtain ⟨h', file', here', stored, rest⟩ := formed.parked id' f' held'
      refine ⟨h', file', here', (other f' ?_).trans stored, rest⟩
      exact fun equal => nowhere id' (equal ▸ held')
  · by_cases same : f' = f
    · obtain rfl := same
      obtain rfl := formed.own h' h f' here' found
      obtain rfl := Option.some.inj (new.symm.trans stored)
      exact iff_of_true (Function.update_self ..) nonzero
    · have different : h' ≠ h := fun equal =>
        same (Option.some.inj ((equal ▸ here').symm.trans found))
      simp only [Function.update_of_ne different]
      exact formed.waiting h' f' file' here' ((other f' same).symm.trans stored)
  · show (p.insert m.mArg1 f).lookup file'.fRenameId = some f'
    by_cases same : f' = f
    · obtain rfl := same
      obtain rfl := Option.some.inj (new.symm.trans stored)
      rw [held, if_pos rfl]
    · have stored := (other f' same).symm.trans stored
      have before := formed.registered h' f' file' here' stored nonzero'
      rw [held, if_neg]
      · exact before
      · intro taken
        rw [taken, Server.pendingAt, table] at before
        simp [free] at before

/-- The hash of the pending renames is created. -/
theorem createTable (formed : WellFormed s) (table : s.server.renamePending = none) :
    WellFormed { s with server := { s.server with renamePending := some [] } } := by
  have same : ∀ id, ({ s.server with renamePending := some [] } : Server).pendingAt id =
      s.server.pendingAt id := by
    intro id
    rw [Server.pendingAt, Server.pendingAt, table]
    rfl
  refine { formed with
    pending := fun p equal => Option.some.inj equal ▸ Hash.distinct_nil
    parked := fun id f held => formed.parked id f (same id ▸ held)
    registered := fun h f file found here nonzero => ?_ }
  rw [same]
  exact formed.registered h f file found here nonzero

end WellFormed

/-! ## One message -/

variable {s : System} {x : Outcome} {m : Msg}

/-- A message has a state after it, and where it meets `Fits`, that state is well formed. -/
def Handled (s : System) (x : Outcome) (m : Msg) : Prop :=
  ∃ result, s.server.handle x m = some result ∧ (Fits s (x, m) → WellFormed (s.after m result))

/-- The server answers the sender and is as it was. -/
theorem handled_once (formed : WellFormed s) (plain : Plain m.mOp)
    (idle : s.conn m.mSender = .idle) {sent : List Sent} (once : Once m sent)
    (done : s.server.handle x m = some (s.server, sent)) : Handled s x m :=
  ⟨_, done, fun _ => by rw [after_once plain idle _ once]; exact formed⟩

/-- A request on a file. -/
theorem onFile_eq (formed : WellFormed s) (idle : s.conn m.mSender = .idle) (sent : List Sent) :
    s.server.onFile (s.server.filehash.lookup m.mSender) sent = some (s.server, sent) := by
  obtain ⟨f, file, found, here⟩ := formed.client (h := m.mSender) (by simp [idle])
  simp [Server.onFile, Server.file, found, here]

theorem handled_connect (formed : WellFormed s) (legal : s.Legal x m) (op : m.mOp = .M_CONNECT) :
    Handled s x m := by
  obtain ⟨memory, absent⟩ : _ ∧ s.conn m.mSender = .absent := by
    simpa only [System.Legal, op] using legal
  have back : Function.update s.conn m.mSender Conn.absent = s.conn := by
    rw [← absent, Function.update_eq_self]
  have refused : ∀ e, WellFormed (s.after m (s.server, [msgErr m.mSender e])) := by
    intro e
    simpa [System.after, System.receive, System.deliver, System.settle, op, msgErr, msgAccept, back]
      using formed
  refine ⟨s.server.newClient x m, by rw [Server.handle, op], fun _ => ?_⟩
  rw [Server.newClient]
  by_cases root : x.root = true
  · cases mem : x.mem with
    | none => simpa only [root, Bool.not_true, Bool.false_eq_true, if_false] using refused _
    | some new =>
        obtain ⟨f, old⟩ := new
        by_cases node : x.node = true
        · simp only [root, node, Bool.not_true, Bool.false_eq_true, if_false]
          have admitted := formed.enter { old with fRenameId := 0 } absent
            (memory f old mem) rfl
          simpa [System.after, System.receive, System.deliver, System.settle, op, msgAccept]
            using admitted
        · simpa only [root, node, Bool.not_true, Bool.false_eq_true, if_false, Bool.not_false,
            if_true] using refused _
  · simpa only [root, Bool.not_false, if_true] using refused _

theorem handled_dup (formed : WellFormed s) (legal : s.Legal x m) (op : m.mOp = .M_DUP) :
    Handled s x m := by
  obtain ⟨memory, idle, absent⟩ : _ ∧ s.conn m.mSender = .idle ∧ s.conn m.mArg = .absent := by
    simpa only [System.Legal, op] using legal
  have back : Function.update s.conn m.mSender Conn.idle = s.conn := by
    rw [← idle, Function.update_eq_self]
  have refused : ∀ e, WellFormed (s.after m (s.server, [msgErr m.mSender e])) := by
    intro e
    simpa [System.after, System.receive, System.deliver, System.settle, op, msgErr, msgReply, back]
      using formed
  obtain ⟨g, old, found, here⟩ := formed.client (h := m.mSender) (by simp [idle])
  have handled : s.server.handle x m = s.server.dupClient x m (some g) := by
    rw [Server.handle, op]
    exact congrArg (s.server.dupClient x m) found
  have source : s.server.file (some g) = some old := here
  rw [Handled, handled, Server.dupClient]
  cases mem : x.mem with
  | none => exact ⟨_, rfl, fun _ => refused _⟩
  | some new =>
      obtain ⟨f, junk⟩ := new
      simp only [source, Option.map_some, Option.some.injEq, exists_eq_left']
      intro _
      by_cases node : x.node = true
      · simp only [node, Bool.not_true, Bool.false_eq_true, if_false]
        have id : old.fRenameId = 0 := by
          by_contra nonzero
          have waits := (formed.waiting _ g old found here).mpr nonzero
          simp [idle] at waits
        have admitted := formed.enter old absent (memory f junk mem) id
        simpa [System.after, System.receive, System.deliver, System.settle, op, msgReply, back]
          using admitted
      · simpa only [node, Bool.not_false, if_true] using refused _

theorem handled_disconnect (formed : WellFormed s) (legal : s.Legal x m)
    (op : m.mOp = .M_DISCONNECT) : Handled s x m := by
  obtain ⟨_, exists_⟩ : _ ∧ s.conn m.mSender ≠ .absent := by
    simpa only [System.Legal, op] using legal
  obtain ⟨f, file, found, here⟩ := formed.client exists_
  have handled : s.server.handle x m = s.server.deadClient m (some f) := by
    rw [Server.handle, op]
    exact congrArg (s.server.deadClient m) found
  rw [Handled, handled, Server.deadClient]
  simp only [here, Option.map_some, Option.some.injEq, exists_eq_left']
  intro _
  by_cases nonzero : file.fRenameId ≠ 0
  · simp only [if_pos nonzero]
    have released := formed.release found here nonzero
    have gone := released.dismiss { file with fRenameId := 0 } found
      (Function.update_self ..) rfl
    simpa [System.after, System.receive, System.settle, op, Server.cancelRename,
      Server.setFile, Server.deletePending] using gone
  · simp only [if_neg nonzero]
    have gone := formed.dismiss file found here (not_not.mp nonzero)
    simpa [System.after, System.receive, System.settle, op] using gone

/-- The two halves of a rename, with the hash in place. -/
theorem rename_wellFormed {p : Hash Addr} (formed : WellFormed s) (op : m.mOp = .FS_RENAME)
    (idle : s.conn m.mSender = .idle) (table : s.server.renamePending = some p)
    (nonzero : m.mArg1 ≠ 0) :
    ∃ result, (if m.mArg = 0 then
        s.server.registerRename x m (s.server.filehash.lookup m.mSender) p
      else
        s.server.completeRename x m (s.server.filehash.lookup m.mSender)) = some result ∧
      WellFormed (s.after m result) := by
  have plain : Plain m.mOp := by simp [Plain, op]
  have refused : ∀ e, WellFormed (s.after m (s.server, [msgErr m.mSender e])) := by
    intro e
    rw [after_once plain idle _ (once_err m e)]
    exact formed
  obtain ⟨f, file, found, here⟩ := formed.client (h := m.mSender) (by simp [idle])
  rw [found]
  by_cases first : m.mArg = 0
  · rw [if_pos first, Server.registerRename]
    cases taken : p.lookup m.mArg1 with
    | some g => exact ⟨_, rfl, refused _⟩
    | none =>
        by_cases node : x.node = true
        · simp only [node, Bool.not_true, Bool.false_eq_true, if_false, here, Option.map_some]
          refine ⟨_, rfl, ?_⟩
          have registered := formed.register table found here idle taken nonzero rfl
          simpa [System.after, System.receive, System.settle, op] using registered
        · simp only [node, Bool.not_false, if_true]
          exact ⟨_, rfl, refused _⟩
  · rw [if_neg first, Server.completeRename]
    cases held : s.server.pendingAt m.mArg1 with
    | none => exact ⟨_, rfl, refused _⟩
    | some g =>
        obtain ⟨h, file2, found2, here2, id, sender, _⟩ := formed.parked _ g held
        have source : (s.server.deletePending m.mArg1).file (some f) = some file := here
        have target : (s.server.deletePending m.mArg1).files g = some file2 := here2
        have waits : s.conn h = .waiting :=
          (formed.waiting h g file2 found2 here2).mpr (id ▸ nonzero)
        have different : h ≠ m.mSender := by
          rintro rfl
          simp [idle] at waits
        have released := formed.release found2 here2 (id ▸ nonzero)
        have back : Function.update s.conn m.mSender Conn.idle = s.conn := by
          rw [← idle, Function.update_eq_self]
        simp only [target, source]
        refine ⟨_, rfl, ?_⟩
        rw [Server.cancelRename, id] at released
        cases x.doRename with
        | none =>
            simpa [System.after, System.receive, System.deliver, System.settle, op, msgReply,
              sender, different, waits, back] using released
        | some e =>
            simpa [System.after, System.receive, System.deliver, System.settle, op, msgErr,
              sender, different, waits, back] using released

theorem handled_rename (formed : WellFormed s) (legal : s.Legal x m) (op : m.mOp = .FS_RENAME) :
    Handled s x m := by
  obtain ⟨_, idle⟩ : _ ∧ s.conn m.mSender = .idle := by
    simpa only [System.Legal, op] using legal
  have plain : Plain m.mOp := by simp [Plain, op]
  have handled : s.server.handle x m =
      s.server.vfsRename x m (s.server.filehash.lookup m.mSender) := by
    rw [Server.handle, op]
  have refused : ∀ e, s.server.vfsRename x m (s.server.filehash.lookup m.mSender) =
      some (s.server, [msgErr m.mSender e]) → Handled s x m := fun e answer =>
    handled_once formed plain idle (once_err m e) (handled.trans answer)
  by_cases invalid : m.mArg1 = 0 ∨ validFname x.before m.mBuf = false
  · exact refused .EINVAL (by rw [Server.vfsRename, if_pos invalid])
  · have nonzero : m.mArg1 ≠ 0 := fun zero => invalid (.inl zero)
    by_cases readonly_ : s.server.roflag = true
    · exact refused .EROFS (by rw [Server.vfsRename, if_neg invalid, if_pos readonly_])
    · rw [Handled, handled, Server.vfsRename, if_neg invalid, if_neg readonly_]
      cases table : s.server.renamePending with
      | some p =>
          have same : { s.server with renamePending := some p } = s.server := by
            rw [← table]
          simp only [Option.getD_some, same]
          obtain ⟨result, answer, after⟩ := rename_wellFormed (x := x) formed op idle table nonzero
          exact ⟨result, answer, fun _ => after⟩
      | none =>
          cases made : x.table with
          | false =>
              refine ⟨_, rfl, fun _ => ?_⟩
              rw [after_once plain idle _ (once_err m _)]
              exact formed
          | true =>
              have created := formed.createTable table
              obtain ⟨result, answer, after⟩ :=
                rename_wellFormed (x := x) (m := m) created op idle rfl nonzero
              exact ⟨result, answer, fun _ => after⟩

/-- A request that is not put aside is answered at once. -/
theorem handled_request (formed : WellFormed s) (plain : Plain m.mOp)
    (idle : s.conn m.mSender = .idle) (rename : m.mOp ≠ .FS_RENAME) : Handled s x m := by
  have file := onFile_eq formed idle
  have answer : ∀ {sent}, Once m sent → s.server.handle x m = some (s.server, sent) →
      Handled s x m := handled_once formed plain idle
  cases op : m.mOp with
  | M_CONNECT => exact absurd op plain.1
  | M_DISCONNECT => exact absurd op plain.2.1
  | M_DUP => exact absurd op plain.2.2
  | FS_RENAME => exact absurd op rename
  | M_ABORT => exact answer (once_reply m) (by rw [Server.handle, op])
  | FS_OPEN =>
      by_cases name : validFname x.before m.mBuf = false
      · exact answer (once_err m .EINVAL) (by rw [Server.handle, op]; exact if_pos name)
      · exact answer (vfsOpen_once s.server.roflag x.open_ m)
          (by rw [Server.handle, op]; exact (if_neg name).trans (file _))
  | FS_ABSREAD =>
      by_cases negative : m.mArg1.slt 0 = true
      · exact answer (once_err m .EINVAL) (by rw [Server.handle, op]; exact if_pos negative)
      · exact answer (vfsRead_once x.read_ m)
          (by rw [Server.handle, op]; exact (if_neg negative).trans (file _))
  | FS_READ => exact answer (vfsRead_once x.read_ m) (by rw [Server.handle, op]; exact file _)
  | FS_ABSWRITE =>
      by_cases negative : m.mArg1.slt 0 = true
      · exact answer (once_err m .EINVAL) (by rw [Server.handle, op]; exact if_pos negative)
      · exact answer (vfsWrite_once x.write_ m)
          (by rw [Server.handle, op]; exact (if_neg negative).trans (file _))
  | FS_WRITE => exact answer (vfsWrite_once x.write_ m) (by rw [Server.handle, op]; exact file _)
  | FS_SEEK => exact answer (vfsSeek_once m) (by rw [Server.handle, op]; exact file _)
  | FS_REMOVE =>
      exact answer (vfsRemove_once s.server.roflag x.remove_ m)
        (by rw [Server.handle, op]; exact file _)
  | FS_STAT => exact answer (vfsStat_once x.stat_ m) (by rw [Server.handle, op]; exact file _)
  | FS_WSTAT =>
      exact answer (vfsWstat_once s.server.roflag x.wstat_ m)
        (by rw [Server.handle, op]; exact file _)
  | FS_FID => exact answer (vfsFid_once x.fid_ m) (by rw [Server.handle, op]; exact file _)
  | unknown => exact answer (once_err m .EINVAL) (by rw [Server.handle, op])

/-- Every message that can arrive is handled. -/
theorem handled_legal (formed : WellFormed s) (legal : s.Legal x m) : Handled s x m := by
  by_cases abort : m.mOp = .M_ABORT
  · obtain ⟨_, exists_⟩ : _ ∧ s.conn m.mSender ≠ .absent := by
      simpa only [System.Legal, abort] using legal
    refine ⟨(s.server, [msgReply m.mSender]), by rw [Server.handle, abort], fun fits => ?_⟩
    have idle : s.conn m.mSender = .idle := by
      cases state : s.conn m.mSender with
      | absent => exact absurd state exists_
      | idle => rfl
      | waiting => exact absurd state (fits abort)
    rw [after_once (by simp [Plain, abort]) idle _ (once_reply m)]
    exact formed
  · by_cases connect : m.mOp = .M_CONNECT
    · exact handled_connect formed legal connect
    · by_cases disconnect : m.mOp = .M_DISCONNECT
      · exact handled_disconnect formed legal disconnect
      · by_cases dup : m.mOp = .M_DUP
        · exact handled_dup formed legal dup
        · by_cases rename : m.mOp = .FS_RENAME
          · exact handled_rename formed legal rename
          · have idle : s.conn m.mSender = .idle := by
              have request := legal.2
              split at request <;> simp_all
            exact handled_request formed ⟨connect, disconnect, dup⟩ idle rename

/-- Nothing fails; memory for a client is at `f`. -/
def mild (f : Addr) : Outcome where
  root := true
  mem := some (f, ⟨0, ⟨.unknown, 0, 0, 0, []⟩⟩)
  node := true
  table := true
  doRename := none
  before := 0
  open_ := ⟨true, true, false, true, true, true, true, true⟩
  read_ := ⟨true, true, false, false, true, true⟩
  write_ := ⟨true, 0⟩
  remove_ := ⟨true, true, true, true, true, false, false⟩
  stat_ := true
  wstat_ := ⟨true, true, true, true, true⟩
  fid_ := false

def connect (h : Handle) : Msg := ⟨.M_CONNECT, h, 0, 0, []⟩

/-- The first (`mArg` 0) or second half of rename 7, with an empty name. -/
def rename (h : Handle) (mArg : ULong) : Msg := ⟨.FS_RENAME, h, mArg, 7, [[0]]⟩

def abort (h : Handle) : Msg := ⟨.M_ABORT, h, 0, 0, []⟩

/-- Connection 1. -/
def one : System := (System.start false).after (connect 1)
  ((System.start false).server.newClient (mild 0) (connect 1))

/-- Connections 1 and 2. -/
def two : System := one.after (connect 2) (one.server.newClient (mild 1) (connect 2))

/-- Connection 1 has put a rename aside. -/
def halfway : System := (two.next (mild 2) (rename 1 0)).get (by decide)

/-- The memory that is handed out is not in use. -/
theorem mild_mem {s : System} {f : Addr} (free : s.server.files f = none) (f' : Addr) (old : File)
    (mem : (mild f).mem = some (f', old)) : s.server.files f' = none := by
  obtain rfl : f = f' := congrArg Prod.fst (Option.some.inj mem)
  exact free

theorem one_step : Step (System.start false) (mild 0, connect 1) one :=
  ⟨⟨mild_mem rfl, rfl⟩, rfl⟩

theorem two_step : Step one (mild 1, connect 2) two := ⟨⟨mild_mem rfl, rfl⟩, rfl⟩

theorem halfway_step : Step two (mild 2, rename 1 0) halfway :=
  ⟨⟨mild_mem rfl, rfl⟩, (Option.some_get _).symm⟩

/-- Connection 1 aborts its rename. -/
def aborted : System := (halfway.next (mild 2) (abort 1)).get (by decide)

theorem aborted_step : Step halfway (mild 2, abort 1) aborted :=
  ⟨⟨mild_mem rfl, (by decide : halfway.conn 1 ≠ .absent)⟩, (Option.some_get _).symm⟩

/-- Connection 2 sends the second half. -/
def completed : System := (aborted.next (mild 2) (rename 2 1)).get (by decide)

theorem completed_step : Step aborted (mild 2, rename 2 1) completed :=
  ⟨⟨mild_mem rfl, (by decide : aborted.conn 2 = .idle)⟩, (Option.some_get _).symm⟩

end Vsta.Vstafs
