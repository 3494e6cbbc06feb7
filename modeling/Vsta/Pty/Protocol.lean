import Vsta.Library.Runs
import Vsta.Pty.Queue
import Vsta.Srv.Sessions

/-!
# The pseudo-terminals of the server

In every run whose messages meet `Fits` the ptys are faithful (`faithful_terminals`). The slip is
that a read does not wake those that wait to write: they stay on the queue, the rest of what they
write is not put into the buffer, and what others write goes before it (`stuck_writer`).
-/

set_option autoImplicit false

namespace Vsta.Ptyserver

open Vstafs Service WriteLog

/-- The condition on a message: there is memory for the buffers and the queues, a read that takes
something finds no writer waiting, and `FS_WSTAT` is of a pty and of a field that it has. -/
def Fits (s : System) (label : Outcome × Msg) : Prop :=
  ∀ f ∈ s.server.filehash.lookup label.2.mSender,
    match label.2.mOp with
    | .FS_OPEN => label.1.mem = true
    | .FS_READ => label.1.node = true ∧ ∀ idx o, f.fFile = some idx →
        s.server.ptys.lookup idx = some o → has f.fPerm ACC_READ = true → o.pNmaster ≠ 0 →
        (o.ioq (!f.fMaster)).ioqWrite = [] ∨ label.2.mArg.toNat = 0
    | .FS_WRITE => label.1.node = true
    | .FS_WSTAT => f.fFile.isSome = true ∧ (label.1.select = true ∨ label.1.known = true)
    | _ => True

/-! ## The invariant -/

namespace Server

/-- A connection has a `struct file`. -/
def Client (s : Server) (h : Handle) : Prop := ∃ f, s.filehash.lookup h = some f

/-- A client is on a queue of its pty. -/
def Kept (s : Server) (h : Handle) : Prop := ∃ f, s.filehash.lookup h = some f ∧ f.fQ = true

end Server

/-- The clients that have a pty open under its master's name, or under the other. -/
def attached (clients : Hash File) (master : Bool) (idx : ULong) : ℕ :=
  Srv.holders File.fFile (fun f => f.fMaster == master) clients idx

/-- A pty among the clients. -/
structure Fine (clients : Hash File) (idx : ULong) (o : Pty) : Prop where
  masters : o.pNmaster = attached clients true idx
  slaves : o.pNslave = attached clients false idx
  ioqs : ∀ d, (o.ioq d).Fine
  sides : ∀ d, ∀ r ∈ (o.ioq d).ioqRead, ∀ f, clients.lookup r.who = some f → f.fMaster = !d

/-- The tables agree, and every pty is fine. -/
structure Formed (ptys : Hash Pty) (clients : Hash File) : Prop where
  sessions : Srv.Sessions File.fFile File.fQ Pty.queue ptys clients
  fine : ∀ idx o, ptys.lookup idx = some o → Fine clients idx o

/-- What holds in every state reached. -/
structure Sound (s : System) : Prop where
  whole : s.server.wild = false
  keys : s.server.ptys.map Prod.fst = (List.range NPTY).map (BitVec.ofNat 32)
  formed : Formed s.server.ptys s.server.filehash
  agree : Srv.Agree s.lines s.server.Client s.server.Kept

/-- What was handed to the readers of each queue is what they were answered with. -/
def Recorded (s s' : Server) (replies : List Reply) : Prop :=
  ∀ idx o o' d, s.ptys.lookup idx = some o → s'.ptys.lookup idx = some o' →
    (o'.ioq d).out = (o.ioq d).out ++ (replies.filter fun r =>
      (s.filehash.lookup r.who).any fun f => f.fFile = some idx ∧ f.fMaster = !d).flatMap Reply.bytes

variable {ptys : Hash Pty} {clients : Hash File} {h idx : ULong} {f : File} {o : Pty}

/-! ## One pty among the clients -/

/-- Whoever is on a queue of a pty has it open. -/
theorem Formed.of_queued (formed : Formed ptys clients) (there : ptys.lookup idx = some o)
    (queued : h ∈ o.queue) :
    ∃ f, clients.lookup h = some f ∧ f.fFile = some idx ∧ f.fQ = true :=
  (formed.sessions.queued idx o h there).mp queued

/-- The clients change, and those of the pty are as many. -/
theorem Fine.congr {clients' : Hash File} (fine : Fine clients idx o)
    (same : ∀ master, attached clients' master idx = attached clients master idx)
    (sides : ∀ k ∈ o.queue, ∀ f', clients'.lookup k = some f' →
      ∃ f, clients.lookup k = some f ∧ f'.fMaster = f.fMaster) : Fine clients' idx o := by
  refine ⟨by rw [same, fine.masters], by rw [same, fine.slaves], fine.ioqs,
    fun d r member f' look => ?_⟩
  obtain ⟨f, client, master⟩ := sides r.who (Pty.mem_queue_of_reader member) f' look
  rw [master]
  exact fine.sides d r member f client

theorem mark_fFile (came answered : List Handle) (k : Handle) (f : File) :
    (Server.mark came answered k f).fFile = f.fFile := by
  rw [Server.mark]
  split_ifs <;> rfl

theorem mark_fMaster (came answered : List Handle) (k : Handle) (f : File) :
    (Server.mark came answered k f).fMaster = f.fMaster := by
  rw [Server.mark]
  split_ifs <;> rfl

theorem mark_fQ (came answered : List Handle) (k : Handle) (f : File) :
    (Server.mark came answered k f).fQ =
      (decide (k ∉ answered) && (decide (k ∈ came) || f.fQ)) := by
  rw [Server.mark]
  split_ifs with out here
  · simp [out]
  · simp [out, here]
  · simp [out, here]

theorem attached_mapVals (came answered : List Handle) (master : Bool) :
    attached (clients.mapVals (Server.mark came answered)) master idx =
      attached clients master idx :=
  Srv.holders_mapVals (mark_fFile _ _) fun k f => by rw [mark_fMaster]

theorem Fine.mapVals (fine : Fine clients idx o) (came answered : List Handle) :
    Fine (clients.mapVals (Server.mark came answered)) idx o := by
  refine fine.congr (attached_mapVals _ _) fun k _ f' look => ?_
  rw [Hash.lookup_mapVals] at look
  obtain ⟨f, client, rfl⟩ := Option.map_eq_some_iff.mp look
  exact ⟨f, client, mark_fMaster _ _ _ _⟩

/-- **A pty changes: those that are answered leave its queues, and others come.** -/
theorem Formed.update (sessions : Srv.Sessions File.fFile File.fQ Pty.queue ptys clients)
    (others : ∀ j o', j ≠ idx → ptys.lookup j = some o' → Fine clients j o')
    (there : ptys.lookup idx = some o) {came : List Handle} {changed : Pty × List Reply}
    (perm : (changed.2.map Reply.who ++ changed.1.queue).Perm (came ++ o.queue))
    (nodup : (came ++ o.queue).Nodup)
    (open_ : ∀ k ∈ came, ∃ f, clients.lookup k = some f ∧ f.fFile = some idx)
    (fine : Fine clients idx changed.1) :
    Formed (ptys.modify idx fun _ => changed.1)
      (clients.mapVals (Server.mark came (changed.2.map Reply.who))) := by
  generalize answered_ : changed.2.map Reply.who = answered at perm
  have once : (answered ++ changed.1.queue).Nodup := perm.nodup_iff.mpr nodup
  have left : ∀ k, k ∈ changed.1.queue ↔ k ∉ answered ∧ (k ∈ came ∨ k ∈ o.queue) := by
    intro k
    have among := perm.mem_iff (a := k)
    rw [List.mem_append, List.mem_append] at among
    have apart := List.nodup_append.mp once
    constructor
    · exact fun inside => ⟨fun out => apart.2.2 k out k inside rfl, among.mp (.inr inside)⟩
    · exact fun ⟨out, inside⟩ => (among.mpr inside).resolve_left out
  have held : ∀ k f, clients.lookup k = some f → f.fFile = some idx →
      (k ∈ o.queue ↔ f.fQ = true) := by
    intro k f client opens
    rw [sessions.queued idx o k there]
    simp [client, opens]
  refine ⟨sessions.requeue there (fun _ => changed.1) _ (mark_fFile _ _) (fun k f client => ?_)
    (fun k inside => ?_) (List.nodup_append.mp once).2.1, fun j o' found => ?_⟩
  · rw [mark_fQ]
    split_ifs with opens
    · simp only [left k, held k f client opens, Bool.decide_and, Bool.decide_or, Bool.decide_eq_true]
    · have elsewhere : ∀ f', clients.lookup k = some f' → f'.fFile ≠ some idx := by
        intro f' client' opens'
        rw [client] at client'
        exact opens (Option.some.inj client' ▸ opens')
      have new : k ∉ came := fun new => by
        obtain ⟨f', client', opens'⟩ := open_ k new
        exact elsewhere f' client' opens'
      have old : k ∉ o.queue := fun old => by
        obtain ⟨f', client', opens', -⟩ := (sessions.queued idx o k there).mp old
        exact elsewhere f' client' opens'
      have out : k ∉ answered := fun out =>
        (List.mem_append.mp (perm.mem_iff.mp (List.mem_append_left _ out))).elim new old
      simp [new, out]
  · obtain ⟨-, inside⟩ := (left k).mp inside
    rcases inside with new | old
    · exact open_ k new
    · obtain ⟨f, client, opens, -⟩ := (sessions.queued idx o k there).mp old
      exact ⟨f, client, opens⟩
  · rw [Hash.lookup_modify, there] at found
    split_ifs at found with same
    · obtain rfl := Option.some.inj found
      exact Fine.mapVals (same ▸ fine) _ _
    · exact (others j o' same found).mapVals _ _

theorem update_keys (s : Server) (came : List Handle) (changed : Pty × List Reply) :
    (s.update idx came changed).1.ptys.map Prod.fst = s.ptys.map Prod.fst := by
  exact Hash.keys_modify s.ptys idx fun _ => changed.1

/-- Those on a queue after a pty has changed. -/
theorem kept_mapVals (came answered : List Handle) (k : Handle) :
    (∃ f, (clients.mapVals (Server.mark came answered)).lookup k = some f ∧ f.fQ = true) ↔
      k ∉ answered ∧ ∃ f, clients.lookup k = some f ∧ (k ∈ came ∨ f.fQ = true) := by
  rw [Hash.lookup_mapVals]
  constructor
  · rintro ⟨f', look, on⟩
    obtain ⟨f, client, rfl⟩ := Option.map_eq_some_iff.mp look
    rw [mark_fQ, Bool.and_eq_true, Bool.or_eq_true, decide_eq_true_eq, decide_eq_true_eq] at on
    exact ⟨on.1, f, client, on.2⟩
  · rintro ⟨out, f, client, on⟩
    refine ⟨_, by rw [client]; rfl, ?_⟩
    rw [mark_fQ, Bool.and_eq_true, Bool.or_eq_true, decide_eq_true_eq, decide_eq_true_eq]
    exact ⟨out, on⟩

theorem client_mapVals (change : ULong → File → File) (k : Handle) :
    (∃ f, (clients.mapVals change).lookup k = some f) ↔ ∃ f, clients.lookup k = some f := by
  rw [Hash.lookup_mapVals]
  simp

/-! ## Clients come and go -/

theorem attached_insert (master : Bool) :
    attached (clients.insert h f) master idx =
      attached clients master idx + if f.fMaster = master ∧ f.fFile = some idx then 1 else 0 := by
  simpa [attached] using
    @Srv.holders_insert _ File.fFile clients h idx f fun f => f.fMaster == master

theorem attached_delete (client : clients.lookup h = some f) (master : Bool) :
    attached clients master idx = attached (clients.delete h) master idx +
      if f.fMaster = master ∧ f.fFile = some idx then 1 else 0 := by
  simpa [attached] using
    @Srv.holders_delete _ File.fFile clients h idx f (fun f => f.fMaster == master) client

/-- A client is attached. -/
theorem Fine.attach {clients' : Hash File} (fine : Fine clients idx o) (master : Bool)
    (more : ∀ kind, attached clients' kind idx = attached clients kind idx +
      if master = kind then 1 else 0)
    (sides : ∀ k ∈ o.queue, clients'.lookup k = clients.lookup k) :
    Fine clients' idx (o.attach master) := by
  have others : ∀ d, ∀ r ∈ (o.ioq d).ioqRead, ∀ f, clients'.lookup r.who = some f →
      f.fMaster = !d := fun d r member f look =>
    fine.sides d r member f (by rw [← sides _ (Pty.mem_queue_of_reader member), look])
  have masters := more true
  have slaves := more false
  rw [← fine.masters] at masters
  rw [← fine.slaves] at slaves
  cases master with
  | true => exact ⟨masters.symm, slaves.symm, fine.ioqs, others⟩
  | false => exact ⟨masters.symm, slaves.symm, fine.ioqs, others⟩

/-- A client that is on no queue comes, and is attached to the pty it has open. -/
theorem Formed.enter (formed : Formed ptys clients) (fresh : clients.lookup h = none)
    (off : f.fQ = false) (open_ : ∀ i, f.fFile = some i → ∃ o, ptys.lookup i = some o) :
    Formed (Server.attach ⟨ptys, clients.insert h f, false⟩ f).ptys (clients.insert h f) := by
  have sessions := formed.sessions.enter fresh off open_
  have look : ∀ j o', ptys.lookup j = some o' → ∀ k ∈ o'.queue,
      (clients.insert h f).lookup k = clients.lookup k := by
    intro j o' found k queued
    obtain ⟨f', client, -⟩ := formed.of_queued found queued
    rw [Hash.lookup_insert, if_neg]
    rintro rfl
    rw [fresh] at client
    cases client
  have others : ∀ j o', ptys.lookup j = some o' → f.fFile ≠ some j →
      Fine (clients.insert h f) j o' := by
    intro j o' found other
    refine (formed.fine j o' found).congr (fun master => ?_) fun k queued f' client => ?_
    · rw [attached_insert, if_neg fun both => other both.2, Nat.add_zero]
    · exact ⟨f', (look j o' found k queued).symm.trans client, rfl⟩
  rw [Server.attach]
  cases file : f.fFile with
  | none => exact ⟨sessions, fun j o' found => others j o' found (by simp [file])⟩
  | some i =>
      obtain ⟨o, there⟩ := open_ i file
      refine ⟨sessions.object there (Pty.attach · f.fMaster) ?_, fun j o' found => ?_⟩
      · rw [Pty.attach]
        split_ifs <;> rfl
      · simp only [Hash.lookup_modify, there] at found
        split_ifs at found with same
        · obtain rfl := Option.some.inj found
          subst same
          refine (formed.fine j o there).attach f.fMaster (fun kind => ?_) (look j o there)
          rw [attached_insert]
          simp [file]
        · exact others j o' found fun here => same (Option.some.inj (file.symm.trans here)).symm

/-! ## A client goes -/

/-- What `dead_client` leaves of the tables, and whom it answers. -/
structure Closes (ptys : Hash Pty) (clients : Hash File) (h : Handle)
    (closed : Server × List Reply) : Prop where
  whole : closed.1.wild = false
  keys : closed.1.ptys.map Prod.fst = ptys.map Prod.fst
  formed : Formed closed.1.ptys closed.1.filehash
  once : (closed.2.map Reply.who).Nodup
  remain : ∀ k, (∃ f, closed.1.filehash.lookup k = some f) ↔
    (∃ f, clients.lookup k = some f) ∧ k ≠ h
  kept : ∀ k, (∃ f, closed.1.filehash.lookup k = some f ∧ f.fQ = true) ↔
    (∃ f, clients.lookup k = some f ∧ f.fQ = true) ∧ k ≠ h ∧ k ∉ closed.2.map Reply.who
  due : ∀ k ∈ closed.2.map Reply.who, (∃ f, clients.lookup k = some f ∧ f.fQ = true) ∧ k ≠ h
  recorded : Recorded ⟨ptys, clients, false⟩ closed.1 closed.2

/-- Answers to no reader, and ptys that remain what they were. -/
theorem recorded_of_bare {s s' : Server} {replies : List Reply}
    (bare : ∀ r ∈ replies, r.bytes = [])
    (same : ∀ j o o' d, s.ptys.lookup j = some o → s'.ptys.lookup j = some o' →
      (o'.ioq d).out = (o.ioq d).out) : Recorded s s' replies := by
  intro j o o' d found found'
  rw [same j o o' d found found', List.flatMap_eq_nil_iff.mpr fun r member =>
    bare r (List.mem_of_mem_filter member), List.append_nil]

theorem same_ioq {s s' : Server} (same : s'.ptys = s.ptys) (j : ULong) (o o' : Pty) (d : Bool)
    (found : s.ptys.lookup j = some o) (found' : s'.ptys.lookup j = some o') :
    (o'.ioq d).out = (o.ioq d).out := by
  rw [same] at found'
  rw [Option.some.inj (found.symm.trans found')]

section
variable (formed : Formed ptys clients) (client : clients.lookup h = some f)
include formed client

omit client in
theorem lookup_delete (k : Handle) :
    (clients.delete h).lookup k = if k = h then none else clients.lookup k :=
  formed.sessions.clientKeys.lookup_delete h k

omit client in
theorem client_delete (k : Handle) :
    (∃ f, (clients.delete h).lookup k = some f) ↔ (∃ f, clients.lookup k = some f) ∧ k ≠ h := by
  rw [lookup_delete formed]
  split_ifs with same
  · simp [same]
  · simp [same]

omit client in
theorem kept_delete (k : Handle) :
    (∃ f, (clients.delete h).lookup k = some f ∧ f.fQ = true) ↔
      (∃ f, clients.lookup k = some f ∧ f.fQ = true) ∧ k ≠ h := by
  rw [lookup_delete formed]
  split_ifs with same
  · simp [same]
  · simp [same]

/-- The other ptys. -/
theorem fine_delete {j : ULong} {o' : Pty} (found : ptys.lookup j = some o')
    (other : f.fFile ≠ some j) : Fine (clients.delete h) j o' := by
  refine (formed.fine j o' found).congr (fun master => ?_) fun k _ f' look => ?_
  · rw [attached_delete client master, if_neg fun both => other both.2, Nat.add_zero]
  · rw [lookup_delete formed] at look
    split_ifs at look
    exact ⟨f', look, rfl⟩

/-- The pty that is left without the client. -/
theorem fine_left (there : ptys.lookup idx = some o) (file : f.fFile = some idx) {o' : Pty}
    (masters : o'.pNmaster = (o.detach f.fMaster).pNmaster)
    (slaves : o'.pNslave = (o.detach f.fMaster).pNslave) (ioqs : ∀ d, (o'.ioq d).Fine)
    (old : ∀ d, ∀ r ∈ (o'.ioq d).ioqRead, r ∈ (o.ioq d).ioqRead) :
    Fine (clients.delete h) idx o' := by
  have fine := formed.fine idx o there
  have fewer : ∀ master, attached clients master idx =
      attached (clients.delete h) master idx + if f.fMaster = master then 1 else 0 := fun master => by
    rw [attached_delete client master]
    simp [file]
  have fewer_masters := fewer true
  have fewer_slaves := fewer false
  rw [← fine.masters] at fewer_masters
  rw [← fine.slaves] at fewer_slaves
  refine ⟨?_, ?_, ioqs, fun d r member f' look => ?_⟩
  · rw [masters, Pty.detach]
    cases master : f.fMaster <;> simp [master] at fewer_masters ⊢ <;> omega
  · rw [slaves, Pty.detach]
    cases master : f.fMaster <;> simp [master] at fewer_slaves ⊢ <;> omega
  · rw [lookup_delete formed] at look
    split_ifs at look
    exact fine.sides d r (old d r member) f' look

/-- A pty changes as a client of it goes, first by the loss of its request, and then by answers to
others. -/
theorem closes (there : ptys.lookup idx = some o) (file : f.fFile = some idx) {left : Pty}
    {changed : Pty × List Reply} (members : ∀ k, k ∈ left.queue ↔ k ∈ o.queue ∧ k ≠ h)
    (nodup : left.queue.Nodup)
    (perm : (changed.2.map Reply.who ++ changed.1.queue).Perm left.queue)
    (bare : ∀ r ∈ changed.2, r.bytes = [])
    (out : ∀ d, (changed.1.ioq d).out = (o.ioq d).out)
    (fine : Fine (clients.delete h) idx changed.1) :
    Closes ptys clients h (Server.update ⟨ptys, clients.delete h, false⟩ idx [] changed) := by
  have other : ∀ j, j ≠ idx → f.fFile ≠ some j :=
    fun j apart here => apart (Option.some.inj (here.symm.trans file))
  have look : ∀ (o' : Pty) j, (ptys.modify idx fun _ => o').lookup j =
      if j = idx then some o' else ptys.lookup j := by
    intro o' j
    rw [Hash.lookup_modify, there]
    rfl
  have queued : ∀ k ∈ changed.2.map Reply.who, k ∈ o.queue ∧ k ≠ h := fun k out =>
    (members k).mp (perm.mem_iff.mp (List.mem_append_left _ out))
  have nobody : ∀ k ∈ ([] : List Handle), ∃ f, (clients.delete h).lookup k = some f ∧
      f.fFile = some idx := nofun
  have updated := Formed.update (formed.sessions.leave client file there members nodup)
    (fun j o' apart found => by
      rw [look, if_neg apart] at found
      exact fine_delete formed client found (other j apart)) ((look left idx).trans (if_pos rfl)) perm
    nodup nobody fine
  rw [Hash.modify_modify] at updated
  refine ⟨rfl, update_keys _ _ _, updated, (List.nodup_append.mp (perm.nodup_iff.mpr nodup)).1, fun k => ?_, fun k => ?_,
    fun k out => ?_, ?_⟩
  · exact (client_mapVals _ k).trans (client_delete formed k)
  · rw [Server.update, kept_mapVals]
    simp only [List.not_mem_nil, false_or, kept_delete formed k]
    tauto
  · obtain ⟨inside, differ⟩ := queued k out
    obtain ⟨f', client', -, on⟩ := formed.of_queued there inside
    exact ⟨⟨f', client', on⟩, differ⟩
  · refine recorded_of_bare bare fun j o' o'' d found found' => ?_
    rw [Server.update, look] at found'
    split_ifs at found' with same
    · subst same
      obtain rfl := Option.some.inj found'
      obtain rfl := Option.some.inj (there.symm.trans found)
      exact out d
    · obtain rfl := Option.some.inj (found.symm.trans found')
      rfl

/-- **`dead_client`.** -/
theorem deadClient_spec {m : Msg} (sender : m.mSender = h) : ∃ closed,
    Server.deadClient ⟨ptys, clients, false⟩ m f = some closed ∧ Closes ptys clients h closed ∧
      ∀ idx o, f.fFile = some idx → f.fMaster = true → ptys.lookup idx = some o → o.pNmaster = 1 →
        (∃ o', closed.1.ptys.lookup idx = some o' ∧ o'.queue = []) ∧
        ∀ k ∈ o.queue, k ≠ h → k ∈ closed.2.map Reply.who := by
  rw [Server.deadClient, sender]
  cases file : f.fFile with
  | none =>
      refine ⟨_, rfl, ⟨rfl, rfl, ⟨formed.sessions.depart client ?_, fun j o found => ?_⟩, List.nodup_nil,
        client_delete formed, fun k => ?_, fun k member => absurd member List.not_mem_nil, ?_⟩, nofun⟩
      · by_contra on
        obtain ⟨i, opens⟩ := formed.sessions.sits h f client (by simpa using on)
        exact absurd (file.symm.trans opens) nofun
      · exact fine_delete formed client found (by simp [file])
      · exact (kept_delete formed k).trans (by simp)
      · exact recorded_of_bare (by simp) (same_ioq rfl)
  | some idx =>
      obtain ⟨o, there⟩ := formed.sessions.opened h f idx client file
      have nodup := formed.sessions.nodup idx o there
      have queued := formed.sessions.queued idx o h there
      have fine := formed.fine idx o there
      have detached : (o.detach f.fMaster).queue = o.queue ∧
          ∀ d, (o.detach f.fMaster).ioq d = o.ioq d := by
        rw [Pty.detach]
        split_ifs
        · exact ⟨rfl, fun d => rfl⟩
        · exact ⟨rfl, fun d => rfl⟩
      generalize left_ : (if f.fQ then (o.detach f.fMaster).remove h else o.detach f.fMaster) = left
      -- what is left on the queues, whether the client was on one or not
      have remains : left.pNmaster = (o.detach f.fMaster).pNmaster ∧
          left.pNslave = (o.detach f.fMaster).pNslave ∧ left.queue = o.queue.filter (· != h) ∧
          ∀ d, (left.ioq d).Fine ∧ (left.ioq d).out = (o.ioq d).out ∧
            ∀ r ∈ (left.ioq d).ioqRead, r ∈ (o.ioq d).ioqRead := by
        rw [← left_]
        split_ifs with on
        · refine ⟨rfl, rfl, ?_, fun d => ?_⟩
          · rw [Pty.remove_queue, detached.1]
          · rw [Pty.remove_ioq, detached.2]
            exact ⟨Ioq.remove_fine (fine.ioqs d), rfl, fun r member => List.mem_of_mem_filter member⟩
        · refine ⟨rfl, rfl, ?_, fun d => ?_⟩
          · rw [detached.1, List.filter_eq_self.mpr fun k member => ?_]
            have differ : k ≠ h := by
              rintro rfl
              obtain ⟨f', client', -, on'⟩ := queued.mp member
              rw [client] at client'
              exact on (Option.some.inj client' ▸ on')
            simpa using differ
          · rw [detached.2]
            exact ⟨fine.ioqs d, rfl, fun r member => member⟩
      obtain ⟨masters, slaves, queue, ioqs⟩ := remains
      have members : ∀ k, k ∈ left.queue ↔ k ∈ o.queue ∧ k ≠ h := fun k => by
        rw [queue, List.mem_filter]
        simp
      have once : left.queue.Nodup := queue ▸ nodup.filter _
      simp only [there, Option.map_some, left_]
      refine ⟨_, rfl, ?_, fun idx' o' same master there' one => ?_⟩
      · split_ifs with last
        · refine closes formed client there file members once ?_ (fun r member => ?_)
            (fun d => ?_) (fine_left formed client there file masters slaves (fun d => ?_)
              fun d r member => ?_)
          · rw [Pty.abortClients_who]
            simp [Pty.queue, Pty.abortClients, Ioq.queue, Ioq.abort]
          · exact List.flatMap_eq_nil_iff.mp Pty.abortClients_bytes r member
          · rw [Pty.abortClients_ioq]
            exact (ioqs d).2.1
          · rw [Pty.abortClients_ioq]
            exact Ioq.abort_fine (ioqs d).1
          · rw [Pty.abortClients_ioq] at member
            exact absurd member List.not_mem_nil
        · exact closes formed client there file members once (List.Perm.refl _)
            (fun r member => absurd member List.not_mem_nil) (fun d => (ioqs d).2.1)
            (fine_left formed client there file masters slaves (fun d => (ioqs d).1)
              fun d => (ioqs d).2.2)
      · obtain rfl := Option.some.inj same
        obtain rfl := Option.some.inj (there.symm.trans there')
        have last : f.fMaster = true ∧ left.pNmaster = 0 := by
          refine ⟨master, ?_⟩
          rw [masters, Pty.detach, master, if_pos rfl]
          simp [one]
        rw [if_pos last]
        refine ⟨⟨left.abortClients.1, ?_, rfl⟩, fun k inside differ => ?_⟩
        · simp [Server.update, Hash.lookup_modify, there]
        · exact Pty.abortClients_who ▸ (members k).mpr ⟨inside, differ⟩

end

/-! ## One message -/

/-- A handler has a result, leaves the server and its connections sound, and hands out what is
recorded. -/
def Ends (s : System) (m : Msg) (result : Option (Server × List Reply)) : Prop :=
  ∃ handled, result = some handled ∧
    Sound ⟨handled.1, Srv.after s.lines m (handled.2.map Reply.sent)⟩ ∧
    (m.mOp ≠ .FS_OPEN → Recorded s.server handled.1 handled.2)

theorem sent_who (r : Reply) : r.sent.who = r.who := by
  rw [Reply.sent]
  cases r.body <;> rfl

theorem map_sent_who (replies : List Reply) :
    (replies.map Reply.sent).map Sent.who = replies.map Reply.who := by
  rw [List.map_map]
  exact List.map_congr_left fun r _ => sent_who r

section
variable {s : System} {x : Outcome} {m : Msg}

theorem Sound.serve (sound : Sound s) (legal : Srv.Legal s.lines m) (plain : Srv.Plain m.mOp)
    {s' : Server} {replies : List Reply} (whole : s'.wild = false)
    (keys : s'.ptys.map Prod.fst = s.server.ptys.map Prod.fst)
    (formed : Formed s'.ptys s'.filehash) (clients : ∀ h, s'.Client h ↔ s.server.Client h)
    (serves : Srv.Serves m (replies.map Reply.sent) s.server.Kept s'.Kept)
    (recorded : m.mOp ≠ .FS_OPEN → Recorded s.server s' replies) : Ends s m (some (s', replies)) :=
  ⟨_, rfl, ⟨whole, keys.trans sound.keys, formed, (sound.agree.serve legal plain serves).congr clients fun _ => Iff.rfl⟩,
    recorded⟩

/-- A request that is answered, and changes nothing about who waits. -/
theorem Sound.reply (sound : Sound s) (legal : Srv.Legal s.lines m) (plain : Srv.Plain m.mOp)
    (idle : ¬s.server.Kept m.mSender) {s' : Server} (whole : s'.wild = false)
    (keys : s'.ptys.map Prod.fst = s.server.ptys.map Prod.fst)
    (formed : Formed s'.ptys s'.filehash) (clients : ∀ h, s'.Client h ↔ s.server.Client h)
    (kept : ∀ h, s'.Kept h ↔ s.server.Kept h) {r : Reply} (who : r.who = m.mSender)
    (recorded : m.mOp ≠ .FS_OPEN → Recorded s.server s' [r]) : Ends s m (some (s', [r])) := by
  refine sound.serve legal plain whole keys formed clients
    (Srv.serves_answer ((sent_who r).trans who) fun h => ?_) recorded
  rw [kept h]
  exact ⟨fun held => ⟨held, fun same => idle (same ▸ held)⟩, And.left⟩

/-- A request that is answered, and nothing else. -/
theorem Sound.refuse (sound : Sound s) (legal : Srv.Legal s.lines m) (plain : Srv.Plain m.mOp)
    (idle : ¬s.server.Kept m.mSender) {sent : Sent} (who : sent.who = m.mSender) :
    Ends s m (s.server.answer sent) :=
  sound.reply legal plain idle sound.whole rfl sound.formed (fun _ => Iff.rfl) (fun _ => Iff.rfl) who
    fun _ => recorded_of_bare (by simp [Reply.ofSent, Reply.bytes]) (same_ioq rfl)

variable {f : File} {o : Pty} {idx : ULong}

/-! ## Opening -/

theorem attached_move (distinct : clients.Distinct) (client : clients.lookup h = some f)
    (root : f.fFile = none) (master : Bool) (perm : ULong) (kind : Bool) (j : ULong) :
    attached (clients.modify h (File.move · idx master perm)) kind j =
      attached clients kind j + if master = kind ∧ idx = j then 1 else 0 := by
  simpa [attached, File.move] using
    @Srv.holders_move _ File.fFile clients h j f distinct (fun f => f.fMaster == kind) client root
      (File.move · idx master perm) idx rfl

/-- A client of the directory opens a pty, which changes. -/
theorem Formed.move (formed : Formed ptys clients) (client : clients.lookup h = some f)
    (root : f.fFile = none) (there : ptys.lookup idx = some o) (master : Bool) (perm : ULong)
    {o' : Pty} (queue : o'.queue = o.queue)
    (fine : Fine (clients.modify h (File.move · idx master perm)) idx o') :
    Formed (ptys.modify idx fun _ => o') (clients.modify h (File.move · idx master perm)) := by
  have off : f.fQ = false := by
    by_contra on
    obtain ⟨j, opens⟩ := formed.sessions.sits h f client (by simpa using on)
    exact absurd (root.symm.trans opens) nofun
  have look : ∀ j, (ptys.modify idx fun _ => o').lookup j =
      if j = idx then some o' else ptys.lookup j := by
    intro j
    rw [Hash.lookup_modify, there]
    rfl
  refine ⟨(formed.sessions.object there (fun _ => o') queue).move client root
    ((look idx).trans (if_pos rfl)) (File.move · idx master perm) rfl off, fun j o'' found => ?_⟩
  rw [look] at found
  split_ifs at found with same
  · obtain rfl := Option.some.inj found
    exact same ▸ fine
  · refine (formed.fine j o'' found).congr (fun kind => ?_) fun k queued f' client' => ?_
    · rw [attached_move formed.sessions.clientKeys client root, if_neg fun both => same both.2.symm,
        Nat.add_zero]
    · obtain ⟨f'', client'', opens, -⟩ := formed.of_queued found queued
      have differ : k ≠ h := by
        rintro rfl
        rw [client] at client''
        rw [← Option.some.inj client'', root] at opens
        cases opens
      rw [Hash.lookup_modify, if_neg differ] at client'
      exact ⟨f', client', rfl⟩

/-- The file of the sender is open. -/
theorem Sound.moved (sound : Sound s) (legal : Srv.Legal s.lines m) (op : m.mOp = .FS_OPEN)
    (idle : ¬s.server.Kept m.mSender) (client : s.server.filehash.lookup m.mSender = some f)
    {ptys : Hash Pty} {master : Bool} {perm : ULong} {wild : Bool} (whole : wild = false)
    (keys : ptys.map Prod.fst = s.server.ptys.map Prod.fst)
    (formed : Formed ptys (s.server.filehash.modify m.mSender (File.move · idx master perm))) :
    Ends s m ((Server.moveTo { s.server with ptys := ptys, wild := wild } m idx master perm).answer
      (msgReply m.mSender)) := by
  have off : f.fQ = false := by
    by_contra on
    exact idle ⟨f, client, by simpa using on⟩
  have plain : Srv.Plain m.mOp := by simp [Srv.Plain, op]
  refine sound.reply legal plain idle whole keys formed (fun h => ?_) (fun h => ?_) rfl
    fun other => absurd op other
  · simp only [Server.Client, Server.moveTo, Hash.modify, client_mapVals]
  · rw [Server.Kept, Server.Kept, Server.moveTo, Hash.lookup_modify, client]
    split_ifs with here
    · simp [here, client, off, File.move]
    · rfl

/-- A name stands for a pty that there is. -/
theorem Sound.of_named (sound : Sound s) {buf : List UChar} {master : Bool}
    (name : named buf = some (master, idx)) : ∃ o, s.server.ptys.lookup idx = some o := by
  have inside : idx ∈ (List.range NPTY).map (BitVec.ofNat 32) := by
    rw [named.eq_def] at name
    split at name
    · obtain ⟨-, name⟩ := Option.ite_none_right_eq_some.mp name
      obtain ⟨low, name⟩ := Option.ite_none_left_eq_some.mp name
      rw [← (Prod.mk.inj (Option.some.inj name)).2]
      exact List.mem_map_of_mem (List.mem_range.mpr (not_le.mp low))
    · cases name
  rw [← sound.keys] at inside
  exact Option.ne_none_iff_exists'.mp fun none_ => Hash.lookup_eq_none.mp none_ inside

/-- A pty that is replaced by what becomes of it. -/
theorem modify_eq (distinct : ptys.Distinct) (there : ptys.lookup idx = some o) (change : Pty → Pty) :
    ptys.modify idx change = ptys.modify idx fun _ => change o := by
  simp only [Hash.modify, Hash.mapVals]
  refine List.map_congr_left fun node member => ?_
  by_cases here : node.1 = idx
  · have found := distinct.lookup_of_mem member
    rw [here] at found
    obtain rfl := Option.some.inj (there.symm.trans found)
    simp [here]
  · simp [here]

/-- A pty that nobody has open has nobody on its queues. -/
theorem nobody_queued (formed : Formed ptys clients) (there : ptys.lookup idx = some o)
    (masters : attached clients true idx = 0) (slaves : attached clients false idx = 0) :
    o.queue = [] := by
  refine List.eq_nil_iff_forall_not_mem.mpr fun k queued => ?_
  obtain ⟨f, client, opens, -⟩ := formed.of_queued there queued
  have some_ : 0 < attached clients f.fMaster idx :=
    Srv.holders_pos _ client (by simp) opens
  cases master : f.fMaster with
  | true => rw [master, masters] at some_; exact absurd some_ (lt_irrefl 0)
  | false => rw [master, slaves] at some_; exact absurd some_ (lt_irrefl 0)

theorem Sound.ptyOpen (sound : Sound s) (legal : Srv.Legal s.lines m) (op : m.mOp = .FS_OPEN)
    (mem : x.mem = true) (idle : ¬s.server.Kept m.mSender)
    (client : s.server.filehash.lookup m.mSender = some f) :
    Ends s m (s.server.ptyOpen x m f) := by
  have plain : Srv.Plain m.mOp := by simp [Srv.Plain, op]
  have formed := sound.formed
  have distinct := formed.sessions.clientKeys
  have apart : ∀ idx o, s.server.ptys.lookup idx = some o → m.mSender ∉ o.queue := by
    intro idx o there queued
    obtain ⟨f', client', -, on⟩ := formed.of_queued there queued
    exact idle ⟨f', client', on⟩
  rw [Server.ptyOpen.eq_def]
  by_cases opened : f.fFile.isSome = true
  · rw [if_pos opened]
    exact sound.refuse legal plain idle rfl
  rw [if_neg opened]
  have root : f.fFile = none := by simpa using opened
  by_cases dir : has m.mArg ACC_DIR = true
  · rw [if_pos dir]
    exact sound.refuse legal plain idle rfl
  rw [if_neg dir]
  rcases name : named m.mBuf with _ | ⟨_ | _, idx⟩
  · exact sound.refuse legal plain idle rfl
  · simp only
    obtain ⟨o, there⟩ := sound.of_named name
    have fine := formed.fine idx o there
    simp only [there, Option.bind_some]
    split_ifs
    · exact sound.refuse legal plain idle rfl
    · exact sound.refuse legal plain idle rfl
    · rw [modify_eq formed.sessions.objectKeys there]
      refine sound.moved legal op idle client sound.whole (Hash.keys_modify _ _ _)
        (formed.move client root there false _ rfl (fine.attach false (fun kind => ?_)
          fun k queued => ?_))
      · rw [attached_move distinct client root]
        simp
      · rw [Hash.lookup_modify, if_neg]
        rintro rfl
        exact apart idx o there queued
  · simp only
    obtain ⟨o, there⟩ := sound.of_named name
    have fine := formed.fine idx o there
    simp only [there, Option.bind_some]
    split_ifs with busy
    · exact sound.refuse legal plain idle rfl
    · obtain ⟨masters, slaves⟩ := not_or.mp busy
      have masters := (fine.masters.symm.trans (not_not.mp masters))
      have slaves := (fine.slaves.symm.trans (not_not.mp slaves))
      have empty : o.queue = [] := nobody_queued formed there masters slaves
      refine sound.moved legal op idle client (by simp [mem]) (Hash.keys_modify _ _ _)
        (formed.move client root there true _ (show Pty.opened.queue = o.queue from empty.symm) ⟨?_, ?_, fun d => ?_,
          fun d r member => ?_⟩)
      · rw [attached_move distinct client root, masters]
        simp [Pty.opened]
      · rw [attached_move distinct client root, slaves]
        simp [Pty.opened]
      · cases d <;> exact Ioq.init_fine
      · cases d <;> exact absurd member List.not_mem_nil

/-! ## Reading and writing -/

/-- Only answers with data count. -/
theorem bytes_filter {replies : List Reply} {p : Reply → Bool}
    (all : ∀ r ∈ replies, r.bytes ≠ [] → p r = true) :
    (replies.filter p).flatMap Reply.bytes = replies.flatMap Reply.bytes := by
  induction replies with
  | nil => rfl
  | cons r rest ih =>
      have later := ih fun r member => all r (List.mem_cons_of_mem _ member)
      cases yes : p r with
      | true => rw [List.filter_cons_of_pos yes, List.flatMap_cons, List.flatMap_cons, later]
      | false =>
          have empty : r.bytes = [] := by
            by_contra some_
            rw [all r List.mem_cons_self some_] at yes
            cases yes
          rw [List.filter_cons_of_neg (by simp [yes]), List.flatMap_cons, empty, later,
            List.nil_append]

theorem bytes_filter_none {replies : List Reply} {p : Reply → Bool}
    (none_ : ∀ r ∈ replies, r.bytes ≠ [] → p r = false) :
    (replies.filter p).flatMap Reply.bytes = [] := by
  refine List.flatMap_eq_nil_iff.mpr fun r member => ?_
  obtain ⟨among, yes⟩ := List.mem_filter.mp member
  by_contra some_
  rw [none_ r among some_] at yes
  cases yes

/-- A queue of a pty changes, and only its readers are answered with data. -/
theorem recorded_of_moves {s s' : Server} {d : Bool} {came reading : List Handle}
    {changed : Ioq × List Reply} (there : s.ptys.lookup idx = some o)
    (ptys : s'.ptys = s.ptys.modify idx fun _ => (o.onIoq d changed).1)
    (moves : (o.ioq d).Moves came reading changed)
    (readers : ∀ k ∈ reading ++ (o.ioq d).ioqRead.map Req.who, ∃ f,
      s.filehash.lookup k = some f ∧ f.fFile = some idx ∧ f.fMaster = !d) :
    Recorded s s' changed.2 := by
  intro j o1 o2 e found found'
  have reads : ∀ r ∈ changed.2, r.bytes ≠ [] →
      ((s.filehash.lookup r.who).any fun f => f.fFile = some j ∧ f.fMaster = !e) =
        decide (idx = j ∧ d = e) := by
    intro r member some_
    obtain ⟨f, client, opens, master⟩ := readers _ (moves.data r member some_)
    simp [client, opens, master]
  rw [ptys, Hash.lookup_modify, there] at found'
  split_ifs at found' with same
  · subst same
    obtain rfl := Option.some.inj found'
    obtain rfl := Option.some.inj (there.symm.trans found)
    simp only [Pty.onIoq, Pty.ioq_setIoq]
    split_ifs with here
    · subst here
      rw [moves.out, bytes_filter fun r member some_ => ?_]
      rw [reads r member some_]
      simp
    · rw [bytes_filter_none fun r member some_ => ?_, List.append_nil]
      rw [reads r member some_]
      simpa using fun same : d = e => here same.symm
  · obtain rfl := Option.some.inj (found.symm.trans found')
    rw [bytes_filter_none fun r member some_ => ?_, List.append_nil]
    rw [reads r member some_]
    simpa using fun (here : idx = j) => absurd here.symm same

/-- A request is put on a queue of its pty, and whoever can be is answered. -/
theorem Sound.queues (sound : Sound s) (legal : Srv.Legal s.lines m) (plain : Srv.Plain m.mOp)
    (idle : ¬s.server.Kept m.mSender) (client : s.server.filehash.lookup m.mSender = some f)
    (opens : f.fFile = some idx) (there : s.server.ptys.lookup idx = some o) {d : Bool}
    {reading : List Handle} {changed : Ioq × List Reply} (fine' : changed.1.Fine)
    (moves : (o.ioq d).Moves [m.mSender] reading changed)
    (reader : ∀ k ∈ reading, k = m.mSender ∧ f.fMaster = !d) :
    Ends s m (some (s.server.update idx [m.mSender] (o.onIoq d changed))) := by
  have formed := sound.formed
  have fine := formed.fine idx o there
  have fresh : m.mSender ∉ o.queue := fun inside => by
    obtain ⟨f', client', -, on⟩ := formed.of_queued there inside
    exact idle ⟨f', client', on⟩
  have perm := Pty.onIoq_perm moves
  have nodup : (m.mSender :: o.queue).Nodup :=
    List.nodup_cons.mpr ⟨fresh, formed.sessions.nodup idx o there⟩
  have due : ∀ k ∈ (o.onIoq d changed).2.map Reply.who, k = m.mSender ∨ k ∈ o.queue := fun k out =>
    List.mem_cons.mp (perm.mem_iff.mp (List.mem_append_left _ out))
  have readers : ∀ k ∈ reading ++ (o.ioq d).ioqRead.map Req.who, ∃ f,
      s.server.filehash.lookup k = some f ∧ f.fFile = some idx ∧ f.fMaster = !d := by
    intro k member
    rcases List.mem_append.mp member with new | old
    · obtain ⟨rfl, master⟩ := reader k new
      exact ⟨f, client, opens, master⟩
    · obtain ⟨r, inside, rfl⟩ := List.mem_map.mp old
      obtain ⟨f', client', opens', -⟩ := formed.of_queued there (Pty.mem_queue_of_reader inside)
      exact ⟨f', client', opens', fine.sides d r inside f' client'⟩
  have fine'' : Fine s.server.filehash idx (o.onIoq d changed).1 := by
    have counts : (o.onIoq d changed).1.pNmaster = o.pNmaster ∧
        (o.onIoq d changed).1.pNslave = o.pNslave := by
      cases d <;> exact ⟨rfl, rfl⟩
    refine ⟨counts.1.trans fine.masters, counts.2.trans fine.slaves, fun e => ?_,
      fun e r member f' look => ?_⟩
    · rw [Pty.onIoq, Pty.ioq_setIoq]
      split_ifs
      · exact fine'
      · exact fine.ioqs e
    · rw [Pty.onIoq, Pty.ioq_setIoq] at member
      split_ifs at member with same
      · subst same
        obtain ⟨f'', client'', -, master⟩ := readers _ (moves.readers r member)
        rwa [← Option.some.inj (client''.symm.trans look)]
      · exact fine.sides e r member f' look
  refine sound.serve legal plain sound.whole (update_keys _ _ _) (Formed.update formed.sessions
    (fun j o' _ found => formed.fine j o' found) there perm nodup ?_ fine'')
    (fun h => client_mapVals _ h) ⟨?_, fun h member => ?_, fun h => ?_⟩
    fun _ => recorded_of_moves there rfl moves readers
  · intro k member
    rw [List.mem_singleton.mp member]
    exact ⟨f, client, opens⟩
  · rw [map_sent_who]
    exact (List.nodup_append.mp (perm.nodup_iff.mpr nodup)).1
  · rw [map_sent_who] at member
    refine (due h member).imp_right fun queued => ?_
    obtain ⟨f', client', -, on⟩ := formed.of_queued there queued
    exact ⟨f', client', on⟩
  · rw [map_sent_who, and_comm]
    refine (kept_mapVals _ _ h).trans (and_congr_right fun _ => ?_)
    rw [List.mem_singleton, Server.Kept]
    constructor
    · rintro ⟨f', client', here | on⟩
      · exact .inl here
      · exact .inr ⟨f', client', on⟩
    · rintro (here | ⟨f', client', on⟩)
      · exact ⟨f, here ▸ client, .inl here⟩
      · exact ⟨f', client', .inr on⟩

theorem Sound.ptyWrite (sound : Sound s) (legal : Srv.Legal s.lines m) (plain : Srv.Plain m.mOp)
    (node : x.node = true) (idle : ¬s.server.Kept m.mSender)
    (client : s.server.filehash.lookup m.mSender = some f) :
    Ends s m (s.server.ptyWrite x m f) := by
  rw [Server.ptyWrite]
  cases opens : f.fFile with
  | none => exact sound.refuse legal plain idle rfl
  | some idx =>
      simp only
      obtain ⟨o, there⟩ := sound.formed.sessions.opened _ f idx client opens
      simp only [there, Option.map_some, node, if_true]
      split_ifs
      · exact sound.refuse legal plain idle rfl
      · obtain ⟨fine, moves⟩ := Ioq.addData_spec (w := ⟨m.mSender, m.mArg, m.mSeg⟩)
          ((sound.formed.fine idx o there).ioqs f.fMaster)
        exact sound.queues legal plain idle client opens there fine moves fun k member =>
          absurd member List.not_mem_nil

theorem Sound.ptyRead (sound : Sound s) (legal : Srv.Legal s.lines m) (plain : Srv.Plain m.mOp)
    (node : x.node = true) (meets : ∀ idx o, f.fFile = some idx →
      s.server.ptys.lookup idx = some o → has f.fPerm ACC_READ = true → o.pNmaster ≠ 0 →
      (o.ioq (!f.fMaster)).ioqWrite = [] ∨ m.mArg.toNat = 0) (idle : ¬s.server.Kept m.mSender)
    (client : s.server.filehash.lookup m.mSender = some f) :
    Ends s m (s.server.ptyRead x m f) := by
  rw [Server.ptyRead]
  cases opens : f.fFile with
  | none => exact sound.refuse legal plain idle rfl
  | some idx =>
      simp only
      obtain ⟨o, there⟩ := sound.formed.sessions.opened _ f idx client opens
      simp only [there, Option.bind_some, node, if_true]
      split_ifs with denied gone
      · exact sound.refuse legal plain idle rfl
      · exact sound.refuse legal plain idle rfl
      · obtain ⟨fine, moves⟩ := Ioq.readData_spec (r := ⟨m.mSender, m.mArg, []⟩)
          ((sound.formed.fine idx o there).ioqs (!f.fMaster))
          (meets idx o opens there (by simpa using denied) gone)
        exact sound.queues legal plain idle client opens there fine moves fun k member =>
          ⟨List.mem_singleton.mp member, (Bool.not_not _).symm⟩

theorem Sound.ptyAbort (sound : Sound s) (legal : Srv.Legal s.lines m) (plain : Srv.Plain m.mOp)
    (client : s.server.filehash.lookup m.mSender = some f) :
    Ends s m (s.server.ptyAbort m f) := by
  have formed := sound.formed
  rw [Server.ptyAbort]
  split_ifs with on
  · obtain ⟨idx, opens⟩ := formed.sessions.sits _ f client on
    obtain ⟨o, there⟩ := formed.sessions.opened _ f idx client opens
    have fine := formed.fine idx o there
    have queued : m.mSender ∈ o.queue :=
      (formed.sessions.queued idx o _ there).mpr ⟨f, client, opens, on⟩
    have nodup := formed.sessions.nodup idx o there
    have perm : (m.mSender :: (o.remove m.mSender).queue).Perm o.queue := by
      rw [Pty.remove_queue, ← nodup.erase_eq_filter]
      exact (List.perm_cons_erase queued).symm
    have left : Fine s.server.filehash idx (o.remove m.mSender) := by
      refine ⟨fine.masters, fine.slaves, fun d => ?_, fun d r member f' look => ?_⟩
      · rw [Pty.remove_ioq]
        exact Ioq.remove_fine (fine.ioqs d)
      · rw [Pty.remove_ioq] at member
        exact fine.sides d r (List.mem_of_mem_filter member) f' look
    simp only [opens, Option.bind_some, there, Option.map_some]
    have nobody : ∀ k ∈ ([] : List Handle), ∃ f, s.server.filehash.lookup k = some f ∧
        f.fFile = some idx := nofun
    refine sound.serve legal plain sound.whole (update_keys _ _ _) (Formed.update formed.sessions
      (fun j o' _ found => formed.fine j o' found) there perm nodup nobody left)
      (fun h => client_mapVals _ h) (Srv.serves_answer rfl fun h => ?_)
      fun _ => recorded_of_bare (by simp [Reply.ofSent, Reply.bytes]) fun j o1 o2 d found found' => ?_
    · rw [and_comm]
      refine (kept_mapVals _ _ h).trans ?_
      simp [Server.Kept, Reply.ofSent, msgReply]
    · simp only [Hash.lookup_modify, there] at found'
      split_ifs at found' with same
      · obtain rfl := Option.some.inj found'
        obtain rfl := Option.some.inj (there.symm.trans (same ▸ found))
        rw [Pty.remove_ioq]
        rfl
      · rw [Option.some.inj (found.symm.trans found')]
  · refine sound.refuse legal plain (fun kept => on ?_) rfl
    obtain ⟨f', client', on'⟩ := kept
    rw [client] at client'
    rwa [Option.some.inj client']

theorem Sound.ptyStat (sound : Sound s) (legal : Srv.Legal s.lines m) (plain : Srv.Plain m.mOp)
    (idle : ¬s.server.Kept m.mSender) : Ends s m (s.server.ptyStat m f) := by
  rw [Server.ptyStat]
  split_ifs
  · exact sound.refuse legal plain idle rfl
  · exact sound.refuse legal plain idle rfl

theorem Sound.ptyWstat (sound : Sound s) (legal : Srv.Legal s.lines m) (plain : Srv.Plain m.mOp)
    (idle : ¬s.server.Kept m.mSender) (opened : f.fFile.isSome = true)
    (known : x.select = true ∨ x.known = true) : Ends s m (s.server.ptyWstat x m f) := by
  have open_ : f.fFile.isNone = false := by
    rw [← Option.not_isSome, opened]
    rfl
  rw [Server.ptyWstat]
  simp only [open_, Bool.false_eq_true, if_false, List.nil_append]
  rcases doWstat_once { x.wstat with chmod := has f.fPerm ACC_CHMOD } m with
    ⟨left, nothing⟩ | ⟨done, answer, -, once⟩
  · simp only [left, nothing, Bool.not_true, Bool.false_eq_true, if_false, List.nil_append]
    split_ifs with select window
    · exact sound.refuse legal plain idle rfl
    · exact sound.refuse legal plain idle rfl
    · exact absurd known (not_or.mpr ⟨select, window⟩)
  · simp only [done, once, Bool.not_false, if_true, List.append_nil]
    exact sound.refuse legal plain idle rfl

/-! ## Connections -/

/-- A client that comes waits for nothing. -/
theorem enter_kept {server : Server} {h : Handle} (fresh : server.filehash.lookup h = none)
    (off : f.fQ = false) (h' : Handle) :
    (∃ f', (server.filehash.insert h f).lookup h' = some f' ∧ f'.fQ = true) ↔ server.Kept h' := by
  rw [Hash.lookup_insert, Server.Kept]
  split_ifs with same
  · simp [same, fresh, off]
  · rfl

theorem enter_client {server : Server} {h : Handle} (h' : Handle) :
    (∃ f', (server.filehash.insert h f).lookup h' = some f') ↔
      server.Client h' ∨ (True ∧ h' = h) := by
  rw [Hash.lookup_insert, Server.Client]
  split_ifs with same
  · simp [same]
  · simp [same]

/-- There is no client yet. -/
theorem Sound.fresh (sound : Sound s) {h : Handle} (absent : s.lines.conn h = .absent) :
    s.server.filehash.lookup h = none := by
  have gone := (sound.agree.known h).mp absent
  rwa [Server.Client, ← Option.isSome_iff_exists, Option.not_isSome_iff_eq_none] at gone

/-- A connect or a duplicate that is refused. -/
theorem Sound.refused (sound : Sound s) (e : FsErr) (op : m.mOp = .M_CONNECT ∨ m.mOp = .M_DUP)
    (legal : Srv.Legal s.lines m) : Ends s m (s.server.answer (msgErr m.mSender e)) := by
  refine ⟨_, rfl, ⟨sound.whole, sound.keys, sound.formed, ?_⟩,
    fun _ => recorded_of_bare (by simp [Reply.ofSent, Reply.bytes]) (same_ioq rfl)⟩
  rcases op with connect | dup
  · have agree := sound.agree.connect connect legal False e
    simp only [if_false] at agree
    exact agree.congr (fun h => by simp) fun _ => Iff.rfl
  · have agree := sound.agree.dup dup legal False e
    simp only [if_false] at agree
    exact agree.congr (fun h => by simp) fun _ => Iff.rfl

theorem Sound.newClient (sound : Sound s) (op : m.mOp = .M_CONNECT)
    (legal : Srv.Legal s.lines m) : Ends s m (s.server.newClient x m) := by
  rw [Server.newClient]
  split_ifs
  · exact sound.refused _ (.inl op) legal
  · exact sound.refused _ (.inl op) legal
  have absent : s.lines.conn m.mSender = .absent := by simpa [Srv.Legal, op] using legal
  have fresh := sound.fresh absent
  have off : File.fQ ⟨none, false, ACC_READ ||| ACC_WRITE, false⟩ = false := rfl
  have formed := sound.formed.enter fresh off fun _ is => absurd is.symm (Option.some_ne_none _)
  have agree := sound.agree.connect op legal True .EINVAL
  simp only [if_true] at agree
  exact ⟨_, rfl, ⟨sound.whole, sound.keys, formed, agree.congr (fun h => enter_client h) fun h =>
    enter_kept fresh rfl h⟩,
    fun _ => recorded_of_bare (by simp [Reply.ofSent, Reply.bytes]) (same_ioq rfl)⟩

/-- A client that is attached leaves the rest as it was. -/
theorem attach_rest (server : Server) (f : File) :
    (server.attach f).filehash = server.filehash ∧ (server.attach f).wild = server.wild ∧
      (server.attach f).ptys.map Prod.fst = server.ptys.map Prod.fst ∧
      ∀ j o o' d, server.ptys.lookup j = some o → (server.attach f).ptys.lookup j = some o' →
        (o'.ioq d).out = (o.ioq d).out := by
  rw [Server.attach]
  cases f.fFile with
  | none => exact ⟨rfl, rfl, rfl, fun j o o' d => same_ioq rfl j o o' d⟩
  | some idx =>
      refine ⟨rfl, rfl, Hash.keys_modify server.ptys idx (Pty.attach · f.fMaster), fun j o o' d found found' => ?_⟩
      rw [Hash.lookup_modify] at found'
      split_ifs at found' with same
      · rw [← same, found] at found'
        obtain rfl := Option.some.inj found'
        cases f.fMaster <;> rfl
      · rw [Option.some.inj (found.symm.trans found')]

theorem Sound.dupClient (sound : Sound s) (op : m.mOp = .M_DUP) (legal : Srv.Legal s.lines m)
    (client : s.server.filehash.lookup m.mSender = some f) :
    Ends s m (s.server.dupClient x m f) := by
  rw [Server.dupClient]
  split_ifs
  · exact sound.refused _ (.inr op) legal
  · exact sound.refused _ (.inr op) legal
  have both : s.lines.conn m.mSender = .idle ∧ s.lines.conn m.mArg = .absent := by
    simpa [Srv.Legal, op] using legal
  have fresh := sound.fresh both.2
  -- a duplicate is not made while a request is outstanding
  have off : f.fQ = false := by
    by_contra on
    have waits := (sound.agree.waits m.mSender).mpr ⟨f, client, by simpa using on⟩
    simp [both.1] at waits
  have formed := sound.formed.enter fresh off fun i opens =>
    sound.formed.sessions.opened _ f i client opens
  rw [← sound.whole] at formed
  have agree := sound.agree.dup op legal True .EINVAL
  simp only [if_true] at agree
  obtain ⟨filehash, whole, keys, same⟩ :=
    attach_rest { s.server with filehash := s.server.filehash.insert m.mArg f } f
  refine ⟨_, rfl, ⟨whole.trans sound.whole, keys.trans sound.keys, ?_, agree.congr (fun h => ?_)
    fun h => ?_⟩, fun _ => recorded_of_bare (by simp [Reply.ofSent, Reply.bytes]) same⟩
  · rw [filehash]
    exact formed
  · rw [Server.Client, filehash]
    exact enter_client h
  · rw [Server.Kept, filehash]
    exact enter_kept fresh off h

/-- A master goes, and it was the last of its pty: whoever waited is answered, and nobody waits any
more. -/
def LastGoes (s : Server) (h : Handle) (handled : Server × List Reply) : Prop :=
  ∀ f idx o, s.filehash.lookup h = some f → f.fFile = some idx → f.fMaster = true →
    s.ptys.lookup idx = some o → o.pNmaster = 1 →
    (∃ o', handled.1.ptys.lookup idx = some o' ∧ o'.queue = []) ∧
      ∀ k ∈ o.queue, k ≠ h → k ∈ handled.2.map Reply.who

theorem Sound.deadClient (sound : Sound s) (op : m.mOp = .M_DISCONNECT)
    (client : s.server.filehash.lookup m.mSender = some f) :
    Ends s m (s.server.deadClient m f) ∧ ∃ handled, s.server.deadClient m f = some handled ∧
      LastGoes s.server m.mSender handled := by
  have server : s.server = ⟨s.server.ptys, s.server.filehash, false⟩ := by
    rw [← sound.whole]
  obtain ⟨closed, done, closes, last⟩ := deadClient_spec sound.formed client rfl
  rw [← server] at done
  have agree : Srv.Agree (Srv.after s.lines m (closed.2.map Reply.sent)) _ _ :=
    sound.agree.depart op (by rw [map_sent_who]; exact closes.once)
      (by rw [map_sent_who]; exact closes.due)
  refine ⟨⟨closed, done, ⟨closes.whole, closes.keys.trans sound.keys, closes.formed,
    agree.congr closes.remain fun h => ?_⟩, fun _ => ?_⟩, closed, done, fun f' idx o client' => ?_⟩
  · rw [map_sent_who]
    exact closes.kept h
  · rw [server]
    exact closes.recorded
  · obtain rfl := Option.some.inj (client.symm.trans client')
    exact last idx o

/-- **A message that meets the condition is handled, and leaves the server and its connections
sound.** -/
theorem Sound.handle (sound : Sound s) (legal : Srv.Legal s.lines m) (fits : Fits s (x, m)) :
    Ends s m (s.server.handle x m) := by
  rw [Server.handle, if_neg (by simp [sound.whole])]
  -- a sender that is idle is on no queue
  have idle_of : s.lines.conn m.mSender = .idle → ¬s.server.Kept m.mSender := by
    intro idle held
    simp [(sound.agree.waits _).mpr held] at idle
  simp only
  by_cases connect : m.mOp = .M_CONNECT
  · rw [connect]
    exact sound.newClient connect legal
  obtain ⟨f, client⟩ := sound.agree.sender legal connect
  have fits := fits f client
  cases op : m.mOp with
  | M_CONNECT => exact absurd op connect
  | M_DISCONNECT => simpa only [client, Option.bind_some] using (sound.deadClient op client).1
  | M_DUP => simpa only [client, Option.bind_some] using sound.dupClient op legal client
  | M_ABORT =>
      have plain : Srv.Plain m.mOp := by simp [Srv.Plain, op]
      simpa only [client, Option.bind_some] using sound.ptyAbort legal plain client
  | FS_OPEN =>
      have plain : Srv.Plain m.mOp := by simp [Srv.Plain, op]
      have idle := idle_of (by simpa [Srv.Legal, op] using legal)
      rw [op] at fits
      simp only [client, Option.bind_some]
      split_ifs
      · exact sound.refuse legal plain idle rfl
      · exact sound.ptyOpen legal op fits idle client
  | FS_READ =>
      have plain : Srv.Plain m.mOp := by simp [Srv.Plain, op]
      have idle := idle_of (by simpa [Srv.Legal, op] using legal)
      rw [op] at fits
      simpa only [client, Option.bind_some] using
        sound.ptyRead legal plain fits.1 fits.2 idle client
  | FS_WRITE =>
      have plain : Srv.Plain m.mOp := by simp [Srv.Plain, op]
      have idle := idle_of (by simpa [Srv.Legal, op] using legal)
      rw [op] at fits
      simpa only [client, Option.bind_some] using sound.ptyWrite legal plain fits idle client
  | FS_STAT =>
      have plain : Srv.Plain m.mOp := by simp [Srv.Plain, op]
      have idle := idle_of (by simpa [Srv.Legal, op] using legal)
      simpa only [client, Option.bind_some] using sound.ptyStat legal plain idle
  | FS_WSTAT =>
      have plain : Srv.Plain m.mOp := by simp [Srv.Plain, op]
      have idle := idle_of (by simpa [Srv.Legal, op] using legal)
      rw [op] at fits
      simpa only [client, Option.bind_some] using sound.ptyWstat legal plain idle fits.1 fits.2
  | FS_SEEK | FS_ABSREAD | FS_ABSWRITE | FS_REMOVE | FS_FID | FS_RENAME | unknown =>
      have plain : Srv.Plain m.mOp := by simp [Srv.Plain, op]
      have idle := idle_of (by simpa [Srv.Legal, op] using legal)
      exact sound.refuse legal plain idle rfl

end

/-! ## Runs -/

theorem Sound.step {s t : System} {label : Outcome × Msg} (sound : Sound s) (fits : Fits s label)
    (step : Step s label t) : Sound t := by
  obtain ⟨legal, taken⟩ := Option.ite_none_right_eq_some.mp step
  obtain ⟨handled, done, rfl⟩ := Option.map_eq_some_iff.mp taken
  obtain ⟨handled', done', after, -⟩ := sound.handle legal fits
  obtain rfl : handled = handled' := Option.some.inj (done.symm.trans done')
  exact after

theorem start_sound : Sound System.start := by
  have opened : ∀ idx o, System.start.server.ptys.lookup idx = some o →
      o = ⟨.init, .init, 0, 0⟩ := by
    intro idx o found
    have node := List.lookup_eq_some_iff.mp found
    obtain ⟨before, after, nodes, -⟩ := node
    have member : (idx, o) ∈ System.start.server.ptys := by
      rw [nodes]
      simp
    obtain ⟨n, -, same⟩ := List.mem_map.mp member
    exact (Prod.mk.inj same).2.symm
  refine ⟨rfl, rfl, ⟨⟨Hash.distinct_nil, by unfold Hash.Distinct; decide, nofun, nofun, fun idx o h found => ?_,
    fun idx o found => ?_⟩, fun idx o found => ?_⟩, Srv.noLines_agree.congr ?_ ?_⟩
  · rw [opened idx o found]
    simp [Pty.queue, Ioq.queue, Ioq.init, System.start, Hash.lookup]
  · rw [opened idx o found]
    exact List.nodup_nil
  · rw [opened idx o found]
    refine ⟨rfl, rfl, fun d => ?_, fun d r member => ?_⟩
    · cases d <;> exact Ioq.init_fine
    · cases d <;> exact absurd member List.not_mem_nil
  · simp [System.start, Hash.lookup, Server.Client]
  · simp [System.start, Hash.lookup, Server.Kept]

theorem sound_run {s : System} (run : Transition.Reaches Step Fits System.start s) : Sound s :=
  run.invariant start_sound fun _ _ _ sound fits step => sound.step fits step

/-- Memory, and permissions. -/
def plenty : Outcome :=
  ⟨true, true, ACC_READ ||| ACC_WRITE, 0, ⟨true, true, true, false, false⟩, false, true⟩

/-- The first client opens `pty0`, and the second `tty0`. -/
def opening : List (Outcome × Msg) :=
  [(plenty, ⟨.M_CONNECT, 1, 0, 0, []⟩), (plenty, ⟨.M_CONNECT, 2, 0, 0, []⟩),
    (plenty, ⟨.FS_OPEN, 1, 0, 0, [[0x70, 0x74, 0x79, 0x30, 0]]⟩),
    (plenty, ⟨.FS_OPEN, 2, ACC_READ, 0, [[0x74, 0x74, 0x79, 0x30, 0]]⟩)]

/-- What `Fits` says when nobody waits to write. -/
def fitting (s : System) (label : Outcome × Msg) : Bool :=
  label.1.mem && label.1.node && label.2.mOp ≠ .FS_WSTAT &&
    s.server.ptys.all fun node => node.2.pIoqr.ioqWrite.isEmpty && node.2.pIoqw.ioqWrite.isEmpty

theorem fits_of_fitting (s : System) (label : Outcome × Msg) (good : fitting s label = true) :
    Fits s label := by
  intro f client
  simp only [fitting, Bool.and_eq_true, decide_eq_true_eq, List.all_eq_true,
    List.isEmpty_iff] at good
  obtain ⟨⟨⟨mem, node⟩, wstat⟩, nobody⟩ := good
  split
  · exact mem
  · refine ⟨node, fun idx o _ there _ _ => .inl ?_⟩
    obtain ⟨before, after, nodes, -⟩ := List.lookup_eq_some_iff.mp there
    have both := nobody (idx, o) (by rw [nodes]; simp)
    cases f.fMaster with
    | true => exact both.1
    | false => exact both.2
  · exact node
  · next op => exact absurd op wstat
  · trivial

/-- The second client asks for a byte, and the first writes two. -/
def oneByte : List (Outcome × Msg) :=
  opening ++ [(plenty, ⟨.FS_READ, 2, 1, 0, []⟩), (plenty, ⟨.FS_WRITE, 1, 2, 0, [[7], [8]]⟩)]

/-- What is seen of the queue of `pty0` that its master writes to. -/
def seen (s : System) : Option (List UChar × List UChar × List (Write Handle UChar)) :=
  (s.server.ptys.lookup 0).map fun o => (o.pIoqw.out, o.pIoqw.ioqBuf, o.pIoqw.log)

theorem follow_oneByte : (Transition.follow System.exec fitting System.start oneByte).bind seen =
    some ([7], [8], [⟨1, [7, 8], [], .told 2⟩]) := by decide

/-- `pty0` with one of its queues, and its two clients. -/
def both (i : Ioq) (asleep : Bool) : Server where
  ptys := (0, ⟨.init, i, 1, 1⟩) ::
    [1, 2, 3, 4, 5, 6, 7].map fun idx => (idx, ⟨.init, .init, 0, 0⟩)
  filehash := [(2, ⟨some 0, false, ACC_READ ||| ACC_CHMOD, false⟩),
    (1, ⟨some 0, true, ACC_READ ||| ACC_WRITE ||| ACC_CHMOD, asleep⟩)]
  wild := false

section
variable {big : List UChar} (full : big.length = IOQ_MAXBUF)
include full

/-- A write of one byte more than there is room for. -/
theorem write_big : (both .init false).handle plenty ⟨.FS_WRITE, 1, 8193, 0, [big, [1]]⟩ =
    some (both ⟨big, [⟨1, 8193, [[1]]⟩], [], [⟨1, big, [1], .pending⟩], []⟩ true, []) := by
  have queued : queueData [big, [1]] [] = ([[1]], big) := by
    simp [queueData, full]
  have added : Ioq.init.addData true ⟨1, 8193, [big, [1]]⟩ =
      (⟨big, [⟨1, 8193, [[1]]⟩], [], [⟨1, big, [1], .pending⟩], []⟩, []) := by
    simp only [Ioq.addData, Ioq.init, List.length_nil, Ioq.retry, queued, List.drop_zero]
    rfl
  have handled : (both .init false).handle plenty ⟨.FS_WRITE, 1, 8193, 0, [big, [1]]⟩ =
      some ((both .init false).update 0 [1]
        (Pty.onIoq ⟨.init, .init, 1, 1⟩ true (Ioq.init.addData true ⟨1, 8193, [big, [1]]⟩))) := rfl
  rw [handled, added]
  rfl

/-- The other client reads what is in the buffer. -/
theorem read_big {ws : List Req} {log : List (Write Handle UChar)} :
    (both ⟨big, ws, [], log, []⟩ true).handle plenty ⟨.FS_READ, 2, 8192, 0, []⟩ =
      some (both ⟨[], ws, [], log, big⟩ true, [⟨2, .data big⟩]) := by
  have some_ : big ≠ [] := fun none_ => by simp [none_] at full
  have all : min (BitVec.toNat (8192 : ULong)) big.length = big.length := by
    rw [full]
    decide
  have read : Ioq.readData ⟨big, ws, [], log, []⟩ true ⟨2, 8192, []⟩ =
      (⟨[], ws, [], log, big⟩, [⟨2, .data big⟩]) := by
    rw [Ioq.readData, if_neg some_, Ioq.dequeueData]
    simp only [all, List.drop_length, List.take_length, List.nil_append]
  have handled : (both ⟨big, ws, [], log, []⟩ true).handle plenty ⟨.FS_READ, 2, 8192, 0, []⟩ =
      some ((both ⟨big, ws, [], log, []⟩ true).update 0 [2]
        (Pty.onIoq ⟨.init, ⟨big, ws, [], log, []⟩, 1, 1⟩ true
          (Ioq.readData ⟨big, ws, [], log, []⟩ true ⟨2, 8192, []⟩))) := rfl
  rw [handled, read]
  rfl

end

/-- A message that is handled is a step. -/
theorem step_of {server server' : Server} {lines : Lines Handle} {x : Outcome} {m : Msg}
    {replies : List Reply} (legal : Srv.Legal lines m)
    (handled : server.handle x m = some (server', replies)) :
    Step ⟨server, lines⟩ (x, m) ⟨server', Srv.after lines m (replies.map Reply.sent)⟩ := by
  have taken : System.exec ⟨server, lines⟩ (x, m) =
      some ⟨server', Srv.after lines m (replies.map Reply.sent)⟩ := by
    rw [System.exec, if_pos legal, System.next, handled]
    rfl
  exact taken

end Vsta.Ptyserver
