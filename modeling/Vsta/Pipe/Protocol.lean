import Vsta.Library.Runs
import Vsta.Pipe.Stream
import Vsta.Srv.Sessions

/-!
# The pipes of the server

In every run the pipes are faithful byte streams (`faithful_streams`), but for two slips of the
server: a client may go while it is on a queue, and `FS_WSTAT` of the directory is answered twice
(`Fits`). Three things are as designed and differ from what one might expect: a pipe that its last
reader has left to writers counts -1 readers, and its pending writes fail; a write that is aborted
is not told what was read of it; and a reader that asks for nothing, or is matched with an empty
write, is answered without data.
-/

set_option autoImplicit false

namespace Vsta.Pipeserver

open Vstafs Service WriteLog

/-- The condition on a message: nobody goes while it is queued, and `FS_WSTAT` is not sent to the
directory. -/
def Fits (s : System) (label : Outcome × Msg) : Prop :=
  ∀ f ∈ s.server.filehash.lookup label.2.mSender,
    match label.2.mOp with
    | .M_DISCONNECT => f.fQ = false
    | .FS_WSTAT => f.fFile.isSome
    | _ => True

/-! ## The invariant -/

namespace Server

/-- A connection has a `struct file`. -/
def Client (s : Server) (h : Handle) : Prop := ∃ f, s.filehash.lookup h = some f

/-- A client is on a queue of its pipe. -/
def Kept (s : Server) (h : Handle) : Prop := ∃ f, s.filehash.lookup h = some f ∧ f.fQ = true

end Server

/-- The clients that have a pipe open for writing. -/
def writersOf (clients : Hash File) (i : ULong) : ℕ := Srv.holders File.fFile File.writes clients i

/-- The clients that have it open, and not for writing. -/
def readersOf (clients : Hash File) (i : ULong) : ℕ :=
  Srv.holders File.fFile (fun f => !f.writes) clients i

/-- The counters of a pipe count the clients that have it open, until it is closed for reads. -/
def Pipe.Counts (o : Pipe) (writers readers : ℕ) : Prop :=
  o.pRefs = writers + readers ∧ o.pNwrite = writers ∧
    (o.pNread = readers ∨ o.pNread = PIPE_CLOSED_FOR_READS ∧ readers = 0)

/-- A pipe among the clients. -/
structure Fine (clients : Hash File) (i : ULong) (o : Pipe) : Prop where
  counts : o.Counts (writersOf clients i) (readersOf clients i)
  writing : ∀ w ∈ o.pWriters, ∀ f, clients.lookup w.who = some f → f.writes = true
  faithful : o.Faithful
  matched : o.Matched

/-- The tables agree, and every pipe is fine. -/
structure Formed (files : Hash Pipe) (clients : Hash File) : Prop where
  sessions : Srv.Sessions File.fFile File.fQ Pipe.queue files clients
  fine : ∀ i o, files.lookup i = some o → Fine clients i o

/-- What holds in every state reached. -/
structure Sound (s : System) : Prop where
  whole : s.server.dangling = false
  formed : Formed s.server.files s.server.filehash
  agree : Srv.Agree s.lines s.server.Client s.server.Kept

variable {files : Hash Pipe} {clients : Hash File} {h i : ULong} {f : File} {o : Pipe}

theorem start_sound : Sound System.start := by
  refine ⟨rfl, ⟨Srv.sessions_nil, ?_⟩, Srv.noLines_agree.congr ?_ ?_⟩
  all_goals simp [System.start, Hash.lookup, Server.Client, Server.Kept]

/-! ## One pipe among the clients -/

/-- Whoever is on a queue of a pipe has it open. -/
theorem Formed.of_queued (formed : Formed files clients) (there : files.lookup i = some o)
    (queued : h ∈ o.queue) :
    ∃ f, clients.lookup h = some f ∧ f.fFile = some i ∧ f.fQ = true :=
  (formed.sessions.queued i o h there).mp queued

theorem mem_queue_of_writer {w : Req} (member : w ∈ o.pWriters) : w.who ∈ o.queue :=
  List.mem_append_right _ (List.mem_map_of_mem member)

/-- A write on the queue is that of a client that has the pipe open for writing. -/
theorem Formed.writers_nil (formed : Formed files clients) (there : files.lookup i = some o)
    (none_ : writersOf clients i = 0) : o.pWriters = [] := by
  by_contra some_
  obtain ⟨w, member⟩ := List.exists_mem_of_ne_nil _ some_
  obtain ⟨f, client, opens, -⟩ := formed.of_queued there (mem_queue_of_writer member)
  have pos := Srv.holders_pos File.writes client ((formed.fine i o there).writing w member f client)
    opens
  rw [← writersOf, none_] at pos
  exact absurd pos (Nat.lt_irrefl 0)

/-- A client is attached. -/
theorem Fine.attach {clients' : Hash File} {j : ULong} (fine : Fine clients j o) (writes : Bool)
    (writers : writersOf clients' j = writersOf clients j + if writes = true then 1 else 0)
    (readers : readersOf clients' j = readersOf clients j + if writes = false then 1 else 0)
    (open_ : writes = false → o.pNread ≠ PIPE_CLOSED_FOR_READS)
    (writing : ∀ w ∈ o.pWriters, ∀ f, clients'.lookup w.who = some f → f.writes = true) :
    Fine clients' j (o.attach writes) := by
  obtain ⟨refs, nwrite, nread⟩ := fine.counts
  cases writes with
  | true =>
      rw [if_pos rfl] at writers
      rw [if_neg (by decide), Nat.add_zero] at readers
      refine ⟨⟨?_, ?_, ?_⟩, writing, fine.faithful.congr rfl rfl rfl rfl Iff.rfl, fine.matched⟩
      · rw [writers, readers, Pipe.attach, if_pos rfl]
        push_cast
        simp only [refs]
        omega
      · rw [writers, Pipe.attach, if_pos rfl]
        push_cast
        simp only [nwrite]
      · rw [readers, Pipe.attach, if_pos rfl]
        exact nread
  | false =>
      rw [if_pos rfl] at readers
      rw [if_neg (by decide), Nat.add_zero] at writers
      have counted : o.pNread = readersOf clients j :=
        nread.resolve_right fun closed => open_ rfl closed.1
      have next : o.pNread + 1 ≠ -1 := by omega
      refine ⟨⟨?_, ?_, .inl ?_⟩, writing,
        fine.faithful.congr rfl rfl rfl rfl (iff_of_false next (open_ rfl)), fine.matched⟩
      · rw [writers, readers, Pipe.attach, if_neg (by decide)]
        push_cast
        simp only [refs]
        omega
      · rw [writers, Pipe.attach, if_neg (by decide)]
        exact nwrite
      · rw [readers, Pipe.attach, if_neg (by decide)]
        push_cast
        simp only [counted]

/-- The clients change, and those of the pipe are as many. -/
theorem Fine.congr {clients' : Hash File} {j : ULong} (fine : Fine clients j o)
    (writers : writersOf clients' j = writersOf clients j)
    (readers : readersOf clients' j = readersOf clients j)
    (writing : ∀ w ∈ o.pWriters, ∀ f, clients'.lookup w.who = some f → f.writes = true) :
    Fine clients' j o := by
  refine ⟨?_, writing, fine.faithful, fine.matched⟩
  rw [writers, readers]
  exact fine.counts

/-! ## A pipe changes -/

theorem mark_fFile (came answered : List Handle) (k : Handle) (f : File) :
    (Server.mark came answered k f).fFile = f.fFile := by
  rw [Server.mark]
  split_ifs <;> rfl

theorem mark_writes (came answered : List Handle) (k : Handle) (f : File) :
    (Server.mark came answered k f).writes = f.writes := by
  rw [Server.mark]
  split_ifs <;> rfl

theorem mark_fQ (came answered : List Handle) (k : Handle) (f : File) :
    (Server.mark came answered k f).fQ =
      (decide (k ∉ answered) && (decide (k ∈ came) || f.fQ)) := by
  rw [Server.mark]
  split_ifs with out here
  · simp [out]
  · simp [out, here]
  · simp [out, here]

/-- **A pipe changes: those that are answered leave its queues, and others come.** -/
theorem Formed.update (sessions : Srv.Sessions File.fFile File.fQ Pipe.queue files clients)
    (others : ∀ j o', j ≠ i → files.lookup j = some o' → Fine clients j o')
    (there : files.lookup i = some o) {came : List Handle} {changed : Pipe × List Reply}
    (perm : (changed.2.map Reply.who ++ changed.1.queue).Perm (came ++ o.queue))
    (nodup : (came ++ o.queue).Nodup)
    (open_ : ∀ k ∈ came, ∃ f, clients.lookup k = some f ∧ f.fFile = some i)
    (fine : Fine clients i changed.1) :
    Formed (files.modify i fun _ => changed.1)
      (clients.mapVals (Server.mark came (changed.2.map Reply.who))) := by
  generalize answered_ : changed.2.map Reply.who = answered at perm
  have once : (answered ++ changed.1.queue).Nodup := perm.nodup_iff.mpr nodup
  have left : ∀ k, k ∈ changed.1.queue ↔ k ∉ answered ∧ (k ∈ came ∨ k ∈ o.queue) := by
    intro k
    have among := perm.mem_iff (a := k)
    rw [List.mem_append, List.mem_append] at among
    have apart := List.nodup_append.mp once
    constructor
    · exact fun inside => ⟨fun out => apart.2.2 k out k inside rfl, among.mp (.inr inside)⟩
    · exact fun ⟨out, inside⟩ => (among.mpr inside).resolve_left out
  have held : ∀ k f, clients.lookup k = some f → f.fFile = some i →
      (k ∈ o.queue ↔ f.fQ = true) := by
    intro k f client opens
    rw [sessions.queued i o k there]
    simp [client, opens]
  have mapped : ∀ j o', Fine clients j o' →
      Fine (clients.mapVals (Server.mark came answered)) j o' := by
    intro j o' fine
    refine fine.congr (Srv.holders_mapVals (mark_fFile _ _) (mark_writes _ _))
      (Srv.holders_mapVals (mark_fFile _ _) fun k f => by rw [mark_writes]) fun w member f' look => ?_
    rw [Hash.lookup_mapVals] at look
    obtain ⟨f, client, rfl⟩ := Option.map_eq_some_iff.mp look
    rw [mark_writes]
    exact fine.writing w member f client
  refine ⟨sessions.requeue there (fun _ => changed.1) _ (mark_fFile _ _) (fun k f client => ?_)
    (fun k inside => ?_) (List.nodup_append.mp once).2.1, fun j o' found => ?_⟩
  · rw [mark_fQ]
    split_ifs with opens
    · simp only [left k, held k f client opens, Bool.decide_and, Bool.decide_or, Bool.decide_eq_true]
    · have elsewhere : ∀ f', clients.lookup k = some f' → f'.fFile ≠ some i := by
        intro f' client' opens'
        rw [client] at client'
        exact opens (Option.some.inj client' ▸ opens')
      have new : k ∉ came := fun new => by
        obtain ⟨f', client', opens'⟩ := open_ k new
        exact elsewhere f' client' opens'
      have old : k ∉ o.queue := fun old => by
        obtain ⟨f', client', opens', -⟩ := (sessions.queued i o k there).mp old
        exact elsewhere f' client' opens'
      have out : k ∉ answered := fun out =>
        (List.mem_append.mp (perm.mem_iff.mp (List.mem_append_left _ out))).elim new old
      simp [new, out]
  · obtain ⟨-, inside⟩ := (left k).mp inside
    rcases inside with new | old
    · exact open_ k new
    · obtain ⟨f, client, opens, -⟩ := (sessions.queued i o k there).mp old
      exact ⟨f, client, opens⟩
  · rw [Hash.lookup_modify, there] at found
    split_ifs at found with same
    · obtain rfl := Option.some.inj found
      exact mapped j _ (same ▸ fine)
    · exact mapped j o' (others j o' same found)

/-- Those on a queue after a pipe has changed. -/
theorem kept_mapVals (came answered : List Handle) (k : Handle) :
    (∃ f, (clients.mapVals (Server.mark came answered)).lookup k = some f ∧ f.fQ = true) ↔
      k ∉ answered ∧ ∃ f, clients.lookup k = some f ∧ (k ∈ came ∨ f.fQ = true) := by
  rw [Hash.lookup_mapVals]
  constructor
  · rintro ⟨f', look, on⟩
    obtain ⟨f, client, rfl⟩ := Option.map_eq_some_iff.mp look
    rw [mark_fQ, Bool.and_eq_true, Bool.or_eq_true, decide_eq_true_eq, decide_eq_true_eq] at on
    exact ⟨on.1, f, client, on.2⟩
  · rintro ⟨out, f, client, on⟩
    refine ⟨_, by rw [client]; rfl, ?_⟩
    rw [mark_fQ, Bool.and_eq_true, Bool.or_eq_true, decide_eq_true_eq, decide_eq_true_eq]
    exact ⟨out, on⟩

theorem client_mapVals (change : ULong → File → File) (k : Handle) :
    (∃ f, (clients.mapVals change).lookup k = some f) ↔ ∃ f, clients.lookup k = some f := by
  rw [Hash.lookup_mapVals]
  simp

/-! ## Clients come and go -/

theorem writersOf_insert (clients : Hash File) (h : Handle) (f : File) (j : ULong) :
    writersOf (clients.insert h f) j =
      writersOf clients j + if f.writes = true ∧ f.fFile = some j then 1 else 0 :=
  Srv.holders_insert File.writes

theorem readersOf_insert (clients : Hash File) (h : Handle) (f : File) (j : ULong) :
    readersOf (clients.insert h f) j =
      readersOf clients j + if (!f.writes) = true ∧ f.fFile = some j then 1 else 0 :=
  Srv.holders_insert fun f : File => !f.writes

/-- A client that is on no queue comes, and is attached to the pipe it has open. -/
theorem Formed.enter (formed : Formed files clients) (fresh : clients.lookup h = none)
    (off : f.fQ = false)
    (open_ : ∀ i, f.fFile = some i → ∃ o, files.lookup i = some o ∧
      (f.writes = false → o.pNread ≠ PIPE_CLOSED_FOR_READS)) :
    Formed (Server.attach ⟨files, clients.insert h f, false⟩ f).files (clients.insert h f) := by
  have sessions := formed.sessions.enter fresh off fun i opens =>
    (open_ i opens).imp fun _ both => both.1
  have writing : ∀ j o, files.lookup j = some o → ∀ w ∈ o.pWriters, ∀ f',
      (clients.insert h f).lookup w.who = some f' → f'.writes = true := by
    intro j o found w member f' look
    have queued := formed.of_queued found (mem_queue_of_writer member)
    rw [Hash.lookup_insert] at look
    split_ifs at look with same
    · rw [same, fresh] at queued
      obtain ⟨_, client, -⟩ := queued
      cases client
    · exact (formed.fine j o found).writing w member f' look
  have others : ∀ j o, files.lookup j = some o → f.fFile ≠ some j → Fine (clients.insert h f) j o := by
    intro j o found other
    refine (formed.fine j o found).congr ?_ ?_ (writing j o found)
    · rw [writersOf_insert, if_neg fun both => other both.2, Nat.add_zero]
    · rw [readersOf_insert, if_neg fun both => other both.2, Nat.add_zero]
  rw [Server.attach]
  cases file : f.fFile with
  | none => exact ⟨sessions, fun j o found => others j o found (by simp [file])⟩
  | some i =>
      obtain ⟨o, there, room⟩ := open_ i file
      refine ⟨sessions.object there (Pipe.attach · f.writes) ?_, fun j o' found => ?_⟩
      · rw [Pipe.attach]
        split_ifs <;> rfl
      · simp only [Hash.lookup_modify, there] at found
        split_ifs at found with same
        · obtain rfl := Option.some.inj found
          subst same
          refine (formed.fine j o there).attach f.writes ?_ ?_ room (writing j o there)
          · rw [writersOf_insert]
            simp [file]
          · rw [readersOf_insert]
            simp [file]
        · exact others j o' found fun here => same (Option.some.inj (file.symm.trans here)).symm

theorem writersOf_delete (client : clients.lookup h = some f) (j : ULong) :
    writersOf clients j = writersOf (clients.delete h) j +
      if f.writes = true ∧ f.fFile = some j then 1 else 0 :=
  Srv.holders_delete File.writes client

theorem readersOf_delete (client : clients.lookup h = some f) (j : ULong) :
    readersOf clients j = readersOf (clients.delete h) j +
      if (!f.writes) = true ∧ f.fFile = some j then 1 else 0 :=
  Srv.holders_delete (fun f : File => !f.writes) client

theorem closeWriter_counts {writers readers : ℕ} (refs : o.pRefs = writers + readers)
    (nwrite : o.pNwrite = writers + 1)
    (nread : o.pNread = readers ∨ o.pNread = PIPE_CLOSED_FOR_READS ∧ readers = 0) :
    o.closeWriter.1.Counts writers readers := by
  have fewer : o.pNwrite - 1 = writers := by omega
  rw [Pipe.closeWriter]
  split_ifs
  · exact ⟨refs, fewer, nread⟩
  · exact ⟨refs, fewer, nread⟩

theorem closeReader_counts {writers readers : ℕ} (refs : o.pRefs = writers + readers)
    (nwrite : o.pNwrite = writers) (nread : o.pNread = readers + 1) :
    o.closeReader.1.Counts writers readers := by
  have fewer : o.pNread - 1 = readers := by omega
  rw [Pipe.closeReader]
  split_ifs with left
  · exact ⟨refs, nwrite, .inl fewer⟩
  · exact ⟨refs, nwrite, .inl fewer⟩
  · simp only at left
    exact ⟨refs, nwrite, .inr ⟨rfl, by omega⟩⟩

/-- The pipes record what the answers say. -/
def Recorded (s s' : Server) (replies : List Reply) : Prop :=
  ∀ j o o', s.files.lookup j = some o → s'.files.lookup j = some o' →
    o.Records o' (replies.filter fun r =>
      (s.filehash.lookup r.who).any fun f => f.fFile = some j)

/-- Answers to no reader, and pipes that remain what they were. -/
theorem recorded_of_bare {s s' : Server} {replies : List Reply} (bare : ∀ r ∈ replies, r.Bare)
    (same : ∀ j o o', s.files.lookup j = some o → s'.files.lookup j = some o' →
      o'.out = o.out ∧ o'.zeros = o.zeros) : Recorded s s' replies := by
  intro j o o' found found'
  obtain ⟨out, zeros⟩ := same j o o' found found'
  exact .bare out zeros fun r member => bare r (List.mem_of_mem_filter member)

/-- One pipe changes, and only its clients are answered. -/
theorem recorded_of_update {s s' : Server} {new : Pipe} {replies : List Reply}
    (there : s.files.lookup i = some o) (files : s'.files = s.files.modify i fun _ => new)
    (due : ∀ r ∈ replies, ∃ f, s.filehash.lookup r.who = some f ∧ f.fFile = some i)
    (records : o.Records new replies) : Recorded s s' replies := by
  intro j o' o'' found found'
  rw [files, Hash.lookup_modify, there] at found'
  split_ifs at found' with same
  · obtain rfl := Option.some.inj found'
    obtain rfl : o = o' := Option.some.inj (there.symm.trans (same ▸ found))
    rw [List.filter_eq_self.mpr fun r member => ?_]
    · exact records
    · obtain ⟨f, client, opens⟩ := due r member
      simp [client, opens, same]
  · obtain rfl : o' = o'' := Option.some.inj (found.symm.trans found')
    refine .bare rfl rfl fun r member => ?_
    obtain ⟨among, here⟩ := List.mem_filter.mp member
    obtain ⟨f, client, opens⟩ := due r among
    rw [client, Option.any_some, opens, decide_eq_true_eq] at here
    exact absurd (Option.some.inj here).symm same

/-- The last client of a pipe leaves nobody who has it open. -/
theorem nobody_left (client : clients.lookup h = some f) (file : f.fFile = some i)
    (last : writersOf clients i + readersOf clients i = 1) (k : Handle) (f' : File)
    (client' : (clients.delete h).lookup k = some f') : f'.fFile ≠ some i := by
  intro opens
  have writers := writersOf_delete client i
  have readers := readersOf_delete client i
  have one : (if f.writes = true ∧ f.fFile = some i then 1 else 0) +
      (if (!f.writes) = true ∧ f.fFile = some i then 1 else 0) = 1 := by
    cases f.writes <;> simp [file]
  cases writes : f'.writes with
  | true =>
      have some_ := Srv.holders_pos File.writes client' writes opens
      rw [← writersOf] at some_
      omega
  | false =>
      have some_ := Srv.holders_pos (fun f : File => !f.writes) client' (by simp [writes]) opens
      rw [← readersOf] at some_
      omega

/-- What `pipe_close` leaves of the tables, and whom it answers. -/
structure Closes (files : Hash Pipe) (clients : Hash File) (h : Handle)
    (closed : Server × List Reply) : Prop where
  formed : Formed closed.1.files closed.1.filehash
  once : (closed.2.map Reply.who).Nodup
  remain : ∀ k, (∃ f, closed.1.filehash.lookup k = some f) ↔
    (∃ f, clients.lookup k = some f) ∧ k ≠ h
  kept : ∀ k, (∃ f, closed.1.filehash.lookup k = some f ∧ f.fQ = true) ↔
    (∃ f, clients.lookup k = some f ∧ f.fQ = true) ∧ k ∉ closed.2.map Reply.who
  due : ∀ k ∈ closed.2.map Reply.who, ∃ f, clients.lookup k = some f ∧ f.fQ = true
  recorded : Recorded ⟨files, clients, false⟩ closed.1 closed.2

section
variable (formed : Formed files clients) (client : clients.lookup h = some f) (off : f.fQ = false)
include formed

theorem client_delete (k : Handle) :
    (∃ f, (clients.delete h).lookup k = some f) ↔ (∃ f, clients.lookup k = some f) ∧ k ≠ h := by
  rw [formed.sessions.clientKeys.lookup_delete]
  split_ifs with same
  · simp [same]
  · simp [same]

theorem writing_delete {j : ULong} (found : files.lookup j = some o) {w : Req}
    (member : w ∈ o.pWriters) {f' : File} (look : (clients.delete h).lookup w.who = some f') :
    f'.writes = true := by
  rw [formed.sessions.clientKeys.lookup_delete] at look
  split_ifs at look
  exact (formed.fine j o found).writing w member f' look

include client

/-- The other pipes. -/
theorem fine_delete {j : ULong} (found : files.lookup j = some o) (other : f.fFile ≠ some j) :
    Fine (clients.delete h) j o := by
  have writers := writersOf_delete client j
  have readers := readersOf_delete client j
  rw [if_neg fun both => other both.2, Nat.add_zero] at writers readers
  exact (formed.fine j o found).congr writers.symm readers.symm fun w member f' look =>
    writing_delete formed found member look

include off

theorem kept_delete (k : Handle) :
    (∃ f, (clients.delete h).lookup k = some f ∧ f.fQ = true) ↔
      ∃ f, clients.lookup k = some f ∧ f.fQ = true := by
  rw [formed.sessions.clientKeys.lookup_delete]
  split_ifs with same
  · simp [same, client, off]
  · rfl

/-- The writer that goes last leaves no write behind. -/
theorem writers_left (there : files.lookup i = some o)
    (none_ : writersOf (clients.delete h) i = 0) : o.pWriters = [] := by
  by_contra some_
  obtain ⟨w, member⟩ := List.exists_mem_of_ne_nil _ some_
  obtain ⟨f', client', opens, on⟩ := formed.of_queued there (mem_queue_of_writer member)
  have same : w.who ≠ h := fun same => by
    rw [same, client] at client'
    rw [← Option.some.inj client', off] at on
    cases on
  have writes := (formed.fine i o there).writing w member f' client'
  have stays : (clients.delete h).lookup w.who = some f' := by
    rw [formed.sessions.clientKeys.lookup_delete, if_neg same, client']
  have pos := Srv.holders_pos File.writes stays writes opens
  rw [← writersOf, none_] at pos
  exact absurd pos (Nat.lt_irrefl 0)

/-- A pipe changes as a client goes. -/
theorem closes (there : files.lookup i = some o) (file : f.fFile = some i)
    {changed : Pipe × List Reply} (spec : changed.1.Faithful ∧ changed.1.Matched ∧
      o.deref.Moves changed)
    (counts : changed.1.Counts (writersOf (clients.delete h) i) (readersOf (clients.delete h) i)) :
    Closes files clients h (Server.update ⟨files, clients.delete h, false⟩ i [] changed) := by
  obtain ⟨faithful, matched, moves⟩ := spec
  have nodup := formed.sessions.nodup i o there
  have queued : ∀ k ∈ changed.2.map Reply.who, k ∈ o.queue := fun k out =>
    moves.perm.mem_iff.mp (List.mem_append_left _ out)
  have other : ∀ j, j ≠ i → f.fFile ≠ some j :=
    fun j apart here => apart (Option.some.inj (here.symm.trans file))
  refine ⟨Formed.update (formed.sessions.depart client off)
    (fun j o' apart found => fine_delete formed client found (other j apart)) there moves.perm nodup
    (by simp) ⟨counts, fun w member f' look => ?_, faithful, matched⟩,
    (List.nodup_append.mp (moves.perm.nodup_iff.mpr nodup)).1, fun k => ?_, fun k => ?_,
    fun k out => ?_, ?_⟩
  · obtain ⟨w', member', same⟩ := List.mem_map.mp (moves.writers w member)
    rw [← same] at look
    exact writing_delete formed there member' look
  · exact (client_mapVals _ k).trans (client_delete formed k)
  · rw [Server.update, kept_mapVals, ← kept_delete formed client off k]
    simp [and_comm]
  · obtain ⟨f', client', -, on⟩ := formed.of_queued there (queued k out)
    exact ⟨f', client', on⟩
  · refine recorded_of_update there rfl (fun r member => ?_)
      ⟨moves.records.out, moves.records.zeros⟩
    obtain ⟨f', client', opens, -⟩ :=
      formed.of_queued there (queued r.who (List.mem_map_of_mem member))
    exact ⟨f', client', opens⟩

/-- **`pipe_close`.** -/
theorem pipeClose_spec : ∃ closed,
    Server.pipeClose ⟨files, clients.delete h, false⟩ f = some closed ∧
      Closes files clients h closed := by
  have sessions := formed.sessions.depart client off
  rw [Server.pipeClose]
  cases file : f.fFile with
  | none =>
      refine ⟨_, rfl, ⟨sessions, fun j o found => ?_⟩, List.nodup_nil, client_delete formed,
        fun k => (kept_delete formed client off k).trans (by simp), by simp, ?_⟩
      · exact fine_delete formed client found (by simp [file])
      · exact recorded_of_bare (by simp) fun j o o' found found' => by
          obtain rfl : o = o' := Option.some.inj (found.symm.trans found')
          exact ⟨rfl, rfl⟩
  | some i =>
      obtain ⟨o, there⟩ := formed.sessions.opened h f i client file
      have fine := formed.fine i o there
      obtain ⟨refs, nwrite, nread⟩ := fine.counts
      have deref : o.deref.Faithful := fine.faithful.congr rfl rfl rfl rfl Iff.rfl
      have writers := writersOf_delete client i
      have readers := readersOf_delete client i
      simp only [there, Option.map_some]
      split_ifs with last writes
      · -- the last client of the pipe takes it along
        have look := formed.sessions.objectKeys.lookup_delete i
        have few : writersOf clients i + readersOf clients i = 1 := by
          simp only [Pipe.deref] at last
          omega
        refine ⟨_, rfl, ⟨sessions.remove (nobody_left client file few), fun j o' found => ?_⟩,
          List.nodup_nil, client_delete formed,
          fun k => (kept_delete formed client off k).trans (by simp), by simp, ?_⟩
        · simp only [look] at found
          split_ifs at found with same
          exact fine_delete formed client found fun here =>
            same (Option.some.inj (here.symm.trans file))
        · refine recorded_of_bare (by simp) fun j o o' found found' => ?_
          simp only [look] at found'
          split_ifs at found'
          obtain rfl : o = o' := Option.some.inj (found.symm.trans found')
          exact ⟨rfl, rfl⟩
      · rw [if_pos ⟨writes, file⟩] at writers
        rw [if_neg (by simp [writes]), Nat.add_zero] at readers
        rw [readers] at refs nread
        have counts : o.deref.closeWriter.1.Counts (writersOf (clients.delete h) i)
            (readersOf (clients.delete h) i) := by
          refine closeWriter_counts ?_ ?_ nread <;> simp only [Pipe.deref] <;> omega
        refine ⟨_, rfl, closes formed client off there file
          (Pipe.closeWriter_spec deref fine.matched (by simp only [Pipe.deref]; omega) fun one => ?_)
          counts⟩
        simp only [Pipe.deref] at one
        have left : o.pWriters = [] := writers_left formed client off there (by omega)
        exact left
      · have reads : (!f.writes) = true := by simpa using writes
        rw [if_neg fun both => writes both.1, Nat.add_zero] at writers
        rw [if_pos ⟨reads, file⟩] at readers
        have counted : o.pNread = readersOf clients i := nread.resolve_right fun closed => by omega
        have counts : o.deref.closeReader.1.Counts (writersOf (clients.delete h) i)
            (readersOf (clients.delete h) i) := by
          apply closeReader_counts <;> simp only [Pipe.deref] <;> omega
        exact ⟨_, rfl, closes formed client off there file
          (Pipe.closeReader_spec deref fine.matched (by simp only [Pipe.deref]; omega)) counts⟩

end

/-! ## A client opens a pipe -/

theorem writersOf_move (distinct : clients.Distinct) (client : clients.lookup h = some f)
    (root : f.fFile = none) (perm j : ULong) :
    writersOf (clients.modify h (File.move · i perm)) j = writersOf clients j +
      if (f.move i perm).writes = true ∧ i = j then 1 else 0 :=
  Srv.holders_move distinct client root rfl

theorem readersOf_move (distinct : clients.Distinct) (client : clients.lookup h = some f)
    (root : f.fFile = none) (perm j : ULong) :
    readersOf (clients.modify h (File.move · i perm)) j = readersOf clients j +
      if (!(f.move i perm).writes) = true ∧ i = j then 1 else 0 :=
  Srv.holders_move distinct client root rfl

/-- A client of the directory is on no queue. -/
theorem lookup_move (sessions : Srv.Sessions File.fFile File.fQ Pipe.queue files clients)
    (client : clients.lookup h = some f) (root : f.fFile = none) (there : files.lookup i = some o)
    {w : Req} (member : w ∈ o.pWriters) {change : File → File} :
    (clients.modify h change).lookup w.who = clients.lookup w.who := by
  rw [Hash.lookup_modify]
  split_ifs with here
  · obtain ⟨f', client', opens, -⟩ :=
      (sessions.queued i o w.who there).mp (mem_queue_of_writer member)
    rw [here, client] at client'
    rw [← Option.some.inj client', root] at opens
    cases opens
  · rfl

/-- The file of a client of the directory moves to a pipe. -/
theorem Formed.move (sessions : Srv.Sessions File.fFile File.fQ Pipe.queue files clients)
    (client : clients.lookup h = some f) (root : f.fFile = none)
    (there : files.lookup i = some o) (perm : ULong)
    (others : ∀ j o', j ≠ i → files.lookup j = some o' → Fine clients j o')
    (fine : Fine (clients.modify h (File.move · i perm)) i o) :
    Formed files (clients.modify h (File.move · i perm)) := by
  have off : f.fQ = false := by
    by_contra on
    obtain ⟨j, opens⟩ := sessions.sits h f client (by simpa using on)
    rw [root] at opens
    cases opens
  refine ⟨sessions.move client root there (File.move · i perm) rfl off, fun j o' found => ?_⟩
  by_cases same : j = i
  · subst same
    obtain rfl : o = o' := Option.some.inj (there.symm.trans found)
    exact fine
  · have old := others j o' same found
    refine old.congr ?_ ?_ fun w member f' look => ?_
    · rw [writersOf_move sessions.clientKeys client root, if_neg fun both => same both.2.symm,
        Nat.add_zero]
    · rw [readersOf_move sessions.clientKeys client root, if_neg fun both => same both.2.symm,
        Nat.add_zero]
    · rw [lookup_move sessions client root found member] at look
      exact old.writing w member f' look

/-! ## One message -/

/-- A handler has a result, leaves the server and its connections sound, and the pipes record what
it sent. -/
def Ends (s : System) (m : Msg) (result : Option (Server × List Reply)) : Prop :=
  ∃ handled, result = some handled ∧
    Sound ⟨handled.1, Srv.after s.lines m (handled.2.map Reply.sent)⟩ ∧
    Recorded s.server handled.1 handled.2

theorem sent_who (r : Reply) : r.sent.who = r.who := by
  rw [Reply.sent]
  cases r.body <;> rfl

theorem map_sent_who (replies : List Reply) :
    (replies.map Reply.sent).map Sent.who = replies.map Reply.who := by
  rw [List.map_map]
  exact List.map_congr_left fun r _ => sent_who r

section
variable {s : System} {x : Outcome} {m : Msg}

theorem Sound.serve (sound : Sound s) (legal : Srv.Legal s.lines m) (plain : Srv.Plain m.mOp)
    {s' : Server} {replies : List Reply} (whole : s'.dangling = false)
    (formed : Formed s'.files s'.filehash) (clients : ∀ h, s'.Client h ↔ s.server.Client h)
    (serves : Srv.Serves m (replies.map Reply.sent) s.server.Kept s'.Kept)
    (recorded : Recorded s.server s' replies) : Ends s m (some (s', replies)) :=
  ⟨_, rfl, ⟨whole, formed, (sound.agree.serve legal plain serves).congr clients fun _ => Iff.rfl⟩,
    recorded⟩

/-- A request that is answered, and changes nothing about who waits. -/
theorem Sound.reply (sound : Sound s) (legal : Srv.Legal s.lines m) (plain : Srv.Plain m.mOp)
    (idle : ¬s.server.Kept m.mSender) {s' : Server} (whole : s'.dangling = false)
    (formed : Formed s'.files s'.filehash) (clients : ∀ h, s'.Client h ↔ s.server.Client h)
    (kept : ∀ h, s'.Kept h ↔ s.server.Kept h) {r : Reply} (who : r.who = m.mSender)
    (recorded : Recorded s.server s' [r]) : Ends s m (some (s', [r])) := by
  refine sound.serve legal plain whole formed clients
    (Srv.serves_answer ((sent_who r).trans who) fun h => ?_) recorded
  rw [kept h]
  exact ⟨fun held => ⟨held, fun same => idle (same ▸ held)⟩, And.left⟩

/-- A request that is answered, and nothing else. -/
theorem Sound.refuse (sound : Sound s) (legal : Srv.Legal s.lines m) (plain : Srv.Plain m.mOp)
    (idle : ¬s.server.Kept m.mSender) {r : Reply} (who : r.who = m.mSender) (bare : r.Bare) :
    Ends s m (some (s.server, [r])) :=
  sound.reply legal plain idle sound.whole sound.formed (fun _ => Iff.rfl) (fun _ => Iff.rfl) who
    (recorded_of_bare (by simpa using bare) fun j o o' found found' => by
      obtain rfl : o = o' := Option.some.inj (found.symm.trans found')
      exact ⟨rfl, rfl⟩)

/-- What every server sends is to no reader. -/
theorem ofSent_bare (sent : Sent) : (Reply.ofSent sent).Bare := ⟨rfl, rfl⟩

variable {f : File} {o : Pipe} {i : ULong}

/-! ## Handlers -/

/-- The file of the sender is open. -/
theorem Sound.moved (sound : Sound s) (legal : Srv.Legal s.lines m) (plain : Srv.Plain m.mOp)
    (idle : ¬s.server.Kept m.mSender) (client : s.server.filehash.lookup m.mSender = some f)
    {files : Hash Pipe} {perm : ULong}
    (formed : Formed files (s.server.filehash.modify m.mSender (File.move · i perm)))
    (same : ∀ j o o', s.server.files.lookup j = some o → files.lookup j = some o' →
      o'.out = o.out ∧ o'.zeros = o.zeros) :
    Ends s m ((Server.moveTo { s.server with files := files } m i perm).answer
      (msgReply m.mSender)) := by
  have off : f.fQ = false := by
    by_contra on
    exact idle ⟨f, client, by simpa using on⟩
  have whole : (Server.moveTo { s.server with files := files } m i perm).dangling = false :=
    sound.whole
  refine sound.reply legal plain idle whole formed (fun h => ?_) (fun h => ?_) rfl
    (recorded_of_bare (by simpa using ofSent_bare _) same)
  · simp only [Server.Client, Server.moveTo, Hash.modify, client_mapVals]
  · rw [Server.Kept, Server.Kept, Server.moveTo, Hash.lookup_modify, client]
    split_ifs with here
    · simp [here, client, off]
    · rfl

theorem Sound.openNew (sound : Sound s) (legal : Srv.Legal s.lines m) (plain : Srv.Plain m.mOp)
    (idle : ¬s.server.Kept m.mSender) (client : s.server.filehash.lookup m.mSender = some f)
    (root : f.fFile = none) (fresh : s.server.files.lookup x.pipe = none) :
    Ends s m (s.server.openNew x m) := by
  have sessions := sound.formed.sessions
  have nobody : ∀ h f', s.server.filehash.lookup h = some f' → f'.fFile ≠ some x.pipe := by
    intro h f' client' opens
    obtain ⟨o, there⟩ := sessions.opened h f' _ client' opens
    rw [fresh] at there
    cases there
  have look : ∀ j, (s.server.files.insert x.pipe Pipe.new).lookup j =
      if j = x.pipe then some Pipe.new else s.server.files.lookup j := Hash.lookup_insert _ _ _
  rw [Server.openNew]
  split_ifs
  · exact sound.refuse legal plain idle rfl (ofSent_bare _)
  · exact sound.refuse legal plain idle rfl (ofSent_bare _)
  · refine sound.moved legal plain idle client (Formed.move (sessions.create fresh rfl) client root
      ((look _).trans (if_pos rfl)) _ (fun j o' other found => ?_) ⟨?_, ?_, Pipe.new_faithful,
      .inl rfl⟩) fun j o o' found found' => ?_
    · rw [look, if_neg other] at found
      exact sound.formed.fine j o' found
    · have writers : writersOf s.server.filehash x.pipe = 0 :=
        Srv.holders_eq_zero sessions.clientKeys _ nobody
      have readers : readersOf s.server.filehash x.pipe = 0 :=
        Srv.holders_eq_zero sessions.clientKeys _ nobody
      have writes : (f.move x.pipe (ACC_READ ||| ACC_WRITE ||| ACC_CHMOD)).writes = true :=
        show has (ACC_READ ||| ACC_WRITE ||| ACC_CHMOD) ACC_WRITE = true by decide
      rw [writersOf_move sessions.clientKeys client root, writers,
        readersOf_move sessions.clientKeys client root, readers, writes]
      simp only [and_self, if_true, Bool.not_true, Bool.false_eq_true, false_and, if_false]
      exact ⟨rfl, rfl, .inl rfl⟩
    · exact fun w member => absurd member List.not_mem_nil
    · rw [look] at found'
      split_ifs at found' with same
      · rw [same, fresh] at found
        cases found
      · obtain rfl : o = o' := Option.some.inj (found.symm.trans found')
        exact ⟨rfl, rfl⟩

/-- The right to change permissions is not the one to write. -/
theorem has_or_chmod (a b : ULong) : has (a ||| (b &&& ACC_CHMOD)) ACC_WRITE = has a ACC_WRITE := by
  have apart : ACC_CHMOD &&& ACC_WRITE = 0#32 := by decide
  rw [has, BitVec.and_or_distrib_right, BitVec.and_assoc, apart, BitVec.and_zero, BitVec.or_zero, has]

theorem Sound.openOld (sound : Sound s) (legal : Srv.Legal s.lines m) (plain : Srv.Plain m.mOp)
    (idle : ¬s.server.Kept m.mSender) (client : s.server.filehash.lookup m.mSender = some f)
    (root : f.fFile = none) (there : s.server.files.lookup i = some o) :
    Ends s m (s.server.openOld x m i o) := by
  have sessions := sound.formed.sessions
  have fine := sound.formed.fine i o there
  rw [Server.openOld]
  split_ifs with closed denied
  · exact sound.refuse legal plain idle rfl ⟨rfl, rfl⟩
  · exact sound.refuse legal plain idle rfl (ofSent_bare _)
  · have writes : (f.move i (m.mArg ||| (x.perm &&& ACC_CHMOD))).writes = has m.mArg ACC_WRITE := by
      exact has_or_chmod _ _
    have queue : (o.attach (has m.mArg ACC_WRITE)).queue = o.queue := by
      rw [Pipe.attach]
      split_ifs <;> rfl
    have look : ∀ j, (s.server.files.modify i (Pipe.attach · (has m.mArg ACC_WRITE))).lookup j =
        if j = i then some (o.attach (has m.mArg ACC_WRITE)) else s.server.files.lookup j := by
      intro j
      rw [Hash.lookup_modify, there]
      rfl
    refine sound.moved legal plain idle client (Formed.move (sessions.object there _ queue) client
      root ((look i).trans (if_pos rfl)) _ (fun j o' other found => ?_)
      (fine.attach _ ?_ ?_ (fun _ => closed) fun w member f' found => ?_))
      fun j o' o'' found found' => ?_
    · rw [look, if_neg other] at found
      exact sound.formed.fine j o' found
    · rw [writersOf_move sessions.clientKeys client root, writes]
      simp
    · rw [readersOf_move sessions.clientKeys client root, writes]
      simp
    · rw [lookup_move sessions client root there member] at found
      exact fine.writing w member f' found
    · rw [look] at found'
      split_ifs at found' with same
      · obtain rfl := Option.some.inj found'
        obtain rfl : o = o' := Option.some.inj (there.symm.trans (same ▸ found))
        rw [Pipe.attach]
        split_ifs <;> exact ⟨rfl, rfl⟩
      · obtain rfl : o' = o'' := Option.some.inj (found.symm.trans found')
        exact ⟨rfl, rfl⟩

theorem Sound.pipeOpen (sound : Sound s) (legal : s.Legal x m) (plain : Srv.Plain m.mOp)
    (idle : ¬s.server.Kept m.mSender) (client : s.server.filehash.lookup m.mSender = some f) :
    Ends s m (s.server.pipeOpen x m f) := by
  rw [Server.pipeOpen]
  split_ifs with opened
  · exact sound.refuse legal.1 plain idle rfl (ofSent_bare _)
  · exact sound.refuse legal.1 plain idle rfl (ofSent_bare _)
  · have root : f.fFile = none := by simpa using opened
    cases x.named with
    | none => exact sound.refuse legal.1 plain idle rfl (ofSent_bare _)
    | some i =>
        simp only
        cases there : s.server.files.lookup i with
        | none => exact sound.refuse legal.1 plain idle rfl (ofSent_bare _)
        | some o => exact sound.openOld legal.1 plain idle client root there
  · have root : f.fFile = none := by simpa using opened
    exact sound.openNew legal.1 plain idle client root legal.2.2

/-- A request is put on a queue of its pipe, and whoever can be is answered. -/
theorem Sound.queues (sound : Sound s) (legal : Srv.Legal s.lines m) (plain : Srv.Plain m.mOp)
    (idle : ¬s.server.Kept m.mSender) (client : s.server.filehash.lookup m.mSender = some f)
    (opens : f.fFile = some i) (there : s.server.files.lookup i = some o) (queued : Pipe)
    {changed : Pipe × List Reply} (queue : queued.queue.Perm (m.mSender :: o.queue))
    (history : queued.out = o.out ∧ queued.zeros = o.zeros)
    (writers : ∀ w ∈ queued.pWriters, w ∈ o.pWriters ∨ w.who = m.mSender ∧ f.writes = true)
    (spec : changed.1.Faithful ∧ changed.1.Matched ∧ queued.Moves changed ∧
      changed.1.counters = o.counters) :
    Ends s m (some (s.server.update i [m.mSender] changed)) := by
  obtain ⟨faithful, matched, moves, same⟩ := spec
  obtain ⟨refs, nwrite, nread⟩ : changed.1.pRefs = o.pRefs ∧ changed.1.pNwrite = o.pNwrite ∧
      changed.1.pNread = o.pNread := by
    simpa [Pipe.counters] using same
  have formed := sound.formed
  have fresh : m.mSender ∉ o.queue := fun inside => by
    obtain ⟨f', client', -, on⟩ := formed.of_queued there inside
    exact idle ⟨f', client', on⟩
  have perm := moves.perm.trans queue
  have nodup : (m.mSender :: o.queue).Nodup :=
    List.nodup_cons.mpr ⟨fresh, formed.sessions.nodup i o there⟩
  have due : ∀ k ∈ changed.2.map Reply.who, k = m.mSender ∨ k ∈ o.queue := fun k out =>
    List.mem_cons.mp (perm.mem_iff.mp (List.mem_append_left _ out))
  have fine : Fine s.server.filehash i changed.1 := by
    refine ⟨?_, fun w member f' look => ?_, faithful, matched⟩
    · rw [Pipe.Counts, refs, nwrite, nread]
      exact (formed.fine i o there).counts
    · obtain ⟨w', member', who⟩ := List.mem_map.mp (moves.writers w member)
      rw [← who] at look
      rcases writers w' member' with old | ⟨sender, writes⟩
      · exact (formed.fine i o there).writing w' old f' look
      · rw [sender, client] at look
        rwa [← Option.some.inj look]
  refine sound.serve legal plain sound.whole (Formed.update formed.sessions
    (fun j o' _ found => formed.fine j o' found) there perm nodup ?_ fine)
    (fun h => client_mapVals _ h) ⟨?_, fun h member => ?_, fun h => ?_⟩ ?_
  · intro k member
    rw [List.mem_singleton.mp member]
    exact ⟨f, client, opens⟩
  · rw [map_sent_who]
    exact (List.nodup_append.mp (perm.nodup_iff.mpr nodup)).1
  · rw [map_sent_who] at member
    refine (due h member).imp_right fun queued => ?_
    obtain ⟨f', client', -, on⟩ := formed.of_queued there queued
    exact ⟨f', client', on⟩
  · rw [map_sent_who, and_comm]
    refine (kept_mapVals _ _ h).trans (and_congr_right fun _ => ?_)
    rw [List.mem_singleton, Server.Kept]
    constructor
    · rintro ⟨f', client', here | on⟩
      · exact .inl here
      · exact .inr ⟨f', client', on⟩
    · rintro (here | ⟨f', client', on⟩)
      · exact ⟨f, here ▸ client, .inl here⟩
      · exact ⟨f', client', .inr on⟩
  · refine recorded_of_update there rfl (fun r member => ?_) ⟨?_, ?_⟩
    · rcases due r.who (List.mem_map_of_mem member) with sender | queued
      · exact ⟨f, sender ▸ client, opens⟩
      · obtain ⟨f', client', opens', -⟩ := formed.of_queued there queued
        exact ⟨f', client', opens'⟩
    · rw [moves.records.out, history.1]
    · rw [moves.records.zeros, history.2]

theorem Sound.pipeWrite (sound : Sound s) (legal : s.Legal x m) (plain : Srv.Plain m.mOp)
    (idle : ¬s.server.Kept m.mSender) (client : s.server.filehash.lookup m.mSender = some f) :
    Ends s m (s.server.pipeWrite x m f) := by
  rw [Server.pipeWrite]
  cases opens : f.fFile with
  | none => exact sound.refuse legal.1 plain idle rfl (ofSent_bare _)
  | some i =>
      simp only
      obtain ⟨o, there⟩ := sound.formed.sessions.opened _ f i client opens
      simp only [there, Option.bind_some]
      split_ifs with denied closed
      · exact sound.refuse legal.1 plain idle rfl (ofSent_bare _)
      · exact sound.refuse legal.1 plain idle rfl ⟨rfl, rfl⟩
      · exact sound.refuse legal.1 plain idle rfl (ofSent_bare _)
      · refine sound.queues legal.1 plain idle client opens there (o.queueWrite m.mSender m.mSeg)
          (Pipe.queueWrite_queue _ _) ⟨rfl, rfl⟩ (fun w member => ?_)
          (Pipe.write_spec _ (sound.formed.fine i o there).faithful closed legal.2.1)
        refine (List.mem_append.mp member).imp_right fun new => ?_
        rw [List.mem_singleton.mp new]
        exact ⟨rfl, by simpa using denied⟩

theorem Sound.pipeRead (sound : Sound s) (legal : Srv.Legal s.lines m) (plain : Srv.Plain m.mOp)
    (idle : ¬s.server.Kept m.mSender) (client : s.server.filehash.lookup m.mSender = some f) :
    Ends s m (s.server.pipeRead x m f) := by
  rw [Server.pipeRead]
  cases opens : f.fFile with
  | none =>
      simp only
      split_ifs
      · exact sound.refuse legal plain idle rfl (ofSent_bare _)
      · exact sound.refuse legal plain idle rfl (ofSent_bare _)
  | some i =>
      simp only
      obtain ⟨o, there⟩ := sound.formed.sessions.opened _ f i client opens
      have fine := sound.formed.fine i o there
      simp only [there, Option.bind_some]
      split_ifs with denied eof
      · exact sound.refuse legal plain idle rfl (ofSent_bare _)
      · have nobody : writersOf s.server.filehash i = 0 := by
          have nwrite := fine.counts.2.1
          omega
        have faithful := Pipe.atEof_faithful fine.faithful eof
          (sound.formed.writers_nil there nobody)
        have formed : Formed (s.server.files.modify i fun _ => o.atEof) s.server.filehash := by
          refine ⟨sound.formed.sessions.object there _ rfl, fun j o' found => ?_⟩
          rw [Hash.lookup_modify, there] at found
          split_ifs at found with same
          · obtain rfl := Option.some.inj found
            rw [same]
            exact ⟨fine.counts, fine.writing, faithful, fine.matched⟩
          · exact sound.formed.fine j o' found
        have records : o.Records o.atEof [⟨m.mSender, .data []⟩] := ⟨by simp [Pipe.atEof, Reply.bytes], rfl⟩
        have whole : Server.dangling { s.server with
            files := s.server.files.modify i fun _ => o.atEof } = false := sound.whole
        refine sound.reply legal plain idle whole formed (fun _ => Iff.rfl) (fun _ => Iff.rfl) rfl
          (recorded_of_update there rfl (fun r member => ?_) records)
        rw [List.mem_singleton.mp member]
        exact ⟨f, client, opens⟩
      · exact sound.refuse legal plain idle rfl (ofSent_bare _)
      · exact sound.queues legal plain idle client opens there
          (o.queueRead m.mSender m.mArg.toNat) (Pipe.queueRead_queue _ _) ⟨rfl, rfl⟩
          (fun w member => .inl member) (Pipe.read_spec _ fine.faithful _)

theorem Sound.pipeAbort (sound : Sound s) (legal : Srv.Legal s.lines m) (plain : Srv.Plain m.mOp)
    (client : s.server.filehash.lookup m.mSender = some f) :
    Ends s m (s.server.pipeAbort m f) := by
  have formed := sound.formed
  rw [Server.pipeAbort]
  split_ifs with on
  · obtain ⟨i, opens⟩ := formed.sessions.sits _ f client on
    obtain ⟨o, there⟩ := formed.sessions.opened _ f i client opens
    have fine := formed.fine i o there
    have queued : m.mSender ∈ o.queue :=
      (formed.sessions.queued i o _ there).mpr ⟨f, client, opens, on⟩
    have nodup := formed.sessions.nodup i o there
    have moves : o.Moves (o.abort m.mSender, [.ofSent (msgReply m.mSender)]) :=
      Pipe.abort_moves _ nodup queued rfl (ofSent_bare _)
    simp only [opens, Option.bind_some, there, Option.map_some]
    refine sound.serve legal plain sound.whole (Formed.update formed.sessions
      (fun j o' _ found => formed.fine j o' found) there moves.perm nodup (by simp)
      ⟨fine.counts, fun w member => fine.writing w (List.mem_of_mem_filter member),
        Pipe.abort_faithful _ fine.faithful, Pipe.abort_matched _ fine.matched⟩)
      (fun h => client_mapVals _ h) (Srv.serves_answer rfl fun h => ?_)
      (recorded_of_update there rfl (fun r member => ?_) moves.records)
    · rw [and_comm]
      refine (kept_mapVals _ _ h).trans ?_
      simp [Server.Kept, Reply.ofSent, msgReply]
    · rw [List.mem_singleton.mp member]
      exact ⟨f, client, opens⟩
  · refine sound.refuse legal plain (fun kept => on ?_) rfl (ofSent_bare _)
    obtain ⟨f', client', on'⟩ := kept
    rw [client] at client'
    rwa [Option.some.inj client']

theorem Sound.pipeStat (sound : Sound s) (legal : Srv.Legal s.lines m) (plain : Srv.Plain m.mOp)
    (idle : ¬s.server.Kept m.mSender) : Ends s m (s.server.pipeStat m f) := by
  rw [Server.pipeStat]
  split_ifs
  · exact sound.refuse legal plain idle rfl (ofSent_bare _)
  · exact sound.refuse legal plain idle rfl (ofSent_bare _)

theorem Sound.pipeWstat (sound : Sound s) (legal : Srv.Legal s.lines m) (plain : Srv.Plain m.mOp)
    (idle : ¬s.server.Kept m.mSender) (opened : f.fFile.isSome) :
    Ends s m (s.server.pipeWstat x m f) := by
  have open_ : f.fFile.isNone = false := by
    rw [← Option.not_isSome, opened]
    rfl
  rw [Server.pipeWstat]
  simp only [open_, Bool.false_eq_true, if_false, List.nil_append]
  rcases doWstat_once { x.wstat with chmod := has f.fPerm ACC_CHMOD } m with
    ⟨left, nothing⟩ | ⟨done, answer, -, once⟩
  · simp only [left, nothing, if_true, List.nil_append]
    exact sound.refuse legal plain idle rfl (ofSent_bare _)
  · simp only [done, once, Bool.false_eq_true, if_false, List.append_nil]
    exact sound.refuse legal plain idle rfl (ofSent_bare _)

/-- A client that comes waits for nothing. -/
theorem enter_kept {server : Server} {h : Handle} (fresh : server.filehash.lookup h = none)
    (off : f.fQ = false) (h' : Handle) :
    (∃ f', (server.filehash.insert h f).lookup h' = some f' ∧ f'.fQ = true) ↔ server.Kept h' := by
  rw [Hash.lookup_insert, Server.Kept]
  split_ifs with same
  · simp [same, fresh, off]
  · rfl

theorem enter_client {server : Server} {h : Handle} (h' : Handle) :
    (∃ f', (server.filehash.insert h f).lookup h' = some f') ↔
      server.Client h' ∨ (True ∧ h' = h) := by
  rw [Hash.lookup_insert, Server.Client]
  split_ifs with same
  · simp [same]
  · simp [same]

/-- A connect or a duplicate that is refused. -/
theorem Sound.refused (sound : Sound s) (e : FsErr) (op : m.mOp = .M_CONNECT ∨ m.mOp = .M_DUP)
    (legal : Srv.Legal s.lines m) : Ends s m (s.server.answer (msgErr m.mSender e)) := by
  have recorded : Recorded s.server s.server [.ofSent (msgErr m.mSender e)] :=
    recorded_of_bare (by simpa using ofSent_bare _) fun j o o' found found' => by
      obtain rfl : o = o' := Option.some.inj (found.symm.trans found')
      exact ⟨rfl, rfl⟩
  refine ⟨_, rfl, ⟨sound.whole, sound.formed, ?_⟩, recorded⟩
  rcases op with connect | dup
  · have agree := sound.agree.connect connect legal False e
    simp only [if_false] at agree
    exact agree.congr (fun h => by simp) fun _ => Iff.rfl
  · have agree := sound.agree.dup dup legal False e
    simp only [if_false] at agree
    exact agree.congr (fun h => by simp) fun _ => Iff.rfl

/-- There is no client yet. -/
theorem Sound.fresh (sound : Sound s) {h : Handle} (absent : s.lines.conn h = .absent) :
    s.server.filehash.lookup h = none := by
  have gone := (sound.agree.known h).mp absent
  rwa [Server.Client, ← Option.isSome_iff_exists, Option.not_isSome_iff_eq_none] at gone

theorem attach_history {server : Server} {j : ULong} {o o' : Pipe}
    (found' : (server.attach f).files.lookup j = some o')
    (found : server.files.lookup j = some o) :
    o'.out = o.out ∧ o'.zeros = o.zeros := by
  rw [Server.attach] at found'
  split at found'
  · obtain rfl : o = o' := Option.some.inj (found.symm.trans found')
    exact ⟨rfl, rfl⟩
  · rw [Hash.lookup_modify] at found'
    split_ifs at found' with same
    · rw [← same, found] at found'
      obtain rfl : o.attach f.writes = o' := Option.some.inj found'
      rw [Pipe.attach]
      split_ifs <;> exact ⟨rfl, rfl⟩
    · obtain rfl : o = o' := Option.some.inj (found.symm.trans found')
      exact ⟨rfl, rfl⟩

theorem attach_rest (server : Server) (f : File) :
    (server.attach f).filehash = server.filehash ∧
      (server.attach f).dangling = server.dangling := by
  rw [Server.attach]
  split <;> exact ⟨rfl, rfl⟩

theorem Sound.newClient (sound : Sound s) (op : m.mOp = .M_CONNECT)
    (legal : Srv.Legal s.lines m) : Ends s m (s.server.newClient x m) := by
  rw [Server.newClient]
  split_ifs
  · exact sound.refused _ (.inl op) legal
  · exact sound.refused _ (.inl op) legal
  have absent : s.lines.conn m.mSender = .absent := by simpa [Srv.Legal, op] using legal
  have fresh := sound.fresh absent
  have off : File.fQ ⟨none, ACC_READ ||| ACC_WRITE, false⟩ = false := rfl
  have formed := sound.formed.enter fresh off (by simp)
  have agree := sound.agree.connect op legal True .EINVAL
  simp only [if_true] at agree
  exact ⟨_, rfl, ⟨sound.whole, formed, agree.congr (fun h => enter_client h) fun h =>
    enter_kept fresh rfl h⟩, recorded_of_bare (by simpa using ofSent_bare _)
      fun j o o' found found' => by
        obtain rfl : o = o' := Option.some.inj (found.symm.trans found')
        exact ⟨rfl, rfl⟩⟩

theorem Sound.dupClient (sound : Sound s) (op : m.mOp = .M_DUP) (legal : Srv.Legal s.lines m)
    (client : s.server.filehash.lookup m.mSender = some f) :
    Ends s m (s.server.dupClient x m f) := by
  rw [Server.dupClient]
  split_ifs
  · exact sound.refused _ (.inr op) legal
  · exact sound.refused _ (.inr op) legal
  have both : s.lines.conn m.mSender = .idle ∧ s.lines.conn m.mArg = .absent := by
    simpa [Srv.Legal, op] using legal
  have fresh := sound.fresh both.2
  -- a duplicate is not made while a request is outstanding
  have off : f.fQ = false := by
    by_contra on
    have waits := (sound.agree.waits m.mSender).mpr ⟨f, client, by simpa using on⟩
    simp [both.1] at waits
  have formed := sound.formed.enter fresh off fun i opens => by
    obtain ⟨o, there⟩ := sound.formed.sessions.opened _ f i client opens
    refine ⟨o, there, fun reads closed => ?_⟩
    have pos := Srv.holders_pos (fun f : File => !f.writes) client (by simp [reads]) opens
    rw [← readersOf] at pos
    have closed : o.pNread = -1 := closed
    rcases (sound.formed.fine i o there).counts.2.2 with counted | ⟨-, none_⟩
    · omega
    · omega
  rw [← sound.whole] at formed
  have agree := sound.agree.dup op legal True .EINVAL
  simp only [if_true] at agree
  obtain ⟨filehash, whole⟩ : _ ∧ _ :=
    attach_rest { s.server with filehash := s.server.filehash.insert m.mArg f } f
  refine ⟨_, rfl, ⟨whole.trans sound.whole, ?_, agree.congr (fun h => ?_) fun h => ?_⟩,
    recorded_of_bare (by simpa using ofSent_bare _) fun j o o' found found' =>
      attach_history found' found⟩
  · rw [filehash]
    exact formed
  · rw [Server.Client, filehash]
    exact enter_client h
  · rw [Server.Kept, filehash]
    exact enter_kept fresh off h

theorem Sound.deadClient (sound : Sound s) (op : m.mOp = .M_DISCONNECT)
    (client : s.server.filehash.lookup m.mSender = some f) (off : f.fQ = false) :
    Ends s m (s.server.deadClient m f) := by
  obtain ⟨closed, done, closes⟩ := pipeClose_spec sound.formed client off
  have idle : ¬s.server.Kept m.mSender := by
    rintro ⟨f', client', on⟩
    rw [client] at client'
    rw [← Option.some.inj client', off] at on
    cases on
  have agree : Srv.Agree (Srv.after s.lines m (closed.2.map Reply.sent)) _ _ :=
    sound.agree.disconnect op idle (by rw [map_sent_who]; exact closes.once)
      (by rw [map_sent_who]; exact closes.due)
  refine ⟨({ closed.1 with dangling := s.server.dangling || f.fQ }, closed.2), ?_,
    ⟨by rw [sound.whole, off]; rfl, closes.formed, agree.congr closes.remain fun h => ?_⟩,
    closes.recorded⟩
  · rw [Server.deadClient]
    simp only [sound.whole, done, Option.map_some]
  · rw [map_sent_who]
    exact closes.kept h

/-- **A message that meets the condition is handled, and leaves the server and its connections
sound.** -/
theorem Sound.handle (sound : Sound s) (legal : s.Legal x m) (fits : Fits s (x, m)) :
    Ends s m (s.server.handle x m) := by
  have lines := legal.1
  rw [Server.handle, if_neg (by simp [sound.whole])]
  -- a sender that is idle is on no queue
  have idle_of : s.lines.conn m.mSender = .idle → ¬s.server.Kept m.mSender := by
    intro idle held
    simp [(sound.agree.waits _).mpr held] at idle
  simp only
  by_cases connect : m.mOp = .M_CONNECT
  · rw [connect]
    exact sound.newClient connect lines
  obtain ⟨f, client⟩ := sound.agree.sender lines connect
  have fits := fits f client
  cases op : m.mOp with
  | M_CONNECT => exact absurd op connect
  | M_DISCONNECT =>
      rw [op] at fits
      simpa only [client, Option.bind_some] using sound.deadClient op client fits
  | M_DUP => simpa only [client, Option.bind_some] using sound.dupClient op lines client
  | M_ABORT =>
      have plain : Srv.Plain m.mOp := by simp [Srv.Plain, op]
      simpa only [client, Option.bind_some] using sound.pipeAbort lines plain client
  | FS_OPEN =>
      have plain : Srv.Plain m.mOp := by simp [Srv.Plain, op]
      have idle := idle_of (by simpa [Srv.Legal, op] using lines)
      simp only [client, Option.bind_some]
      split_ifs
      · exact sound.refuse lines plain idle rfl (ofSent_bare _)
      · exact sound.pipeOpen legal plain idle client
  | FS_READ =>
      have plain : Srv.Plain m.mOp := by simp [Srv.Plain, op]
      have idle := idle_of (by simpa [Srv.Legal, op] using lines)
      simpa only [client, Option.bind_some] using sound.pipeRead lines plain idle client
  | FS_WRITE =>
      have plain : Srv.Plain m.mOp := by simp [Srv.Plain, op]
      have idle := idle_of (by simpa [Srv.Legal, op] using lines)
      simpa only [client, Option.bind_some] using sound.pipeWrite legal plain idle client
  | FS_STAT =>
      have plain : Srv.Plain m.mOp := by simp [Srv.Plain, op]
      have idle := idle_of (by simpa [Srv.Legal, op] using lines)
      simpa only [client, Option.bind_some] using sound.pipeStat lines plain idle
  | FS_WSTAT =>
      have plain : Srv.Plain m.mOp := by simp [Srv.Plain, op]
      have idle := idle_of (by simpa [Srv.Legal, op] using lines)
      rw [op] at fits
      simpa only [client, Option.bind_some] using sound.pipeWstat lines plain idle fits
  | FS_SEEK | FS_ABSREAD | FS_ABSWRITE | FS_REMOVE | FS_FID | FS_RENAME | unknown =>
      have plain : Srv.Plain m.mOp := by simp [Srv.Plain, op]
      have idle := idle_of (by simpa [Srv.Legal, op] using lines)
      exact sound.refuse lines plain idle rfl (ofSent_bare _)

end

/-! ## Runs -/

theorem step_eq {s t : System} {label : Outcome × Msg} (step : Step s label t) :
    s.Legal label.1 label.2 ∧ ∃ handled, s.server.handle label.1 label.2 = some handled ∧
      t = ⟨handled.1, Srv.after s.lines label.2 (handled.2.map Reply.sent)⟩ := by
  obtain ⟨legal, taken⟩ := Option.ite_none_right_eq_some.mp step
  obtain ⟨handled, done, rfl⟩ := Option.map_eq_some_iff.mp taken
  exact ⟨legal, handled, done, rfl⟩

theorem Sound.step {s t : System} {label : Outcome × Msg} (sound : Sound s) (fits : Fits s label)
    (step : Step s label t) : Sound t := by
  obtain ⟨legal, handled, done, rfl⟩ := step_eq step
  obtain ⟨handled', done', after, -⟩ := sound.handle legal fits
  obtain rfl : handled = handled' := Option.some.inj (done.symm.trans done')
  exact after

theorem sound_run {s : System} (run : Transition.Reaches Step Fits System.start s) : Sound s :=
  run.invariant start_sound fun _ _ _ sound fits step => sound.step fits step

/-- The clients that have a pipe open. -/
def attached (clients : Hash File) (i : ULong) : ℕ :=
  Srv.holders File.fFile (fun _ => true) clients i

/-- **In every run whose messages meet the condition, what the readers of a pipe were handed, and
what is still pending, are the writes in the order they were queued, but for the unread part of
those that were aborted; the writes on the queue are those that are pending, until the pipe is
closed for reads; a writer that is told a count is told all it wrote; a reader is answered without
data only at the end of file, with no writer and nothing queued, or when it asked for nothing or was
matched with nothing; the counters count the clients that have the pipe open; and never do both a
reader and a writer wait. No answer goes astray, those that wait for one are those on a queue, and
every message has a result, whose answers are what the pipes record.** -/
theorem faithful_streams {s : System} (run : Transition.Reaches Step Fits System.start s) :
    (∀ i o, s.server.files.lookup i = some o →
      o.out ++ (pending o.log).flatMap Write.unread = o.log.flatMap Write.kept ∧
      (o.pNread ≠ PIPE_CLOSED_FOR_READS →
        (pending o.log).map logKey = o.pWriters.map Req.key) ∧
      (∀ w ∈ o.log, ∀ count, w.fate = .told count → count = w.data.length) ∧
      (∀ z ∈ o.zeros, z.Natural) ∧
      (if o.pNread = PIPE_CLOSED_FOR_READS then o.pNwrite = attached s.server.filehash i
        else o.pNread + o.pNwrite = attached s.server.filehash i) ∧
      (o.pReaders = [] ∨ o.pWriters = [])) ∧
    s.server.dangling = false ∧ s.lines.stray = false ∧
    (∀ h, s.lines.conn h = .waiting ↔
      ∃ i o, s.server.files.lookup i = some o ∧ h ∈ o.queue) ∧
    ∀ x m, s.Legal x m → Fits s (x, m) → ∃ handled, s.server.handle x m = some handled ∧
      Recorded s.server handled.1 handled.2 := by
  have sound := sound_run run
  refine ⟨fun i o there => ?_, sound.whole, sound.agree.noStray, fun h => ?_,
    fun x m legal fits => ?_⟩
  · have fine := sound.formed.fine i o there
    obtain ⟨-, nwrite, nread⟩ := fine.counts
    have all : writersOf s.server.filehash i + readersOf s.server.filehash i =
        attached s.server.filehash i := Srv.holders_add File.writes
    refine ⟨?_, fine.faithful.queued, fun w member count told => ?_, fine.faithful.zeros, ?_,
      fine.matched⟩
    · rw [fine.faithful.out]
      exact reads_append_unread fine.faithful.inOrder
    · obtain ⟨nothing, right⟩ := fine.faithful.inOrder.honest member count told
      rw [right, Write.data, nothing, List.append_nil]
    · split_ifs with closed
      · have closed : o.pNread = -1 := closed
        rcases nread with counted | ⟨-, none_⟩ <;> omega
      · have counted := nread.resolve_right fun both => closed both.1
        omega
  · rw [sound.agree.waits h]
    constructor
    · rintro ⟨f, client, on⟩
      obtain ⟨i, opens⟩ := sound.formed.sessions.sits h f client on
      obtain ⟨o, there⟩ := sound.formed.sessions.opened h f i client opens
      exact ⟨i, o, there, (sound.formed.sessions.queued i o h there).mpr ⟨f, client, opens, on⟩⟩
    · rintro ⟨i, o, there, queued⟩
      obtain ⟨f, client, -, on⟩ := sound.formed.of_queued there queued
      exact ⟨f, client, on⟩
  · obtain ⟨handled, done, -, recorded⟩ := sound.handle legal fits
    exact ⟨handled, done, recorded⟩

/-! ## Two clients -/

/-- Memory, permissions, the name of pipe 8, and room for a new pipe. -/
def plenty (new : ULong) : Outcome where
  mem := true
  node := true
  named := some 8
  pipe := new
  perm := ACC_READ ||| ACC_WRITE
  before := 0
  wstat := ⟨true, true, true, false, false⟩

/-- The first client makes pipe 8, and the second opens it to read. -/
def opened : List (Outcome × Msg) :=
  [(plenty 8, ⟨.M_CONNECT, 1, 0, 0, []⟩), (plenty 8, ⟨.M_CONNECT, 2, 0, 0, []⟩),
    (plenty 8, ⟨.FS_OPEN, 1, ACC_CREATE, 0, [[0x23, 0]]⟩),
    (plenty 9, ⟨.FS_OPEN, 2, ACC_READ, 0, [[0x38, 0]]⟩)]

/-- The second client asks for a byte and is given the first of two. -/
def oneByte : List (Outcome × Msg) :=
  opened ++ [(plenty 9, ⟨.FS_READ, 2, 1, 0, []⟩), (plenty 9, ⟨.FS_WRITE, 1, 2, 0, [[7, 8]]⟩)]

/-- What `Fits` says of messages that are neither `M_DISCONNECT` nor `FS_WSTAT`, or from a client
that is on no queue. -/
def fitting (s : System) (label : Outcome × Msg) : Bool :=
  label.2.mOp ≠ .FS_WSTAT ∧ (label.2.mOp = .M_DISCONNECT →
    (s.server.filehash.lookup label.2.mSender).all fun f => !f.fQ)

theorem fits_of_fitting (s : System) (label : Outcome × Msg) (good : fitting s label = true) :
    Fits s label := by
  intro f client
  simp only [fitting, decide_eq_true_eq] at good
  obtain ⟨wstat, gone⟩ := good
  split
  · next op =>
      have off := gone op
      rw [Option.mem_def.mp client, Option.all_some] at off
      simpa using off
  · next op => exact absurd op wstat
  · trivial

/-- What is left of pipe 8. -/
def seen (s : System) : Option (List UChar × List (Write Handle UChar) × List Zero × ℤ × ℕ) :=
  (s.server.files.lookup 8).map fun o =>
    (o.out, o.log, o.zeros, o.pNread + o.pNwrite, attached s.server.filehash 8)

theorem follow_oneByte : (Transition.follow System.exec fitting System.start oneByte).bind seen =
    some ([7], [⟨1, [7], [8], .pending⟩], [], 2, 2) := by decide

theorem faithful_streams_two : ∃ s : System, ∃ o, s.server.files.lookup 8 = some o ∧
    o.out ++ (pending o.log).flatMap Write.unread = o.log.flatMap Write.kept ∧ o.out = [7] := by
  obtain ⟨s, followed, eq⟩ := Option.bind_eq_some_iff.mp follow_oneByte
  obtain ⟨o, there, eq⟩ := Option.map_eq_some_iff.mp eq
  have run : Transition.Reaches Step Fits System.start s :=
    (Transition.Reaches.refl _).follow fits_of_fitting followed
  exact ⟨s, o, there, ((faithful_streams run).1 8 o there).1, (Prod.mk.inj eq).1⟩

/-- The same, but the second client asks for nothing first; then the writer gives up, and the reader
goes away. -/
def givenUp : List (Outcome × Msg) :=
  opened ++ [(plenty 9, ⟨.FS_WRITE, 1, 2, 0, [[7, 8]]⟩), (plenty 9, ⟨.FS_READ, 2, 0, 0, []⟩),
    (plenty 9, ⟨.FS_READ, 2, 1, 0, []⟩), (plenty 9, ⟨.M_ABORT, 1, 0, 0, []⟩),
    (plenty 9, ⟨.M_DISCONNECT, 2, 0, 0, []⟩)]

/-- **A reader is answered without data while a write is queued, a writer is not told the byte that
was read, and the counters count one client less than there is.** -/
theorem closed_for_reads : ∃ s : System, Transition.Reaches Step Fits System.start s ∧
    seen s = some ([7], [⟨1, [7], [8], .dropped⟩], [.matched 0 [7, 8]], 0, 1) := by
  have followed : (Transition.follow System.exec fitting System.start givenUp).bind seen =
      some ([7], [⟨1, [7], [8], .dropped⟩], [.matched 0 [7, 8]], 0, 1) := by decide
  obtain ⟨s, followed, eq⟩ := Option.bind_eq_some_iff.mp followed
  exact ⟨s, (Transition.Reaches.refl _).follow fits_of_fitting followed, eq⟩

end Vsta.Pipeserver
