import Vsta.Library.Runs
import Vsta.Sema.Server
import Vsta.Srv.Sessions

/-!
# Who waits for a semaphore

The queue of a semaphore holds the clients that have a request outstanding, each once, and its
length is what the count is below zero (`protocol_sound`). Four messages break this: `FS_ABSREAD` is
answered twice, a count is written without a look at the queue, a client may go while it is queued,
and one that finds no memory has been counted (`absread_answers_twice`).
-/

set_option autoImplicit false

namespace Vsta.Semaserver

open Vstafs Service

/-- A count that is written lets through no more clients than it says, and otherwise counts those
who wait. -/
def Field.Fits (field : Field) (o : Openfile) : Prop :=
  match field with
  | .count (some c) =>
      if 0 < c then (o.oQueue.length : ℤ) ≤ c ∧ c + o.oQueue.length < 2 ^ 31
      else c = -(o.oQueue.length : ℤ)
  | _ => False

instance (field : Field) (o : Openfile) : Decidable (field.Fits o) := by
  unfold Field.Fits
  split <;> infer_instance

/-- The condition on a message: nobody goes while it is queued, there is no `FS_ABSREAD`, a client
that has to wait and a directory that is read find memory, and a field that is written and left to
the server is a count that fits. -/
def Fits (s : System) (label : Outcome × Msg) : Prop :=
  ∀ f ∈ s.server.filehash.lookup label.2.mSender,
    match label.2.mOp with
    | .M_DISCONNECT => f.fEntry = false
    | .FS_ABSREAD => False
    | .FS_READ =>
        match f.fFile with
        | none => label.1.mem = true
        | some i => has f.fPerm ACC_READ → ∀ o ∈ s.server.files.lookup i,
            o.oCount ≤ 0 → label.1.mem = true
    | .FS_WSTAT => has f.fPerm (ACC_WRITE ||| ACC_CHMOD) →
        (doWstat { label.1.wstat with chmod := has f.fPerm ACC_CHMOD } label.2).2 →
        ∀ i ∈ f.fFile, ∀ o ∈ s.server.files.lookup i, label.1.field.Fits o
    | _ => True

/-! ## The invariant -/

namespace Server

/-- A connection has a `struct file`. -/
def Client (s : Server) (h : Handle) : Prop := ∃ f, s.filehash.lookup h = some f

/-- A client is on the queue of its semaphore. -/
def Kept (s : Server) (h : Handle) : Prop :=
  ∃ f, s.filehash.lookup h = some f ∧ f.fEntry = true

end Server

/-- The tables agree, a semaphore is referred to by those who have it open, and whoever is on a
queue is answered itself. -/
structure Formed (s : Server) : Prop where
  whole : s.dangling = false
  sessions : Srv.Sessions File.fFile File.fEntry Openfile.oQueue s.files s.filehash
  refs : ∀ i o, s.files.lookup i = some o →
    o.oRefs = Srv.holders File.fFile (fun _ => true) s.filehash i
  sender : ∀ h f, s.filehash.lookup h = some f → f.fEntry = true → f.fSender = h

/-- The queue is as long as the count is below zero. -/
def Openfile.Balanced (o : Openfile) : Prop := (o.oQueue.length : ℤ) = max 0 (-o.oCount)

/-- Every semaphore is balanced. -/
def Counted (s : Server) : Prop := ∀ i o, s.files.lookup i = some o → o.Balanced

/-- What holds in every state reached. -/
structure Sound (s : System) : Prop where
  formed : Formed s.server
  counted : Counted s.server
  agree : Srv.Agree s.lines s.server.Client s.server.Kept

variable {s : Server} {h : Handle} {f : File} {i : ULong} {o : Openfile}

theorem start_sound : Sound System.start := by
  refine ⟨⟨rfl, Srv.sessions_nil, ?_, ?_⟩, ?_, Srv.noLines_agree.congr ?_ ?_⟩
  all_goals simp [System.start, Hash.lookup, Counted, Server.Client, Server.Kept]

/-! ## What the operations leave -/

/-- One semaphore changes, and neither its queue nor its references. -/
theorem Formed.object (formed : Formed s) (there : s.files.lookup i = some o)
    (change : Openfile → Openfile) (refs : (change o).oRefs = o.oRefs)
    (queue : (change o).oQueue = o.oQueue) :
    Formed { s with files := s.files.modify i change } := by
  refine ⟨formed.whole, formed.sessions.object there change queue, fun j o' found => ?_, formed.sender⟩
  rw [Hash.lookup_modify, there] at found
  split_ifs at found with same
  · obtain rfl := Option.some.inj found
    rw [refs, same]
    exact formed.refs i o there
  · exact formed.refs j o' found

/-- A client comes onto the queue of its semaphore or leaves it. -/
theorem Formed.requeue (formed : Formed s) (client : s.filehash.lookup h = some f)
    (opens : f.fFile = some i) (there : s.files.lookup i = some o)
    (change : Openfile → Openfile) (mark : File → File) (refs : (change o).oRefs = o.oRefs)
    (files : ∀ f, (mark f).fFile = f.fFile)
    (sender : (mark f).fEntry = true → (mark f).fSender = h)
    (queue : ∀ h', h' ∈ (change o).oQueue ↔
      if h' = h then (mark f).fEntry = true else h' ∈ o.oQueue)
    (nodup : (change o).oQueue.Nodup) :
    Formed { s with
      files := s.files.modify i change
      filehash := s.filehash.modify h mark } := by
  have same : ∀ (k : ULong) (f : File), (if k = h then mark f else f).fFile = f.fFile := by
    intro k f
    split_ifs
    · exact files f
    · rfl
  refine ⟨formed.whole, formed.sessions.requeue there change _ same (fun k f' client' => ?_)
    (fun k queued => ?_) nodup, fun j o' found => ?_, fun k f' marked on => ?_⟩
  · by_cases here : k = h
    · obtain rfl : f = f' := Option.some.inj (client.symm.trans (here ▸ client'))
      simp only [here, if_true, opens]
      rw [← Bool.decide_coe (mark f).fEntry, decide_eq_decide, queue, if_pos rfl]
    · simp only [here, if_false]
      split_ifs with opens'
      · rw [← Bool.decide_coe f'.fEntry, decide_eq_decide, queue, if_neg here,
          formed.sessions.queued i o k there]
        simp [client', opens']
      · rfl
  · rw [queue] at queued
    split_ifs at queued with here
    · exact ⟨f, here ▸ client, opens⟩
    · obtain ⟨f', client', opens', -⟩ := (formed.sessions.queued i o k there).mp queued
      exact ⟨f', client', opens'⟩
  · simp only [Hash.modify]
    rw [Srv.holders_mapVals same fun _ _ => rfl]
    rw [Hash.lookup_modify, there] at found
    split_ifs at found with here
    · obtain rfl := Option.some.inj found
      rw [refs, here]
      exact formed.refs i o there
    · exact formed.refs j o' found
  · simp only [Hash.lookup_modify, client] at marked
    split_ifs at marked with here
    · obtain rfl := Option.some.inj marked
      rw [here]
      exact sender on
    · exact formed.sender k f' marked on

/-- The references follow a client that comes or goes. -/
theorem Formed.refer {files : Hash Openfile} {clients : Hash File}
    (sessions : Srv.Sessions File.fFile File.fEntry Openfile.oQueue files clients)
    (opened : ∀ i, f.fFile = some i → ∃ o, files.lookup i = some o) {change : ℕ → ℕ}
    (refs : ∀ i o, files.lookup i = some o →
      Srv.holders File.fFile (fun _ => true) clients i =
        if f.fFile = some i then change o.oRefs else o.oRefs)
    (sender : ∀ h f, clients.lookup h = some f → f.fEntry = true → f.fSender = h) :
    Formed (Server.refs ⟨files, clients, false⟩ f change) := by
  rw [Server.refs]
  cases file : f.fFile with
  | none => exact ⟨rfl, sessions, fun i o there => by simpa [file] using (refs i o there).symm, sender⟩
  | some i =>
      obtain ⟨o, there⟩ := opened i file
      refine ⟨rfl, sessions.object there (Openfile.ref · change) rfl, fun j o' found => ?_, sender⟩
      simp only [Hash.lookup_modify, there] at found
      split_ifs at found with same
      · obtain rfl := Option.some.inj found
        rw [same, refs i o there, if_pos file]
        rfl
      · rw [refs j o' found, file, if_neg fun here => same (Option.some.inj here).symm]

/-- A client that is not on a queue comes, and refers to what it has open. -/
theorem Formed.enter (formed : Formed s) (fresh : s.filehash.lookup h = none)
    (entry : f.fEntry = false) (opened : ∀ i, f.fFile = some i → ∃ o, s.files.lookup i = some o) :
    Formed ({ s with filehash := s.filehash.insert h f }.refs f (· + 1)) := by
  have sender : ∀ h' f', (s.filehash.insert h f).lookup h' = some f' → f'.fEntry = true →
      f'.fSender = h' := by
    intro h' f' client on
    rw [Hash.lookup_insert] at client
    split_ifs at client
    · rw [← Option.some.inj client, entry] at on
      cases on
    · exact formed.sender h' f' client on
  rw [formed.whole]
  refine Formed.refer (formed.sessions.enter fresh entry opened) opened (fun i o there => ?_) sender
  rw [Srv.holders_insert, ← formed.refs i o there]
  split_ifs <;> simp_all

/-- A client that is not on a queue goes. -/
theorem Formed.depart (formed : Formed s) (client : s.filehash.lookup h = some f)
    (entry : f.fEntry = false) :
    ∃ closed, { s with filehash := s.filehash.delete h }.semaClose f = some closed ∧
      closed.filehash = s.filehash.delete h ∧ Formed closed ∧
      ∀ j o, closed.files.lookup j = some o → ∃ o', s.files.lookup j = some o' ∧
        o.oQueue = o'.oQueue ∧ o.oCount = o'.oCount := by
  have sessions := formed.sessions.depart client entry
  have hash : ∀ h', (s.filehash.delete h).lookup h' =
      if h' = h then none else s.filehash.lookup h' :=
    formed.sessions.clientKeys.lookup_delete _
  have sender : ∀ h' f', (s.filehash.delete h).lookup h' = some f' → f'.fEntry = true →
      f'.fSender = h' := by
    intro h' f' client' on
    rw [hash] at client'
    split_ifs at client'
    exact formed.sender h' f' client' on
  have opened : ∀ i, f.fFile = some i → ∃ o, s.files.lookup i = some o :=
    fun i opens => formed.sessions.opened h f i client opens
  have held : ∀ i o, s.files.lookup i = some o →
      o.oRefs = Srv.holders File.fFile (fun _ => true) (s.filehash.delete h) i +
        if f.fFile = some i then 1 else 0 := by
    intro i o there
    rw [formed.refs i o there, Srv.holders_delete _ client]
    simp
  have fewer : Formed (Server.refs { s with filehash := s.filehash.delete h } f (· - 1)) := by
    rw [formed.whole]
    refine Formed.refer sessions opened (fun i o there => ?_) sender
    have refs := held i o there
    split_ifs at refs ⊢ <;> omega
  rw [Server.semaClose]
  cases file : f.fFile with
  | none =>
      rw [Server.refs, file] at fewer
      exact ⟨_, rfl, rfl, fewer, fun j o there => ⟨o, there, rfl, rfl⟩⟩
  | some i =>
      obtain ⟨o, there⟩ := opened i file
      simp only [there, Option.map_some]
      split_ifs with last
      · -- the last client of the semaphore takes it along
        have nobody : ∀ h' f', (s.filehash.delete h).lookup h' = some f' →
            f'.fFile ≠ some i := by
          intro h' f' client' opens
          have some_ := Srv.holders_pos (fun _ => true) client' rfl opens
          have refs := held i o there
          rw [if_pos file] at refs
          omega
        have look : ∀ j, (s.files.delete i).lookup j =
            if j = i then none else s.files.lookup j :=
          formed.sessions.objectKeys.lookup_delete _
        refine ⟨_, rfl, rfl, ⟨formed.whole, sessions.remove nobody, fun j o' found => ?_, sender⟩,
          fun j o' found => ?_⟩
        · simp only [look] at found
          split_ifs at found with same
          rw [held j o' found, file, if_neg fun here => same (Option.some.inj here).symm,
            Nat.add_zero]
        · simp only [look] at found
          split_ifs at found
          exact ⟨o', found, rfl, rfl⟩
      · refine ⟨_, rfl, ?_, fewer, fun j o' found => ?_⟩
        · rw [Server.refs, file]
        · rw [Server.refs, file] at found
          simp only [Hash.lookup_modify, there] at found
          split_ifs at found with same
          · obtain rfl := Option.some.inj found
            exact ⟨o, same ▸ there, rfl, rfl⟩
          · exact ⟨o', found, rfl, rfl⟩

/-- A client of the directory moves to a semaphore. -/
theorem Formed.move {files : Hash Openfile}
    (sessions : Srv.Sessions File.fFile File.fEntry Openfile.oQueue files s.filehash)
    (formed : Formed s) (client : s.filehash.lookup h = some f) (root : f.fFile = none)
    (there : files.lookup i = some o)
    (refs : ∀ j o', files.lookup j = some o' → o'.oRefs =
      Srv.holders File.fFile (fun _ => true) s.filehash j + if j = i then 1 else 0)
    (perm : ULong) :
    Formed { s with
      files := files
      filehash := s.filehash.modify h (File.move · i perm) } := by
  have entry : f.fEntry = false := by
    by_contra on
    obtain ⟨j, opens⟩ := formed.sessions.sits h f client (by simpa using on)
    simp [root] at opens
  refine ⟨formed.whole, sessions.move client root there (File.move · i perm)
    (File.move_fFile f i perm) (by rw [File.move_fEntry, entry]), fun j o' found => ?_, fun k f' marked on => ?_⟩
  · rw [refs j o' found, Srv.holders_move formed.sessions.clientKeys client root
      (File.move_fFile f i perm)]
    simp [eq_comm]
  · simp only [Hash.lookup_modify, client] at marked
    split_ifs at marked with here
    · rw [← Option.some.inj marked, File.move_fEntry, entry] at on
      cases on
    · exact formed.sender k f' marked on

/-! ## The clients -/

/-- A file that is changed in place is still there. -/
theorem client_modify (filehash : Hash File) (h : Handle) (change : File → File) (h' : Handle) :
    (∃ f, (filehash.modify h change).lookup h' = some f) ↔ ∃ f, filehash.lookup h' = some f := by
  rw [Hash.lookup_modify]
  split_ifs with same
  · simp [same]
  · rfl

/-- Those on a queue, when the file of one client changes. -/
theorem kept_modify {filehash : Hash File} (client : filehash.lookup h = some f)
    (change : File → File) (h' : Handle) :
    (∃ f, (filehash.modify h change).lookup h' = some f ∧ f.fEntry = true) ↔
      if h' = h then (change f).fEntry = true
      else ∃ f, filehash.lookup h' = some f ∧ f.fEntry = true := by
  rw [Hash.lookup_modify, client]
  split_ifs with same
  · simp
  · rfl

theorem Formed.kept_of_mem (formed : Formed s) (there : s.files.lookup i = some o)
    (queued : h ∈ o.oQueue) : ∃ f, s.filehash.lookup h = some f ∧ f.fFile = some i ∧
      f.fEntry = true ∧ f.fSender = h := by
  obtain ⟨f, client, opens, entry⟩ := (formed.sessions.queued i o h there).mp queued
  exact ⟨f, client, opens, entry, formed.sender h f client entry⟩

/-! ## Letting clients through -/

theorem runOne_spec (formed : Formed s) (there : s.files.lookup i = some o) {first : Handle}
    {rest : List Handle} (queue : o.oQueue = first :: rest) :
    ∃ s', s.runOne i o = some (s', [msgReply first]) ∧ Formed s' ∧
      s'.files = s.files.modify i Openfile.runOne ∧ (∀ h, s'.Client h ↔ s.Client h) ∧
      ∀ h, s'.Kept h ↔ s.Kept h ∧ h ≠ first := by
  obtain ⟨f, client, opens, entry, sender⟩ :=
    formed.kept_of_mem there (queue ▸ List.mem_cons_self)
  have nodup := formed.sessions.nodup i o there
  rw [queue] at nodup
  obtain ⟨fresh, nodup⟩ := List.nodup_cons.mp nodup
  refine ⟨{ s with
    files := s.files.modify i Openfile.runOne
    filehash := s.filehash.modify first File.leave }, ?_, ?_, rfl,
    fun h => client_modify _ _ File.leave h, fun h => ?_⟩
  · rw [Server.runOne, queue]
    simp only [List.head?_cons, Option.bind_some, client, Option.map_some, sender]
  · refine formed.requeue client opens there Openfile.runOne File.leave rfl
      (fun _ => rfl) (fun off => by cases off) (fun h' => ?_) ?_
    · simp only [Openfile.runOne, queue, List.tail_cons, List.mem_cons]
      split_ifs with same
      · simp [same, fresh]
      · simp [same]
    · simpa [Openfile.runOne, queue] using nodup
  · rw [Server.Kept, kept_modify client, Server.Kept]
    split_ifs with same
    · simp [same]
    · simp [same]

theorem processQueue_spec (formed : Formed s) (there : s.files.lookup i = some o)
    (up : 0 < o.oCount) :
    ∃ s', s.processQueue i o.oQueue.length = some (s', o.oQueue.map msgReply) ∧ Formed s' ∧
      (∀ j, s'.files.lookup j = if j = i then
        some { o with oQueue := [], oCount := o.oCount + o.oQueue.length }
        else s.files.lookup j) ∧
      (∀ h, s'.Client h ↔ s.Client h) ∧ ∀ h, s'.Kept h ↔ s.Kept h ∧ h ∉ o.oQueue := by
  generalize waiting : o.oQueue = queue
  induction queue generalizing s o with
  | nil =>
      refine ⟨s, rfl, formed, fun j => ?_, fun _ => Iff.rfl, fun h => by simp⟩
      split_ifs with same
      · rw [same, there, ← waiting]
        rw [waiting, List.length_nil, Nat.cast_zero, add_zero, ← waiting]
      · rfl
  | cons first rest ih =>
      obtain ⟨s', taken, formed', files, clients, kept⟩ := runOne_spec formed there waiting
      have there' : s'.files.lookup i = some o.runOne := by
        rw [files, Hash.lookup_modify, if_pos rfl, there]
        rfl
      have left : o.runOne.oQueue = rest := by rw [Openfile.runOne, waiting, List.tail_cons]
      have count : o.runOne.oCount = o.oCount + 1 := rfl
      obtain ⟨s'', done, formed'', files', clients', kept'⟩ :=
        ih formed' there' (by rw [count]; omega) left
      refine ⟨s'', ?_, formed'', fun j => ?_, fun h => (clients' h).trans (clients h), fun h => ?_⟩
      · rw [List.length_cons, Server.processQueue, there, Option.bind_some,
          if_pos ⟨up, by simp [waiting]⟩, taken, Option.bind_some, done]
        rfl
      · rw [files' j, files, Hash.lookup_modify]
        split_ifs with same
        · rw [count, List.length_cons]
          simp only [Openfile.runOne, Option.some.injEq, Openfile.mk.injEq, true_and]
          push_cast
          omega
        · rfl
      · rw [kept' h, kept h, List.mem_cons, not_or, and_assoc]

/-- A count that fits lets through everybody, or nobody. -/
theorem setCount_spec (formed : Formed s) (counted : Counted s)
    (there : s.files.lookup i = some o) {c : ℤ} (fits : (Field.count (some c)).Fits o) :
    ∃ (s' : Server) (through : List Handle), s.setCount i c = some (s', through.map msgReply) ∧ Formed s' ∧ Counted s' ∧
      through.Nodup ∧ (∀ h ∈ through, s.Kept h) ∧ (∀ h, s'.Client h ↔ s.Client h) ∧
      ∀ h, s'.Kept h ↔ s.Kept h ∧ h ∉ through := by
  have files : ∀ j, (s.files.modify i (Openfile.recount · c)).lookup j =
      if j = i then some (o.recount c) else s.files.lookup j := by
    intro j
    rw [Hash.lookup_modify, there]
    rfl
  have recounted : Formed { s with files := s.files.modify i (Openfile.recount · c) } :=
    formed.object there _ rfl rfl
  rw [Server.setCount, there, Option.bind_some]
  by_cases up : 0 < c
  · obtain ⟨s', done, formed', files', clients, kept⟩ :=
      processQueue_spec recounted ((files i).trans (if_pos rfl)) up
    refine ⟨s', o.oQueue, done, formed', fun j o' found => ?_, formed.sessions.nodup i o there,
      fun h queued => ?_, clients, kept⟩
    · rw [files', files] at found
      split_ifs at found with same
      · obtain rfl := Option.some.inj found
        rw [Openfile.Balanced]
        simp only [List.length_nil, Openfile.recount_oCount, Openfile.recount_oQueue]
        push_cast
        omega
      · exact counted j o' found
    · obtain ⟨f, client, -, entry, -⟩ := formed.kept_of_mem there queued
      exact ⟨f, client, entry⟩
  · rw [Field.Fits] at fits
    simp only [if_neg up] at fits
    refine ⟨_, [], ?_, recounted, fun j o' found => ?_, List.nodup_nil, by simp,
      fun _ => Iff.rfl, fun h => by simp [Server.Kept]⟩
    · cases o.oQueue.length with
      | zero => rfl
      | succ n =>
          rw [Server.processQueue]
          simp only [files, if_true, Option.bind_some]
          rw [if_neg fun both => up both.1]
          rfl
    · simp only [files] at found
      split_ifs at found with same
      · obtain rfl := Option.some.inj found
        rw [Openfile.Balanced, Openfile.recount_oCount, Openfile.recount_oQueue]
        omega
      · exact counted j o' found

/-! ## One message -/

/-- A handler has a result, and leaves the server and its connections sound. -/
def Ends (s : System) (m : Msg) (result : Option (Server × List Sent)) : Prop :=
  ∃ s' sent, result = some (s', sent) ∧ Sound ⟨s', Srv.after s.lines m sent⟩

section
variable {s : System} {x : Outcome} {m : Msg} {f : File} {i : ULong}

theorem Sound.serve (sound : Sound s) (legal : Srv.Legal s.lines m) (plain : Srv.Plain m.mOp)
    {s' : Server} {sent : List Sent} (formed : Formed s') (counted : Counted s')
    (clients : ∀ h, s'.Client h ↔ s.server.Client h)
    (serves : Srv.Serves m sent s.server.Kept s'.Kept) :
    Sound ⟨s', Srv.after s.lines m sent⟩ :=
  ⟨formed, counted, (sound.agree.serve legal plain serves).congr clients fun _ => Iff.rfl⟩

/-- A request that is answered, and changes nothing about who waits. -/
theorem Sound.answer (sound : Sound s) (legal : Srv.Legal s.lines m) (plain : Srv.Plain m.mOp)
    (idle : ¬s.server.Kept m.mSender) {s' : Server} (formed : Formed s') (counted : Counted s')
    (clients : ∀ h, s'.Client h ↔ s.server.Client h)
    (kept : ∀ h, s'.Kept h ↔ s.server.Kept h) {answer : Sent} (who : answer.who = m.mSender) :
    Ends s m (s'.answer answer) := by
  refine ⟨s', [answer], rfl, sound.serve legal plain formed counted clients
    (Srv.serves_answer who fun h => ?_)⟩
  rw [kept h]
  exact ⟨fun held => ⟨held, fun same => idle (same ▸ held)⟩, And.left⟩

/-- A request that is answered, and nothing else. -/
theorem Sound.refuse (sound : Sound s) (legal : Srv.Legal s.lines m) (plain : Srv.Plain m.mOp)
    (idle : ¬s.server.Kept m.mSender) {answer : Sent} (who : answer.who = m.mSender) :
    Ends s m (s.server.answer answer) :=
  sound.answer legal plain idle sound.formed sound.counted (fun _ => Iff.rfl) (fun _ => Iff.rfl)
    who

/-- `sema_open`: the file of the sender is open. -/
theorem Sound.moved (sound : Sound s) (legal : Srv.Legal s.lines m) (plain : Srv.Plain m.mOp)
    (idle : ¬s.server.Kept m.mSender) (client : s.server.filehash.lookup m.mSender = some f)
    (root : f.fFile = none) {files : Hash Openfile} {o : Openfile}
    (sessions : Srv.Sessions File.fFile File.fEntry Openfile.oQueue files s.server.filehash)
    (there : files.lookup i = some o)
    (refs : ∀ j o', files.lookup j = some o' → o'.oRefs =
      Srv.holders File.fFile (fun _ => true) s.server.filehash j + if j = i then 1 else 0)
    (balanced : ∀ j o', files.lookup j = some o' → o'.Balanced) (perm : ULong) :
    Ends s m ((Server.moveTo { s.server with files := files } m i perm).answer
      (msgReply m.mSender)) := by
  refine sound.answer legal plain idle
    (Formed.move sessions sound.formed client root there refs perm) balanced
    (fun h => client_modify _ _ (File.move · i perm) h) (fun h => ?_) rfl
  refine (kept_modify client (File.move · i perm) h).trans ?_
  split_ifs with same
  · have off : f.fEntry = false := by
      by_contra on
      exact idle ⟨f, client, by simpa using on⟩
    rw [same, File.move_fEntry, off]
    exact iff_of_false (by simp) idle
  · rfl

theorem Sound.openNew (sound : Sound s) (legal : Srv.Legal s.lines m) (plain : Srv.Plain m.mOp)
    (idle : ¬s.server.Kept m.mSender) (client : s.server.filehash.lookup m.mSender = some f)
    (root : f.fFile = none) (fresh : s.server.files.lookup i = none) :
    Ends s m (s.server.openNew x m i) := by
  have nobody : ∀ h f', s.server.filehash.lookup h = some f' → f'.fFile ≠ some i := by
    intro h f' client' opens
    obtain ⟨o, there⟩ := sound.formed.sessions.opened h f' i client' opens
    simp [fresh] at there
  have none_ := Srv.holders_eq_zero sound.formed.sessions.clientKeys (fun _ => true)
    nobody
  rw [Server.openNew]
  split_ifs
  · exact sound.refuse legal plain idle rfl
  · exact sound.refuse legal plain idle rfl
  · have look : ∀ j, (s.server.files.insert i ⟨[], 1, 0⟩).lookup j =
        if j = i then some ⟨[], 1, 0⟩ else s.server.files.lookup j := Hash.lookup_insert _ _ _
    refine sound.moved legal plain idle client root (sound.formed.sessions.create fresh rfl)
      ((look i).trans (if_pos rfl)) (fun j o' found => ?_) (fun j o' found => ?_) _
    · rw [look] at found
      split_ifs at found ⊢ with same
      · rw [same, none_, ← Option.some.inj found]
      · exact sound.formed.refs j o' found
    · rw [look] at found
      split_ifs at found
      · rw [← Option.some.inj found]
        rfl
      · exact sound.counted j o' found

theorem Sound.openOld (sound : Sound s) (legal : Srv.Legal s.lines m) (plain : Srv.Plain m.mOp)
    (idle : ¬s.server.Kept m.mSender) (client : s.server.filehash.lookup m.mSender = some f)
    (root : f.fFile = none) {o : Openfile} (there : s.server.files.lookup i = some o) :
    Ends s m (s.server.openOld x m i) := by
  rw [Server.openOld]
  simp only
  split_ifs
  · exact sound.refuse legal plain idle rfl
  · have look : ∀ j, (s.server.files.modify i (Openfile.ref · (· + 1))).lookup j =
        if j = i then some (o.ref (· + 1)) else s.server.files.lookup j := by
      intro j
      rw [Hash.lookup_modify, there]
      rfl
    refine sound.moved legal plain idle client root (sound.formed.sessions.object there _ rfl)
      ((look i).trans (if_pos rfl)) (fun j o' found => ?_) (fun j o' found => ?_) _
    · rw [look] at found
      split_ifs at found ⊢ with same
      · rw [← Option.some.inj found, same, ← sound.formed.refs i o there]
        rfl
      · exact sound.formed.refs j o' found
    · rw [look] at found
      split_ifs at found
      · rw [← Option.some.inj found]
        exact sound.counted i o there
      · exact sound.counted j o' found

theorem Sound.semaOpen (sound : Sound s) (legal : s.Legal x m) (plain : Srv.Plain m.mOp)
    (idle : ¬s.server.Kept m.mSender) (client : s.server.filehash.lookup m.mSender = some f) :
    Ends s m (s.server.semaOpen x m f) := by
  rw [Server.semaOpen]
  split_ifs with opened
  · exact sound.refuse legal.1 plain idle rfl
  · exact sound.refuse legal.1 plain idle rfl
  · have root : f.fFile = none := by simpa using opened
    cases name : x.name with
    | bad => exact sound.refuse legal.1 plain idle rfl
    | clone i => exact sound.openNew legal.1 plain idle client root (legal.2 i name)
    | number i =>
        simp only
        cases there : s.server.files.lookup i with
        | none => exact sound.openNew legal.1 plain idle client root there
        | some o => exact sound.openOld legal.1 plain idle client root there

theorem Sound.semaSeek (sound : Sound s) (legal : Srv.Legal s.lines m) (plain : Srv.Plain m.mOp)
    (idle : ¬s.server.Kept m.mSender) (client : s.server.filehash.lookup m.mSender = some f) :
    Ends s m (s.server.semaSeek m f) := by
  rw [Server.semaSeek]
  cases opens : f.fFile with
  | none => exact sound.refuse legal plain idle rfl
  | some i =>
      obtain ⟨o, there⟩ := sound.formed.sessions.opened _ f i client opens
      simp only [there, Option.bind_some]
      cases queue : o.oQueue with
      | nil =>
          rw [if_pos rfl]
          exact sound.refuse legal plain idle rfl
      | cons first rest =>
          rw [if_neg (List.cons_ne_nil _ _)]
          obtain ⟨s', taken, formed, files, clients, kept⟩ := runOne_spec sound.formed there queue
          obtain ⟨f', client', -, entry, -⟩ :=
            sound.formed.kept_of_mem there (queue ▸ List.mem_cons_self)
          have other : first ≠ m.mSender := fun same => idle (same ▸ ⟨f', client', entry⟩)
          refine ⟨s', [msgReply m.mSender, msgReply first], by rw [taken]; rfl,
            sound.serve legal plain formed (fun j o' found => ?_) clients
              ⟨?_, fun h member => ?_, fun h => ?_⟩⟩
          · rw [files, Hash.lookup_modify] at found
            split_ifs at found with same
            · obtain rfl : o.runOne = o' := by simpa [there] using found
              have balanced := sound.counted i o there
              rw [Openfile.Balanced, queue, List.length_cons] at balanced
              rw [Openfile.Balanced, Openfile.runOne, queue]
              simp only [List.tail_cons]
              push_cast at balanced ⊢
              omega
            · exact sound.counted j o' found
          · simpa [msgReply] using Ne.symm other
          · have among : h = m.mSender ∨ h = first := by simpa [msgReply] using member
            refine among.imp_right fun same => ?_
            rw [same]
            exact ⟨f', client', entry⟩
          · rw [kept h]
            have among : h ∈ [msgReply m.mSender, msgReply first].map Sent.who ↔
                h = m.mSender ∨ h = first := by simp [msgReply]
            rw [among]
            constructor
            · rintro ⟨held, here⟩
              refine ⟨.inr held, fun either => either.elim (fun same => idle ?_) here⟩
              rwa [← same]
            · rintro ⟨held, here⟩
              exact ⟨held.resolve_left fun same => here (.inl same), fun same => here (.inr same)⟩

/-- A count that goes down without anybody being queued. -/
theorem Openfile.read_passes {o : Openfile} (balanced : o.Balanced) (up : 0 < o.oCount)
    (h : Handle) (mem : Bool) :
    o.read h mem = (o.recount (o.oCount - 1), .passes) ∧ (o.recount (o.oCount - 1)).Balanced := by
  rw [Openfile.Balanced] at balanced
  constructor
  · rw [Openfile.read]
    simp only
    rw [if_pos (by omega)]
    rfl
  · rw [Openfile.Balanced, Openfile.recount_oCount, Openfile.recount_oQueue]
    omega

theorem Openfile.read_waits {o : Openfile} (balanced : o.Balanced) (down : o.oCount ≤ 0)
    (h : Handle) :
    o.read h true = ({ o with oQueue := o.oQueue ++ [h], oCount := o.oCount - 1 }, .waits) ∧
      (Openfile.mk (o.oQueue ++ [h]) o.oRefs (o.oCount - 1)).Balanced := by
  rw [Openfile.Balanced] at balanced
  constructor
  · rw [Openfile.read]
    simp only
    rw [if_neg (by omega)]
    rfl
  · rw [Openfile.Balanced]
    simp only [List.length_append, List.length_singleton]
    push_cast
    omega

theorem Sound.semaRead (sound : Sound s) (legal : Srv.Legal s.lines m) (plain : Srv.Plain m.mOp)
    (idle : ¬s.server.Kept m.mSender) (client : s.server.filehash.lookup m.mSender = some f)
    (mem : match f.fFile with
      | none => x.mem = true
      | some i => has f.fPerm ACC_READ → ∀ o ∈ s.server.files.lookup i, o.oCount ≤ 0 →
          x.mem = true) :
    Ends s m (s.server.semaRead x m f) := by
  rw [Server.semaRead]
  cases opens : f.fFile with
  | none =>
      rw [opens] at mem
      simp only at mem ⊢
      rw [if_pos mem]
      exact sound.refuse legal plain idle rfl
  | some i =>
      rw [opens] at mem
      simp only at mem ⊢
      split_ifs with denied
      · exact sound.refuse legal plain idle rfl
      obtain ⟨o, there⟩ := sound.formed.sessions.opened _ f i client opens
      have balanced := sound.counted i o there
      rw [there, Option.bind_some]
      by_cases up : 0 < o.oCount
      · obtain ⟨passes, after⟩ := Openfile.read_passes balanced up m.mSender x.mem
        have files : ∀ j, (s.server.files.modify i fun o => (o.read m.mSender x.mem).1).lookup j =
            if j = i then some (o.recount (o.oCount - 1)) else s.server.files.lookup j := by
          intro j
          rw [Hash.lookup_modify, there, Option.map_some, passes]
        simp only [passes]
        refine sound.answer legal plain idle (sound.formed.object there _ (by rw [passes]; rfl)
          (by rw [passes]; rfl)) (fun j o' found => ?_) (fun _ => Iff.rfl) (fun _ => Iff.rfl) rfl
        simp only [files] at found
        split_ifs at found
        · obtain rfl := Option.some.inj found
          exact after
        · exact sound.counted j o' found
      · have room := mem (by simpa using denied) o there (by omega)
        obtain ⟨waits, after⟩ := Openfile.read_waits balanced (by omega) m.mSender
        simp only [room, waits]
        have fresh : m.mSender ∉ o.oQueue := fun queued => idle
          ((sound.formed.kept_of_mem there queued).imp fun _ both => ⟨both.1, both.2.2.1⟩)
        have changed : (o.read m.mSender true).1 =
            { o with oQueue := o.oQueue ++ [m.mSender], oCount := o.oCount - 1 } := by rw [waits]
        refine ⟨_, [], rfl, sound.serve legal plain (sound.formed.requeue client opens there
          (fun o => (o.read m.mSender true).1) (File.wait · m.mSender)
          ?_ (fun _ => rfl) (fun _ => rfl) (fun h => ?_) ?_) (fun j o' found => ?_)
          (fun h => client_modify _ _ (File.wait · m.mSender) h) ⟨List.nodup_nil, by simp, fun h => ?_⟩⟩
        · rw [changed]
        · rw [changed]
          simp only [List.mem_append, List.mem_singleton, File.wait_fEntry]
          split_ifs with same
          · simp [same]
          · simp [same]
        · rw [changed]
          simp only
          rw [List.nodup_append]
          refine ⟨sound.formed.sessions.nodup i o there, List.nodup_singleton _, fun a old b new same => ?_⟩
          rw [List.mem_singleton] at new
          exact fresh (new ▸ same ▸ old)
        · rw [Hash.lookup_modify, there, Option.map_some, changed] at found
          split_ifs at found
          · obtain rfl := Option.some.inj found
            exact after
          · exact sound.counted j o' found
        · refine (kept_modify client (File.wait · m.mSender) h).trans ?_
          split_ifs with same
          · simp [same]
          · simp [same, Server.Kept]
theorem Sound.semaAbort (sound : Sound s) (legal : Srv.Legal s.lines m) (plain : Srv.Plain m.mOp)
    (client : s.server.filehash.lookup m.mSender = some f) :
    Ends s m (s.server.semaAbort m f) := by
  rw [Server.semaAbort]
  split_ifs with entry
  · obtain ⟨i, opens⟩ := sound.formed.sessions.sits _ f client entry
    obtain ⟨o, there⟩ := sound.formed.sessions.opened _ f i client opens
    have queued := (sound.formed.sessions.queued i o m.mSender there).mpr ⟨f, client, opens, entry⟩
    have nodup := sound.formed.sessions.nodup i o there
    have shorter := List.length_erase_of_mem queued
    have some_ := List.length_pos_of_mem queued
    rw [opens, Option.bind_some, there, Option.bind_some]
    refine ⟨_, _, rfl, sound.serve legal plain (sound.formed.requeue client opens there
      (Openfile.abort · m.mSender) File.leave rfl (fun _ => rfl) (fun off => by cases off) (fun h => ?_)
      (nodup.erase _)) (fun j o' found => ?_)
      (fun h => client_modify _ _ File.leave h) (Srv.serves_answer rfl fun h => ?_)⟩
    · simp only [Openfile.abort, nodup.mem_erase_iff]
      split_ifs with same
      · simp [same]
      · simp [same]
    · rw [Hash.lookup_modify, there, Option.map_some] at found
      split_ifs at found
      · obtain rfl := Option.some.inj found
        have balanced := sound.counted i o there
        rw [Openfile.Balanced] at balanced
        rw [Openfile.Balanced, Openfile.abort]
        simp only [shorter]
        omega
      · exact sound.counted j o' found
    · refine (kept_modify client File.leave h).trans ?_
      split_ifs with same
      · simp [same]
      · simp [same, Server.Kept]
  · refine sound.refuse legal plain (fun kept => entry ?_) rfl
    obtain ⟨f', client', on⟩ := kept
    obtain rfl : f = f' := Option.some.inj (client.symm.trans client')
    exact on

theorem Sound.semaStat (sound : Sound s) (legal : Srv.Legal s.lines m) (plain : Srv.Plain m.mOp)
    (idle : ¬s.server.Kept m.mSender) : Ends s m (s.server.semaStat m f) := by
  rw [Server.semaStat]
  split_ifs
  · exact sound.refuse legal plain idle rfl
  · exact sound.refuse legal plain idle rfl

theorem Sound.semaWstat (sound : Sound s) (legal : Srv.Legal s.lines m) (plain : Srv.Plain m.mOp)
    (idle : ¬s.server.Kept m.mSender) (client : s.server.filehash.lookup m.mSender = some f)
    (fits : has f.fPerm (ACC_WRITE ||| ACC_CHMOD) →
      (doWstat { x.wstat with chmod := has f.fPerm ACC_CHMOD } m).2 →
      ∀ i ∈ f.fFile, ∀ o ∈ s.server.files.lookup i, x.field.Fits o) :
    Ends s m (s.server.semaWstat x m f) := by
  rw [Server.semaWstat]
  cases opens : f.fFile with
  | none => exact sound.refuse legal plain idle rfl
  | some i =>
      simp only
      split_ifs with denied left
      · exact sound.refuse legal plain idle rfl
      · -- a common field is answered by `do_wstat`
        rcases doWstat_once { x.wstat with chmod := has f.fPerm ACC_CHMOD } m with
          ⟨open_, -⟩ | ⟨-, answer, -, once⟩
        · rw [open_] at left
          cases left
        · rw [once]
          exact sound.refuse legal plain idle rfl
      · obtain ⟨o, there⟩ := sound.formed.sessions.opened _ f i client opens
        have field := fits (by simpa using denied) (by simpa using left) i opens o there
        rcases doWstat_once { x.wstat with chmod := has f.fPerm ACC_CHMOD } m with
          ⟨-, nothing⟩ | ⟨done, -⟩
        · cases kind : x.field with
          | other => exact absurd field (by rw [kind]; exact id)
          | count val =>
              cases val with
              | none => exact absurd field (by rw [kind]; exact id)
              | some c =>
                  obtain ⟨s', through, set, formed, counted, nodup, kept, clients, keeps⟩ :=
                    setCount_spec sound.formed sound.counted there (kind ▸ field)
                  simp only [set, nothing, Option.map_some, List.nil_append]
                  have sent : (through.map msgReply ++ [msgReply m.mSender]).map Sent.who =
                      through ++ [m.mSender] := by
                    simp [msgReply, Function.comp_def]
                  refine ⟨s', _, rfl, sound.serve legal plain formed counted clients
                    ⟨?_, fun h member => ?_, fun h => ?_⟩⟩
                  · rw [sent, List.nodup_append]
                    refine ⟨nodup, List.nodup_singleton _, fun a old b new same => idle ?_⟩
                    rw [List.mem_singleton] at new
                    exact new ▸ same ▸ kept a old
                  · rw [sent, List.mem_append, List.mem_singleton] at member
                    exact member.symm.imp_right (kept h)
                  · rw [sent, List.mem_append, List.mem_singleton, keeps h]
                    constructor
                    · rintro ⟨held, among⟩
                      refine ⟨.inr held, fun either => either.elim among fun same => idle ?_⟩
                      rwa [← same]
                    · rintro ⟨held, among⟩
                      exact ⟨held.resolve_left fun same => among (.inr same),
                        fun member => among (.inl member)⟩
        · rw [done] at left
          exact absurd rfl left
/-- A client that comes waits for nothing. -/
theorem enter_kept {server : Server} {h : Handle} (fresh : server.filehash.lookup h = none)
    (off : f.fEntry = false) (h' : Handle) :
    (∃ f', (server.filehash.insert h f).lookup h' = some f' ∧ f'.fEntry = true) ↔
      server.Kept h' := by
  rw [Hash.lookup_insert, Server.Kept]
  split_ifs with same
  · simp [same, fresh, off]
  · rfl

theorem enter_client {server : Server} {h : Handle} (h' : Handle) :
    (∃ f', (server.filehash.insert h f).lookup h' = some f') ↔
      server.Client h' ∨ (True ∧ h' = h) := by
  rw [Hash.lookup_insert, Server.Client]
  split_ifs with same
  · simp [same]
  · simp [same]

theorem refs_filehash (server : Server) (change : ℕ → ℕ) :
    (server.refs f change).filehash = server.filehash := by
  rw [Server.refs]
  split <;> rfl

theorem counted_refs {server : Server} (counted : Counted server) (change : ℕ → ℕ) :
    Counted (server.refs f change) := by
  rw [Server.refs]
  split
  · exact counted
  · intro j o found
    rw [Hash.lookup_modify] at found
    split_ifs at found with same
    · obtain ⟨o', there, rfl⟩ := Option.map_eq_some_iff.mp found
      exact counted _ o' there
    · exact counted j o found

/-- A connect or a duplicate that is refused. -/
theorem Sound.refused (sound : Sound s) (e : FsErr) (op : m.mOp = .M_CONNECT ∨ m.mOp = .M_DUP)
    (legal : Srv.Legal s.lines m) : Ends s m (s.server.answer (msgErr m.mSender e)) := by
  refine ⟨s.server, _, rfl, sound.formed, sound.counted, ?_⟩
  rcases op with connect | dup
  · have agree := sound.agree.connect connect legal False e
    simp only [if_false] at agree
    exact agree.congr (fun h => by simp) fun _ => Iff.rfl
  · have agree := sound.agree.dup dup legal False e
    simp only [if_false] at agree
    exact agree.congr (fun h => by simp) fun _ => Iff.rfl

theorem Sound.newClient (sound : Sound s) (op : m.mOp = .M_CONNECT)
    (legal : Srv.Legal s.lines m) : Ends s m (s.server.newClient x m) := by
  rw [Server.newClient]
  split_ifs
  · exact sound.refused _ (.inl op) legal
  · exact sound.refused _ (.inl op) legal
  have absent : s.lines.conn m.mSender = .absent := by simpa [Srv.Legal, op] using legal
  have fresh : s.server.filehash.lookup m.mSender = none := by
    have gone := (sound.agree.known _).mp absent
    rwa [Server.Client, ← Option.isSome_iff_exists, Option.not_isSome_iff_eq_none] at gone
  have formed := sound.formed.enter (f := ⟨none, false, 0, ACC_READ ||| ACC_WRITE⟩) fresh rfl
    (by simp)
  have agree := sound.agree.connect op legal True .EINVAL
  simp only [if_true] at agree
  exact ⟨_, _, rfl, formed, sound.counted,
    agree.congr (fun h => enter_client h) fun h => enter_kept fresh rfl h⟩

theorem Sound.dupClient (sound : Sound s) (op : m.mOp = .M_DUP) (legal : Srv.Legal s.lines m)
    (client : s.server.filehash.lookup m.mSender = some f) :
    Ends s m (s.server.dupClient x m f) := by
  rw [Server.dupClient]
  split_ifs
  · exact sound.refused _ (.inr op) legal
  · exact sound.refused _ (.inr op) legal
  have both : s.lines.conn m.mSender = .idle ∧ s.lines.conn m.mArg = .absent := by
    simpa [Srv.Legal, op] using legal
  have fresh : s.server.filehash.lookup m.mArg = none := by
    have gone := (sound.agree.known _).mp both.2
    rwa [Server.Client, ← Option.isSome_iff_exists, Option.not_isSome_iff_eq_none] at gone
  -- a duplicate is not made while a request is outstanding
  have off : f.fEntry = false := by
    by_contra on
    have waits := (sound.agree.waits m.mSender).mpr ⟨f, client, by simpa using on⟩
    simp [both.1] at waits
  have formed := sound.formed.enter fresh off fun i opens =>
    sound.formed.sessions.opened _ f i client opens
  have agree := sound.agree.dup op legal True .EINVAL
  simp only [if_true] at agree
  have entered : Counted { s.server with filehash := s.server.filehash.insert m.mArg f } :=
    sound.counted
  refine ⟨_, _, rfl, formed, counted_refs entered _, agree.congr (fun h => ?_) fun h => ?_⟩
  · rw [Server.Client, refs_filehash]
    exact enter_client h
  · rw [Server.Kept, refs_filehash]
    exact enter_kept fresh off h

theorem Sound.deadClient (sound : Sound s) (op : m.mOp = .M_DISCONNECT)
    (client : s.server.filehash.lookup m.mSender = some f) (off : f.fEntry = false) :
    Ends s m (s.server.deadClient m f) := by
  obtain ⟨closed, done, filehash, formed, files⟩ := sound.formed.depart client off
  have whole := formed.whole
  have idle : ¬s.server.Kept m.mSender := by
    rintro ⟨f', client', on⟩
    obtain rfl : f = f' := Option.some.inj (client.symm.trans client')
    simp [off] at on
  have hash : ∀ h, (s.server.filehash.delete m.mSender).lookup h =
      if h = m.mSender then none else s.server.filehash.lookup h :=
    sound.formed.sessions.clientKeys.lookup_delete _
  have same : { closed with dangling := s.server.dangling || f.fEntry } = closed := by
    rw [sound.formed.whole, off, Bool.or_self, ← whole]
  have agree : Srv.Agree (Srv.after s.lines m []) _ _ :=
    sound.agree.disconnect op idle List.nodup_nil (by simp)
  refine ⟨closed, [], ?_, formed, fun j o found => ?_, agree.congr (fun h => ?_) fun h => ?_⟩
  · rw [Server.deadClient]
    simp only [done, Option.map_some, same]
  · obtain ⟨o', there, queue, count⟩ := files j o found
    have balanced := sound.counted j o' there
    rwa [Openfile.Balanced, ← queue, ← count] at balanced
  · rw [Server.Client, filehash, hash, Server.Client]
    split_ifs with here
    · simp [here]
    · simp [here]
  · rw [Server.Kept, filehash, hash]
    split_ifs with here
    · simp [here, idle]
    · simp [Server.Kept]

/-- **A message that meets the condition is handled, and leaves the server and its connections
sound.** -/
theorem Sound.handle (sound : Sound s) (legal : s.Legal x m) (fits : Fits s (x, m)) :
    Ends s m (s.server.handle x m) := by
  have lines := legal.1
  rw [Server.handle, if_neg (by simp [sound.formed.whole])]
  -- a sender that is idle is on no queue
  have idle_of : s.lines.conn m.mSender = .idle → ¬s.server.Kept m.mSender := by
    intro idle held
    simp [(sound.agree.waits _).mpr held] at idle
  simp only
  by_cases connect : m.mOp = .M_CONNECT
  · rw [connect]
    exact sound.newClient connect lines
  obtain ⟨f, client⟩ := sound.agree.sender lines connect
  have fits := fits f client
  cases op : m.mOp with
  | M_CONNECT => exact absurd op connect
  | M_DISCONNECT =>
      rw [op] at fits
      simpa only [client, Option.bind_some] using sound.deadClient op client fits
  | M_DUP => simpa only [client, Option.bind_some] using sound.dupClient op lines client
  | M_ABORT =>
      have plain : Srv.Plain m.mOp := by simp [Srv.Plain, op]
      simpa only [client, Option.bind_some] using sound.semaAbort lines plain client
  | FS_OPEN =>
      have plain : Srv.Plain m.mOp := by simp [Srv.Plain, op]
      have idle := idle_of (by simpa [Srv.Legal, op] using lines)
      simp only [client, Option.bind_some]
      split_ifs
      · exact sound.refuse lines plain idle rfl
      · exact sound.semaOpen legal plain idle client
  | FS_ABSREAD =>
      rw [op] at fits
      exact fits.elim
  | FS_READ =>
      have plain : Srv.Plain m.mOp := by simp [Srv.Plain, op]
      have idle := idle_of (by simpa [Srv.Legal, op] using lines)
      rw [op] at fits
      simpa only [client, Option.bind_some] using sound.semaRead lines plain idle client fits
  | FS_SEEK =>
      have plain : Srv.Plain m.mOp := by simp [Srv.Plain, op]
      have idle := idle_of (by simpa [Srv.Legal, op] using lines)
      simpa only [client, Option.bind_some] using sound.semaSeek lines plain idle client
  | FS_STAT =>
      have plain : Srv.Plain m.mOp := by simp [Srv.Plain, op]
      have idle := idle_of (by simpa [Srv.Legal, op] using lines)
      simpa only [client, Option.bind_some] using sound.semaStat lines plain idle
  | FS_WSTAT =>
      have plain : Srv.Plain m.mOp := by simp [Srv.Plain, op]
      have idle := idle_of (by simpa [Srv.Legal, op] using lines)
      rw [op] at fits
      simpa only [client, Option.bind_some] using sound.semaWstat lines plain idle client fits
  | FS_WRITE | FS_ABSWRITE | FS_REMOVE | FS_FID | FS_RENAME | unknown =>
      have plain : Srv.Plain m.mOp := by simp [Srv.Plain, op]
      have idle := idle_of (by simpa [Srv.Legal, op] using lines)
      exact sound.refuse lines plain idle rfl
end

/-! ## Runs -/

theorem Sound.step {s t : System} (sound : Sound s) {label : Outcome × Msg} (fits : Fits s label)
    (step : Step s label t) : Sound t := by
  obtain ⟨legal, taken⟩ := step
  obtain ⟨s', sent, handled, after⟩ := sound.handle legal fits
  rw [System.next, handled, Option.map_some, Option.some.injEq] at taken
  exact taken ▸ after

theorem sound_run {s : System} (run : Transition.Reaches Step Fits System.start s) : Sound s :=
  run.invariant start_sound fun _ _ _ sound fits step => sound.step fits step

/-- A count that is set lets through no more clients than it says. -/
theorem Sound.at_most {s t : System} (sound : Sound s) {x : Outcome} {m : Msg}
    (fits : Fits s (x, m)) (step : Step s (x, m) t) (op : m.mOp = .FS_WSTAT) {c : ℤ}
    (field : x.field = .count (some c)) (up : 0 < c) {f : File} {i : ULong} {o o' : Openfile}
    (client : s.server.filehash.lookup m.mSender = some f) (opens : f.fFile = some i)
    (there : s.server.files.lookup i = some o) (there' : t.server.files.lookup i = some o') :
    (o.oQueue.length : ℤ) ≤ o'.oQueue.length + c := by
  have fits := fits f client
  simp only [op] at fits
  obtain ⟨-, taken⟩ := step
  obtain ⟨⟨s', sent⟩, handled, rfl⟩ := Option.map_eq_some_iff.mp taken
  rw [Server.handle, if_neg (by simp [sound.formed.whole])] at handled
  simp only [op, client, Option.bind_some] at handled
  rw [Server.semaWstat.eq_def, opens] at handled
  simp only at handled
  -- where the field is not written the queue stays as it was
  have stays : s' = s.server → (o.oQueue.length : ℤ) ≤ o'.oQueue.length + c := by
    rintro rfl
    obtain rfl : o = o' := Option.some.inj (there.symm.trans there')
    omega
  split_ifs at handled with denied left
  · exact stays (Prod.mk.inj (Option.some.inj handled)).1.symm
  · exact stays (Prod.mk.inj (Option.some.inj handled)).1.symm
  · have fit := fits (by simpa using denied) (by simpa using left) i opens o there
    rw [field, Field.Fits] at fit
    simp only [if_pos up] at fit
    omega

/-- **In every run whose messages meet the condition a count below zero is the number of clients on
the queue, one above zero leaves it empty, everybody on it is a client that exists, no answer goes
astray, those that wait for an answer are those on a queue, every message has a result, and a count
that is set lets through no more than it says.** -/
theorem protocol_sound {s : System} (run : Transition.Reaches Step Fits System.start s) :
    (∀ i o, s.server.files.lookup i = some o →
      (o.oCount < 0 → (o.oQueue.length : ℤ) = -o.oCount) ∧ (0 < o.oCount → o.oQueue = []) ∧
        o.oQueue.Nodup ∧ ∀ h ∈ o.oQueue, ∃ f, s.server.filehash.lookup h = some f ∧
          f.fFile = some i ∧ f.fEntry = true) ∧
      s.server.dangling = false ∧ s.lines.stray = false ∧
      (∀ h, s.lines.conn h = .waiting ↔
        ∃ i o, s.server.files.lookup i = some o ∧ h ∈ o.oQueue) ∧
      (∀ x m, s.Legal x m → Fits s (x, m) → s.server.handle x m ≠ none) ∧
      ∀ x m t c f i o o', Fits s (x, m) → Step s (x, m) t → m.mOp = .FS_WSTAT →
        x.field = .count (some c) → 0 < c → s.server.filehash.lookup m.mSender = some f →
        f.fFile = some i → s.server.files.lookup i = some o →
        t.server.files.lookup i = some o' → (o.oQueue.length : ℤ) ≤ o'.oQueue.length + c := by
  have sound := sound_run run
  refine ⟨fun i o there => ?_, sound.formed.whole, sound.agree.noStray, fun h => ?_,
    fun x m legal fits => ?_, fun x m t c f i o o' fits step op field up client opens there =>
      sound.at_most fits step op field up client opens there⟩
  · have balanced := sound.counted i o there
    rw [Openfile.Balanced] at balanced
    refine ⟨fun low => by omega, fun high => List.length_eq_zero_iff.mp (by omega),
      sound.formed.sessions.nodup i o there, fun h queued => (sound.formed.sessions.queued i o h there).mp queued⟩
  · rw [sound.agree.waits h]
    constructor
    · rintro ⟨f, client, entry⟩
      obtain ⟨i, opens⟩ := sound.formed.sessions.sits h f client entry
      obtain ⟨o, there⟩ := sound.formed.sessions.opened h f i client opens
      exact ⟨i, o, there, (sound.formed.sessions.queued i o h there).mpr ⟨f, client, opens, entry⟩⟩
    · rintro ⟨i, o, there, queued⟩
      obtain ⟨f, client, -, entry, -⟩ := sound.formed.kept_of_mem there queued
      exact ⟨f, client, entry⟩
  · obtain ⟨s', sent, handled, -⟩ := sound.handle legal fits
    simp [handled]

/-! ## Two clients -/

/-- Memory, permissions, and the semaphore 1. -/
def plenty : Outcome where
  mem := true
  node := true
  name := .number 1
  perm := ACC_READ ||| ACC_WRITE
  before := 0
  wstat := ⟨true, true, true, false, false⟩
  field := .count (some 1)

/-- A message of a connection. -/
def message (op : Op) (h : Handle) (mArg : ULong) : Msg := ⟨op, h, mArg, 0, [[0]]⟩

/-- The first client creates a semaphore, the second opens it and waits, and the first lets it
through. -/
def twoClients : List Msg :=
  [message .M_CONNECT 1 0, message .M_CONNECT 2 0,
    message .FS_OPEN 1 (ACC_READ ||| ACC_WRITE ||| ACC_CREATE),
    message .FS_OPEN 2 (ACC_READ ||| ACC_WRITE), message .FS_READ 2 0, message .FS_SEEK 1 0]

/-- Messages, one after the other, under a condition. -/
def System.follow (ok : System → Outcome × Msg → Bool) : System → List Msg → Option System
  | s, [] => some s
  | s, m :: rest =>
      if Srv.Legal s.lines m ∧ ok s (plenty, m) then (s.next plenty m).bind (follow ok · rest)
      else none

theorem follow_run {ok : System → Outcome × Msg → Bool} {guard : System → Outcome × Msg → Prop}
    (meets : ∀ s label, ok s label = true → guard s label) {messages : List Msg} :
    ∀ {s t u : System}, Transition.Reaches Step guard s t → t.follow ok messages = some u →
      Transition.Reaches Step guard s u := by
  induction messages with
  | nil =>
      intro s t u run followed
      obtain rfl := Option.some.inj followed
      exact run
  | cons m rest ih =>
      intro s t u run followed
      rw [System.follow] at followed
      obtain ⟨⟨legal, good⟩, followed⟩ := Option.ite_none_right_eq_some.mp followed
      obtain ⟨next, taken, followed⟩ := Option.bind_eq_some_iff.mp followed
      have named : ∀ i, plenty.name = .clone i → t.server.files.lookup i = none := by
        intro i clone
        cases clone
      exact ih (run.tail (meets _ _ good) ⟨⟨legal, named⟩, taken⟩) followed

/-- What `Fits` says of these messages. -/
def fitting (_s : System) (label : Outcome × Msg) : Bool :=
  label.2.mOp = .M_CONNECT ∨ label.2.mOp = .FS_OPEN ∨ label.2.mOp = .FS_SEEK ∨
    (label.2.mOp = .FS_READ ∧ label.1.mem = true)

theorem fits_of_fitting (s : System) (label : Outcome × Msg) (good : fitting s label = true) :
    Fits s label := by
  intro f _
  simp only [fitting, decide_eq_true_eq] at good
  rcases good with op | op | op | ⟨op, mem⟩
  · simp [op]
  · simp [op]
  · simp [op]
  · simp only [op]
    split
    · exact mem
    · exact fun _ _ _ _ => mem

theorem follow_twoClients :
    (System.start.follow fitting twoClients).map
      (fun s => (s.server.files.map fun node => (node.1, node.2.oQueue, node.2.oCount),
        s.lines.conn 2, s.lines.stray)) = some ([(1, [], 0)], .idle, false) := by decide

theorem protocol_sound_two : ∃ s : System, s.lines.conn 2 = .idle ∧ s.lines.stray = false := by
  obtain ⟨s, followed, eq⟩ := Option.map_eq_some_iff.mp follow_twoClients
  have run : Transition.Reaches Step Fits System.start s :=
    follow_run fits_of_fitting (Transition.Reaches.refl _) followed
  exact ⟨s, (Prod.mk.inj (Prod.mk.inj eq).2).1, (protocol_sound run).2.2.1⟩

/-- **`FS_ABSREAD` is answered twice.** -/
theorem absread_answers_twice : ∃ s : System,
    Transition.Reaches Step Transition.Any System.start s ∧ s.lines.stray = true := by
  have followed : (System.start.follow (fun _ _ => true)
      [message .M_CONNECT 1 0, message .FS_ABSREAD 1 0]).map (fun s => s.lines.stray) =
        some true := by decide
  obtain ⟨s, followed, stray⟩ := Option.map_eq_some_iff.mp followed
  exact ⟨s, follow_run (fun _ _ _ => trivial) (Transition.Reaches.refl _) followed, stray⟩

end Vsta.Semaserver
