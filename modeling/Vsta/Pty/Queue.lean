import Vsta.Pty.Server

/-!
# One queue of a pty

A queue is `Fine` when its buffer holds what was written and not read yet, readers wait only while
it is empty and writers only while it is full, and nothing of a write is in it behind one that
waits. Writes, reads by which no writer is overlooked, aborts and the end of the master keep it so,
and answer those that they take off the queue (`Moves`).
-/

set_option autoImplicit false

namespace Vsta.Ptyserver

open Vstafs Service WriteLog

/-- The data of an answer. -/
def Reply.bytes (r : Reply) : List UChar :=
  match r.body with
  | .data bytes => bytes
  | _ => []

theorem flatMap_append (a b : List Reply) :
    (a ++ b).flatMap Reply.bytes = a.flatMap Reply.bytes ++ b.flatMap Reply.bytes :=
  List.flatMap_append

/-! ## The buffer -/

/-- What `queue_data` takes of the segments goes behind what is in the buffer; it leaves some of
them only when the buffer is full. -/
theorem queueData_spec (segs : List Seg) {buf : List UChar} (bounded : buf.length ≤ IOQ_MAXBUF) :
    ∃ took, (queueData segs buf).2 = buf ++ took ∧
      took ++ (queueData segs buf).1.flatten = segs.flatten ∧
      (queueData segs buf).2.length ≤ IOQ_MAXBUF ∧
      ((queueData segs buf).1 ≠ [] → (queueData segs buf).2.length = IOQ_MAXBUF) := by
  induction segs generalizing buf with
  | nil => exact ⟨[], by simp [queueData], rfl, bounded, fun some_ => absurd rfl some_⟩
  | cons seg rest ih =>
      rw [queueData]
      split_ifs with whole
      · rw [whole, List.take_length]
        have bounded : (buf ++ seg).length ≤ IOQ_MAXBUF := by
          rw [List.length_append]
          omega
        obtain ⟨took, after, all, less, full⟩ := ih bounded
        refine ⟨seg ++ took, by rw [after, List.append_assoc], ?_, less, full⟩
        rw [List.append_assoc, all, List.flatten_cons]
      · have short : IOQ_MAXBUF - buf.length < seg.length := by omega
        have length : (buf ++ seg.take (min (IOQ_MAXBUF - buf.length) seg.length)).length =
            IOQ_MAXBUF := by
          rw [List.length_append, List.length_take]
          omega
        refine ⟨_, rfl, ?_, length.le, fun _ => length⟩
        rw [List.flatten_cons, ← List.append_assoc, List.take_append_drop, List.flatten_cons]

namespace Ioq

/-- The clients on a queue. -/
def queue (i : Ioq) : List Handle := i.ioqRead.map Req.who ++ i.ioqWrite.map Req.who

/-- A queue and its history agree, but for a write of which so much was taken already. -/
structure Amid (i : Ioq) (took : List UChar) : Prop where
  bounded : i.ioqBuf.length ≤ IOQ_MAXBUF
  inOrder : InOrder i.log
  stream : i.out ++ i.ioqBuf = i.log.flatMap Write.read ++ took
  queued : (pending i.log).map (fun w => (w.who, w.unread)) =
    i.ioqWrite.map fun w => (w.who, w.mSeg.flatten)
  apart : i.ioqRead = [] ∨ i.ioqWrite = []
  full : i.ioqWrite ≠ [] → i.ioqBuf.length = IOQ_MAXBUF
  behind : i.ioqWrite ≠ [] → took = []

/-- A queue and its history agree, and readers wait only while there is nothing to read. -/
structure Fine (i : Ioq) : Prop where
  amid : i.Amid []
  hungry : i.ioqRead ≠ [] → i.ioqBuf = []

/-- Those that are answered leave the queue, the others stay, and the data they are answered with is
recorded. It goes to those that came to read, or waited for it. -/
structure Moves (i : Ioq) (came reading : List Handle) (changed : Ioq × List Reply) : Prop where
  perm : (changed.2.map Reply.who ++ changed.1.queue).Perm (came ++ i.queue)
  out : changed.1.out = i.out ++ changed.2.flatMap Reply.bytes
  data : ∀ r ∈ changed.2, r.bytes ≠ [] → r.who ∈ reading ++ i.ioqRead.map Req.who
  readers : ∀ r ∈ changed.1.ioqRead, r.who ∈ reading ++ i.ioqRead.map Req.who

variable {i j : Ioq} {took : List UChar} {w r : Req}

theorem Amid.pending_nil (amid : i.Amid took) : pending i.log = [] ↔ i.ioqWrite = [] := by
  have same := congrArg List.length amid.queued
  rw [List.length_map, List.length_map] at same
  rw [← List.length_eq_zero_iff, same, List.length_eq_zero_iff]

theorem init_fine : init.Fine :=
  ⟨⟨Nat.zero_le _, trivial, rfl, rfl, .inl rfl, fun some_ => absurd rfl some_, fun _ => rfl⟩,
    fun _ => rfl⟩

/-! ## Readers -/

theorem dequeueData_stream (who : Handle) (mArg : ULong) :
    (i.dequeueData who mArg).1.out ++ (i.dequeueData who mArg).1.ioqBuf = i.out ++ i.ioqBuf := by
  simp only [dequeueData, List.append_assoc, List.take_append_drop]

/-- What the loop of `run_readers` leaves: it stops with an empty buffer, or with no reader. -/
structure Served (i : Ioq) (readers : List Req) (ran : Ioq × List Reply) : Prop where
  writers : ran.1.ioqWrite = i.ioqWrite
  log : ran.1.log = i.log
  stream : ran.1.out ++ ran.1.ioqBuf = i.out ++ i.ioqBuf
  shorter : ran.1.ioqBuf.length ≤ i.ioqBuf.length
  who : ran.2.map Reply.who ++ ran.1.ioqRead.map Req.who = readers.map Req.who
  out : ran.1.out = i.out ++ ran.2.flatMap Reply.bytes
  hungry : ran.1.ioqRead ≠ [] → ran.1.ioqBuf = []
  fewer : i.ioqBuf ≠ [] → readers ≠ [] → ran.1.ioqRead.length < readers.length

theorem serve_served (readers : List Req) : Served i readers (serve readers i) := by
  induction readers generalizing i with
  | nil =>
      exact ⟨rfl, rfl, rfl, le_rfl, rfl, (List.append_nil _).symm, fun some_ => absurd rfl some_,
        fun _ some_ => absurd rfl some_⟩
  | cons r readers ih =>
      rw [serve]
      split_ifs with empty
      · exact ⟨rfl, rfl, rfl, le_rfl, rfl, (List.append_nil _).symm, fun _ => empty,
          fun some_ => absurd empty some_⟩
      · have rest := ih (i := (i.dequeueData r.who r.mArg).1)
        have less : (serve readers (i.dequeueData r.who r.mArg).1).1.ioqRead.length ≤
            readers.length := by
          have who := congrArg List.length rest.who
          simp only [List.length_append, List.length_map] at who
          omega
        refine ⟨rest.writers, rest.log, rest.stream.trans (dequeueData_stream _ _), ?_, ?_, ?_,
          rest.hungry, fun _ _ => Nat.lt_succ_of_le less⟩
        · refine rest.shorter.trans ?_
          simp [dequeueData]
        · simp only [List.map_cons, List.cons_append, rest.who]
          rfl
        · rw [rest.out, List.flatMap_cons, ← List.append_assoc]
          rfl

/-- Some of a write goes into the buffer. -/
theorem Amid.extend (amid : i.Amid took) {buf : List UChar}
    (bounded : (i.ioqBuf ++ buf).length ≤ IOQ_MAXBUF) :
    Amid { i with ioqBuf := i.ioqBuf ++ buf } (took ++ buf) := by
  have still : i.ioqWrite ≠ [] → buf = [] := fun some_ => by
    have full := amid.full some_
    rw [List.length_append] at bounded
    exact List.length_eq_zero_iff.mp (by omega)
  refine ⟨bounded, amid.inOrder, ?_, amid.queued, amid.apart, fun some_ => ?_, fun some_ => ?_⟩
  · simp only [← List.append_assoc, amid.stream]
  · simp only [still some_, List.append_nil]
    exact amid.full some_
  · rw [amid.behind some_, still some_, List.append_nil]

/-- **`run_readers`.** -/
theorem runReaders_amid (amid : i.Amid took) :
    i.runReaders.1.Amid took ∧ (i.runReaders.1.ioqRead ≠ [] → i.runReaders.1.ioqBuf = []) := by
  have ran : Served i i.ioqRead i.runReaders := serve_served _
  refine ⟨⟨ran.shorter.trans amid.bounded, ?_, ?_, ?_, ?_, fun some_ => ?_, fun some_ => ?_⟩,
    ran.hungry⟩
  · rw [ran.log]
    exact amid.inOrder
  · rw [ran.stream, ran.log, amid.stream]
  · rw [ran.log, ran.writers]
    exact amid.queued
  · rw [ran.writers]
    refine amid.apart.imp_left fun none_ => ?_
    rw [runReaders, none_]
    rfl
  · rw [ran.writers] at some_
    rw [runReaders, amid.apart.resolve_right some_]
    exact amid.full some_
  · exact amid.behind (ran.writers ▸ some_)

/-- Whom `run_readers` answers. -/
theorem runReaders_moves : i.Moves [] [] i.runReaders := by
  have ran : Served i i.ioqRead i.runReaders := serve_served _
  refine ⟨?_, ran.out, fun r member _ => ?_, fun r member => ?_⟩
  · rw [queue, ran.writers, ← List.append_assoc, ran.who]
    exact List.Perm.refl _
  · rw [List.nil_append, ← ran.who]
    exact List.mem_append_left _ (List.mem_map_of_mem member)
  · rw [List.nil_append, ← ran.who]
    exact List.mem_append_right _ (List.mem_map_of_mem member)

/-! ## Writers -/

/-- A write that is done. -/
theorem finish_amid (amid : i.Amid took) : (i.finish w took).Amid [] := by
  refine ⟨amid.bounded, amid.inOrder.append (fun count told => ?_) fun some_ => ?_, ?_, ?_,
    amid.apart, amid.full, fun _ => rfl⟩
  · exact ⟨rfl, (Fate.told.inj told).symm⟩
  · exact amid.behind fun none_ => some_ (amid.pending_nil.mpr none_)
  · rw [finish, List.flatMap_append, List.append_nil, amid.stream]
    simp
  · rw [finish, pending, List.filter_append, ← pending]
    simpa using amid.queued

/-- A writer is put to sleep behind a full buffer. -/
theorem sleep_spec (amid : i.Amid took) (readers : i.ioqRead = [])
    (full : i.ioqBuf.length = IOQ_MAXBUF) :
    (i.sleep true w took).Fine ∧ i.Moves [w.who] [] (i.sleep true w took, []) := by
  have asleep : i.sleep true w took = { i with
      ioqWrite := i.ioqWrite ++ [w]
      log := i.log ++ [⟨w.who, took, w.mSeg.flatten, .pending⟩] } := rfl
  rw [asleep]
  refine ⟨⟨⟨amid.bounded, amid.inOrder.append (fun count told => nomatch told) fun some_ => ?_, ?_,
    ?_, .inl readers, fun _ => full, fun _ => rfl⟩, fun some_ => absurd readers some_⟩, ?_, ?_,
    fun r member => absurd member List.not_mem_nil, fun r member => List.mem_map_of_mem member⟩
  · exact amid.behind fun none_ => some_ (amid.pending_nil.mpr none_)
  · rw [List.flatMap_append, List.append_nil, amid.stream]
    simp
  · rw [pending, List.filter_append, ← pending, List.map_append, amid.queued, List.map_append]
    rfl
  · simp only [queue, List.map_append, List.map_cons, List.map_nil, List.nil_append,
      ← List.append_assoc]
    exact List.perm_append_singleton _ _
  · exact (List.append_nil _).symm

/-- The same queue, and the same history of what was handed out. -/
theorem Moves.congr {came reading : List Handle} {changed : Ioq × List Reply}
    (moves : j.Moves came reading changed) (queue : j.queue = i.queue) (out : j.out = i.out)
    (readers : j.ioqRead = i.ioqRead) : i.Moves came reading changed :=
  ⟨queue ▸ moves.perm, out ▸ moves.out, readers ▸ moves.data, readers ▸ moves.readers⟩

/-- One answer, and then others. -/
theorem Moves.trans {came : List Handle} {first rest : Ioq × List Reply}
    (one : i.Moves [] [] first) (more : first.1.Moves came [] rest) :
    i.Moves came [] (rest.1, first.2 ++ rest.2) := by
  have old : ∀ h ∈ first.1.ioqRead.map Req.who, h ∈ i.ioqRead.map Req.who := fun h member => by
    obtain ⟨r, inside, rfl⟩ := List.mem_map.mp member
    exact one.readers r inside
  refine ⟨?_, ?_, fun r member some_ => ?_, fun r member => old _ (more.readers r member)⟩
  · rw [List.map_append, List.append_assoc]
    refine (more.perm.append_left _).trans ((List.perm_append_comm_assoc _ _ _).trans ?_)
    exact one.perm.append_left came
  · rw [more.out, one.out, List.flatMap_append, List.append_assoc]
  · rcases List.mem_append.mp member with early | late
    · exact one.data r early some_
    · exact old _ (more.data r late some_)

/-- A writer is answered, and then the readers. -/
theorem finish_spec (amid : i.Amid took) :
    (i.finish w took).runReaders.1.Fine ∧ i.Moves [w.who] []
      ((i.finish w took).runReaders.1,
        ⟨w.who, .count w.mArg⟩ :: (i.finish w took).runReaders.2) := by
  obtain ⟨after, hungry⟩ := runReaders_amid (finish_amid (w := w) amid)
  obtain ⟨perm, out, data, readers⟩ := runReaders_moves (i := i.finish w took)
  refine ⟨⟨after, hungry⟩, perm.cons w.who, ?_, fun r member some_ => ?_, readers⟩
  · rw [out, List.flatMap_cons]
    rfl
  · rcases List.mem_cons.mp member with rfl | later
    · exact absurd rfl some_
    · exact data r later some_

/-- **`ioq_add_data`**, from any of its tries on. -/
theorem retry_spec {tries : ℕ} (amid : i.Amid took) (enough : i.ioqRead.length ≤ tries) :
    (retry true tries i w took).1.Fine ∧ i.Moves [w.who] [] (retry true tries i w took) := by
  induction tries generalizing i w took with
  | zero =>
      obtain ⟨more, after, -, less, full⟩ := queueData_spec w.mSeg amid.bounded
      have idle : i.ioqRead = [] := List.length_eq_zero_iff.mp (Nat.le_zero.mp enough)
      rw [after] at less full
      rw [retry]
      simp only [after, List.drop_left]
      split_ifs with done
      · exact (finish_spec (amid.extend less)).imp_right fun moves => moves.congr rfl rfl rfl
      · exact (sleep_spec (amid.extend less) idle (full done)).imp_right
          fun moves => moves.congr rfl rfl rfl
  | succ tries ih =>
      obtain ⟨more, after, -, less, full⟩ := queueData_spec w.mSeg amid.bounded
      rw [after] at less full
      rw [retry]
      simp only [after, List.drop_left]
      split_ifs with done idle
      · exact (finish_spec (amid.extend less)).imp_right fun moves => moves.congr rfl rfl rfl
      · exact (sleep_spec (amid.extend less) idle (full done)).imp_right
          fun moves => moves.congr rfl rfl rfl
      · -- the buffer is full, so that a reader is answered
        have ran : Served { i with ioqBuf := i.ioqBuf ++ more } i.ioqRead
          (runReaders { i with ioqBuf := i.ioqBuf ++ more }) := serve_served _
        have some_ : i.ioqBuf ++ more ≠ [] := fun none_ => by
          have full := full done
          rw [none_] at full
          exact absurd full (by decide)
        obtain ⟨again, moves⟩ := ih (w := { w with mSeg := (queueData w.mSeg i.ioqBuf).1 })
          (runReaders_amid (amid.extend less)).1
          (Nat.le_of_lt_succ ((ran.fewer some_ idle).trans_le enough))
        exact ⟨again, (Moves.trans runReaders_moves moves).congr rfl rfl rfl⟩

theorem addData_spec (fine : i.Fine) :
    (i.addData true w).1.Fine ∧ i.Moves [w.who] [] (i.addData true w) :=
  retry_spec fine.amid le_rfl

/-- **`ioq_read_data`**, when no writer waits or nothing is asked for. -/
theorem readData_spec (fine : i.Fine) (meets : i.ioqWrite = [] ∨ r.mArg.toNat = 0) :
    (i.readData true r).1.Fine ∧ i.Moves [r.who] [r.who] (i.readData true r) := by
  obtain ⟨amid, hungry⟩ := fine
  rw [readData]
  by_cases empty : i.ioqBuf = []
  · rw [if_pos empty]
    have idle : i.ioqWrite = [] := by
      by_contra writers
      have full := amid.full writers
      rw [empty] at full
      exact absurd full (by decide)
    refine ⟨⟨⟨amid.bounded, amid.inOrder, amid.stream, amid.queued, .inr idle, amid.full,
      amid.behind⟩, fun _ => empty⟩, ?_, (List.append_nil _).symm, fun r member => absurd member List.not_mem_nil,
      fun q member => ?_⟩
    · simp only [queue, idle, if_true, List.map_append, List.map_cons, List.map_nil,
        List.append_nil, List.nil_append]
      exact List.perm_append_singleton _ _
    · rcases List.mem_append.mp member with old | new
      · exact List.mem_append_right _ (List.mem_map_of_mem old)
      · rw [List.mem_singleton.mp new]
        exact List.mem_append_left _ (List.mem_singleton_self _)
  · rw [if_neg empty]
    have readers : i.ioqRead = [] := by
      by_contra some_
      exact empty (hungry some_)
    refine ⟨⟨⟨?_, amid.inOrder, ?_, amid.queued, .inl readers, fun some_ => ?_, fun _ => rfl⟩,
      fun some_ => absurd readers some_⟩, List.Perm.refl _, ?_, fun q member _ => ?_,
      fun q member => List.mem_append_right _ (List.mem_map_of_mem member)⟩
    · refine le_trans ?_ amid.bounded
      simp [dequeueData]
    · exact (dequeueData_stream r.who _).trans amid.stream
    · have nothing := meets.resolve_left some_
      simp only [dequeueData, nothing, Nat.zero_min, List.drop_zero]
      exact amid.full some_
    · exact congrArg (i.out ++ ·) (List.append_nil _).symm
    · rw [List.mem_singleton.mp member]
      exact List.mem_append_left _ (List.mem_singleton_self _)

/-! ## Aborts -/

variable {h : Handle}

theorem remove_queue : (i.remove h).queue = i.queue.filter (· != h) := by
  rw [queue, queue, remove, List.filter_append, List.filter_map, List.filter_map]
  rfl

theorem remove_fine (fine : i.Fine) : (i.remove h).Fine := by
  obtain ⟨amid, hungry⟩ := fine
  have some_ : ∀ {l : List Req}, l.filter (·.who != h) ≠ [] → l ≠ [] := fun left none_ =>
    left (by rw [none_, List.filter_nil])
  have keys : (i.ioqWrite.filter (·.who != h)).map (fun w => (w.who, w.mSeg.flatten)) =
      (i.ioqWrite.map fun w => (w.who, w.mSeg.flatten)).filter (·.1 != h) := by
    rw [List.filter_map]
    rfl
  have log : InOrder (i.remove h).log ∧
      (i.remove h).log.flatMap Write.read = i.log.flatMap Write.read ∧
      (pending (i.remove h).log).map (fun w => (w.who, w.unread)) =
        (i.ioqWrite.map fun w => (w.who, w.mSeg.flatten)).filter (·.1 != h) := by
    rw [remove]
    simp only
    split_ifs with among
    · refine ⟨amid.inOrder.dropAll _, reads_dropAll _, ?_⟩
      rw [pending_dropAll, ← amid.queued, List.filter_map]
      rfl
    · refine ⟨amid.inOrder, rfl, ?_⟩
      rw [amid.queued, List.filter_eq_self.mpr fun key member => ?_]
      obtain ⟨w, queued, rfl⟩ := List.mem_map.mp member
      simpa using fun same : w.who = h => among (same ▸ List.mem_map_of_mem queued)
  refine ⟨⟨amid.bounded, log.1, ?_, log.2.2.trans keys.symm, ?_, fun left => amid.full (some_ left),
    fun _ => rfl⟩, fun left => hungry (some_ left)⟩
  · rw [log.2.1]
    exact amid.stream
  · exact amid.apart.imp (fun none_ => by rw [remove, none_]; rfl)
      fun none_ => by rw [remove, none_]; rfl

theorem abort_fine (fine : i.Fine) : i.abort.1.Fine := by
  obtain ⟨amid, -⟩ := fine
  refine ⟨⟨amid.bounded, amid.inOrder.dropAll fun _ => true, ?_, ?_, .inl rfl, fun some_ => absurd rfl some_,
    fun _ => rfl⟩, fun some_ => absurd rfl some_⟩
  · rw [abort, reads_dropAll]
    exact amid.stream
  · rw [abort, pending_dropAll]
    simp

/-- All who wait are answered. -/
theorem abort_who : i.abort.2.map Reply.who = i.queue := by
  rw [abort, queue, ← List.map_append, List.map_map]
  rfl

theorem abort_bytes : i.abort.2.flatMap Reply.bytes = [] := by
  rw [abort, List.flatMap_map]
  exact List.flatMap_eq_nil_iff.mpr fun _ _ => rfl

end Ioq

/-! ## Both queues of a pty -/

namespace Pty

/-- The clients on the queues. -/
def queue (o : Pty) : List Handle := o.pIoqr.queue ++ o.pIoqw.queue

variable {o : Pty} {h : Handle} {d : Bool}

theorem mem_queue_of_reader {r : Req} (member : r ∈ (o.ioq d).ioqRead) : r.who ∈ o.queue := by
  have among : r.who ∈ (o.ioq d).queue := List.mem_append_left _ (List.mem_map_of_mem member)
  cases d with
  | true => exact List.mem_append_right _ among
  | false => exact List.mem_append_left _ among

theorem ioq_setIoq (i : Ioq) (e : Bool) :
    (o.setIoq d i).ioq e = if e = d then i else o.ioq e := by
  cases d <;> cases e <;> rfl

/-- One of the queues changes. -/
theorem onIoq_perm {came reading : List Handle} {changed : Ioq × List Reply}
    (moves : (o.ioq d).Moves came reading changed) :
    ((o.onIoq d changed).2.map Reply.who ++ (o.onIoq d changed).1.queue).Perm
      (came ++ o.queue) := by
  cases d with
  | true =>
      refine (List.perm_append_comm_assoc _ _ _).trans ?_
      exact (moves.perm.append_left _).trans (List.perm_append_comm_assoc _ _ _)
  | false =>
      simp only [onIoq, setIoq, queue, Bool.false_eq_true, if_false]
      rw [← List.append_assoc, ← List.append_assoc]
      exact moves.perm.append_right _

theorem remove_queue : (o.remove h).queue = o.queue.filter (· != h) := by
  rw [queue, queue, List.filter_append, ← Ioq.remove_queue, ← Ioq.remove_queue]
  rfl

theorem remove_ioq : (o.remove h).ioq d = (o.ioq d).remove h := by
  cases d <;> rfl

theorem abortClients_ioq : o.abortClients.1.ioq d = (o.ioq d).abort.1 := by
  cases d <;> rfl

/-- All who wait are answered. -/
theorem abortClients_who : o.abortClients.2.map Reply.who = o.queue := by
  rw [abortClients, List.map_append, Ioq.abort_who, Ioq.abort_who, queue]

theorem abortClients_bytes : o.abortClients.2.flatMap Reply.bytes = [] := by
  rw [abortClients, List.flatMap_append, Ioq.abort_bytes, Ioq.abort_bytes, List.append_nil]

end Pty

end Vsta.Ptyserver
