import Vsta.Pipe.Server

/-!
# The stream of one pipe

What `run_readers` hands to readers comes from the writes in the order they were queued. The writes
of a pipe are followed in its log: those on the queue are the ones that are pending, as long as the
pipe is not closed for reads (`Faithful`). Each change of a pipe keeps this, and answers only
requests that it takes off a queue (`Moves`).
-/

set_option autoImplicit false

namespace Vsta.Pipeserver

open Vstafs Service WriteLog

/-! ## Segments -/

theorem sendseg_flatten (room nbyte : ℕ) (segs : List Seg) :
    (sendseg room nbyte segs).1.flatten ++ (sendseg room nbyte segs).2.flatten = segs.flatten := by
  induction room generalizing nbyte segs with
  | zero => rfl
  | succ room ih =>
      cases segs with
      | nil => rfl
      | cons s rest =>
          rw [sendseg]
          split_ifs with none_
          · rfl
          simp only
          split_ifs with whole
          · have all : s.take (min s.length nbyte) = s := by rw [← whole, List.take_length]
            rw [List.flatten_cons, List.append_assoc, ih, all, List.flatten_cons]
          · rw [List.flatten_cons, List.append_assoc, ih, List.flatten_cons, List.flatten_cons,
              ← List.append_assoc, List.take_append_drop]

theorem sendseg_length (room nbyte : ℕ) (segs : List Seg) :
    (sendseg room nbyte segs).2.length ≤ segs.length := by
  induction room generalizing nbyte segs with
  | zero => exact le_rfl
  | succ room ih =>
      cases segs with
      | nil => exact le_rfl
      | cons s rest =>
          rw [sendseg]
          split_ifs with none_
          · exact le_rfl
          simp only
          refine (ih _ _).trans ?_
          split_ifs
          · simp
          · simp

/-- Nothing is sent only when nothing is asked for, or nothing is left. -/
theorem sendseg_empty {room nbyte : ℕ} {segs : List Seg} (fits : segs.length ≤ room)
    (empty : (sendseg room nbyte segs).1.flatten = []) : nbyte = 0 ∨ segs.flatten = [] := by
  induction room generalizing nbyte segs with
  | zero => exact .inr (by simp [List.length_eq_zero_iff.mp (Nat.le_zero.mp fits)])
  | succ room ih =>
      cases segs with
      | nil => exact .inr rfl
      | cons s rest =>
          rw [sendseg] at empty
          split_ifs at empty with none_
          · exact .inl none_
          simp only [List.flatten_cons, List.append_eq_nil_iff, List.take_eq_nil_iff] at empty
          obtain ⟨first, later⟩ := empty
          -- an empty segment is passed over
          obtain rfl : s = [] := by
            rcases first with cnt | nil
            · exact List.length_eq_zero_iff.mp (by omega)
            · exact nil
          simp only [List.length_nil, Nat.zero_min, if_true, Nat.sub_zero] at later
          rcases ih (by simpa using fits) later with zero | nil
          · exact .inl zero
          · exact .inr (by simpa using nil)

/-- The data of an answer. -/
def Reply.bytes (r : Reply) : List UChar :=
  match r.body with
  | .data segs => segs.flatten
  | _ => []

/-- An answer to a reader without data. -/
def Reply.empty (r : Reply) : Bool :=
  match r.body with
  | .data segs => segs.flatten.length = 0
  | _ => false

/-- An answer that is not to a reader. -/
def Reply.Bare (r : Reply) : Prop := r.bytes = [] ∧ r.empty = false

namespace Pipe

/-- The clients on the queues. -/
def queue (o : Pipe) : List Handle := o.pReaders.map Req.who ++ o.pWriters.map Req.who

end Pipe

/-! ## The log -/

/-- What a write on the queue says of its write in the log. -/
def Req.key (w : Req) : Handle × ℕ × List UChar := (w.who, w.mArg, w.mSeg.flatten)

/-- What the log says of it. -/
def logKey (w : Write Handle UChar) : Handle × ℕ × List UChar := (w.who, w.read.length, w.unread)

/-- A reader is answered without data at the end of file, when it asked for nothing, or when the
write it was matched with had nothing left. -/
def Zero.Natural : Zero → Prop
  | .eof nwrite writers => nwrite = 0 ∧ writers = []
  | .matched asked left => asked = 0 ∨ left = []

namespace Pipe

/-- The log is in order, what was read was handed to readers, and the writes on the queue are those
that are pending. -/
structure Faithful (o : Pipe) : Prop where
  inOrder : InOrder o.log
  out : o.out = o.log.flatMap Write.read
  queued : o.pNread ≠ PIPE_CLOSED_FOR_READS →
    (pending o.log).map logKey = o.pWriters.map Req.key
  closed : o.pNread = PIPE_CLOSED_FOR_READS → o.pWriters = []
  short : ∀ w ∈ o.pWriters, w.mSeg.length ≤ MSGSEGS
  zeros : ∀ z ∈ o.zeros, z.Natural

/-- One side of a pipe waits for the other, never both. -/
def Matched (o : Pipe) : Prop := o.pReaders = [] ∨ o.pWriters = []

/-- The counters of the references, the writers and the readers. -/
def counters (o : Pipe) : ℤ × ℤ × ℤ := (o.pRefs, o.pNwrite, o.pNread)

/-- The history of a pipe records the data that its readers are answered with, and the answers
without. -/
structure Records (o o' : Pipe) (replies : List Reply) : Prop where
  out : o'.out = o.out ++ replies.flatMap Reply.bytes
  zeros : o'.zeros.length = o.zeros.length + replies.countP Reply.empty

/-- Those that are answered leave the queues, the others stay, and no writer comes. -/
structure Moves (o : Pipe) (changed : Pipe × List Reply) : Prop where
  perm : (changed.2.map Reply.who ++ changed.1.queue).Perm o.queue
  writers : ∀ w ∈ changed.1.pWriters, w.who ∈ o.pWriters.map Req.who
  records : o.Records changed.1 changed.2

variable {o : Pipe}

/-- Answers that are to no reader. -/
theorem Records.bare {o' : Pipe} {replies : List Reply} (out : o'.out = o.out)
    (zeros : o'.zeros = o.zeros) (bare : ∀ r ∈ replies, r.Bare) : o.Records o' replies := by
  constructor
  · rw [out, List.flatMap_eq_nil_iff.mpr fun r member => (bare r member).1, List.append_nil]
  · rw [zeros, List.countP_eq_zero.mpr fun r member => by simp [(bare r member).2], Nat.add_zero]

theorem Moves.nothing {o' : Pipe} (readers : o'.pReaders = o.pReaders)
    (writers : o'.pWriters = o.pWriters) (out : o'.out = o.out) (zeros : o'.zeros = o.zeros) :
    o.Moves (o', []) := by
  refine ⟨?_, fun w member => ?_, .bare out zeros fun r member => absurd member List.not_mem_nil⟩
  · simp only [queue, readers, writers]
    exact List.Perm.refl _
  · rw [← writers]
    exact List.mem_map_of_mem member

theorem Moves.trans {first rest : Pipe × List Reply} (one : o.Moves first)
    (more : first.1.Moves rest) : o.Moves (rest.1, first.2 ++ rest.2) := by
  refine ⟨?_, fun w member => ?_, ?_, ?_⟩
  · rw [List.map_append, List.append_assoc]
    exact (more.perm.append_left _).trans one.perm
  · obtain ⟨w', member', same⟩ := List.mem_map.mp (more.writers w member)
    exact same ▸ one.writers w' member'
  · rw [more.records.out, one.records.out, List.flatMap_append, List.append_assoc]
  · rw [more.records.zeros, one.records.zeros, List.countP_append, Nat.add_assoc]

theorem round_records (r w : Req) (readers writers : List Req) :
    o.Records (o.round r w readers writers).1 (o.round r w readers writers).2 := by
  have history : ∀ (sent : List Seg) (z : Zero) (told : List Reply) (o' : Pipe),
      (∀ t ∈ told, t.Bare) → o'.out = o.out ++ sent.flatten →
      o'.zeros = (if sent.flatten.length = 0 then [z] else []) ++ o.zeros →
      o.Records o' (⟨r.who, .data sent⟩ :: told) := by
    intro sent z told o' bare out zeros
    constructor
    · rw [out, List.flatMap_cons, List.flatMap_eq_nil_iff.mpr fun t member => (bare t member).1,
        List.append_nil]
      rfl
    · rw [zeros, List.countP_cons, List.countP_eq_zero.mpr fun t member => by simp [(bare t member).2],
        List.length_append, Nat.add_comm]
      simp only [Reply.empty, decide_eq_true_eq]
      split <;> rfl
  rw [round]
  simp only
  split
  · exact history _ _ _ _ (by simp [Reply.Bare, Reply.bytes, Reply.empty]) rfl rfl
  · exact history _ _ _ _ (by simp) rfl rfl

theorem round_moves {r w : Req} {readers writers : List Req} (rs : o.pReaders = r :: readers)
    (ws : o.pWriters = w :: writers) : o.Moves (o.round r w readers writers) := by
  have records := round_records (o := o) r w readers writers
  rw [round] at records ⊢
  simp only at records ⊢
  split at records
  · rename_i done
    rw [if_pos done]
    refine ⟨?_, fun v member => ?_, records⟩
    · simp only [queue, rs, ws, List.map_cons, List.map_nil, List.cons_append, List.nil_append]
      exact (List.perm_middle.symm).cons _
    · rw [ws]
      exact List.mem_map_of_mem (List.mem_cons_of_mem _ member)
  · rename_i more
    rw [if_neg more]
    refine ⟨?_, fun v member => ?_, records⟩
    · simp [queue, rs, ws]
    · rw [ws]
      have among : v = ⟨w.who, _, _⟩ ∨ v ∈ writers := List.mem_cons.mp member
      rcases among with rfl | later
      · exact List.mem_cons_self
      · exact List.mem_map_of_mem (List.mem_cons_of_mem _ later)

theorem round_faithful (faithful : o.Faithful) (r : Req) (readers : List Req) {w : Req}
    {writers : List Req} (ws : o.pWriters = w :: writers) : (o.round r w readers writers).1.Faithful := by
  have open_ : o.pNread ≠ PIPE_CLOSED_FOR_READS := fun closed => by
    rw [faithful.closed closed] at ws
    cases ws
  -- the write of the log that is consumed
  have queued := faithful.queued open_
  rw [ws, List.map_cons, List.map_eq_cons_iff] at queued
  obtain ⟨v, rest, first, key, others⟩ := queued
  obtain ⟨who, read, unread⟩ : v.who = w.who ∧ v.read.length = w.mArg ∧
      v.unread = w.mSeg.flatten := by
    simpa [logKey, Req.key] using key
  have waits : v.fate = .pending := by
    have member : v ∈ pending o.log := first ▸ List.mem_cons_self
    simpa using (List.mem_filter.mp member).2
  have short : w.mSeg.length ≤ MSGSEGS := faithful.short w (ws ▸ List.mem_cons_self)
  rw [round]
  generalize handed : sendseg MSGSEGS r.mArg w.mSeg = seg
  have bytes : seg.1.flatten ++ seg.2.flatten = v.unread := by
    rw [unread, ← handed]
    exact sendseg_flatten _ _ _
  have taken : v.unread.take seg.1.flatten.length = seg.1.flatten := by
    rw [← bytes, List.take_left']
    rfl
  have left : v.unread.drop seg.1.flatten.length = seg.2.flatten := by
    rw [← bytes, List.drop_left']
    rfl
  have fewer : seg.2.length ≤ MSGSEGS := by
    rw [← handed]
    exact (sendseg_length _ _ _).trans short
  -- the log after the read
  have first' : pending (onFirst (Write.consume seg.1.flatten.length) o.log) =
      v.consume seg.1.flatten.length :: rest := by
    rw [pending_onFirst first]
    exact if_pos waits
  have inOrder' : InOrder (onFirst (Write.consume seg.1.flatten.length) o.log) := by
    refine faithful.inOrder.onFirst fun u member count told => ?_
    obtain rfl : v = u := by simpa [first] using member
    exact absurd (waits.symm.trans told) (by simp)
  have zeros : ∀ z ∈ (if seg.1.flatten.length = 0 then [Zero.matched r.mArg w.mSeg.flatten]
      else []) ++ o.zeros, z.Natural := by
    intro z member
    rcases List.mem_append.mp member with new | old
    · split_ifs at new with none_
      · rw [List.mem_singleton.mp new]
        exact sendseg_empty short (by rw [handed]; exact List.length_eq_zero_iff.mp none_)
      · cases new
    · exact faithful.zeros z old
  simp only
  by_cases done : seg.2 = []
  · rw [if_pos done]
    refine ⟨inOrder'.onFirst fun u member count told => ?_, ?_, fun _ => ?_,
      fun closed => absurd closed open_, fun u member => faithful.short u ?_, zeros⟩
    · rw [first'] at member
      obtain rfl : v.consume seg.1.flatten.length = u := Option.some.inj member
      cases told
      refine ⟨left.trans (by rw [done, List.flatten_nil]), ?_⟩
      simp only [Write.tell, Write.consume, List.length_append, taken, read]
    · simp only [reads_tell, reads_consume faithful.inOrder first, taken, faithful.out]
    · simp only [pending_onFirst first']
      rw [if_neg (by simp [Write.tell]), others]
    · rw [ws]
      exact List.mem_cons_of_mem _ member
  · rw [if_neg done]
    refine ⟨inOrder', ?_, fun _ => ?_, fun closed => absurd closed open_, fun u member => ?_,
      zeros⟩
    · simp only [reads_consume faithful.inOrder first, taken, faithful.out]
    · simp only [first', List.map_cons, others, logKey, Req.key, Write.consume, taken, left, who,
        List.length_append, read]
    · have among : u = ⟨w.who, w.mArg + seg.1.flatten.length, seg.2⟩ ∨ u ∈ writers :=
        List.mem_cons.mp member
      rcases among with rfl | later
      · exact fewer
      · exact faithful.short u (ws ▸ List.mem_cons_of_mem _ later)

theorem round_rest (r w : Req) (readers writers : List Req) :
    (o.round r w readers writers).1.pReaders = readers ∧
      (o.round r w readers writers).1.counters = o.counters := by
  rw [round]
  simp only
  split
  · exact ⟨rfl, rfl⟩
  · exact ⟨rfl, rfl⟩

/-- **`run_readers` hands out the data in order, and leaves only one side waiting.** -/
theorem runReaders_spec (faithful : o.Faithful) (n : ℕ) :
    (o.runReaders n).1.Faithful ∧ o.Moves (o.runReaders n) ∧
      (o.runReaders n).1.counters = o.counters ∧
      (o.pReaders.length ≤ n → (o.runReaders n).1.Matched) := by
  induction n generalizing o with
  | zero =>
      exact ⟨faithful, Moves.nothing rfl rfl rfl rfl, rfl,
        fun none_ => .inl (List.length_eq_zero_iff.mp (Nat.le_zero.mp none_))⟩
  | succ n ih =>
      rw [runReaders]
      cases rs : o.pReaders with
      | nil => exact ⟨faithful, Moves.nothing rfl rfl rfl rfl, rfl, fun _ => .inl rs⟩
      | cons r readers =>
          cases ws : o.pWriters with
          | nil => exact ⟨faithful, Moves.nothing rfl rfl rfl rfl, rfl, fun _ => .inr ws⟩
          | cons w writers =>
              obtain ⟨fewer, same⟩ := round_rest (o := o) r w readers writers
              obtain ⟨faithful', moves, same', matched⟩ :=
                ih (round_faithful faithful r readers ws)
              refine ⟨faithful', (round_moves rs ws).trans moves, same'.trans same,
                fun fuel => matched ?_⟩
              rw [fewer]
              simpa using fuel

/-! ## The operations -/

/-- The counters and the readers say nothing of the stream, but for the pipe being closed. -/
theorem Faithful.congr (faithful : o.Faithful) {o' : Pipe} (log : o'.log = o.log)
    (out : o'.out = o.out) (writers : o'.pWriters = o.pWriters) (zeros : o'.zeros = o.zeros)
    (closed : o'.pNread = PIPE_CLOSED_FOR_READS ↔ o.pNread = PIPE_CLOSED_FOR_READS) :
    o'.Faithful := by
  refine ⟨?_, ?_, fun open_ => ?_, fun shut => ?_, ?_, ?_⟩
  · rw [log]
    exact faithful.inOrder
  · rw [log, out]
    exact faithful.out
  · rw [log, writers]
    exact faithful.queued fun shut => open_ (closed.mpr shut)
  · rw [writers]
    exact faithful.closed (closed.mp shut)
  · rw [writers]
    exact faithful.short
  · rw [zeros]
    exact faithful.zeros

theorem new_faithful : new.Faithful := by
  constructor <;> simp [new, InOrder, pending]

variable (h : Handle)

theorem queueWrite_faithful (faithful : o.Faithful) (open_ : o.pNread ≠ PIPE_CLOSED_FOR_READS)
    {segs : List Seg} (short : segs.length ≤ MSGSEGS) : (o.queueWrite h segs).Faithful := by
  refine ⟨faithful.inOrder.put h segs.flatten, ?_, fun _ => ?_, fun closed => absurd closed open_,
    fun w member => ?_, faithful.zeros⟩
  · simp only [queueWrite, reads_put, faithful.out]
  · simp only [queueWrite, pending_put, List.map_append, faithful.queued open_]
    rfl
  · rcases List.mem_append.mp member with old | new
    · exact faithful.short w old
    · rw [List.mem_singleton.mp new]
      exact short

theorem queueWrite_queue (segs : List Seg) :
    (o.queueWrite h segs).queue.Perm (h :: o.queue) := by
  rw [queue, queueWrite, List.map_append, ← List.append_assoc]
  exact List.perm_append_singleton _ _

theorem queueRead_queue (n : ℕ) : (o.queueRead h n).queue.Perm (h :: o.queue) := by
  rw [queue, queueRead, List.map_append, List.append_assoc]
  exact List.perm_middle

/-- **`pipe_write`.** -/
theorem write_spec (faithful : o.Faithful)
    (open_ : o.pNread ≠ PIPE_CLOSED_FOR_READS) {segs : List Seg} (short : segs.length ≤ MSGSEGS) :
    (o.write h segs).1.Faithful ∧ (o.write h segs).1.Matched ∧
      (o.queueWrite h segs).Moves (o.write h segs) ∧
      (o.write h segs).1.counters = o.counters := by
  have queued := queueWrite_faithful h faithful open_ short
  rw [write]
  split_ifs with nobody
  · exact ⟨queued, .inl nobody, Moves.nothing rfl rfl rfl rfl, rfl⟩
  · obtain ⟨faithful', moves, same, matched'⟩ :=
      runReaders_spec queued (o.queueWrite h segs).pReaders.length
    exact ⟨faithful', matched' le_rfl, moves, same⟩

/-- **`pipe_read`.** -/
theorem read_spec (faithful : o.Faithful) (n : ℕ) :
    (o.read h n).1.Faithful ∧ (o.read h n).1.Matched ∧ (o.queueRead h n).Moves (o.read h n) ∧
      (o.read h n).1.counters = o.counters := by
  have queued : (o.queueRead h n).Faithful := faithful.congr rfl rfl rfl rfl Iff.rfl
  rw [read]
  split_ifs with nobody
  · exact ⟨queued, .inr nobody, Moves.nothing rfl rfl rfl rfl, rfl⟩
  · obtain ⟨faithful', moves, same, matched⟩ :=
      runReaders_spec queued (o.queueRead h n).pReaders.length
    exact ⟨faithful', matched le_rfl, moves, same⟩

/-- **`pipe_abort`.** -/
theorem abort_faithful (faithful : o.Faithful) : (o.abort h).Faithful := by
  have out : o.out = (o.abort h).log.flatMap Write.read := by
    rw [abort]
    simp only
    split_ifs
    · rw [reads_dropAll, faithful.out]
    · exact faithful.out
  have keys : (o.pWriters.filter (·.who != h)).map Req.key =
      (o.pWriters.map Req.key).filter (·.1 != h) := by
    rw [List.filter_map]
    rfl
  refine ⟨?_, out, fun open_ => ?_, fun closed => ?_, fun w member => ?_, faithful.zeros⟩
  · rw [abort]
    simp only
    split_ifs
    · exact faithful.inOrder.dropAll _
    · exact faithful.inOrder
  · rw [abort]
    simp only
    split_ifs with among
    · rw [keys, ← faithful.queued open_, pending_dropAll, List.filter_map]
      rfl
    · rw [faithful.queued open_, List.filter_eq_self.mpr fun w member => ?_]
      simpa using fun same : w.who = h => among (same ▸ List.mem_map_of_mem member)
  · rw [abort]
    simp only [faithful.closed closed, List.filter_nil]
  · exact faithful.short w (List.mem_of_mem_filter member)

theorem abort_moves (nodup : o.queue.Nodup) (among : h ∈ o.queue) {r : Reply} (who : r.who = h)
    (bare : r.Bare) : o.Moves (o.abort h, [r]) := by
  refine ⟨?_, fun w member => List.mem_map_of_mem (List.mem_of_mem_filter member),
    .bare rfl rfl (by simpa using bare)⟩
  have rest : (o.abort h).queue = o.queue.erase h := by
    rw [nodup.erase_eq_filter, queue, queue, abort, List.filter_append, List.filter_map,
      List.filter_map]
    rfl
  rw [rest, List.map_singleton, who]
  exact (List.perm_cons_erase among).symm

theorem abort_matched (matched : o.Matched) : (o.abort h).Matched := by
  rcases matched with none_ | none_
  · exact .inl (by rw [abort, none_, List.filter_nil])
  · exact .inr (by rw [abort, none_, List.filter_nil])

/-- A reader goes. -/
theorem closeReader_spec (faithful : o.Faithful) (matched : o.Matched) (some_ : 0 < o.pNread) :
    o.closeReader.1.Faithful ∧ o.closeReader.1.Matched ∧ o.Moves o.closeReader := by
  have open_ : o.pNread ≠ -1 := by omega
  have open' : o.pNread - 1 ≠ -1 := by omega
  have fewer : Pipe.Faithful { o with pNread := o.pNread - 1 } :=
    faithful.congr rfl rfl rfl rfl (iff_of_false open' open_)
  rw [closeReader]
  split_ifs
  · exact ⟨fewer, matched, Moves.nothing rfl rfl rfl rfl⟩
  · exact ⟨fewer, matched, Moves.nothing rfl rfl rfl rfl⟩
  · refine ⟨⟨faithful.inOrder, faithful.out, fun open_ => absurd rfl open_, fun _ => rfl,
      fun w member => absurd member List.not_mem_nil, faithful.zeros⟩, .inr rfl, ?_, ?_,
      .bare rfl rfl fun r member => ?_⟩
    · simp only [queue, List.map_map, List.map_nil, List.append_nil]
      exact List.perm_append_comm
    · exact fun w member => absurd member List.not_mem_nil
    · obtain ⟨w, -, rfl⟩ := List.mem_map.mp member
      exact ⟨rfl, rfl⟩

/-- A writer goes. -/
theorem closeWriter_spec (faithful : o.Faithful) (matched : o.Matched) (some_ : 0 < o.pNwrite)
    (last : o.pNwrite = 1 → o.pWriters = []) :
    o.closeWriter.1.Faithful ∧ o.closeWriter.1.Matched ∧ o.Moves o.closeWriter := by
  rw [closeWriter]
  split_ifs with left
  · exact ⟨faithful.congr rfl rfl rfl rfl Iff.rfl, matched, Moves.nothing rfl rfl rfl rfl⟩
  · have one : o.pNwrite = 1 := by
      simp only at left
      omega
    refine ⟨⟨faithful.inOrder, faithful.out, faithful.queued, faithful.closed, faithful.short,
      fun z member => ?_⟩, .inl rfl, ?_, fun w member => List.mem_map_of_mem member, ?_, ?_⟩
    · rcases List.mem_append.mp member with new | old
      · obtain ⟨r, -, rfl⟩ := List.mem_map.mp new
        exact ⟨by simp only [one]; rfl, by rw [last one, List.map_nil]⟩
      · exact faithful.zeros z old
    · simp only [queue, List.map_map, List.map_nil, List.nil_append]
      exact List.Perm.refl _
    · rw [List.flatMap_eq_nil_iff.mpr, List.append_nil]
      intro r member
      obtain ⟨reader, -, rfl⟩ := List.mem_map.mp member
      rfl
    · rw [List.length_append, List.length_map, List.countP_eq_length.mpr, List.length_map,
        Nat.add_comm]
      intro r member
      obtain ⟨reader, -, rfl⟩ := List.mem_map.mp member
      rfl

theorem atEof_faithful (faithful : o.Faithful) (none_ : o.pNwrite = 0)
    (nothing : o.pWriters = []) : o.atEof.Faithful := by
  refine ⟨faithful.inOrder, faithful.out, faithful.queued, faithful.closed, faithful.short,
    fun z member => ?_⟩
  rcases List.mem_cons.mp member with rfl | old
  · exact ⟨none_, by rw [nothing, List.map_nil]⟩
  · exact faithful.zeros z old

end Pipe

end Vsta.Pipeserver
