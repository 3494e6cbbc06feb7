import Vsta.Vstafs.FileRuns

/-!
# The last close of a vstafs file

While a file is open its header counts sectors that are only allocated ahead; the last close is to
cut the file back to what it was or what has been written. Whether it does depends on the
client that closes last: one that may not write leaves the file as it is. And it depends on the
length: a write that straddles it is beyond it, and then `file_shrink` would have to grow the file.
-/

set_option autoImplicit false

namespace Vsta.Vstafs.Bytes

namespace State

variable {all : Multiset ℕ} {s s' : State}

/-! ## The highest position written -/

/-- No segment of a write is empty and beyond what has been written: it would count as written. -/
def NoneBeyond (s : State) (fPos : ℕ) (segs : List (List UChar)) : Prop :=
  segs.head? = some [] → ∀ o, s.node = some o → fPos ≤ o.oHiwrite

/-- The condition on the requests of a history. -/
def Counted (s : State) (req : Request) : Prop :=
  s.InReach req ∧ match req with
    | .write who _ segs => ∀ f, s.clients.lookup who = some f → s.NoneBeyond f.fPos segs
    | .absWrite _ _ segs mArg1 => s.NoneBeyond (mArg1.toNat + OFF_DATA) segs
    | _ => True

theorem writeSegs_cnt_le {env : ℕ → SegOutcome} {disk : Disk} {fs : FsFile} {oHiwrite fPos : ℕ}
    {segs : List (List UChar)} {w : Written}
    (loop : writeSegs env disk fs oHiwrite fPos segs = some w) : w.cnt ≤ segs.flatten.length := by
  induction segs generalizing env disk fs oHiwrite fPos w with
  | nil =>
      simp only [writeSegs, Option.some.injEq] at loop
      subst loop
      exact le_rfl
  | cons seg rest ih =>
      rcases writeSegs_cons loop with ⟨none, -⟩ | ⟨disk₁, fs₁, w₁, -, rest₁, rfl⟩
      · rw [none]
        exact Nat.zero_le _
      · have := ih rest₁
        rw [List.flatten_cons, List.length_append]
        exact le_trans (Nat.mod_le _ _) (by omega)

/-- The high-water mark follows what is acknowledged. -/
theorem writeSegs_oHiwrite {env : ℕ → SegOutcome} {disk : Disk} {fs : FsFile} {oHiwrite fPos : ℕ}
    {segs : List (List UChar)} {w : Written} (within : Within (fPos + segs.flatten.length))
    (noneBeyond : segs.head? = some [] → fPos ≤ oHiwrite)
    (loop : writeSegs env disk fs oHiwrite fPos segs = some w) :
    w.oHiwrite = if w.cnt = 0 then oHiwrite else max oHiwrite (fPos + w.cnt) := by
  induction segs generalizing env disk fs oHiwrite fPos w with
  | nil =>
      simp only [writeSegs, Option.some.injEq] at loop
      subst loop
      simp
  | cons seg rest ih =>
      rw [List.flatten_cons, List.length_append] at within
      rcases writeSegs_cons loop with ⟨none, mark, -⟩ | ⟨disk₁, fs₁, w₁, -, rest₁, rfl⟩
      · rw [mark, if_pos none]
      · rw [Within.word_eq (within.mono (by omega))] at rest₁
        have atMost := writeSegs_cnt_le rest₁
        have count : word (seg.length + w₁.cnt) = seg.length + w₁.cnt :=
          (within.mono (by omega)).word_eq
        have mark := ih (by rwa [Nat.add_assoc]) (fun _ => le_max_right _ _) rest₁
        simp only [count, mark]
        by_cases empty : seg = []
        · -- an empty segment leaves the mark alone
          have low := noneBeyond (by simp [empty])
          subst empty
          simp [low]
        · have some_ := List.length_pos_iff.mpr empty
          split_ifs <;> omega

/-- The high-water mark of an open file is the length the file should have. -/
def Marked (s : State) : Prop :=
  ∀ o, s.node = some o → o.oHiwrite = s.flat.len ∧ OFF_DATA ≤ s.flat.len

theorem Marked.vfsWrite (marked : s.Marked) {who : Handle}
    {f : File} {env : ℕ → SegOutcome} {segs : List (List UChar)} {reply : Reply}
    (within : Within (f.fPos + segs.flatten.length)) (noneBeyond : s.NoneBeyond f.fPos segs)
    (write : s.vfsWrite who f env segs = some (s', reply)) : s'.Marked := by
  obtain rfl | ⟨o, w, node, loop, rfl⟩ := vfsWrite_cases write
  · exact marked
  · have mark := writeSegs_oHiwrite within (fun empty => noneBeyond empty o node) loop
    intro o' node'
    obtain rfl := Option.some.inj node'
    obtain ⟨same, header⟩ := marked o node
    simp only [mark, same, setFile_flat, Flat.write]
    exact ⟨trivial, by split_ifs <;> omega⟩

theorem Marked.vfsRead (intact : s.Intact all) (marked : s.Marked) {who : Handle} {f : File}
    {env : SegOutcome} {mArg : ULong} {reply : Reply}
    (read : s.vfsRead who f env mArg = some (s', reply)) : s'.Marked := by
  obtain rfl | ⟨cnt, rfl⟩ := intact.vfsRead_cases read
  · exact marked
  · exact marked

theorem Marked.derefNode (marked : s.Marked) {o : OpenFile} (node : s.node = some o) :
    (s.derefNode o).Marked := by
  intro o' node'
  simp only [State.derefNode] at node'
  split_ifs at node' with last
  obtain rfl := Option.some.inj node'
  exact marked o node

theorem Marked.deadClient (intact : s.Intact all) (marked : s.Marked) {who : Handle}
    (dead : s.deadClient who = some s') : s'.Marked := by
  obtain ⟨f, known, -⟩ := Option.bind_eq_some_iff.mp dead
  obtain ⟨o, node⟩ := intact.node_some known
  rw [intact.deadClient_eq known node] at dead
  split_ifs at dead
  · obtain ⟨result, -, rfl⟩ := Option.map_eq_some_iff.mp dead
    exact Marked.derefNode (s := { s with
      clients := s.clients.delete who, disk := result.1, fs := result.2 }) marked node
  · cases dead
    exact Marked.derefNode (s := { s with clients := s.clients.delete who }) marked node

/-- A first open takes the length for the mark, another one leaves the mark. -/
theorem Marked.vfsOpen (intact : s.Intact all) (marked : s.Marked) {who : Handle} {fPos : ℕ}
    {fPerm : ULong} : (s.vfsOpen who fPos fPerm).Marked := by
  intro o' node'
  rw [State.vfsOpen, getNode] at node' ⊢
  cases node : s.node with
  | none =>
      simp only [node, Option.some.injEq] at node' ⊢
      subst node'
      exact ⟨rfl, intact.laid.header⟩
  | some o =>
      simp only [node, Option.some.injEq] at node' ⊢
      subst node'
      exact marked o node

theorem Marked.dupClient (marked : s.Marked) {who new : Handle}
    (dup : s.dupClient who new = some s') : s'.Marked := by
  obtain ⟨f, -, rfl⟩ := Option.map_eq_some_iff.mp dup
  intro o' node'
  simp only [refNode, Option.map_eq_some_iff] at node'
  obtain ⟨o, node, rfl⟩ := node'
  exact marked o node

/-- **The high-water mark is the length the file should have, in every state.** -/
theorem Marked.step (intact : s.Intact all) (marked : s.Marked) {req : Request}
    (counted : s.Counted req) (step : s.Step req s') : s'.Marked := by
  obtain ⟨-, reply, served⟩ := step
  cases req with
  | open_ who fPos fPerm =>
      cases served
      exact marked.vfsOpen intact
  | dup who new =>
      simp only [serve, Option.map_eq_some_iff, Prod.mk.injEq] at served
      obtain ⟨_, dup, rfl, -⟩ := served
      exact marked.dupClient dup
  | disconnect who =>
      simp only [serve, Option.map_eq_some_iff, Prod.mk.injEq] at served
      obtain ⟨_, dead, rfl, -⟩ := served
      exact marked.deadClient intact dead
  | seek who mArg =>
      simp only [serve, Option.map_eq_some_iff] at served
      obtain ⟨f, -, sought⟩ := served
      rw [vfsSeek] at sought
      split_ifs at sought
      · cases sought
        exact marked
      · cases sought
        exact marked
  | read who env mArg =>
      obtain ⟨f, -, read⟩ := Option.bind_eq_some_iff.mp served
      exact marked.vfsRead intact read
  | absRead who env mArg mArg1 =>
      obtain ⟨f, -, served⟩ := Option.bind_eq_some_iff.mp served
      obtain rfl | ⟨-, read⟩ := absolute_cases served
      · exact marked
      · exact Marked.vfsRead (intact.setFile (Nat.le_add_left _ _)) marked read
  | write who env segs =>
      obtain ⟨f, known, write⟩ := Option.bind_eq_some_iff.mp served
      exact marked.vfsWrite (counted.1 f known) (counted.2 f known) write
  | absWrite who env segs mArg1 =>
      obtain ⟨f, -, served⟩ := Option.bind_eq_some_iff.mp served
      obtain rfl | ⟨-, write⟩ := absolute_cases served
      · exact marked
      · have within : Within ({ f with fPos := mArg1.toNat + OFF_DATA }.fPos +
            segs.flatten.length) := counted.1
        exact Marked.vfsWrite (s := s.setFile who _) marked within counted.2 write
  | others disk =>
      cases served
      exact marked

/-! ## The last close -/

/-- What the last close is to leave: nobody has the file, its length is the length at the first open
or the highest position written, its extents hold the sectors of that length, and the sectors
behind them are back on the free list. -/
structure Trimmed (s s' : State) : Prop where
  unreferenced : s'.node = none ∧ s'.clients = []
  len_eq : s'.fs.fsLen = s.flat.len
  sectors_length : (sectors s'.fs.fsBlks).length = btors s'.fs.fsLen
  returned : ∃ returned, sectors s.fs.fsBlks = sectors s'.fs.fsBlks ++ returned ∧
    s'.disk.free = s.disk.free + returned

theorem Closed.marked (closed : s.Closed) : s.Marked := by simp [Marked, closed.node]

/-- **The last close trims the file exactly when its client may write and the high-water mark is not
beyond the length, or the length is at the mark already.** -/
theorem final_close_trims {s₀ : State} (closed : s₀.Closed)
    (run : Transition.Reaches Step Counted s₀ s) {who : Handle} {f : File} {o : OpenFile}
    (known : s.clients.lookup who = some f) (node : s.node = some o) (last : o.oRefs = 1) :
    (∃ s', s.deadClient who = some s' ∧ Trimmed s s' ∧
        total s'.disk s'.fs = total s₀.disk s₀.fs) ↔
      if has f.fPerm ACC_WRITE = true then o.oHiwrite ≤ s.fs.fsLen
      else s.fs.fsLen = o.oHiwrite := by
  have intact := closed.intact_of_run (run.mono fun _ _ counted => counted.1)
  have marked : s.Marked :=
    run.invariant_on_run closed.marked fun _ _ _ before marked counted step =>
      marked.step (closed.intact_of_run (before.mono fun _ _ counted => counted.1)) counted step
  obtain ⟨same, header⟩ := marked o node
  have nobody : s.clients.delete who = [] := List.eq_nil_of_length_eq_zero (by
    have := Hash.length_delete known
    have := (intact.refs o node).1
    omega)
  rw [intact.deadClient_eq known node, nobody]
  by_cases writes : has f.fPerm ACC_WRITE = true
  · rw [if_pos ⟨last, writes⟩, if_pos writes]
    constructor
    · rintro ⟨s', dead, -⟩
      obtain ⟨result, shrink, -⟩ := Option.map_eq_some_iff.mp dead
      by_contra beyond
      rw [fileShrink, if_pos (by omega)] at shrink
      cases shrink
    · intro below
      obtain ⟨disk, fs, returned, shrink, len, laid, split, freed⟩ :=
        fileShrink_trims s.disk intact.laid (by rwa [same]) below
      refine ⟨_, by rw [shrink]; rfl, ⟨⟨by simp [derefNode, last], rfl⟩, ?_, laid.sectors_length,
        returned, split, freed.free_eq⟩, (total_freed split freed).trans intact.total_eq⟩
      exact len.trans same
  · rw [if_neg fun both => writes both.2, if_neg writes]
    constructor
    · rintro ⟨s', dead, trimmed, -⟩
      obtain rfl := Option.some.inj dead
      exact trimmed.len_eq.trans same.symm
    · intro exactly
      exact ⟨_, rfl, ⟨⟨by simp [derefNode, last], rfl⟩, exactly.trans same,
        intact.laid.sectors_length, [], by simp [derefNode], by simp [derefNode]⟩, intact.total_eq⟩

/-! ## A reader closes last -/

/-- A file of one full sector, two free sectors behind it. -/
def fullSector : State :=
  ⟨⟨{11, 12}, 0, fun _ => 0⟩, ⟨512, [⟨10, 1⟩]⟩, none, [], ⟨0, fun _ => none⟩⟩

/-- `take_block` gives the two sectors. -/
def twoSectors : SegOutcome := ⟨true, fun _ => ⟨2, true, 0, true⟩⟩

/-- The file with a writer, 1, and a reader, 2. -/
def twoClients : State := (fullSector.vfsOpen 1 320 6).vfsOpen 2 320 4

/-- The disk after the byte 7 is written behind the sector. -/
def appendedDisk : Disk := (unfree fullSector.disk ⟨11, 2⟩).bcopy [7] 5632

theorem append_take : takeBlock 2 fullSector.disk 11 128 = (unfree fullSector.disk ⟨11, 2⟩, 2) := by
  have isFree : (↑(⟨11, 2⟩ : Alloc).run : Multiset ℕ) ≤ fullSector.disk.free := by decide
  rw [takeBlock]
  exact if_pos isFree

theorem append_grow : fileGrow ⟨2, true, 0, true⟩ fullSector.disk fullSector.fs 2 =
    some (unfree fullSector.disk ⟨11, 2⟩, ⟨1536, [⟨10, 3⟩]⟩, true) := by
  have last : fullSector.fs.fsBlks.getLast? = some ⟨10, 1⟩ := rfl
  have size : btors fullSector.fs.fsLen = 1 := rfl
  simp only [fileGrow, last, size]
  rfl

theorem append_bmap : bmap ⟨2, true, 0, true⟩ fullSector.disk fullSector.fs 512 1 =
    some (unfree fullSector.disk ⟨11, 2⟩, ⟨1536, [⟨10, 3⟩]⟩, some (5632, 1)) := by
  have beyond : fullSector.fs.fsLen ≤ 512 := le_rfl
  have size : btors (word (512 + 1)) = 2 := by decide
  have more : btors fullSector.fs.fsLen < 2 := by decide
  have located : extentOf [⟨10, 3⟩] (btos 512) = some (⟨10, 3⟩, 1) := by decide
  have here : blkp ⟨10, 3⟩ 1 512 1 = (5632, 1) := by decide
  rw [bmap.eq_def, bmapGrow, if_pos beyond]
  simp only [size, if_pos more, append_grow, located, here]
  rfl

theorem append_loop : writeLoop twoSectors.calls fullSector.disk fullSector.fs 512 [7] =
    some (appendedDisk, ⟨1536, [⟨10, 3⟩]⟩, 0) := by
  have map : bmap (twoSectors.calls 0) fullSector.disk fullSector.fs 512 [(7 : UChar)].length =
      some (unfree fullSector.disk ⟨11, 2⟩, ⟨1536, [⟨10, 3⟩]⟩, some (5632, 1)) := append_bmap
  rw [writeLoop.eq_def, map]
  simp only
  rw [writeLoop.eq_def]
  rfl

theorem append_segs : writeSegs (fun _ => twoSectors) fullSector.disk fullSector.fs 512 512 [[7]] =
    some ⟨appendedDisk, ⟨1536, [⟨10, 3⟩]⟩, 513, 513, 1, false, 1⟩ := by
  have header : (!twoSectors.header) = false := rfl
  rw [writeSegs]
  simp only [header, append_loop]
  rfl

/-- The byte is written: the file has three sectors now. -/
def appended : State :=
  ⟨appendedDisk, ⟨1536, [⟨10, 3⟩]⟩, some ⟨513, 2, false⟩, [(2, ⟨320, 4⟩), (1, ⟨513, 6⟩)],
    fullSector.found.write 512 1 [7]⟩

theorem append_serve : twoClients.serve (.absWrite 1 (fun _ => twoSectors) [[7]] 192) =
    some (appended, .count 1) := by
  have position : word ((192 : ULong).toNat + OFF_DATA) = 512 := by decide
  have known : twoClients.clients.lookup 1 = some ⟨320, 6⟩ := by decide
  have sign : (192 : ULong).slt 0 = false := by decide
  have permitted : (!has 6 ACC_WRITE) = false := by decide
  have node : (twoClients.setFile 1 ⟨512, 6⟩).node = some ⟨512, 2, false⟩ := rfl
  have loop : writeSegs (fun _ => twoSectors) (twoClients.setFile 1 ⟨512, 6⟩).disk
      (twoClients.setFile 1 ⟨512, 6⟩).fs 512 512 [[7]] =
        some ⟨appendedDisk, ⟨1536, [⟨10, 3⟩]⟩, 513, 513, 1, false, 1⟩ := append_segs
  simp only [serve, known, Option.bind_some, absolute, position, sign]
  rw [if_neg (by simp), State.vfsWrite, node]
  simp only [permitted, loop]
  rfl

/-- The writer leaves. -/
def readerLeft : State :=
  { appended with node := some ⟨513, 1, false⟩, clients := [(2, ⟨320, 4⟩)] }

theorem fullSector_closed : fullSector.Closed where
  laid := ⟨by decide, by decide, by decide, by decide⟩
  apart := by decide
  node := rfl
  clients := rfl

theorem run_appended : Transition.Reaches Step Counted fullSector appended := by
  have first : fullSector.Step (.open_ 1 320 6) (fullSector.vfsOpen 1 320 6) :=
    ⟨⟨rfl, le_rfl⟩, _, rfl⟩
  have second : (fullSector.vfsOpen 1 320 6).Step (.open_ 2 320 4) twoClients :=
    ⟨⟨by decide, le_rfl⟩, _, rfl⟩
  have third : twoClients.Step (.absWrite 1 (fun _ => twoSectors) [[7]] 192) appended :=
    ⟨trivial, _, append_serve⟩
  have reach : twoClients.Counted (.absWrite 1 (fun _ => twoSectors) [[7]] 192) :=
    ⟨by simp only [InReach, Within]; decide, fun empty => by simp at empty⟩
  exact (((Transition.Reaches.refl _).tail ⟨trivial, trivial⟩ first).tail ⟨trivial, trivial⟩
    second).tail reach third

/-- A client that leaves meets the condition. -/
theorem counted_disconnect (s : State) (who : Handle) : s.Counted (.disconnect who) :=
  ⟨trivial, trivial⟩

theorem run_readerLeft : Transition.Reaches Step Counted fullSector readerLeft :=
  run_appended.tail (counted_disconnect _ 1) ⟨trivial, .count 0, rfl⟩

/-- A reader closes last: the length stays that of the sectors taken ahead, 1536, though the last
byte written is at 512. -/
theorem reader_closes_last : Transition.Reaches Step Counted fullSector readerLeft ∧
    readerLeft.flat.len = 513 ∧ ∃ s', readerLeft.deadClient 2 = some s' ∧ s'.node = none ∧
      s'.fs.fsLen = 1536 ∧ ¬Trimmed readerLeft s' :=
  ⟨run_readerLeft, rfl, _, rfl, rfl, rfl, fun trimmed => by
    have := trimmed.len_eq
    revert this
    decide⟩

/-- The same file with the writer closing last. -/
def writerLeft : State :=
  { appended with node := some ⟨513, 1, false⟩, clients := [(1, ⟨513, 6⟩)] }

theorem run_writerLeft : Transition.Reaches Step Counted fullSector writerLeft :=
  run_appended.tail (counted_disconnect _ 2) ⟨trivial, .count 0, rfl⟩

/-- The writer closes last: two sectors stay, one goes back. -/
theorem writer_closes_last : ∃ s', writerLeft.deadClient 1 = some s' ∧ Trimmed writerLeft s' ∧
    total s'.disk s'.fs = total fullSector.disk fullSector.fs := by
  have known : writerLeft.clients.lookup 1 = some ⟨513, 6⟩ := rfl
  exact (final_close_trims fullSector_closed run_writerLeft known rfl rfl).mpr (by decide)

end State

end Vsta.Vstafs.Bytes
