import Vsta.Vstafs.FinalClose

/-!
# A vstafs file against a flat array of bytes

What clients that share a file read of each other's writes. A byte that is in the flat array is
read back from its position. The length the code reads up to is that of the sectors allocated
ahead, so that a read behind the last byte written is answered with what is on the disk there. The
length covers what has been written, but for a write that straddles it.
-/

set_option autoImplicit false

namespace Vsta.Vstafs.Bytes

namespace State

variable {all : Multiset ℕ} {s s' : State}

/-! ## The length covers what is written -/

/-- No segment of a write ends beyond the length but in the last sector. -/
def NoneStraddles (s : State) (fPos : ℕ) (segs : List (List UChar)) : Prop :=
  ∀ n, ¬Straddles s.fs fPos (fPos + (segs.take n).flatten.length)

/-- The condition on the requests of a history whose writes are covered. -/
def Clear (s : State) (req : Request) : Prop :=
  s.InReach req ∧ match req with
    | .write who _ segs => ∀ f, s.clients.lookup who = some f → s.NoneStraddles f.fPos segs
    | .absWrite _ _ segs mArg1 => s.NoneStraddles (mArg1.toNat + OFF_DATA) segs
    | _ => True

/-- The length is beyond all that is acknowledged. -/
def Covered (s : State) : Prop := s.node ≠ none → s.flat.len ≤ s.fs.fsLen

/-- What is acknowledged ends with a segment. -/
theorem writeSegs_cnt {env : ℕ → SegOutcome} {disk : Disk} {fs : FsFile} {oHiwrite fPos : ℕ}
    {segs : List (List UChar)} {w : Written} (within : Within (fPos + segs.flatten.length))
    (loop : writeSegs env disk fs oHiwrite fPos segs = some w) :
    ∃ n, w.cnt = (segs.take n).flatten.length := by
  induction segs generalizing env disk fs oHiwrite fPos w with
  | nil =>
      simp only [writeSegs, Option.some.injEq] at loop
      subst loop
      exact ⟨0, rfl⟩
  | cons seg rest ih =>
      rw [List.flatten_cons, List.length_append] at within
      rcases writeSegs_cons loop with ⟨none, -⟩ | ⟨disk₁, fs₁, w₁, -, rest₁, rfl⟩
      · exact ⟨0, none⟩
      · rw [Within.word_eq (within.mono (by omega))] at rest₁
        obtain ⟨n, count⟩ := ih (by rwa [Nat.add_assoc]) rest₁
        have atMost := writeSegs_cnt_le rest₁
        refine ⟨n + 1, ?_⟩
        simp only [List.take_succ_cons, List.flatten_cons, List.length_append, ← count]
        exact (within.mono (by omega)).word_eq

theorem Covered.vfsWrite (apart : all.Nodup) (intact : s.Intact all) (covered : s.Covered)
    {who : Handle} {f : File} {env : ℕ → SegOutcome} {segs : List (List UChar)} {reply : Reply}
    (within : Within (f.fPos + segs.flatten.length)) (clear : s.NoneStraddles f.fPos segs)
    (write : s.vfsWrite who f env segs = some (s', reply)) : s'.Covered := by
  obtain rfl | ⟨o, w, node, loop, rfl⟩ := vfsWrite_cases write
  · exact covered
  · intro _
    obtain ⟨-, -, -, longer, -, -, covers⟩ :=
      writeSegs_writes intact.laid within (by rwa [intact.total_eq]) loop
    obtain ⟨n, count⟩ := writeSegs_cnt within loop
    have before := covered (by simp [node])
    have grows := longer.longer
    simp only [setFile_flat, setFile_fs, Flat.write]
    by_cases none : w.cnt = 0
    · rw [if_pos none]
      omega
    · rw [if_neg none]
      rcases covers (Nat.pos_of_ne_zero none) with below | straddles
      · omega
      · rw [count] at straddles
        exact absurd straddles (clear n)

theorem Covered.vfsRead (intact : s.Intact all) (covered : s.Covered) {who : Handle} {f : File}
    {env : SegOutcome} {mArg : ULong} {reply : Reply}
    (read : s.vfsRead who f env mArg = some (s', reply)) : s'.Covered := by
  obtain rfl | ⟨cnt, rfl⟩ := intact.vfsRead_cases read
  · exact covered
  · exact covered

theorem Covered.derefNode (covered : s.Covered) {o : OpenFile} (node : s.node = some o) :
    (s.derefNode o).Covered := fun _ => covered (by simp [node])

/-- The last client may cut the file back, but then nobody has it open. -/
theorem Covered.deadClient (intact : s.Intact all) (covered : s.Covered) {who : Handle}
    (dead : s.deadClient who = some s') : s'.Covered := by
  obtain ⟨f, known, -⟩ := Option.bind_eq_some_iff.mp dead
  obtain ⟨o, node⟩ := intact.node_some known
  rw [intact.deadClient_eq known node] at dead
  split_ifs at dead with trims
  · obtain ⟨result, -, rfl⟩ := Option.map_eq_some_iff.mp dead
    intro isOpen
    simp [State.derefNode, trims.1] at isOpen
  · cases dead
    exact Covered.derefNode (s := { s with clients := s.clients.delete who }) covered node

theorem Covered.vfsOpen (covered : s.Covered) {who : Handle} {fPos : ℕ} {fPerm : ULong} :
    (s.vfsOpen who fPos fPerm).Covered := by
  intro _
  rw [State.vfsOpen, getNode]
  cases node : s.node with
  | none => exact le_rfl
  | some o => exact covered (by simp [node])

theorem Covered.dupClient (covered : s.Covered) {who new : Handle}
    (dup : s.dupClient who new = some s') : s'.Covered := by
  obtain ⟨f, -, rfl⟩ := Option.map_eq_some_iff.mp dup
  intro isOpen
  exact covered fun none => isOpen (by simp [refNode, none])

/-- **The length stays beyond all that is acknowledged while no write straddles it.** -/
theorem Covered.step (apart : all.Nodup) (intact : s.Intact all) (covered : s.Covered)
    {req : Request} (clear : s.Clear req) (step : s.Step req s') : s'.Covered := by
  obtain ⟨-, reply, served⟩ := step
  cases req with
  | open_ who fPos fPerm =>
      cases served
      exact covered.vfsOpen
  | dup who new =>
      simp only [serve, Option.map_eq_some_iff, Prod.mk.injEq] at served
      obtain ⟨_, dup, rfl, -⟩ := served
      exact covered.dupClient dup
  | disconnect who =>
      simp only [serve, Option.map_eq_some_iff, Prod.mk.injEq] at served
      obtain ⟨_, dead, rfl, -⟩ := served
      exact covered.deadClient intact dead
  | seek who mArg =>
      simp only [serve, Option.map_eq_some_iff] at served
      obtain ⟨f, -, sought⟩ := served
      rw [vfsSeek] at sought
      split_ifs at sought
      · cases sought
        exact covered
      · cases sought
        exact covered
  | read who env mArg =>
      obtain ⟨f, -, read⟩ := Option.bind_eq_some_iff.mp served
      exact covered.vfsRead intact read
  | absRead who env mArg mArg1 =>
      obtain ⟨f, -, served⟩ := Option.bind_eq_some_iff.mp served
      obtain rfl | ⟨-, read⟩ := absolute_cases served
      · exact covered
      · exact Covered.vfsRead (intact.setFile (Nat.le_add_left _ _)) covered read
  | write who env segs =>
      obtain ⟨f, known, write⟩ := Option.bind_eq_some_iff.mp served
      exact covered.vfsWrite apart intact (clear.1 f known) (clear.2 f known) write
  | absWrite who env segs mArg1 =>
      obtain ⟨f, -, served⟩ := Option.bind_eq_some_iff.mp served
      obtain rfl | ⟨-, write⟩ := absolute_cases served
      · exact covered
      · have within : Within ({ f with fPos := mArg1.toNat + OFF_DATA }.fPos +
            segs.flatten.length) := clear.1
        exact Covered.vfsWrite (s := s.setFile who _) apart (intact.setFile (Nat.le_add_left _ _))
          covered within clear.2 write
  | others disk =>
      cases served
      exact covered

theorem Closed.covered_of_run {s₀ : State} (closed : s₀.Closed)
    (run : Transition.Reaches Step Clear s₀ s) : s.Covered :=
  run.invariant_on_run (fun isOpen => absurd closed.node isOpen)
    fun _ _ _ before covered clear step => covered.step closed.apart
      (closed.intact_of_run (before.mono fun _ _ clear => clear.1)) clear step

/-! ## What a read returns -/

/-- A request to read at a position: the client's own, or one that comes with the request. -/
def ReadsAt (who : Handle) (f : File) (env : SegOutcome) (mArg : ULong) (pos : ℕ) (req : Request) :
    Prop :=
  (req = .read who env mArg ∧ pos = f.fPos) ∨
    ∃ mArg1, req = .absRead who env mArg mArg1 ∧ mArg1.slt 0 = false ∧
      pos = mArg1.toNat + OFF_DATA

/-- An answer to a read at a position is from a flat array: a prefix of what the array and
the length of the file have there, `lim` bytes wanted. -/
structure FromFlat (s : State) (env : SegOutcome) (pos lim : ℕ) (segs : List (List UChar)) :
    Prop where
  /-- A byte that is in the array is the one that is returned. -/
  bytes : ∀ i, i < segs.flatten.length → ∀ byte, s.flat.bytes (pos + i) = some byte →
    segs.flatten[i]? = some byte
  /-- No more than is wanted and the file has. -/
  atMost : segs.flatten.length ≤ min lim (s.fs.fsLen - pos)
  /-- Something, if there is something and a buffer for it. -/
  someByte : 0 < lim → pos < s.fs.fsLen → (env.calls 0).found = true → 0 < segs.flatten.length
  /-- All, or as much as fits an answer, if there are all buffers. -/
  whole : (∀ call, (env.calls call).found = true) →
    segs.flatten.length = min lim (s.fs.fsLen - pos) ∨ segs.length = MSGSEGS

theorem Intact.vfsRead_flat (intact : s.Intact all) (isOpen : s.node ≠ none) (who : Handle)
    {f : File} {env : SegOutcome} (mArg : ULong) (permitted : has f.fPerm ACC_READ = true)
    (header : env.header = true) :
    ∃ s' segs, s.vfsRead who f env mArg = some (s', .segs segs) ∧
      FromFlat s env f.fPos mArg.toNat segs := by
  rw [State.vfsRead, if_neg (by simp [header]), if_neg (by rw [permitted]; simp)]
  by_cases eof : s.fs.fsLen ≤ f.fPos
  · rw [if_pos eof]
    exact ⟨s, [], rfl, by simp, by simp, fun _ inside => by omega, fun _ => .inl (by
      rw [Nat.sub_eq_zero_of_le eof]
      simp)⟩
  · rw [if_neg eof]
    obtain ⟨segs, reads, fewer, bytes, someByte, whole⟩ := readLoop_reads env.calls s.disk MSGSEGS
      f.fPos (min mArg.toNat (s.fs.fsLen - f.fPos)) intact.laid (by omega)
    refine ⟨_, segs, Option.map_eq_some_iff.mpr ⟨_, reads, rfl⟩, fun i inside byte known => ?_,
      fewer, fun wanted inside => someByte (by omega) (by decide), whole⟩
    rw [bytes i inside]
    exact intact.holds isOpen _ byte known

theorem run_appended_inReach : Transition.Reaches Step InReach fullSector appended :=
  run_appended.mono fun _ _ counted => counted.1

theorem lookup_reader : appended.clients.lookup 2 = some ⟨320, 4⟩ := rfl

end State

end Vsta.Vstafs.Bytes
