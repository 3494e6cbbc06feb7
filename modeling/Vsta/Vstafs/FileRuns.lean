import Vsta.Library.Runs
import Vsta.Vstafs.OpenFile

/-!
# Runs of requests on one file of vstafs

What every run keeps, whatever clients open the file, read, write and close it: the header fits
its sectors, no sector is lost or in two places, the node counts its clients, and the file
has every byte of the flat array at its place (`Intact`). The one condition is on where writes end:
a length beyond 32 bits is cut, so a write has to end where the file can still grow.
-/

set_option autoImplicit false

namespace Vsta.Vstafs.Bytes

/-! ## A message's segments -/

/-- One round of the loop of `vfs_write`: it stops at the segment, or the segment is written whole
and the loop goes on. -/
theorem State.writeSegs_cons {env : ℕ → State.SegOutcome} {disk : Disk} {fs : FsFile}
    {oHiwrite fPos : ℕ} {seg : List UChar} {rest : List (List UChar)} {w : State.Written}
    (loop : State.writeSegs env disk fs oHiwrite fPos (seg :: rest) = some w) :
    (w.cnt = 0 ∧ w.oHiwrite = oHiwrite ∧ w.fPos = fPos ∧
      ((w.disk = disk ∧ w.fs = fs ∧ w.put = 0) ∨
        ∃ left, 0 < left ∧ writeLoop (env 0).calls disk fs fPos seg = some (w.disk, w.fs, left) ∧
          w.put = seg.length - left)) ∨
      ∃ disk₁ fs₁ w₁, writeLoop (env 0).calls disk fs fPos seg = some (disk₁, fs₁, 0) ∧
        State.writeSegs (fun x => env (x + 1)) disk₁ fs₁ (max oHiwrite (word (fPos + seg.length)))
          (word (fPos + seg.length)) rest = some w₁ ∧
        w = { w₁ with cnt := word (seg.length + w₁.cnt), put := seg.length + w₁.put } := by
  rw [State.writeSegs] at loop
  by_cases noHeader : (!(env 0).header) = true
  · rw [if_pos noHeader, Option.some.injEq] at loop
    subst loop
    exact .inl ⟨rfl, rfl, rfl, .inl ⟨rfl, rfl, rfl⟩⟩
  rw [if_neg noHeader] at loop
  cases write : writeLoop (env 0).calls disk fs fPos seg with
  | none => simp [write] at loop
  | some result =>
      obtain ⟨disk₁, fs₁, left⟩ := result
      simp only [write] at loop
      by_cases failed : 0 < left
      · rw [if_pos failed, Option.some.injEq] at loop
        subst loop
        exact .inl ⟨rfl, rfl, rfl, .inr ⟨left, failed, rfl, rfl⟩⟩
      · obtain rfl : left = 0 := by omega
        have mark (p : ℕ) : (if oHiwrite < p then p else oHiwrite) = max oHiwrite p := by
          split_ifs <;> omega
        rw [if_neg failed, mark, Option.map_eq_some_iff] at loop
        obtain ⟨w₁, rest₁, rfl⟩ := loop
        exact .inr ⟨disk₁, fs₁, w₁, rfl, rest₁, rfl⟩

/-- **What `vfs_write` leaves of a file**: a prefix of the message is at the client's position, what
is acknowledged is part of it, and the length covers what is acknowledged but for a write that
straddles it. -/
theorem State.writeSegs_writes {env : ℕ → State.SegOutcome} {disk : Disk} {fs : FsFile}
    {oHiwrite fPos : ℕ} {segs : List (List UChar)} {w : State.Written} (laid : Laid fs)
    (within : Within (fPos + segs.flatten.length)) (apart : (total disk fs).Nodup)
    (loop : State.writeSegs env disk fs oHiwrite fPos segs = some w) :
    w.cnt ≤ w.put ∧ w.put ≤ segs.flatten.length ∧ w.fPos = fPos + w.cnt ∧
      Longer disk fs w.disk w.fs ∧ Laid w.fs ∧
      (∀ bytes, Holds disk fs bytes →
        Holds w.disk w.fs (overwrite bytes fPos (segs.flatten.take w.put))) ∧
      (0 < w.cnt → fPos + w.cnt ≤ w.fs.fsLen ∨ Straddles fs fPos (fPos + w.cnt)) := by
  induction segs generalizing env disk fs oHiwrite fPos w with
  | nil =>
      simp only [State.writeSegs, Option.some.injEq] at loop
      subst loop
      exact ⟨le_rfl, le_rfl, rfl, .refl _ _, laid,
        fun _ holds => by simpa [overwrite_nil] using holds, by simp⟩
  | cons seg rest ih =>
      rw [List.flatten_cons, List.length_append] at within ⊢
      have within₁ : Within (fPos + seg.length) := within.mono (by omega)
      rcases State.writeSegs_cons loop with
        ⟨none, -, pos, stops⟩ | ⟨disk₁, fs₁, w₁, write, rest₁, rfl⟩
      · rcases stops with ⟨disk_eq, fs_eq, nothing⟩ | ⟨left, some_, write, put⟩
        · rw [none, pos, disk_eq, fs_eq, nothing]
          exact ⟨le_rfl, Nat.zero_le _, rfl, .refl _ _, laid,
            fun _ holds => by simpa [overwrite_nil] using holds, by simp⟩
        · obtain ⟨-, longer, laid₁, -, stored, -⟩ := writeLoop_writes laid within₁ apart write
          refine ⟨by omega, by omega, by omega, longer, laid₁, fun bytes holds => ?_, by omega⟩
          rw [put, List.take_append_of_le_length (Nat.sub_le _ _)]
          exact stored bytes holds
      · obtain ⟨-, longer, laid₁, settled, stored, covers⟩ :=
          writeLoop_writes laid within₁ apart write
        rw [within₁.word_eq] at rest₁
        have apart₁ : (total disk₁ fs₁).Nodup := by rwa [longer.total_eq]
        obtain ⟨counted, atMost, pos, longer', laid', stored', covers'⟩ :=
          ih laid₁ (by rwa [Nat.add_assoc]) apart₁ rest₁
        have short : word (seg.length + w₁.cnt) = seg.length + w₁.cnt :=
          (within.mono (by omega)).word_eq
        simp only [short]
        refine ⟨by omega, by omega, by omega, longer.trans longer', laid', fun bytes holds => ?_,
          fun some_ => ?_⟩
        · have here := stored' _ (stored bytes holds)
          rw [Nat.sub_zero, List.take_length, overwrite_append] at here
          rwa [List.take_length_add_append]
        · rcases Nat.eq_zero_or_pos w₁.cnt with none | more
          · have := longer'.longer
            rw [none, Nat.add_zero]
            exact (covers rfl (by rintro rfl; simp [none] at some_)).imp_left (by omega)
          · rw [← Nat.add_assoc]
            exact (covers' more).imp_right fun straddles =>
              straddles.of_settled laid₁ settled (.inl le_rfl) (by omega)

/-- **What the loop of `vfs_read` collects** are the bytes of the file from the position on, all
that are wanted or as many as fit the segments when every buffer is there. -/
theorem State.readLoop_reads (calls : ℕ → BmapOutcome) (disk : Disk) {fs : FsFile}
    (nseg fPos lim : ℕ) (laid : Laid fs) (below : fPos + lim ≤ fs.fsLen) :
    ∃ segs, State.readLoop calls disk fs nseg fPos lim = some (disk, fs, segs) ∧
      segs.flatten.length ≤ lim ∧
      (∀ i < segs.flatten.length, segs.flatten[i]? = byteAt disk fs (fPos + i)) ∧
      (0 < lim → 0 < nseg → (calls 0).found = true → 0 < segs.flatten.length) ∧
      ((∀ call, (calls call).found = true) →
        segs.flatten.length = lim ∨ segs.length = nseg) := by
  induction nseg generalizing calls fPos lim with
  | zero => exact ⟨[], rfl, Nat.zero_le _, by simp, by simp, fun _ => .inr rfl⟩
  | succ nseg ih =>
      rw [State.readLoop]
      by_cases done : lim = 0
      · exact ⟨[], if_pos done, Nat.zero_le _, by simp, by omega, fun _ => .inl done.symm⟩
      rw [if_neg done]
      have here : fPos < fs.fsLen := by omega
      rcases bmap_reads (calls 0) disk laid here (Nat.pos_of_ne_zero done) with
        ⟨lost, nothing⟩ | ⟨addr, step, map, positive, atMost, maps⟩
      · exact ⟨[], by simp [nothing], Nat.zero_le _, by simp, by simp [lost],
          fun all => by simp [all] at lost⟩
      · have small := laid.small
        have next : word (fPos + step) = fPos + step := Nat.mod_eq_of_lt (by
          simp only [SECSZ] at small
          omega)
        obtain ⟨segs, loop, fewer, bytes, -, all⟩ :=
          ih (fun call => calls (call + 1)) (fPos + step) (lim - step) (by omega)
        have size : (disk.bytes addr step).length = step := by simp [Disk.bytes]
        refine ⟨disk.bytes addr step :: segs, by simp [map, next, loop], ?_, fun i inside => ?_,
          fun _ _ _ => ?_, fun every => ?_⟩
        · rw [List.flatten_cons, List.length_append, size]
          omega
        · rw [List.flatten_cons] at inside ⊢
          rw [List.length_append, size] at inside
          by_cases first : i < step
          · rw [List.getElem?_append_left (by omega), maps.bytes_eq first]
          · rw [List.getElem?_append_right (by omega), size, bytes (i - step) (by omega)]
            congr 1
            omega
        · rw [List.flatten_cons, List.length_append, size]
          omega
        · rw [List.flatten_cons, List.length_append, size, List.length_cons]
          exact (all fun call => every (call + 1)).imp (by omega) (by omega)

/-! ## What every request keeps -/

namespace State

/-- The file and its clients are in order. `all` are the sectors there are. -/
structure Intact (all : Multiset ℕ) (s : State) : Prop where
  laid : Laid s.fs
  total_eq : total s.disk s.fs = all
  distinct : s.clients.Distinct
  refs : ∀ o, s.node = some o → o.oRefs = s.clients.length ∧ o.oDeleted = false
  closed : s.node = none → s.clients = []
  beyond : ∀ who f, s.clients.lookup who = some f → OFF_DATA ≤ f.fPos
  holds : s.node ≠ none → Holds s.disk s.fs s.flat.bytes

variable {all : Multiset ℕ} {s s' : State}

/-- Where a write of a client may end. -/
def InReach (s : State) : Request → Prop
  | .write who _ segs => ∀ f, s.clients.lookup who = some f → Within (f.fPos + segs.flatten.length)
  | .absWrite _ _ segs mArg1 => Within (mArg1.toNat + OFF_DATA + segs.flatten.length)
  | _ => True

@[simp] theorem setFile_disk (who : Handle) (f : File) : (s.setFile who f).disk = s.disk := rfl
@[simp] theorem setFile_fs (who : Handle) (f : File) : (s.setFile who f).fs = s.fs := rfl
@[simp] theorem setFile_node (who : Handle) (f : File) : (s.setFile who f).node = s.node := rfl
@[simp] theorem setFile_flat (who : Handle) (f : File) : (s.setFile who f).flat = s.flat := rfl

theorem setFile_keys (who : Handle) (f : File) :
    (s.setFile who f).clients.map Prod.fst = s.clients.map Prod.fst := by
  rw [setFile, List.map_map]
  refine List.map_congr_left fun node _ => ?_
  by_cases here : node.1 = who
  · simp [here]
  · simp [here]

theorem setFile_length (who : Handle) (f : File) :
    (s.setFile who f).clients.length = s.clients.length := by
  simp [setFile]

theorem setFile_lookup (who other : Handle) (f : File) :
    (s.setFile who f).clients.lookup other =
      (s.clients.lookup other).map fun old => if other = who then f else old := by
  rw [setFile]
  induction s.clients with
  | nil => rfl
  | cons node rest ih =>
      have step := Hash.lookup_insert rest node.1 node.2 other
      simp only [Hash.insert] at step
      have step' := Hash.lookup_insert
        (rest.map fun node => if node.1 = who then (who, f) else node) node.1
        (if node.1 = who then f else node.2) other
      have cons : ((node :: rest).map fun node => if node.1 = who then (who, f) else node) =
          Hash.insert (rest.map fun node => if node.1 = who then (who, f) else node) node.1
            (if node.1 = who then f else node.2) := by
        by_cases here : node.1 = who
        · simp [Hash.insert, here]
        · simp [Hash.insert, here]
      rw [cons, step', step, ih]
      by_cases same : other = node.1
      · simp [same]
      · simp [same]

/-- A client whose position is set. -/
theorem Intact.setFile (intact : s.Intact all) {who : Handle} {f : File}
    (behind : OFF_DATA ≤ f.fPos) : (s.setFile who f).Intact all where
  laid := intact.laid
  total_eq := intact.total_eq
  distinct := by
    rw [Hash.Distinct, setFile_keys]
    exact intact.distinct
  refs o node := by
    rw [setFile_length]
    exact intact.refs o node
  closed none := by
    have := intact.closed none
    simp [State.setFile, this]
  beyond other g found := by
    rw [setFile_lookup, Option.map_eq_some_iff] at found
    obtain ⟨old, known, rfl⟩ := found
    by_cases here : other = who
    · simpa [here] using behind
    · simpa [here] using intact.beyond other old known
  holds := intact.holds

/-- The file grows and takes bytes. -/
theorem Intact.written (intact : s.Intact all) {o : OpenFile} (node : s.node = some o)
    {disk : Disk} {fs : FsFile} {hi : ℕ} {flat : Flat} (longer : Longer s.disk s.fs disk fs)
    (laid : Laid fs) (holds : Holds disk fs flat.bytes) :
    { s with disk := disk, fs := fs, node := some { o with oHiwrite := hi },
             flat := flat }.Intact all where
  laid := laid
  total_eq := longer.total_eq.trans intact.total_eq
  distinct := intact.distinct
  refs o' node' := by
    obtain rfl := Option.some.inj node'
    exact intact.refs o node
  closed := by simp
  beyond := intact.beyond
  holds := fun _ => holds

/-- A client gets the file: one more reference and one more client. -/
theorem Intact.joined (intact : s.Intact all) {who : Handle} {f : File} {o : OpenFile} {flat : Flat}
    (fresh : s.clients.lookup who = none) (behind : OFF_DATA ≤ f.fPos)
    (refs : o.oRefs = s.clients.length + 1) (kept : o.oDeleted = false)
    (holds : Holds s.disk s.fs flat.bytes) :
    { s with node := some o, clients := s.clients.insert who f, flat := flat }.Intact all where
  laid := intact.laid
  total_eq := intact.total_eq
  distinct := intact.distinct.insert fresh
  refs o' node := by
    obtain rfl := Option.some.inj node
    exact ⟨by simpa [Hash.insert] using refs, kept⟩
  closed := by simp
  beyond other g found := by
    simp only [Hash.lookup_insert] at found
    by_cases here : other = who
    · rw [if_pos here, Option.some.injEq] at found
      exact found ▸ behind
    · rw [if_neg here] at found
      exact intact.beyond other g found
  holds := fun _ => holds

theorem found_holds (s : State) : Holds s.disk s.fs s.found.bytes := by
  intro pos byte known
  simp only [found] at known
  by_cases below : pos < s.fs.fsLen
  · rwa [if_pos below] at known
  · simp [below] at known

theorem Intact.vfsOpen (intact : s.Intact all) {who : Handle} {fPos : ℕ} {fPerm : ULong}
    (fresh : s.clients.lookup who = none) (behind : OFF_DATA ≤ fPos) :
    (s.vfsOpen who fPos fPerm).Intact all := by
  rw [State.vfsOpen, getNode]
  cases node : s.node with
  | none =>
      exact intact.joined fresh behind (by simp [intact.closed node]) rfl s.found_holds
  | some o =>
      obtain ⟨refs, kept⟩ := intact.refs o node
      exact intact.joined fresh behind (by simpa using refs) kept (intact.holds (by simp [node]))

/-- Where there is a client there is a node. -/
theorem Intact.node_some (intact : s.Intact all) {who : Handle} {f : File}
    (known : s.clients.lookup who = some f) : ∃ o, s.node = some o := by
  cases node : s.node with
  | none => simp [intact.closed node, Hash.lookup] at known
  | some o => exact ⟨o, rfl⟩

theorem Intact.dupClient (intact : s.Intact all) {who new : Handle}
    (fresh : s.clients.lookup new = none) (dup : s.dupClient who new = some s') :
    s'.Intact all := by
  rw [State.dupClient, Option.map_eq_some_iff] at dup
  obtain ⟨f, known, rfl⟩ := dup
  obtain ⟨o, node⟩ := intact.node_some known
  obtain ⟨refs, kept⟩ := intact.refs o node
  rw [refNode, node]
  exact intact.joined fresh (intact.beyond who f known) (by simpa using refs) kept
    (intact.holds (by simp [node]))

/-- What returning sectors keeps of the total. -/
theorem total_freed {disk disk' : Disk} {fs fs' : FsFile} {returned : List ℕ}
    (split : sectors fs.fsBlks = sectors fs'.fsBlks ++ returned)
    (freed : Freed disk disk' returned) : total disk' fs' = total disk fs := by
  rw [total, total, split, freed.free_eq, freed.held_eq, ← Multiset.coe_add,
    add_comm disk.free, ← add_assoc]

/-- A client leaves, the others keep the file or nobody has it. -/
theorem Intact.left (intact : s.Intact all) {who : Handle} {f : File} {o : OpenFile}
    (known : s.clients.lookup who = some f) (node : s.node = some o) {disk : Disk} {fs : FsFile}
    (laid : Laid fs) (total_eq : total disk fs = all)
    (holds : o.oRefs ≠ 1 → Holds disk fs s.flat.bytes) :
    ({ s with
      clients := s.clients.delete who, disk := disk, fs := fs }.derefNode o).Intact all := by
  obtain ⟨refs, kept⟩ := intact.refs o node
  have fewer := Hash.length_delete known
  by_cases last : o.oRefs = 1
  · exact
      { laid, total_eq, distinct := intact.distinct.delete who
        refs := by simp [derefNode, last]
        closed := fun _ => List.eq_nil_of_length_eq_zero (by
          simp only [derefNode]
          omega)
        beyond := fun other g found => by
          simp only [derefNode, intact.distinct.lookup_delete] at found
          split_ifs at found
          exact intact.beyond other g found
        holds := by simp [derefNode, last] }
  · exact
      { laid, total_eq, distinct := intact.distinct.delete who
        refs := fun o' node' => by
          simp only [derefNode, if_neg last, Option.some.injEq] at node'
          subst node'
          simp only [derefNode]
          exact ⟨by omega, kept⟩
        closed := by simp [derefNode, last]
        beyond := fun other g found => by
          simp only [derefNode, intact.distinct.lookup_delete] at found
          split_ifs at found
          exact intact.beyond other g found
        holds := fun _ => holds last }

/-- What a client that leaves does to the file. -/
theorem Intact.deadClient_eq (intact : s.Intact all) {who : Handle} {f : File} {o : OpenFile}
    (known : s.clients.lookup who = some f) (node : s.node = some o) :
    s.deadClient who =
      if o.oRefs = 1 ∧ has f.fPerm ACC_WRITE = true then
        (fileShrink s.disk s.fs o.oHiwrite).map fun (disk, fs) =>
          { s with clients := s.clients.delete who, disk := disk, fs := fs }.derefNode o
      else some ({ s with clients := s.clients.delete who }.derefNode o) := by
  obtain ⟨-, kept⟩ := intact.refs o node
  rw [State.deadClient, known, Option.bind_some, State.vfsClose]
  simp only [node, kept, Bool.false_eq_true, if_false]
  by_cases last : o.oRefs = 1
  · simp [last]
  · simp [last]

theorem Intact.deadClient (intact : s.Intact all) {who : Handle}
    (dead : s.deadClient who = some s') : s'.Intact all := by
  obtain ⟨f, known, -⟩ := Option.bind_eq_some_iff.mp dead
  obtain ⟨o, node⟩ := intact.node_some known
  rw [intact.deadClient_eq known node] at dead
  by_cases trims : o.oRefs = 1 ∧ has f.fPerm ACC_WRITE = true
  · rw [if_pos trims, Option.map_eq_some_iff] at dead
    obtain ⟨⟨disk, fs⟩, shrink, rfl⟩ := dead
    have bounds : OFF_DATA ≤ o.oHiwrite ∧ o.oHiwrite ≤ s.fs.fsLen := by
      by_contra outside
      rw [fileShrink, if_pos (by omega)] at shrink
      cases shrink
    obtain ⟨disk', fs', returned, done, -, laid, split, freed⟩ :=
      fileShrink_trims s.disk intact.laid bounds.1 bounds.2
    rw [done, Option.some.injEq, Prod.mk.injEq] at shrink
    obtain ⟨rfl, rfl⟩ := shrink
    exact intact.left known node laid ((total_freed split freed).trans intact.total_eq)
      fun more => absurd trims.1 more
  · rw [if_neg trims, Option.some.injEq] at dead
    exact dead ▸ intact.left known node intact.laid intact.total_eq
      fun _ => intact.holds (by simp [node])

/-- A read moves the position of its client and nothing else. -/
theorem Intact.vfsRead_cases (intact : s.Intact all) {who : Handle} {f : File} {env : SegOutcome}
    {mArg : ULong} {reply : Reply} (read : s.vfsRead who f env mArg = some (s', reply)) :
    s' = s ∨ ∃ cnt, s' = s.setFile who { f with fPos := f.fPos + cnt } := by
  rw [State.vfsRead] at read
  split_ifs at read with noHeader denied eof
  · cases read
    exact .inl rfl
  · cases read
    exact .inl rfl
  · cases read
    exact .inl rfl
  · obtain ⟨⟨disk, fs, segs⟩, loop, eq⟩ := Option.map_eq_some_iff.mp read
    obtain ⟨segs', reads, fewer, -⟩ := readLoop_reads env.calls s.disk MSGSEGS f.fPos
      (min mArg.toNat (s.fs.fsLen - f.fPos)) intact.laid (by omega)
    rw [reads, Option.some.injEq, Prod.mk.injEq, Prod.mk.injEq] at loop
    obtain ⟨rfl, rfl, rfl⟩ := loop
    obtain ⟨rfl, rfl⟩ := eq
    have small := intact.laid.small
    refine .inr ⟨segs'.flatten.length, ?_⟩
    rw [word, Nat.mod_eq_of_lt (by
      simp only [SECSZ] at small
      omega)]

theorem Intact.vfsRead (intact : s.Intact all) {who : Handle} {f : File} {env : SegOutcome}
    {mArg : ULong} {reply : Reply} (behind : OFF_DATA ≤ f.fPos)
    (read : s.vfsRead who f env mArg = some (s', reply)) : s'.Intact all := by
  obtain rfl | ⟨cnt, rfl⟩ := intact.vfsRead_cases read
  · exact intact
  · exact intact.setFile (le_trans behind (Nat.le_add_right _ _))

/-- What `vfs_write` leaves, if it is permitted. -/
theorem vfsWrite_cases {who : Handle} {f : File} {env : ℕ → SegOutcome}
    {segs : List (List UChar)} {reply : Reply}
    (write : s.vfsWrite who f env segs = some (s', reply)) :
    s' = s ∨ ∃ o w, s.node = some o ∧
      writeSegs env s.disk s.fs o.oHiwrite f.fPos segs = some w ∧
      s' = { s with
        disk := w.disk
        fs := w.fs
        node := some { o with oHiwrite := w.oHiwrite }
        flat := s.flat.write f.fPos w.cnt (segs.flatten.take w.put) }.setFile who
          { f with fPos := w.fPos } := by
  rw [State.vfsWrite] at write
  cases node : s.node with
  | none => simp [node] at write
  | some o =>
      simp only [node] at write
      split_ifs at write with denied
      · cases write
        exact .inl rfl
      · rw [Option.map_eq_some_iff] at write
        obtain ⟨w, loop, eq⟩ := write
        exact .inr ⟨o, w, rfl, loop, (Prod.mk.inj eq).1.symm⟩

theorem Intact.vfsWrite (intact : s.Intact all) (apart : all.Nodup) {who : Handle} {f : File}
    {env : ℕ → SegOutcome} {segs : List (List UChar)} {reply : Reply}
    (behind : OFF_DATA ≤ f.fPos) (within : Within (f.fPos + segs.flatten.length))
    (write : s.vfsWrite who f env segs = some (s', reply)) : s'.Intact all := by
  obtain rfl | ⟨o, w, node, loop, rfl⟩ := vfsWrite_cases write
  · exact intact
  · obtain ⟨-, -, pos, longer, laid, stored, -⟩ :=
      writeSegs_writes intact.laid within (by rwa [intact.total_eq]) loop
    refine (intact.written node longer laid ?_).setFile (by
      rw [pos]
      exact le_trans behind (Nat.le_add_right _ _))
    exact stored _ (intact.holds (by simp [node]))

/-- An argument that is not negative and the header make a position. -/
theorem word_position {mArg : ULong} (sign : ¬mArg.slt 0 = true) :
    word (mArg.toNat + OFF_DATA) = mArg.toNat + OFF_DATA := by
  have small : mArg.toNat < 2 ^ 31 := by
    simp only [BitVec.slt, BitVec.toInt, BitVec.ofNat_eq_ofNat, BitVec.toNat_ofNat] at sign
    have := mArg.isLt
    simp only [decide_eq_true_eq] at sign
    omega
  refine Nat.mod_eq_of_lt ?_
  simp only [OFF_DATA]
  omega

/-- What a request with a position of its own comes to. -/
theorem absolute_cases {who : Handle} {f : File} {mArg1 : ULong} {reply : Reply}
    {serve : State → File → Option (State × Reply)}
    (served : s.absolute who f mArg1 serve = some (s', reply)) :
    s' = s ∨ (word (mArg1.toNat + OFF_DATA) = mArg1.toNat + OFF_DATA ∧
      serve (s.setFile who { f with fPos := mArg1.toNat + OFF_DATA })
        { f with fPos := mArg1.toNat + OFF_DATA } = some (s', reply)) := by
  rw [absolute] at served
  by_cases negative : mArg1.slt 0 = true
  · rw [if_pos negative] at served
    cases served
    exact .inl rfl
  · rw [if_neg negative] at served
    have position := word_position negative
    simp only [position] at served
    exact .inr ⟨position, served⟩

/-- **Every request keeps the file and its clients in order.** -/
theorem Intact.step (apart : all.Nodup) (intact : s.Intact all) {req : Request}
    (reach : s.InReach req) (step : s.Step req s') : s'.Intact all := by
  obtain ⟨proper, reply, served⟩ := step
  cases req with
  | open_ who fPos fPerm =>
      cases served
      exact intact.vfsOpen proper.1 proper.2
  | dup who new =>
      simp only [serve, Option.map_eq_some_iff, Prod.mk.injEq] at served
      obtain ⟨_, dup, rfl, -⟩ := served
      exact intact.dupClient proper dup
  | disconnect who =>
      simp only [serve, Option.map_eq_some_iff, Prod.mk.injEq] at served
      obtain ⟨_, dead, rfl, -⟩ := served
      exact intact.deadClient dead
  | seek who mArg =>
      simp only [serve, Option.map_eq_some_iff] at served
      obtain ⟨f, -, sought⟩ := served
      rw [vfsSeek] at sought
      split_ifs at sought with negative
      · cases sought
        exact intact
      · cases sought
        refine intact.setFile ?_
        rw [word_position negative]
        exact Nat.le_add_left _ _
  | read who env mArg =>
      simp only [serve, Option.bind_eq_some_iff] at served
      obtain ⟨f, known, read⟩ := served
      exact intact.vfsRead (intact.beyond who f known) read
  | absRead who env mArg mArg1 =>
      simp only [serve, Option.bind_eq_some_iff] at served
      obtain ⟨f, -, served⟩ := served
      obtain rfl | ⟨-, read⟩ := absolute_cases served
      · exact intact
      · exact (intact.setFile (Nat.le_add_left _ _)).vfsRead (Nat.le_add_left _ _) read
  | write who env segs =>
      simp only [serve, Option.bind_eq_some_iff] at served
      obtain ⟨f, known, write⟩ := served
      exact intact.vfsWrite apart (intact.beyond who f known) (reach f known) write
  | absWrite who env segs mArg1 =>
      simp only [serve, Option.bind_eq_some_iff] at served
      obtain ⟨f, -, served⟩ := served
      obtain rfl | ⟨-, write⟩ := absolute_cases served
      · exact intact
      · have within : Within ({ f with fPos := mArg1.toNat + OFF_DATA }.fPos +
            segs.flatten.length) := reach
        exact (intact.setFile (Nat.le_add_left _ _)).vfsWrite apart (Nat.le_add_left _ _) within
          write
  | others disk =>
      cases served
      obtain ⟨sectors_eq, bytes_eq⟩ := proper
      exact
        { laid := intact.laid
          total_eq := by
            rw [total, add_assoc, sectors_eq, ← add_assoc]
            exact intact.total_eq
          distinct := intact.distinct
          refs := intact.refs
          closed := intact.closed
          beyond := intact.beyond
          holds := fun isOpen pos byte known =>
            (bytes_eq pos).trans (intact.holds isOpen pos byte known) }

/-- A file that nobody has open. -/
structure Closed (s : State) : Prop where
  laid : Laid s.fs
  apart : (total s.disk s.fs).Nodup
  node : s.node = none
  clients : s.clients = []

theorem Closed.intact (closed : s.Closed) : s.Intact (total s.disk s.fs) where
  laid := closed.laid
  total_eq := rfl
  distinct := by
    rw [closed.clients]
    exact Hash.distinct_nil
  refs := by simp [closed.node]
  closed := fun _ => closed.clients
  beyond := by simp [closed.clients, Hash.lookup]
  holds := fun isOpen => absurd closed.node isOpen

/-- **Every run keeps the file and its clients in order.** -/
theorem Closed.intact_of_run (closed : s.Closed)
    (run : Transition.Reaches Step InReach s s') : s'.Intact (total s.disk s.fs) :=
  run.invariant closed.intact fun _ _ _ intact reach step =>
    intact.step closed.apart reach step

end State

end Vsta.Vstafs.Bytes
