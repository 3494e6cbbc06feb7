import Vsta.Srv.Sessions
import Vsta.Library.Runs
import Vsta.Vstafs.Requests

/-!
# The writers of the boot filesystem

`srv/bfs/open.c` and `main.c`: the server admits one writer at a time and counts them in `nwriters`,
at an open and at the end of a connection. What a name leads to, and the blocks of a file, are up to
the rest of the server.

An open counts a client whose permission to write is what it asks for, and the end of a connection
one that has the permission. `Fits` leaves out the requests on which the two differ: in the other
runs the count is the number of connections at a file that was opened for writing
(`writers_counted`); with such requests it is not (`reader_counted`).
-/

set_option autoImplicit false

namespace Vsta.Bfs.Writers

open Vstafs

abbrev ACC_DIR : ULong := 0x20

/-- The inode of the root. -/
abbrev ROOTINODE : ULong := 0

/-- `struct file`, with the inode's number. The mode of the open that led here is history; the code
does not keep it. -/
structure File where
  fInode : ULong
  fPos : ULong
  fWrite : ULong
  mode : ULong
  deriving DecidableEq, Repr

/-- The count, the references of the inodes, and the clients. -/
structure State where
  nwriters : ℤ
  roflag : Bool
  iRefs : ULong → ℕ
  filehash : Hash File

/-- What a request finds: memory for a client, its place in the hash, its permissions, the inode of
the name, and a new inode. -/
structure Outcome where
  client : Bool
  slot : Bool
  uperms : ULong
  found : Option ULong
  created : Option ULong
  deriving DecidableEq, Repr

/-- A request of a client. -/
inductive Action where
  | connect (h : Handle) (mArg : ULong)
  | dup (h mArg : Handle)
  | open_ (h : Handle) (mArg : ULong)
  | disconnect (h : Handle)
  deriving DecidableEq, Repr

/-- An answer. -/
inductive Reply where
  | ok
  | err (e : FsErr)
  deriving DecidableEq, Repr

/-- The use of a client that is not there, or a reference too few. -/
inductive Fault where
  | wild
  | assertion
  deriving DecidableEq, Repr

namespace State

/-- The client that sent a message. -/
def file (s : State) (h : Handle) : Except Fault File :=
  match s.filehash.lookup h with
  | some f => .ok f
  | none => .error .wild

/-- `ino_ref`. -/
def inoRef (s : State) (i : ULong) : State :=
  { s with iRefs := Function.update s.iRefs i (s.iRefs i + 1) }

/-- `ino_deref`. -/
def inoDeref (s : State) (i : ULong) : Except Fault State :=
  if s.iRefs i = 0 then .error .assertion
  else .ok { s with iRefs := Function.update s.iRefs i (s.iRefs i - 1) }

/-- `move_file`. -/
def moveFile (s : State) (h : Handle) (f : File) (i writing mode : ULong) : State :=
  { s with
    nwriters := if f.fWrite = writing then s.nwriters + 1 else s.nwriters
    filehash := s.filehash.modify h fun _ => ⟨i, 0, f.fWrite, mode⟩ }

/-- The checks of `bfs_open` on an open that may write. -/
def refuses (s : State) (f : File) (mArg : ULong) : Option FsErr :=
  if has mArg (ACC_WRITE ||| ACC_CREATE ||| ACC_DIR) then
    if has mArg ACC_DIR then some .EINVAL
    else if 0 < s.nwriters then some .EBUSY
    else if s.roflag then some .EROFS
    else if f.fWrite = 0 then some .EPERM
    else none
  else none

/-- `bfs_open`. -/
def bfsOpen (s : State) (x : Outcome) (h : Handle) (mArg : ULong) :
    Except Fault (State × Reply) := do
  let f ← s.file h
  if f.fInode ≠ ROOTINODE then .ok (s, .err .ENOTDIR)
  else match s.refuses f mArg with
    | some e => .ok (s, .err e)
    | none =>
        if x.found = none && !has mArg ACC_CREATE then .ok (s, .err .ESRCH)
        else match x.found.or x.created with
          | none => .ok (s, .err .strerror)
          | some i => .ok ((s.moveFile h f i (mArg &&& ACC_WRITE) mArg).inoRef i, .ok)

/-- `bfs_close`. -/
def bfsClose (s : State) (f : File) : Except Fault State :=
  if f.fInode = ROOTINODE then .ok s
  else do
    let s ← s.inoDeref f.fInode
    .ok { s with nwriters := if f.fWrite ≠ 0 then s.nwriters - 1 else s.nwriters }

/-- `new_client`. -/
def newClient (s : State) (x : Outcome) (h : Handle) (mArg : ULong) : State × Reply :=
  if has mArg ACC_WRITE && !has x.uperms ACC_WRITE then (s, .err .EPERM)
  else if !x.client then (s, .err .strerror)
  else
    let s := s.inoRef ROOTINODE
    if !x.slot then (s, .err .ENOMEM)
    else ({ s with
      filehash := s.filehash.insert h ⟨ROOTINODE, 0, x.uperms &&& ACC_WRITE, 0⟩ }, .ok)

/-- `dup_client`. -/
def dupClient (s : State) (x : Outcome) (h mArg : Handle) : Except Fault (State × Reply) := do
  let fold ← s.file h
  if !x.client then .ok (s, .err .strerror)
  else
    let s := if fold.fInode ≠ ROOTINODE then s.inoRef fold.fInode else s
    if !x.slot then .ok (s, .err .ENOMEM)
    else .ok ({ s with filehash := s.filehash.insert mArg fold }, .ok)

/-- `dead_client`. -/
def deadClient (s : State) (h : Handle) : Except Fault (State × Reply) := do
  let f ← s.file h
  let s ← bfsClose { s with filehash := s.filehash.delete h } f
  .ok (s, .ok)

/-- The switch of `bfs_main`. -/
def exec (s : State) (x : Outcome) : Action → Except Fault (State × Reply)
  | .connect h mArg => .ok (s.newClient x h mArg)
  | .dup h mArg => s.dupClient x h mArg
  | .open_ h mArg => s.bfsOpen x h mArg
  | .disconnect h => s.deadClient h

end State

/-- A server that starts. -/
def start (roflag : Bool) : State := ⟨0, roflag, fun _ => 0, []⟩

/-- What can happen: a new inode is not the root's, a connection that is opened is new, and another
one is known. -/
def Legal (s : State) (label : Outcome × Action) : Prop :=
  label.1.created ≠ some ROOTINODE ∧
  match label.2 with
  | .connect h _ => s.filehash.lookup h = none
  | .dup h mArg => s.filehash.lookup h ≠ none ∧ s.filehash.lookup mArg = none
  | .open_ h _ => s.filehash.lookup h ≠ none
  | .disconnect h => s.filehash.lookup h ≠ none

/-- One request. -/
def Step (s : State) (label : Outcome × Action) (t : State) : Prop :=
  Legal s label ∧ ∃ reply, s.exec label.1 label.2 = .ok (t, reply)

/-- A connection at a file that was opened for writing. -/
def writes (f : File) : Bool := f.fInode ≠ ROOTINODE && has f.mode ACC_WRITE

/-- The connections at a file that was opened for writing. -/
def writers (clients : Hash File) : ℕ := clients.countP fun node => writes node.2

/-- The connections at an inode. -/
def users (clients : Hash File) (i : ULong) : ℕ :=
  Srv.holders (fun f : File => some f.fInode) (fun _ => true) clients i

/-- The condition on a request: an open that gets through is of a client that may write, and does
not open the root for writing; a connection at a file that was opened for writing is not duplicated;
and one that may write does not end at a file that was opened otherwise. -/
def Fits (s : State) (label : Outcome × Action) : Prop :=
  match label.2 with
  | .connect _ _ => True
  | .dup h _ => ∀ f, s.filehash.lookup h = some f → label.1.client = true → label.1.slot = true →
      writes f = false
  | .open_ h mArg => ∀ f, s.filehash.lookup h = some f → f.fInode = ROOTINODE →
      s.refuses f mArg = none → (label.1.found ≠ none → f.fWrite ≠ 0) ∧
        (has mArg ACC_WRITE = true → label.1.found ≠ some ROOTINODE)
  | .disconnect h => ∀ f, s.filehash.lookup h = some f → f.fInode ≠ ROOTINODE → f.fWrite ≠ 0 →
      has f.mode ACC_WRITE = true

/-- What holds in every state of a run of such requests. -/
structure Counted (s : State) : Prop where
  keys : s.filehash.Distinct
  modes : ∀ h f, s.filehash.lookup h = some f → f.fWrite = 0 ∨ f.fWrite = ACC_WRITE
  allowed : ∀ h f, s.filehash.lookup h = some f → writes f = true → f.fWrite = ACC_WRITE
  count : s.nwriters = writers s.filehash
  one : writers s.filehash ≤ 1
  refs : ∀ i, i ≠ ROOTINODE → users s.filehash i ≤ s.iRefs i

variable {s t : State} {clients : Hash File} {x : Outcome} {h : Handle} {f g : File} {i j : ULong}

/-! ## Who writes -/

theorem writers_eq : writers clients = Srv.holders (fun _ : File => some 0) writes clients 0 := by
  simp [writers, Srv.holders]

theorem writers_insert (f : File) :
    writers (clients.insert h f) = writers clients + if writes f = true then 1 else 0 := by
  have more := @Srv.holders_insert _ (fun _ : File => some 0) clients h 0 f writes
  simpa only [← writers_eq, and_true] using more

theorem writers_delete (client : clients.lookup h = some f) :
    writers clients = writers (clients.delete h) + if writes f = true then 1 else 0 := by
  have less := @Srv.holders_delete _ (fun _ : File => some 0) clients h 0 f writes client
  simpa only [← writers_eq, and_true] using less

theorem writers_modify (distinct : clients.Distinct) (client : clients.lookup h = some f)
    (g : File) : writers (clients.modify h fun _ => g) + (if writes f = true then 1 else 0) =
      writers clients + if writes g = true then 1 else 0 := by
  have moved := @Srv.holders_modify _ (fun _ : File => some 0) clients h 0 f distinct writes
    client fun _ => g
  simpa only [← writers_eq, and_true] using moved

theorem users_insert (f : File) :
    users (clients.insert h f) i = users clients i + if f.fInode = i then 1 else 0 := by
  have more := @Srv.holders_insert _ (fun f : File => some f.fInode) clients h i f fun _ => true
  simpa only [users, Option.some.injEq, true_and] using more

theorem users_delete (client : clients.lookup h = some f) :
    users clients i = users (clients.delete h) i + if f.fInode = i then 1 else 0 := by
  have less := @Srv.holders_delete _ (fun f : File => some f.fInode) clients h i f (fun _ => true)
    client
  simpa only [users, Option.some.injEq, true_and] using less

theorem users_modify (distinct : clients.Distinct) (client : clients.lookup h = some f)
    (g : File) : users (clients.modify h fun _ => g) i + (if f.fInode = i then 1 else 0) =
      users clients i + if g.fInode = i then 1 else 0 := by
  have moved := @Srv.holders_modify _ (fun f : File => some f.fInode) clients h i f distinct
    (fun _ => true) client fun _ => g
  simpa only [users, Option.some.injEq, true_and] using moved

theorem inoRef_iRefs : (s.inoRef i).iRefs j = s.iRefs j + if i = j then 1 else 0 := by
  simp only [State.inoRef, Function.update_apply]
  by_cases same : j = i
  · rw [if_pos same, if_pos same.symm, same]
  · rw [if_neg same, if_neg (Ne.symm same), Nat.add_zero]

@[simp] theorem inoRef_nwriters : (s.inoRef i).nwriters = s.nwriters := rfl
@[simp] theorem inoRef_filehash : (s.inoRef i).filehash = s.filehash := rfl

theorem writes_root (f : File) (root : f.fInode = ROOTINODE) : writes f = false := by
  simp [writes, root]

/-! ## The requests -/

/-- References that are taken and not used. -/
theorem Counted.inoRef (counted : Counted s) (i : ULong) : Counted (s.inoRef i) := by
  refine ⟨counted.keys, counted.modes, counted.allowed, counted.count, counted.one,
    fun j apart => ?_⟩
  rw [inoRef_iRefs]
  exact (counted.refs j apart).trans (Nat.le_add_right _ _)

/-- A client comes that does not write. -/
theorem Counted.come (counted : Counted s) (fresh : s.filehash.lookup h = none)
    (mode : f.fWrite = 0 ∨ f.fWrite = ACC_WRITE) (reads : writes f = false)
    (counts : ∀ i, i ≠ ROOTINODE →
      users s.filehash i + (if f.fInode = i then 1 else 0) ≤ s.iRefs i) :
    Counted { s with filehash := s.filehash.insert h f } := by
  have count : writers (s.filehash.insert h f) = writers s.filehash := by
    rw [writers_insert, reads]
    rfl
  have parts : ∀ k g, (s.filehash.insert h f).lookup k = some g →
      g = f ∨ s.filehash.lookup k = some g := by
    intro k g found
    rw [Hash.lookup_insert] at found
    split_ifs at found
    · exact .inl (Option.some.inj found).symm
    · exact .inr found
  refine ⟨counted.keys.insert fresh, fun k g found => ?_, fun k g found yes => ?_, ?_, ?_,
    fun i apart => ?_⟩
  · rcases parts k g found with rfl | found
    · exact mode
    · exact counted.modes k g found
  · rcases parts k g found with rfl | found
    · rw [reads] at yes
      cases yes
    · exact counted.allowed k g found yes
  · exact counted.count.trans (congrArg _ count.symm)
  · exact count.trans_le counted.one
  · exact (users_insert f).trans_le (counts i apart)

/-- What a word has of one bit. -/
theorem and_write (word : ULong) : word &&& ACC_WRITE = 0 ∨ word &&& ACC_WRITE = ACC_WRITE := by
  have bit := BitVec.and_twoPow word 1
  have two : BitVec.twoPow 32 1 = ACC_WRITE := by decide
  rw [two] at bit
  split_ifs at bit
  · exact .inr bit
  · exact .inl bit

theorem newClient_counted (counted : Counted s) (x : Outcome) (mArg : ULong)
    (fresh : s.filehash.lookup h = none) : Counted (s.newClient x h mArg).1 := by
  rw [State.newClient]
  split_ifs
  · exact counted
  · exact counted
  · exact counted.inoRef ROOTINODE
  · refine (counted.inoRef ROOTINODE).come fresh (and_write x.uperms) (writes_root _ rfl)
      fun i apart => ?_
    rw [if_neg (Ne.symm apart)]
    exact (counted.inoRef ROOTINODE).refs i apart

theorem dupClient_counted (counted : Counted s) {mArg : Handle} (fits : Fits s (x, .dup h mArg))
    (client : s.filehash.lookup h = some f) (fresh : s.filehash.lookup mArg = none) :
    ∃ t r, s.dupClient x h mArg = .ok (t, r) ∧ Counted t := by
  simp only [State.dupClient, State.file, client, bind, Except.bind]
  by_cases memory : x.client = true
  case neg => exact ⟨s, .err .strerror, by rw [if_pos (by simpa using memory)], counted⟩
  rw [if_neg (by simpa using memory)]
  -- the inode's reference is taken before the place in the hash
  generalize taken : (if f.fInode ≠ ROOTINODE then s.inoRef f.fInode else s) = u
  have files : u.filehash = s.filehash := by
    rw [← taken]
    split_ifs <;> rfl
  have counted' : Counted u := by
    rw [← taken]
    split_ifs
    · exact counted.inoRef f.fInode
    · exact counted
  by_cases slot : x.slot = true
  case neg => exact ⟨u, .err .ENOMEM, by rw [if_pos (by simpa using slot)], counted'⟩
  rw [if_neg (by simpa using slot)]
  refine ⟨_, .ok, rfl, counted'.come (files ▸ fresh) (counted.modes h f client)
    (fits f client memory slot) fun i apart => ?_⟩
  have before := counted.refs i apart
  rw [files, ← taken]
  by_cases here : f.fInode = i
  · rw [if_pos here, if_pos (here ▸ apart), inoRef_iRefs, if_pos here]
    omega
  · rw [if_neg here]
    split_ifs
    · rw [inoRef_iRefs, if_neg here]
      exact before
    · exact before

/-- An open that may write, and that no check refuses. -/
theorem refuses_none {mArg : ULong} (granted : s.refuses f mArg = none)
    (asks : has mArg (ACC_WRITE ||| ACC_CREATE ||| ACC_DIR) = true) :
    ¬0 < s.nwriters ∧ f.fWrite ≠ 0 := by
  rw [State.refuses, if_pos asks] at granted
  split_ifs at granted with _ busy _ may
  exact ⟨busy, may⟩

theorem has_or (word one other : ULong) :
    has word (one ||| other) = (has word one || has word other) := by
  have zero : ∀ a b : ULong, a ||| b = 0 ↔ a = 0 ∧ b = 0 := fun a b => BitVec.or_eq_zero_iff
  rw [has, has, has, BitVec.and_or_distrib_left, Bool.eq_iff_iff]
  simp only [bne_iff_ne, ne_eq, zero, Bool.or_eq_true, not_and_or]

/-- What `move_file` adds for a client that may write. -/
theorem counts_iff (may : f.fWrite = ACC_WRITE) (mArg : ULong) :
    f.fWrite = mArg &&& ACC_WRITE ↔ has mArg ACC_WRITE = true := by
  rw [may, has, bne_iff_ne]
  rcases and_write mArg with none_ | some_
  · rw [none_]
    decide
  · rw [some_]
    decide

/-- A client moves to an inode. -/
theorem Counted.move (counted : Counted s) (client : s.filehash.lookup h = some f)
    (root : f.fInode = ROOTINODE) (may : f.fWrite = ACC_WRITE) {mArg : ULong}
    (free : has mArg ACC_WRITE = true → ¬0 < s.nwriters ∧ i ≠ ROOTINODE) :
    Counted ((s.moveFile h f i (mArg &&& ACC_WRITE) mArg).inoRef i) := by
  have moved := writers_modify counted.keys client ⟨i, 0, f.fWrite, mArg⟩
  have users_ := fun j => users_modify (i := j) counted.keys client ⟨i, 0, f.fWrite, mArg⟩
  rw [writes_root f root, if_neg Bool.false_ne_true, Nat.add_zero] at moved
  have count := counted.count
  have look : ∀ k g, (s.filehash.modify h fun _ => ⟨i, 0, f.fWrite, mArg⟩).lookup k = some g →
      g.fWrite = f.fWrite ∨ s.filehash.lookup k = some g := by
    intro k g found
    rw [Hash.lookup_modify, client] at found
    split_ifs at found
    · exact .inl (Option.some.inj found ▸ rfl)
    · exact .inr found
  have mode : writes ⟨i, 0, f.fWrite, mArg⟩ = true ↔ has mArg ACC_WRITE = true := by
    rw [writes, Bool.and_eq_true, decide_eq_true_eq, and_iff_right_iff_imp]
    exact fun writing => (free writing).2
  have counts := counts_iff may mArg
  have one := counted.one
  refine ⟨counted.keys.modify h fun _ => ⟨i, 0, f.fWrite, mArg⟩, fun k g found => ?_,
    fun k g found yes => ?_, ?_, ?_, fun j apart => ?_⟩
  · rcases look k g found with same | found
    · exact .inr (same.trans may)
    · exact counted.modes k g found
  · rcases look k g found with same | found
    · exact same.trans may
    · exact counted.allowed k g found yes
  · show (if f.fWrite = mArg &&& ACC_WRITE then s.nwriters + 1 else s.nwriters) =
      writers (s.filehash.modify h fun _ => ⟨i, 0, f.fWrite, mArg⟩)
    by_cases writing : has mArg ACC_WRITE = true
    · rw [if_pos (counts.mpr writing)]
      rw [if_pos (mode.mpr writing)] at moved
      omega
    · rw [if_neg (mt counts.mp writing)]
      rw [if_neg (mt mode.mp writing)] at moved
      omega
  · show writers (s.filehash.modify h fun _ => ⟨i, 0, f.fWrite, mArg⟩) ≤ 1
    by_cases writing : has mArg ACC_WRITE = true
    · have idle := (free writing).1
      rw [if_pos (mode.mpr writing)] at moved
      omega
    · rw [if_neg (mt mode.mp writing)] at moved
      omega
  · show users (s.filehash.modify h fun _ => ⟨i, 0, f.fWrite, mArg⟩) j ≤ _
    have before := counted.refs j apart
    have more := users_ j
    rw [root, if_neg (Ne.symm apart)] at more
    rw [inoRef_iRefs]
    exact more.trans_le (Nat.add_le_add_right before _)

theorem bfsOpen_counted (counted : Counted s) {mArg : ULong} (fits : Fits s (x, .open_ h mArg))
    (new : x.created ≠ some ROOTINODE) (client : s.filehash.lookup h = some f) :
    ∃ t r, s.bfsOpen x h mArg = .ok (t, r) ∧ Counted t := by
  simp only [State.bfsOpen, State.file, client, bind, Except.bind]
  by_cases root : f.fInode = ROOTINODE
  case neg => exact ⟨s, .err .ENOTDIR, by rw [if_pos root], counted⟩
  rw [if_neg (not_not_intro root)]
  cases refused : s.refuses f mArg with
  | some e => exact ⟨s, .err e, rfl, counted⟩
  | none =>
      obtain ⟨may, inner⟩ := fits f client root refused
      by_cases absent : (x.found = none && !has mArg ACC_CREATE) = true
      · exact ⟨s, .err .ESRCH, by simp only [absent, if_true], counted⟩
      simp only [absent]
      cases leads : x.found.or x.created with
      | none => exact ⟨s, .err .strerror, rfl, counted⟩
      | some i =>
          have asks : ∀ bit, bit = ACC_WRITE ∨ bit = ACC_CREATE → has mArg bit = true →
              has mArg (ACC_WRITE ||| ACC_CREATE ||| ACC_DIR) = true := by
            rintro bit (rfl | rfl) yes
            · rw [has_or, has_or, yes, Bool.true_or, Bool.true_or]
            · rw [has_or, has_or, yes, Bool.or_true, Bool.true_or]
          have mode : f.fWrite ≠ 0 := by
            cases found : x.found with
            | some j => exact may (by rw [found]; exact Option.some_ne_none j)
            | none =>
                have create : has mArg ACC_CREATE = true := by simpa [found] using absent
                exact (refuses_none refused (asks _ (.inr rfl) create)).2
          refine ⟨_, .ok, rfl, counted.move client root
            ((counted.modes h f client).resolve_left mode) fun writing => ⟨?_, ?_⟩⟩
          · exact (refuses_none refused (asks _ (.inl rfl) writing)).1
          · rintro rfl
            cases found : x.found with
            | some j =>
                rw [found, Option.some_or] at leads
                exact inner writing (found.trans leads)
            | none =>
                rw [found, Option.none_or] at leads
                exact new leads

theorem deadClient_counted (counted : Counted s) (fits : Fits s (x, .disconnect h))
    (client : s.filehash.lookup h = some f) :
    ∃ t, s.deadClient h = .ok (t, .ok) ∧ Counted t := by
  simp only [State.deadClient, State.file, client, bind, Except.bind, State.bfsClose]
  have look : ∀ k g, (s.filehash.delete h).lookup k = some g → s.filehash.lookup k = some g := by
    intro k g found
    rw [counted.keys.lookup_delete] at found
    split_ifs at found
    exact found
  have fewer := writers_delete client
  have gone := fun i => users_delete (i := i) client
  have one := counted.one
  by_cases root : f.fInode = ROOTINODE
  · rw [if_pos root]
    rw [writes_root f root, if_neg Bool.false_ne_true, Nat.add_zero] at fewer
    refine ⟨_, rfl, counted.keys.delete h, fun k g found => counted.modes k g (look k g found),
      fun k g found => counted.allowed k g (look k g found), ?_, ?_, fun i apart => ?_⟩
    · exact counted.count.trans (congrArg _ fewer)
    · exact fewer.ge.trans one
    · exact Nat.le_of_add_right_le ((gone i).ge.trans (counted.refs i apart))
  · have used : 0 < users s.filehash f.fInode := Srv.holders_pos _ client rfl rfl
    have held := counted.refs _ root
    have positive : s.iRefs f.fInode ≠ 0 := by omega
    simp only [if_neg root, State.inoDeref, if_neg positive]
    refine ⟨_, rfl, counted.keys.delete h, fun k g found => counted.modes k g (look k g found),
      fun k g found => counted.allowed k g (look k g found), ?_, ?_, fun i apart => ?_⟩
    · show (if f.fWrite ≠ 0 then s.nwriters - 1 else s.nwriters) = writers (s.filehash.delete h)
      have count := counted.count
      by_cases yes : writes f = true
      · have mode := counted.allowed h f client yes
        rw [if_pos yes] at fewer
        rw [if_pos (by rw [mode]; decide)]
        omega
      · rw [if_neg yes] at fewer
        rw [if_neg]
        · omega
        · intro may
          refine yes ?_
          rw [writes, fits f client root may, Bool.and_true]
          exact decide_eq_true root
    · show writers (s.filehash.delete h) ≤ 1
      omega
    · show users (s.filehash.delete h) i ≤ Function.update s.iRefs f.fInode _ i
      have before := counted.refs i apart
      have less := gone i
      rw [Function.update_apply]
      by_cases here : i = f.fInode
      · rw [if_pos here.symm] at less
        rw [if_pos here, here]
        rw [here] at before less
        omega
      · rw [if_neg (Ne.symm here)] at less
        rw [if_neg here]
        omega

/-- **Every request goes through.** -/
theorem exec_spec (counted : Counted s) {label : Outcome × Action} (fits : Fits s label)
    (legal : Legal s label) : ∃ t r, s.exec label.1 label.2 = .ok (t, r) ∧ Counted t := by
  obtain ⟨x, act⟩ := label
  obtain ⟨new, known⟩ := legal
  cases act with
  | connect h mArg => exact ⟨_, _, rfl, newClient_counted counted x mArg known⟩
  | dup h mArg =>
      obtain ⟨f, client⟩ := Option.ne_none_iff_exists'.mp known.1
      exact dupClient_counted counted fits client known.2
  | open_ h mArg =>
      obtain ⟨f, client⟩ := Option.ne_none_iff_exists'.mp known
      exact bfsOpen_counted counted fits new client
  | disconnect h =>
      obtain ⟨f, client⟩ := Option.ne_none_iff_exists'.mp known
      obtain ⟨t, done, counted'⟩ := deadClient_counted counted fits client
      exact ⟨t, .ok, done, counted'⟩

/-- An open for writing of a client at the root is refused as busy when the count is above zero. -/
theorem busy_iff {mArg : ULong} (x : Outcome) (client : s.filehash.lookup h = some f)
    (root : f.fInode = ROOTINODE) (asks : has mArg (ACC_WRITE ||| ACC_CREATE ||| ACC_DIR) = true)
    (plain : has mArg ACC_DIR = false) :
    s.exec x (.open_ h mArg) = .ok (s, .err .EBUSY) ↔ 0 < s.nwriters := by
  have checks : s.refuses f mArg = if 0 < s.nwriters then some .EBUSY
      else if s.roflag then some .EROFS else if f.fWrite = 0 then some .EPERM else none := by
    rw [State.refuses, if_pos asks, plain, if_neg Bool.false_ne_true]
  simp only [State.exec, State.bfsOpen, State.file, client, bind, Except.bind, root, ne_eq,
    not_true_eq_false, if_false]
  by_cases busy : 0 < s.nwriters
  · rw [checks, if_pos busy]
    exact iff_of_true rfl busy
  · rw [checks, if_neg busy]
    refine iff_of_false (fun same => ?_) busy
    cases ro : s.roflag with
    | true =>
        rw [ro] at same
        cases same
    | false =>
        simp only [ro, Bool.false_eq_true, if_false] at same
        by_cases may : f.fWrite = 0
        · simp only [may, if_true] at same
          cases same
        · simp only [may, if_false] at same
          by_cases absent : (x.found = none && !has mArg ACC_CREATE) = true
          · simp only [absent, if_true] at same
            cases same
          · simp only [absent] at same
            cases leads : x.found.or x.created with
            | none =>
                simp only [leads] at same
                cases same
            | some i =>
                simp only [leads] at same
                cases (Prod.ext_iff.mp (Except.ok.inj same)).2

/-- **In every run whose requests meet `Fits`, the count is the number of connections at a file that
was opened for writing**, at most one; no assertion fails on the way, and an open for writing is
refused as busy exactly while there is such a connection. -/
theorem writers_counted {roflag : Bool} (run : Transition.Reaches Step Fits (start roflag) s) :
    s.nwriters = writers s.filehash ∧ writers s.filehash ≤ 1 ∧
    (∀ label, Fits s label → Legal s label → ∃ t r, s.exec label.1 label.2 = .ok (t, r)) ∧
    ∀ x h f mArg, s.filehash.lookup h = some f → f.fInode = ROOTINODE →
      has mArg (ACC_WRITE ||| ACC_CREATE ||| ACC_DIR) = true → has mArg ACC_DIR = false →
      (s.exec x (.open_ h mArg) = .ok (s, .err .EBUSY) ↔ 0 < writers s.filehash) := by
  have counted : Counted s := by
    refine run.invariant ?_ ?_
    · exact ⟨List.nodup_nil, nofun, nofun, rfl, Nat.zero_le _, fun _ _ => Nat.le_refl _⟩
    · rintro source label target counted fits ⟨legal, reply, done⟩
      obtain ⟨t, r, done', counted'⟩ := exec_spec counted fits legal
      rw [done] at done'
      obtain ⟨rfl, rfl⟩ : target = t ∧ reply = r := by simpa using done'
      exact counted'
  refine ⟨counted.count, counted.one, fun label fits legal => ?_,
    fun x h f mArg client root asks plain => ?_⟩
  · obtain ⟨t, r, done, -⟩ := exec_spec counted fits legal
    exact ⟨t, r, done⟩
  · rw [busy_iff x client root asks plain, counted.count, Int.natCast_pos]

/-! ## Fixed runs -/

instance (label : Outcome × Action) : Decidable (Legal s label) := by
  unfold Legal
  split <;> infer_instance

/-- A request that meets the condition. -/
def fitting (s : State) (label : Outcome × Action) : Bool :=
  match label.2 with
  | .connect _ _ => true
  | .dup h _ => (s.filehash.lookup h).all fun f => !writes f
  | .open_ h mArg => (s.filehash.lookup h).all fun f =>
      f.fWrite != 0 && (!has mArg ACC_WRITE || label.1.found != some ROOTINODE)
  | .disconnect h => (s.filehash.lookup h).all fun f =>
      f.fInode == ROOTINODE || has f.mode ACC_WRITE

theorem fits_of_fitting (label : Outcome × Action) (good : fitting s label = true) :
    Fits s label := by
  obtain ⟨x, act⟩ := label
  cases act with
  | connect h mArg => trivial
  | dup h mArg =>
      intro f client _ _
      simpa [fitting, client] using good
  | open_ h mArg =>
      intro f client _ _
      obtain ⟨may, inner⟩ : f.fWrite ≠ 0 ∧ (has mArg ACC_WRITE = false ∨ x.found ≠ some ROOTINODE) := by
        simpa [fitting, client] using good
      refine ⟨fun _ => may, fun writing => inner.resolve_left ?_⟩
      rw [writing]
      exact Bool.true_eq_false_eq_False
  | disconnect h =>
      intro f client apart _
      have last : f.fInode = ROOTINODE ∨ has f.mode ACC_WRITE = true := by
        simpa [fitting, client] using good
      exact last.resolve_left apart

/-- What a request that goes through leaves. -/
def next (s : State) (label : Outcome × Action) : Option State :=
  (s.exec label.1 label.2).toOption.map Prod.fst

theorem step_of_next {label : Outcome × Action} (legal : Legal s label)
    (taken : next s label = some t) : Step s label t := by
  refine ⟨legal, ?_⟩
  rw [next] at taken
  cases done : s.exec label.1 label.2 with
  | error fault =>
      rw [done] at taken
      cases taken
  | ok result =>
      rw [done] at taken
      obtain rfl := Option.some.inj taken
      exact ⟨result.2, rfl⟩

/-- A request of a client with some permissions, which finds an inode. -/
def granted (uperms i : ULong) : Outcome := ⟨true, true, uperms, some i, none⟩

/-- A client opens a file for writing, and another one comes. -/
def writing : List (Outcome × Action) :=
  [(granted 0x6 3, .connect 1 0x6), (granted 0x6 3, .open_ 1 0x6), (granted 0x6 3, .connect 2 0x6)]

theorem writers_counted_open : ∃ s, Transition.Reaches Step Fits (start false) s ∧
    s.nwriters = writers s.filehash ∧ s.exec (granted 0x6 3) (.open_ 2 0x6) = .ok (s, .err .EBUSY) := by
  have run : ∀ s, Transition.follow next (fun s l => decide (Legal s l) && fitting s l)
      (start false) writing = some s → Transition.Reaches Step Fits (start false) s := fun s followed =>
    (Transition.Reaches.refl _).followed
      (fun _ label good => fits_of_fitting label (Bool.and_eq_true _ _ ▸ good).2)
      (fun _ _ _ good => step_of_next (of_decide_eq_true (Bool.and_eq_true _ _ ▸ good).1)) followed
  have holds := writers_counted (run _ rfl)
  exact ⟨_, run _ rfl, holds.1, rfl⟩

/-- A client without the permission to write opens a file for reading. -/
def reading : List (Outcome × Action) :=
  [(granted 0x4 3, .connect 1 0x4), (granted 0x4 3, .open_ 1 0x4), (granted 0x6 3, .connect 2 0x6)]

/-- A client with the permission to write opens a file for reading and ends. -/
def closing : List (Outcome × Action) :=
  [(granted 0x6 3, .connect 1 0x6), (granted 0x6 3, .open_ 1 0x4), (granted 0x6 3, .disconnect 1),
    (granted 0x6 3, .connect 2 0x6), (granted 0x6 3, .connect 3 0x6), (granted 0x6 3, .open_ 2 0x6),
    (granted 0x6 3, .open_ 3 0x6)]

/-- **A reader keeps every writer out, or lets two of them in**: with no connection at a file that
was opened for writing the count is one, and an open for writing is refused; and with two of them it
is one. -/
theorem reader_counted :
    (∃ s, Transition.Reaches Step Transition.Any (start false) s ∧ writers s.filehash = 0 ∧
      s.nwriters = 1 ∧ s.exec (granted 0x6 3) (.open_ 2 0x6) = .ok (s, .err .EBUSY)) ∧
    ∃ s, Transition.Reaches Step Transition.Any (start false) s ∧ writers s.filehash = 2 ∧
      s.nwriters = 1 := by
  have run : ∀ requests s, Transition.follow next (fun s l => decide (Legal s l))
      (start false) requests = some s → Transition.Reaches Step Transition.Any (start false) s :=
    fun requests s followed => (Transition.Reaches.refl _).followed (fun _ _ _ => trivial)
      (fun _ _ _ good => step_of_next (of_decide_eq_true good)) followed
  exact ⟨⟨_, run reading _ rfl, rfl, rfl, rfl⟩, _, run closing _ rfl, rfl, rfl⟩

end Vsta.Bfs.Writers
