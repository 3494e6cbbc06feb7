import Vsta.Vstafs.NodeRefs

/-!
# References after a request

A request that opens, removes or renames leaves the nodes that are in core and their references as
they were, but for the node that the client has open. It is so of each request but three kinds
(`right_iff`): the walk to a revision that a file does not have keeps the oldest one, a rename to a
directory keeps the directory, and a rename of what is not there, or to a name that cannot be looked
up, uses NULL as a node.
-/

set_option autoImplicit false

namespace Vsta.Vstafs.Nodes

open Except (Ensures)

/-- The requests, of a client with an open file; a rename has the file of another client too. -/
inductive Request where
  | vfsOpen (mBuf : Name) (mArg : ULong)
  | vfsRemove (mBuf : Name)
  | doRename (fsrc : File) (src dest : Name)
  deriving DecidableEq, Repr

/-- A request: the server and the client's file after it, and the answer. -/
def Server.serve (x : Env) (s : Server) (f : File) :
    Request → Except Fault (Server × File × Option Error)
  | .vfsOpen mBuf mArg => s.vfsOpen x f mBuf mArg
  | .vfsRemove mBuf => do
      let (s, err) ← s.vfsRemove x f mBuf
      return (s, f, err)
  | .doRename fsrc src dest => do
      let (s, err) ← s.doRename x fsrc src f dest
      return (s, f, err)

/-- A name that may be written to an entry has room there. -/
def Fits : Request → Prop
  | .vfsOpen mBuf _ => mBuf.length < MAXNAMLEN
  | .vfsRemove _ => True
  | .doRename _ _ dest => dest.length < MAXNAMLEN

/-- There is memory, a free sector, and room for the name. -/
def Able (x : Env) (req : Request) : Prop := Plenty x ∧ x.block ≠ 0 ∧ Fits req

/-- One node at most for a file, chains of revisions that end, a client with a node, and a free
sector that is no file. -/
structure Proper (x : Env) (s : Server) (f : File) : Prop where
  tidy : Tidy s
  ordered : Ordered s.files
  live : 0 < s.refs f.fFile
  clear : Clear (s.dirs f.fFile)
  fresh : x.block ≠ 0 → s.first x.block = none
  unused : x.block ≠ 0 → ∀ b ∈ s.dirs f.fFile, ∀ d ∈ b.entries, d.fsClstart ≠ x.block

/-- The references are what they were, but for the one of the client's file. -/
def Documented (s : Server) (f : File) (r : Server × File × Option Error) : Prop :=
  Tidy r.1 ∧ r.1.refs + Pi.single f.fFile 1 = s.refs + Pi.single r.2.1.fFile 1 ∧
    (r.2.2 ≠ none → r.2.1 = f)

/-- A request that can be met is answered, and an answer comes with the references that are
documented. -/
def Right (x : Env) (s : Server) (f : File) (req : Request) : Prop :=
  Ensures (fun _ => ¬ Able x req) (s.serve x f req) (Documented s f)

/-- The file has been found, and the revision that is asked for is not among its revisions. -/
def Missing (x : Env) (s : Server) (f : File) (mBuf : Name) (mArg : ULong) : Prop :=
  x.buf f.fFile = true ∧ (s.files f.fFile).fsType = FT_DIR ∧
    ((parseName mBuf).2.2 = true → x.name = true) ∧ (parseName mBuf).2.1 ≠ 0 ∧
    has mArg ACC_CREATE = false ∧
    ∃ loc de, scan x (s.dirs f.fFile) (parseName mBuf).1 = some (loc, de) ∧
      Gets x s de.fsClstart ∧ ∃ l, Absent x s (parseName mBuf).2.1 de.fsClstart l

/-- The file of a client is a directory that can be read. -/
def InDir (x : Env) (s : Server) (f : File) : Prop :=
  x.buf f.fFile = true ∧ (s.files f.fFile).fsType = FT_DIR

/-- There is an entry with this name, and a node for it. -/
def Sourced (x : Env) (s : Server) (f : File) (name : Name) : Prop :=
  InDir x s f ∧ ∃ loc de, scan x (s.dirs f.fFile) name = some (loc, de) ∧ Gets x s de.fsClstart

/-- The name is that of a directory. -/
def Directory (x : Env) (s : Server) (f : File) (name : Name) : Prop :=
  InDir x s f ∧ ∃ loc de, scan x (s.dirs f.fFile) name = some (loc, de) ∧ Gets x s de.fsClstart ∧
    x.buf de.fsClstart = true ∧ (s.files de.fsClstart).fsType = FT_DIR

/-- A new entry can be made, but not looked up. -/
def Unfindable (x : Env) (s : Server) (f : File) (name : Name) : Prop :=
  InDir x s f ∧ scan x (s.dirs f.fFile) name = none ∧ ¬ Plain name ∧
    (freeSlot x (s.dirs f.fFile) ≠ .full ∨ x.space ≠ none)

/-- The requests that go wrong. -/
def Fails (x : Env) (s : Server) (f : File) : Request → Prop
  | .vfsOpen mBuf mArg => Missing x s f mBuf mArg
  | .vfsRemove _ => False
  | .doRename fsrc src dest =>
      (Able x (.doRename fsrc src dest) ∧ InDir x s fsrc ∧ scan x (s.dirs fsrc.fFile) src = none) ∨
      Sourced x s fsrc src ∧
        (Directory x s f dest ∨ Able x (.doRename fsrc src dest) ∧ Unfindable x s f dest)

section Requests

variable {x : Env} {s t : Server} {f fsrc : File} {req : Request} {d o rev n : ℕ}
  {mBuf name src dest : Name} {mArg fPerm : ULong} {loc : ℕ × ℕ}

theorem Able.plenty_not (short : ¬ Plenty x) : ¬ Able x req := fun able => short able.1

theorem allow_able {α : Type} {r : Except Fault α} {post : α → Prop}
    (all : Ensures (fun _ => ¬ Plenty x) r post) : Ensures (fun _ => ¬ Able x req) r post :=
  all.allow fun _ => Able.plenty_not

/-- What cannot be read is short of memory. -/
theorem short_of_buf (unread : (!x.buf d) = true) : ¬ Plenty x := by
  intro plenty
  rw [(plenty.1 d).1] at unread
  cases unread

theorem read_of_buf (read : ¬ (!x.buf d) = true) : x.buf d = true := by simpa using read

theorem first_none (tidy : Tidy s) : s.first d = none ↔ s.refs d = 0 := by
  rw [Server.refs]
  cases is : s.first d with
  | none => exact ⟨fun _ => rfl, fun _ => rfl⟩
  | some o =>
      exact ⟨fun none_ => absurd none_ (Option.some_ne_none o),
        fun zero => absurd zero (tidy.pos d o is).ne'⟩

theorem Same.first_none (tidy : Tidy s) (same : Same s t) (none_ : s.first d = none) :
    t.first d = none := by
  rw [Nodes.first_none same.tidy, same.refs]
  exact (Nodes.first_none tidy).mp none_

theorem Proper.apart (proper : Proper x s f) (block : x.block ≠ 0) : f.fFile ≠ x.block := by
  intro same
  have none_ := (first_none proper.tidy).mp (proper.fresh block)
  have := proper.live
  rw [same] at this
  omega

/-- An error with the references as they were. -/
theorem Documented.same {err : Option Error} (tidy : Tidy t) (refs : t.refs = s.refs) :
    Documented s f (t, f, err) := ⟨tidy, by rw [refs], fun _ => rfl⟩

/-! ## Opening -/

/-- The client gives its file back, and has another. -/
theorem move_spec {allowed : Fault → Prop} (tidy : Tidy t) (some_ : 0 < t.refs f.fFile)
    (refs : t.refs = s.refs + Pi.single o 1) :
    Ensures allowed (t.move f o fPerm) (Documented s f) := by
  obtain ⟨u, gives, tidy', refs', -⟩ := tidy.deref some_
  rw [Server.move, gives]
  exact ⟨tidy', refs'.symm.trans refs, fun err => absurd rfl err⟩

theorem giveUp_spec {allowed : Fault → Prop} {err : Error} (tidy : Tidy s) :
    Ensures allowed ((s.hold o).giveUp f o err) (Documented s f) := by
  rw [Server.giveUp, deref_hold tidy]
  exact .same tidy rfl

theorem refs_pos_add {more : ℕ → ℕ} (live : 0 < s.refs d) (refs : t.refs = s.refs + more) :
    0 < t.refs d := by
  rw [refs, Pi.add_apply]
  exact Nat.add_pos_left live _

theorem openFound_spec (tidy : Tidy s) (live : 0 < s.refs f.fFile) :
    Ensures (fun _ => ¬ (Plenty x ∧ x.block ≠ 0)) ((s.hold o).openFound x f loc o mArg)
      (Documented s f) := by
  rw [Server.openFound]
  refine .ite (fun unread both => short_of_buf unread both.1) fun _ => ?_
  refine .ite (fun _ => giveUp_spec tidy) fun _ => .ite (fun _ => giveUp_spec tidy) fun _ =>
    .ite (fun _ => .ite (fun _ => giveUp_spec tidy) fun _ => ?_) fun _ => ?_
  · refine ((createFile_spec tidy.hold).allow fun _ short both => short both.1).bind ?_
    rintro ⟨t, o2⟩ (⟨-, is⟩ | ⟨none_, -, -, full⟩)
    · obtain ⟨rfl, rfl⟩ := Prod.mk.inj is
      have tidy' : Tidy (((s.hold o).created x f FT_FILE).hold x.block) := tidy.hold.created.hold
      have refs' : (((s.hold o).created x f FT_FILE).hold x.block).refs =
          s.refs + Pi.single o 1 + Pi.single x.block 1 := by
        rw [refs_hold, ← refs_hold (s := s)]
        rfl
      obtain ⟨u, gives, tidy'', refs'', -⟩ := Tidy.deref (d := o)
        (s := (((s.hold o).created x f FT_FILE).hold x.block).pushed f.fFile loc o x.block)
        ⟨tidy'.rest, tidy'.pos⟩ (by
          change 0 < (((s.hold o).created x f FT_FILE).hold x.block).refs o
          rw [refs']
          simp only [Pi.add_apply, Pi.single_eq_same]
          omega)
      have refs : u.refs = s.refs + Pi.single x.block 1 := by
        refine add_right_cancel (b := Pi.single o 1) (refs''.symm.trans ?_)
        exact refs'.trans (add_right_comm _ _ _)
      dsimp only
      rw [gives]
      exact move_spec tidy'' (refs_pos_add live refs) refs
    · obtain rfl := none_
      exact fun both => both.2 (full both.1)
  · exact move_spec tidy.hold (refs_pos_add live refs_hold) refs_hold

theorem openNew_spec (proper : Proper x s f) (same : Same s t) :
    Ensures (fun _ => ¬ Able x (.vfsOpen mBuf mArg)) (t.openNew x f mBuf fPerm)
      (Documented s f) := by
  rw [Server.openNew]
  refine .ite (fun _ => .same same.tidy same.refs) fun _ =>
    .ite (fun _ => .same same.tidy same.refs) fun _ => ?_
  refine ((dirNewfile_spec _ _ same.tidy
    (fun block => same.first_none proper.tidy (proper.fresh block)) proper.apart).allow fun _ short able => short ⟨able.1, able.2.2⟩).bind ?_
  rintro ⟨u, o⟩ (⟨none_, tidy, refs, -⟩ | ⟨-, bufs, -, is⟩)
  · obtain rfl := none_
    exact .same tidy (refs.trans same.refs)
  · obtain ⟨rfl, rfl⟩ := Prod.mk.inj is
    have refs {type : ℕ} : (t.withNew x f type bufs).refs = s.refs + Pi.single x.block 1 := by
      rw [refs_withNew, same.refs]
    exact move_spec same.tidy.withNew (refs_pos_add proper.live refs) refs

/-- A revision that is asked for is held, or it is missing. -/
theorem revision_spec (proper : Proper x s f) :
    Ensures (fun _ => ¬ Plenty x) ((s.hold o).revision x rev (some (loc, o))) fun r =>
      (∃ o', r = (s.hold o', some (loc, o'))) ∨ rev ≠ 0 ∧ ∃ l, Absent x s rev o l := by
  rw [Server.revision]
  refine .ite (fun _ => .inl ⟨o, rfl⟩) fun asked => ?_
  rw [files_hold]
  refine (walkto_spec proper.tidy proper.ordered (Nat.lt_succ_self _)).bind ?_
  rintro ⟨t, got⟩ (⟨o', is⟩ | absent)
  · obtain ⟨rfl, rfl⟩ := Prod.mk.inj is
    exact .inl ⟨o', rfl⟩
  · exact .inr ⟨asked, absent⟩

theorem has_read : has ACC_READ ACC_CREATE = false := by decide

/-- A mode of 0 is to read. -/
theorem has_mode : has (if mArg = 0 then ACC_READ else mArg) ACC_CREATE = has mArg ACC_CREATE := by
  split_ifs with zero
  · rw [zero, has_read]
    decide
  · rfl

/-- An open that finds what it asks for is right. -/
theorem vfsOpen_spec (proper : Proper x s f) (there : ¬ Missing x s f mBuf mArg) :
    Ensures (fun _ => ¬ Able x (.vfsOpen mBuf mArg)) (s.vfsOpen x f mBuf mArg)
      (Documented s f) := by
  rw [Server.vfsOpen]
  refine .ite (fun _ => .same proper.tidy rfl) fun read =>
    .ite (fun _ => .same proper.tidy rfl) fun dir => ?_
  rw [Missing] at there
  revert there
  obtain ⟨nm, rev, copy⟩ := parseName mBuf
  intro there
  refine .ite (fun short able => ?_) fun named => .ite (fun _ => .same proper.tidy rfl)
    fun mode => ?_
  · rw [able.1.2] at short
    simp at short
  rw [has_mode] at mode
  refine (allow_able (dirLookup_spec proper.tidy)).bind ?_
  rintro ⟨t, got⟩ (⟨loc, de, found, gets, is⟩ | ⟨none_, same, -⟩)
  · obtain ⟨rfl, rfl⟩ := Prod.mk.inj is
    refine (allow_able (revision_spec proper)).bind ?_
    rintro ⟨t, got⟩ (⟨o', is⟩ | ⟨asked, absent⟩)
    · obtain ⟨rfl, rfl⟩ := Prod.mk.inj is
      exact (openFound_spec proper.tidy proper.live).allow fun _ short able =>
        short ⟨able.1, able.2.1⟩
    · refine absurd ⟨read_of_buf read, of_not_not dir, fun is => ?_, asked, ?_, loc, de, found,
        gets, absent⟩ there
      · cases name : x.name with
        | true => rfl
        | false =>
            rw [show copy = true from is, name] at named
            exact absurd rfl named
      · exact Bool.eq_false_iff.mpr fun creates => mode ⟨asked, creates⟩
  · obtain rfl := none_
    refine .ite (fun _ => .same same.tidy same.refs) fun _ => openNew_spec proper same

/-- An open of a revision that a file does not have keeps its oldest revision. -/
theorem vfsOpen_missing (proper : Proper x s f) (missing : Missing x s f mBuf mArg) :
    ∃ l, s.vfsOpen x f mBuf mArg = .ok (s.hold l, f, some .ESRCH) := by
  rw [Missing] at missing
  rw [Server.vfsOpen]
  revert missing
  obtain ⟨nm, rev, copy⟩ := parseName mBuf
  rintro ⟨buf, dir, named, asked, mode, loc, de, found, gets, l, absent⟩
  have copied : (copy && !x.name) = false := by
    cases copy with
    | false => rfl
    | true => rw [named rfl]; rfl
  refine ⟨l, ?_⟩
  rw [if_neg (by simp [buf]), if_neg (not_not.mpr dir)]
  simp only [copied, has_mode, mode, Bool.false_eq_true, and_false, if_false, Bool.not_false,
    if_true]
  rw [dirLookup_gets found gets, Except.ok_bind]
  dsimp only
  rw [Server.revision]
  simp only [if_neg asked]
  rw [files_hold, walkto_absent proper.tidy proper.ordered absent (Nat.lt_succ_self _)]
  rfl

/-- A reference too many is not documented. -/
theorem not_documented {l : ℕ} {err : Error} : ¬ Documented s f (s.hold l, f, some err) := by
  rintro ⟨-, refs, -⟩
  have more := congrFun (add_right_cancel refs) l
  simp only [refs_hold, Pi.add_apply, Pi.single_eq_same] at more
  omega

/-! ## Removing -/

/-- A node that is removed is given back. -/
theorem zap_spec {o : OpenFile} (tidy : Tidy s) (is : s.first d = some o) :
    Ensures (fun _ => ¬ Plenty x) (s.zap x d o) fun t =>
      Tidy t ∧ s.refs = t.refs + Pi.single d 1 ∧ t.disk = s.disk := by
  rw [Server.zap]
  have refs := refs_of_first is
  refine .ite (fun more => ?_) fun less => uncreateFile_spec tidy ?_
  · have tidy' : Tidy (s.setNode d { o with oDeleted := true }) :=
      tidy.setNode (tidy.pos d o is)
    have same : (s.setNode d { o with oDeleted := true }).refs = s.refs := by
      rw [refs_setNode, ← refs, Function.update_eq_self]
    obtain ⟨t, gives, tidy'', refs', disk⟩ := tidy'.deref (d := d) (by
      rw [same, refs]
      omega)
    rw [gives]
    exact ⟨tidy'', same ▸ refs', disk⟩
  · have := tidy.pos d o is
    omega

theorem dirEmpty_spec (bufs : List Bufferful) :
    Ensures (fun _ => ¬ Plenty x) (dirEmpty x bufs) fun _ => True := by
  induction bufs with
  | nil => trivial
  | cons b rest ih =>
      rw [dirEmpty]
      refine .ite (fun unread => short_of_buf unread) fun _ => ?_
      split
      · trivial
      · exact ih

theorem removeErr_spec :
    Ensures (fun _ => ¬ Plenty x) (s.removeErr x f d) fun _ => True := by
  rw [Server.removeErr]
  refine .ite (fun _ => trivial) fun _ => .ite (fun _ => trivial) fun _ =>
    .ite (fun _ => trivial) fun _ => .ite (fun _ => ?_) fun _ => trivial
  exact (dirEmpty_spec _).bind fun _ _ => trivial

variable {revp : Revp} {prev dir : ℕ}

/-- The chain is patched on the disk. -/
theorem patch_nodeHash : (s.patch dir loc revp prev).nodeHash = s.nodeHash := by
  cases revp with
  | entry => rfl
  | header d => rfl

theorem patch_tidy (tidy : Tidy s) : Tidy (s.patch dir loc revp prev) := by
  refine ⟨fun d o => ?_, fun d o => ?_⟩
  · rw [patch_nodeHash]
    exact tidy.rest d o
  · rw [Server.first, patch_nodeHash]
    exact tidy.pos d o

theorem patch_first : (s.patch dir loc revp prev).first d = s.first d := by
  rw [Server.first, patch_nodeHash]
  rfl

theorem patch_refs : (s.patch dir loc revp prev).refs = s.refs := by
  funext d
  rw [Server.refs, patch_first]
  rfl

/-- The loop keeps the references. -/
theorem removeLoop_spec (tidy : Tidy s) (ordered : Ordered s.files) (all : rev = 0 → revp = .entry)
    (enough : d ≠ 0 → (s.files d).fsRev < n) :
    Ensures (fun _ => ¬ Plenty x) (s.removeLoop x dir loc rev n revp d) fun r =>
      Tidy r.1 ∧ r.1.refs = s.refs := by
  induction n generalizing s revp d with
  | zero =>
      cases d with
      | zero => exact ⟨tidy, rfl⟩
      | succ d => exact absurd (enough d.succ_ne_zero) (Nat.not_lt_zero _)
  | succ n ih =>
      cases d with
      | zero => exact ⟨tidy, rfl⟩
      | succ d =>
          have less (some_ : (s.files (d + 1)).fsPrev ≠ 0) :
              (s.files (s.files (d + 1)).fsPrev).fsRev < n :=
            (ordered _ some_).trans_le (Nat.le_of_lt_succ (enough d.succ_ne_zero))
          rw [Server.removeLoop]
          by_cases gets : Gets x s (d + 1)
          · rw [getNode_gets gets, Except.ok_bind]
            refine .ite (fun unread => short_of_buf unread) fun _ => ?_
            simp only [files_hold]
            refine .ite (fun other => ?_) fun _ => ?_
            · rw [deref_hold tidy, Except.ok_bind]
              refine .ite (fun _ => ⟨tidy, rfl⟩) fun _ => ?_
              exact ih tidy ordered (fun zero => absurd zero other.1) less
            · obtain ⟨o, is⟩ := first_hold (s := s) (d := d + 1)
              have held : Tidy (s.hold (d + 1)) := tidy.hold
              rw [is]
              dsimp only
              refine .ite (fun _ => ?_) fun _ => ?_
              · have tidy' : Tidy ((s.hold (d + 1)).setNode (d + 1) { o with oHashed := false }) :=
                  held.setNode (held.pos _ o is)
                have same : ((s.hold (d + 1)).setNode (d + 1) { o with oHashed := false }).refs =
                    s.refs + Pi.single (d + 1) 1 := by
                  rw [refs_setNode, ← refs_hold, ← refs_of_first is, Function.update_eq_self]
                obtain ⟨t, gives, tidy'', refs, -⟩ := tidy'.deref (d := d + 1) (by
                  rw [same, Pi.add_apply, Pi.single_eq_same]
                  exact Nat.succ_pos _)
                rw [gives]
                exact ⟨tidy'', add_right_cancel (refs.symm.trans same)⟩
              · refine (zap_spec (patch_tidy held) (patch_first.trans is)).bind ?_
                rintro t ⟨tidy', refs, disk⟩
                rw [patch_refs, refs_hold] at refs
                have refs := (add_right_cancel refs).symm
                refine .ite (fun _ => ⟨tidy', refs⟩) fun whole => ?_
                obtain rfl := all (not_not.mp whole)
                have files : t.files = s.files :=
                  (congrArg Prod.fst disk).trans (files_hold (s := s) (d := d + 1))
                refine (ih tidy' (files ▸ ordered) (fun _ => rfl) ?_).mono
                  fun r ⟨tidy'', refs'⟩ => ⟨tidy'', refs'.trans refs⟩
                rw [files]
                exact less
          · refine (getNode_not tidy gets).bind ?_
            rintro ⟨t, got⟩ ⟨none_, -⟩
            obtain rfl := none_
            exact fun plenty => gets plenty.gets

/-- Every remove is right. -/
theorem vfsRemove_spec (proper : Proper x s f) :
    Ensures (fun _ => ¬ Plenty x) (s.vfsRemove x f mBuf) fun r =>
      Tidy r.1 ∧ r.1.refs = s.refs := by
  rw [Server.vfsRemove]
  refine .ite (fun _ => ⟨proper.tidy, rfl⟩) fun _ => .ite (fun _ => ⟨proper.tidy, rfl⟩) fun _ => ?_
  obtain ⟨nm, rev, copy⟩ := parseName mBuf
  refine .ite (fun short plenty => ?_) fun _ => (dirLookup_spec proper.tidy).bind ?_
  · rw [plenty.2] at short
    simp at short
  rintro ⟨t, found⟩ (⟨loc, de, found, gets, is⟩ | ⟨none_, same, -⟩)
  · obtain ⟨rfl, rfl⟩ := Prod.mk.inj is
    refine removeErr_spec.bind fun err _ => ?_
    rw [deref_hold proper.tidy, Except.ok_bind]
    cases err with
    | some err => exact ⟨proper.tidy, rfl⟩
    | none =>
        refine (removeLoop_spec proper.tidy proper.ordered (fun _ => rfl)
          fun _ => Nat.lt_succ_self _).bind ?_
        rintro ⟨u, err⟩ ⟨tidy, refs⟩
        cases err with
        | some err => exact ⟨tidy, refs⟩
        | none => exact .ite (fun _ => ⟨tidy, refs⟩) fun _ => ⟨⟨tidy.rest, tidy.pos⟩, refs⟩
  · obtain rfl := none_
    exact ⟨same.tidy, same.refs⟩

/-! ## Renaming -/

/-- The source of a rename is found and given back. -/
theorem source_spec {create : Bool} (tidy : Tidy s) (no : create = false)
    (there : Able x req → InDir x s fsrc → scan x (s.dirs fsrc.fFile) src ≠ none) :
    Ensures (fun _ => ¬ Able x req) (s.getDirent x fsrc src create) fun r =>
      (∃ err, r = (s, .error err)) ∨ ∃ loc o, r = (s, .ok (loc, o)) ∧ Sourced x s fsrc src := by
  subst no
  rw [Server.getDirent]
  refine .ite (fun _ => .inl ⟨_, rfl⟩) fun read => .ite (fun _ => .inl ⟨_, rfl⟩) fun dir => ?_
  have inDir : InDir x s fsrc := ⟨read_of_buf read, of_not_not dir⟩
  refine (allow_able (dirLookup_spec tidy)).bind ?_
  rintro ⟨t, got⟩ (⟨loc, de, found, gets, is⟩ | ⟨none_, same, not⟩)
  · obtain ⟨rfl, rfl⟩ := Prod.mk.inj is
    simp only [Bool.false_eq_true, if_false]
    rw [deref_hold tidy]
    exact .inr ⟨loc, _, rfl, inDir, loc, de, found, gets⟩
  · obtain rfl := none_
    intro able
    cases is : scan x (s.dirs fsrc.fFile) src with
    | none => exact there able inDir is
    | some found => exact not found.1 found.2 is able.1.gets

theorem source_eq (tidy : Tidy s) (sourced : Sourced x s fsrc src) :
    ∃ loc o, s.getDirent x fsrc src false = .ok (s, .ok (loc, o)) := by
  obtain ⟨⟨buf, dir⟩, loc, de, found, gets⟩ := sourced
  refine ⟨loc, de.fsClstart, ?_⟩
  rw [Server.getDirent, if_neg (by simp [buf]), if_neg (not_not.mpr dir),
    dirLookup_gets found gets, Except.ok_bind]
  simp only [Bool.false_eq_true, if_false]
  rw [deref_hold tidy]
  rfl

/-- A node that is held is that of a file, or the request ends there. -/
theorem asFile_spec (tidy : Tidy s) (some_ : s.first d ≠ none)
    (file : x.buf d = true → (s.files d).fsType ≠ FT_DIR) :
    Ensures (fun _ => ¬ Plenty x) (s.asFile x (loc, d)) fun r => r = (s, .ok (loc, d)) := by
  rw [Server.asFile]
  refine .ite (fun lacks => ?_) fun has_ => ?_
  · exact short_of_buf (lacks.resolve_left some_)
  · exact .ite (fun dir => absurd dir (file (read_of_buf fun unread => has_ (.inr unread))))
      fun _ => rfl

theorem files_withNew {bufs : List Bufferful} :
    ((s.withNew x f FT_FILE bufs).files x.block).fsType = FT_FILE := by
  have files : (s.withNew x f FT_FILE bufs).files = (s.created x f FT_FILE).files := files_hold
  have new : (s.created x f FT_FILE).files x.block =
      ⟨0, 1, FT_FILE, (s.files f.fFile).fsProt, f.fPerms[0].permUid⟩ := Function.update_self ..
  rw [files, new]

theorem dirs_withNew {bufs : List Bufferful} {type : ℕ} :
    (s.withNew x f type bufs).dirs f.fFile = bufs := Function.update_self ..

theorem unused_of_scan {bufs : List Bufferful} {de : Dirent} {block : ℕ}
    (unused : ∀ b ∈ bufs, ∀ d ∈ b.entries, d.fsClstart ≠ block)
    (found : scan x bufs name = some (loc, de)) : de.fsClstart ≠ block := by
  have entry {entries : List Dirent} {j : ℕ} (is : findent entries name = some (j, de)) :
      de ∈ entries := by
    induction entries generalizing j with
    | nil => cases is
    | cons d rest ih =>
        have later (is : (findent rest name).map (fun p => (p.1 + 1, p.2)) = some (j, de)) :
            de ∈ d :: rest := by
          obtain ⟨⟨k, e⟩, further, same⟩ := Option.map_eq_some_iff.mp is
          obtain ⟨-, rfl⟩ := Prod.mk.inj same
          exact List.mem_cons_of_mem _ (ih further)
        rw [findent] at is
        split_ifs at is
        · exact later is
        · obtain ⟨-, rfl⟩ := Prod.mk.inj (Option.some.inj is)
          exact List.mem_cons_self
        · exact later is
  induction bufs generalizing loc with
  | nil => cases found
  | cons b rest ih =>
      obtain ⟨here, unused⟩ := List.forall_mem_cons.mp unused
      rw [scan] at found
      split_ifs at found
      cases is : findent b.entries name with
      | some at_ =>
          rw [is] at found
          obtain ⟨-, rfl⟩ := Prod.mk.inj (Option.some.inj found)
          exact here _ (entry is)
      | none =>
          rw [is] at found
          obtain ⟨⟨⟨i, j⟩, e⟩, later, same⟩ := Option.map_eq_some_iff.mp found
          obtain ⟨-, rfl⟩ := Prod.mk.inj same
          exact ih unused later

/-- A destination that is created has a node of its own. -/
theorem created_spec {bufs : List Bufferful} (proper : Proper x s f) (same : Same s t)
    (not : ∀ loc de, scan x (s.dirs f.fFile) dest = some (loc, de) → ¬ Gets x s de.fsClstart)
    (block : x.block ≠ 0) (adds : Adds x (s.dirs f.fFile) ⟨dest, x.block⟩ bufs) :
    Ensures (fun _ => ¬ Plenty x) ((t.withNew x f FT_FILE bufs).dirLookup x f.fFile dest) fun r =>
      (r.2 = none ∧ (Plenty x → scan x bufs dest = none)) ∨
        ∃ loc, r = ((t.withNew x f FT_FILE bufs).hold x.block, some (loc, x.block)) := by
  have tidy : Tidy (t.withNew x f FT_FILE bufs) := same.tidy.withNew
  rcases adds.scan with ⟨loc, found⟩ | as_before
  · have gets : Gets x (t.withNew x f FT_FILE bufs) x.block := by
      refine .inl ?_
      have some_ : 0 < (t.withNew x f FT_FILE bufs).refs x.block := by
        rw [refs_withNew, Pi.add_apply, Pi.single_eq_same]
        exact Nat.succ_pos _
      obtain ⟨o, is⟩ := first_of_refs some_
      rw [is]
      exact Option.some_ne_none _
    rw [dirLookup_gets (by rw [dirs_withNew]; exact found) gets]
    exact .inr ⟨loc, rfl⟩
  · refine (dirLookup_spec tidy).mono ?_
    rintro ⟨u, got⟩ (⟨loc, de, found, gets, is⟩ | ⟨none_, -, not'⟩)
    · rw [dirs_withNew, as_before] at found
      refine absurd ?_ (not loc de found)
      have other := unused_of_scan (proper.unused block) found
      refine gets.imp_left fun some_ none_ => some_ ?_
      rw [first_none tidy, refs_withNew, Pi.add_apply, Pi.single_eq_of_ne other, Nat.add_zero,
        same.refs]
      exact (first_none proper.tidy).mp none_
    · refine .inl ⟨none_, fun plenty => ?_⟩
      rw [dirs_withNew] at not'
      cases is : scan x bufs dest with
      | none => rfl
      | some found => exact absurd plenty.gets (not' found.1 found.2 is)

/-- A destination that is not there is created, or the references are as they were. -/
theorem orCreate_spec (proper : Proper x s f) (same : Same s t) (inDir : InDir x s f)
    (not : ∀ loc de, scan x (s.dirs f.fFile) dest = some (loc, de) → ¬ Gets x s de.fsClstart)
    (findable : Able x (.doRename fsrc src dest) → ¬ Unfindable x s f dest) :
    Ensures (fun _ => ¬ Able x (.doRename fsrc src dest)) (t.orCreate x f dest none) fun r =>
      (∃ err, r.2 = .error err ∧ Tidy r.1 ∧ r.1.refs = s.refs) ∨
        ∃ loc bufs, r = (t.withNew x f FT_FILE bufs, .ok (loc, x.block)) := by
  have tidy := same.tidy
  rw [Server.orCreate]
  refine ((dirNewfile_spec _ _ tidy
    (fun block => same.first_none proper.tidy (proper.fresh block)) proper.apart).allow
    fun _ short able => short ⟨able.1, able.2.2⟩).bind ?_
  rintro ⟨u, o⟩ (⟨none_, tidy', refs, -⟩ | ⟨block, bufs, adds, is⟩)
  · obtain rfl := none_
    exact .inl ⟨_, rfl, tidy', refs.trans same.refs⟩
  · obtain ⟨rfl, rfl⟩ := Prod.mk.inj is
    rw [same.dirs] at adds
    refine (allow_able (created_spec proper same not block adds)).bind ?_
    rintro ⟨u, got⟩ (⟨none_, missing⟩ | ⟨loc, is⟩)
    · obtain rfl := none_
      intro able
      have before : scan x (s.dirs f.fFile) dest = none := by
        cases is : scan x (s.dirs f.fFile) dest with
        | none => rfl
        | some found => exact absurd able.1.gets (not found.1 found.2 is)
      have plain : Plain dest := by
        by_contra odd
        refine findable able ⟨inDir, before, odd, ?_⟩
        cases adds with
        | slot free => exact .inl (by rw [free]; exact nofun)
        | grown _ space _ => exact .inr (by rw [space]; exact Option.some_ne_none _)
      exact adds.found proper.clear plain (missing able.1)
    · obtain ⟨rfl, rfl⟩ := Prod.mk.inj is
      dsimp only
      rw [deref_hold tidy.withNew]
      exact .inr ⟨loc, bufs, rfl⟩

/-- The destination of a rename is held, or the references are as they were. -/
theorem dest_spec (proper : Proper x s f) (file : ¬ Directory x s f dest)
    (findable : Able x (.doRename fsrc src dest) → ¬ Unfindable x s f dest) :
    Ensures (fun _ => ¬ Able x (.doRename fsrc src dest)) (s.getDirent x f dest true) fun r =>
      Tidy r.1 ∧ ((∃ err, r.2 = .error err ∧ r.1.refs = s.refs) ∨
        ∃ loc o, r.2 = .ok (loc, o) ∧ r.1.refs = s.refs + Pi.single o 1) := by
  rw [Server.getDirent]
  refine .ite (fun _ => ⟨proper.tidy, .inl ⟨_, rfl, rfl⟩⟩) fun read =>
    .ite (fun _ => ⟨proper.tidy, .inl ⟨_, rfl, rfl⟩⟩) fun dir => ?_
  have inDir : InDir x s f := ⟨read_of_buf read, of_not_not dir⟩
  refine (allow_able (dirLookup_spec proper.tidy)).bind ?_
  simp only [if_true]
  rintro ⟨t, got⟩ (⟨loc, de, found, gets, is⟩ | ⟨none_, same, not⟩)
  · obtain ⟨rfl, rfl⟩ := Prod.mk.inj is
    rw [Server.orCreate, Except.ok_bind]
    obtain ⟨o, held⟩ := first_hold (s := s) (d := de.fsClstart)
    refine (allow_able (asFile_spec proper.tidy.hold (by rw [held]; exact Option.some_ne_none _)
      fun buf type => ?_)).mono fun r is => ?_
    · rw [files_hold] at type
      exact file ⟨inDir, loc, de, found, gets, buf, type⟩
    · subst is
      exact ⟨proper.tidy.hold, .inr ⟨loc, _, rfl, refs_hold⟩⟩
  · obtain rfl := none_
    refine (orCreate_spec proper same inDir not findable).bind ?_
    rintro ⟨u, got⟩ (⟨err, is, tidy, refs⟩ | ⟨loc, bufs, is⟩)
    · obtain rfl := is
      exact ⟨tidy, .inl ⟨err, rfl, refs⟩⟩
    · obtain ⟨rfl, rfl⟩ := Prod.mk.inj is
      have tidy : Tidy (t.withNew x f FT_FILE bufs) := same.tidy.withNew
      have refs : (t.withNew x f FT_FILE bufs).refs = s.refs + Pi.single x.block 1 := by
        rw [refs_withNew, same.refs]
      refine (allow_able (asFile_spec tidy (fun none_ => ?_) fun _ => ?_)).mono fun r is => ?_
      · rw [first_none tidy, refs, Pi.add_apply, Pi.single_eq_same] at none_
        exact absurd none_ (Nat.succ_ne_zero _)
      · rw [files_withNew]
        decide
      · subst is
        exact ⟨tidy, .inr ⟨loc, _, rfl, refs⟩⟩

/-- A rename is right when its names are those of files. -/
theorem doRename_spec (proper : Proper x s f)
    (fine : ¬ Fails x s f (.doRename fsrc src dest)) :
    Ensures (fun _ => ¬ Able x (.doRename fsrc src dest)) (s.doRename x fsrc src f dest) fun r =>
      Tidy r.1 ∧ r.1.refs = s.refs := by
  rw [Fails, not_or, not_and] at fine
  obtain ⟨there, fine⟩ := fine
  rw [Server.doRename]
  refine (source_spec proper.tidy rfl fun able inDir none_ => there able ⟨inDir, none_⟩).bind ?_
  rintro ⟨t, got⟩ (⟨err, is⟩ | ⟨lsrc, osrc, is, sourced⟩)
  · obtain ⟨rfl, rfl⟩ := Prod.mk.inj is
    exact ⟨proper.tidy, rfl⟩
  obtain ⟨rfl, rfl⟩ := Prod.mk.inj is
  have fine := not_or.mp fun bad => fine ⟨sourced, bad⟩
  refine (dest_spec proper fine.1 fun able odd => fine.2 ⟨able, odd⟩).bind ?_
  rintro ⟨t, got⟩ ⟨tidy, ⟨err, is, refs⟩ | ⟨ldest, odest, is, refs⟩⟩
  · obtain rfl := is
    exact ⟨tidy, refs⟩
  · obtain rfl := is
    have some_ : 0 < t.refs odest := by
      rw [refs, Pi.add_apply, Pi.single_eq_same]
      exact Nat.succ_pos _
    obtain ⟨o, is⟩ := first_of_refs some_
    dsimp only
    generalize there_ : (t.swap fsrc.fFile lsrc f.fFile ldest).setEntry fsrc.fFile lsrc (fun de =>
        { de with fsName := de.fsName.modify 0 (· ||| 0x80) }) = u
    have hash : u.nodeHash = t.nodeHash := by
      rw [← there_]
      rfl
    have swapped : u.first odest = some o := by
      rw [Server.first, hash]
      exact is
    have refs_u : u.refs = t.refs := by
      rw [← there_]
      rfl
    have tidy_u : Tidy u := by
      rw [← there_]
      exact ⟨tidy.rest, tidy.pos⟩
    rw [swapped]
    refine (allow_able (zap_spec tidy_u swapped)).bind ?_
    rintro v ⟨tidy', refs', -⟩
    rw [refs_u, refs] at refs'
    exact ⟨tidy', (add_right_cancel refs').symm⟩

/-- A rename of what is not there, or to what cannot be looked up, uses NULL as a node; one to a
directory keeps it. -/
theorem doRename_fails (proper : Proper x s f) (fails : Fails x s f (.doRename fsrc src dest)) :
    (Able x (.doRename fsrc src dest) ∧ ∃ fault, s.doRename x fsrc src f dest = .error fault) ∨
      ∃ l, s.doRename x fsrc src f dest = .ok (s.hold l, some .EISDIR) := by
  rw [Server.doRename]
  rcases fails with ⟨able, ⟨buf, dir⟩, missing⟩ | ⟨sourced, directory | ⟨able, odd⟩⟩
  · refine .inl ⟨able, .null, ?_⟩
    rw [Server.getDirent, if_neg (by simp [buf]), if_neg (not_not.mpr dir), dirLookup_none missing]
    rfl
  · obtain ⟨lsrc, osrc, source⟩ := source_eq proper.tidy sourced
    obtain ⟨⟨buf, dir⟩, loc, de, found, gets, read, type⟩ := directory
    obtain ⟨o, held⟩ := first_hold (s := s) (d := de.fsClstart)
    refine .inr ⟨de.fsClstart, ?_⟩
    rw [source, Except.ok_bind]
    dsimp only
    rw [Server.getDirent, if_neg (by simp [buf]), if_neg (not_not.mpr dir),
      dirLookup_gets found gets, Except.ok_bind]
    simp only [if_true]
    rw [Server.orCreate, Except.ok_bind]
    dsimp only
    rw [Server.asFile, if_neg (by simp [held, read]), files_hold, if_pos type]
    rfl
  · obtain ⟨lsrc, osrc, source⟩ := source_eq proper.tidy sourced
    obtain ⟨⟨buf, dir⟩, missing, plain, room⟩ := odd
    refine .inl ⟨able, ?_⟩
    rw [source, Except.ok_bind]
    dsimp only
    rw [Server.getDirent, if_neg (by simp [buf]), if_neg (not_not.mpr dir), dirLookup_none missing,
      Except.ok_bind]
    simp only [if_true]
    rw [Server.orCreate]
    have creates := dirNewfile_spec FT_FILE dest proper.tidy proper.fresh proper.apart
    cases is : s.dirNewfile x f dest FT_FILE with
    | error fault => exact ⟨fault, rfl⟩
    | ok r =>
        rw [is] at creates
        rcases creates with ⟨-, -, -, full⟩ | ⟨-, bufs, -, rfl⟩
        · rcases full able.1 with zero | ⟨full, space⟩
          · exact absurd zero able.2.1
          · exact absurd (room.resolve_left fun free => free full) fun some_ => some_ space
        · refine ⟨.null, ?_⟩
          rw [Except.ok_bind]
          dsimp only
          rw [dirLookup_none (scan_not_plain plain)]
          rfl

end Requests

/-! ## A directory with one file -/

/-- There is memory, and a free sector. -/
def plenty : Env := ⟨fun _ => true, fun _ => true, fun _ => true, true, 9, none⟩

/-- A directory in sector 1 with the entry f, of a file with one revision in sector 5. -/
def oneFile : Server where
  nodeHash d := if d = 1 then [some ⟨1, false, false⟩] else []
  files d := ⟨0, 1, if d = 1 then FT_DIR else FT_FILE,
    ⟨0, 0, .replicate PERMLEN 0, .replicate PERMLEN 0⟩, 0⟩
  dirs d := if d = 1 then [⟨1, [⟨[102], 5⟩]⟩] else []
  roflag := false

/-- A client that has the directory open. -/
def client : File := ⟨1, ACC_READ, .replicate PROCPERMS ⟨0, .replicate PERMLEN 0, 0⟩, 1⟩

theorem proper_client : Proper plenty oneFile client where
  tidy := by
    refine ⟨fun d o inside => ?_, fun d o is => ?_⟩
    · simp only [oneFile] at inside
      split_ifs at inside <;> cases inside
    · simp only [Server.first, oneFile] at is
      split_ifs at is
      · obtain rfl := Option.some.inj is
        exact Nat.one_pos
      · cases is
  ordered _ more := absurd rfl more
  live := by decide
  clear := by
    unfold Clear
    decide
  fresh _ := rfl
  unused _ := by decide

end Vsta.Vstafs.Nodes
