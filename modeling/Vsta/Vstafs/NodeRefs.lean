import Mathlib.Algebra.Group.Pi.Basic
import Mathlib.Algebra.Order.Group.Nat
import Mathlib.Tactic.Push
import Vsta.Library.Ensures
import Vsta.Vstafs.Nodes

/-!
# References to nodes

What taking and giving back a node does to the references of the nodes that are in core, and what a
lookup, the walk to a revision and a new file leave of them. A node that is taken and given back
leaves the server as it was (`deref_hold`).
-/

set_option autoImplicit false

namespace Vsta.Vstafs.Nodes

open Except (Ensures)

/-- The references of each node that is in core. -/
def Server.refs (s : Server) : ℕ → ℕ := fun d => ((s.first d).map OpenFile.oRefs).getD 0

/-- One node at most is under a key, in front of what else is there, and it is in use. -/
structure Tidy (s : Server) : Prop where
  rest : ∀ d, ∀ o ∈ (s.nodeHash d).tail, o = none
  pos : ∀ d o, s.first d = some o → 0 < o.oRefs

/-- One more reference to a node. -/
def Server.hold (s : Server) (d : ℕ) : Server :=
  match s.first d with
  | some o => s.setNode d { o with oRefs := o.oRefs + 1 }
  | none => s.setHash d (some ⟨1, false, false⟩ :: s.nodeHash d)

/-- What there is memory for. -/
def Plenty (x : Env) : Prop :=
  (∀ d, x.buf d = true ∧ x.node d = true ∧ x.entry d = true) ∧ x.name = true

/-- A node that is in core, or that there is memory for. -/
def Gets (x : Env) (s : Server) (d : ℕ) : Prop :=
  s.first d ≠ none ∨ x.buf d = true ∧ x.node d = true ∧ x.entry d = true

/-- What is on the disk. -/
def Server.disk (s : Server) : (ℕ → FsFile) × (ℕ → List Bufferful) × Bool :=
  (s.files, s.dirs, s.roflag)

/-- The same references, and the same disk. -/
structure Same (s t : Server) : Prop where
  tidy : Tidy t
  refs : t.refs = s.refs
  disk : t.disk = s.disk

section Nodes

variable {x : Env} {s t : Server} {d e : ℕ} {o : OpenFile} {l : List (Option OpenFile)}

theorem nodeHash_setHash : (s.setHash d l).nodeHash d = l := Function.update_self ..

theorem nodeHash_setHash_of_ne (other : e ≠ d) : (s.setHash d l).nodeHash e = s.nodeHash e :=
  Function.update_of_ne other ..

theorem first_setHash : (s.setHash d l).first e = if e = d then l.head?.join else s.first e := by
  rw [Server.first]
  by_cases same : e = d
  · subst same
    rw [if_pos rfl, nodeHash_setHash]
  · rw [if_neg same, nodeHash_setHash_of_ne same]
    rfl

theorem refs_of_first (is : s.first d = some o) : s.refs d = o.oRefs := by
  rw [Server.refs, is]
  rfl

theorem first_of_refs (some_ : 0 < s.refs d) : ∃ o, s.first d = some o := by
  cases is : s.first d with
  | none =>
      rw [Server.refs, is] at some_
      cases some_
  | some o => exact ⟨o, rfl⟩

/-- What is under a key is the node that is in front, and NULLs. -/
theorem Tidy.setHash (tidy : Tidy s) (rest : ∀ o ∈ l.tail, o = none)
    (pos : ∀ o, l.head?.join = some o → 0 < o.oRefs) : Tidy (s.setHash d l) where
  rest e o inside := by
    by_cases same : e = d
    · subst same
      refine rest o ?_
      rwa [nodeHash_setHash] at inside
    · refine tidy.rest e o ?_
      rwa [nodeHash_setHash_of_ne same] at inside
  pos e o is := by
    rw [first_setHash] at is
    split_ifs at is
    · exact pos o is
    · exact tidy.pos e o is

theorem Tidy.tail_none (tidy : Tidy s) : (s.nodeHash d).tail.head?.join = none := by
  cases is : (s.nodeHash d).tail with
  | nil => rfl
  | cons o rest =>
      have none_ := tidy.rest d o (is ▸ List.mem_cons_self)
      rw [none_]
      rfl

theorem Tidy.setNode (tidy : Tidy s) (pos : 0 < o.oRefs) : Tidy (s.setNode d o) :=
  tidy.setHash (tidy.rest d) fun o' is => by
    obtain rfl := Option.some.inj is
    exact pos

theorem refs_setNode : (s.setNode d o).refs = Function.update s.refs d o.oRefs := by
  funext e
  rw [Server.refs, Server.setNode, first_setHash]
  by_cases same : e = d
  · subst same
    rw [if_pos rfl, Function.update_self]
    rfl
  · rw [if_neg same, Function.update_of_ne same]
    rfl

/-- One more reference is one more. -/
theorem refs_hold : (s.hold d).refs = s.refs + Pi.single d 1 := by
  rw [Server.hold]
  cases is : s.first d with
  | some o =>
      rw [refs_setNode]
      funext e
      by_cases same : e = d
      · subst same
        simp [refs_of_first is]
      · simp [same]
  | none =>
      funext e
      rw [Server.refs, first_setHash]
      by_cases same : e = d
      · subst same
        simp [Server.refs, is]
      · simp [same, Server.refs]

theorem disk_hold : (s.hold d).disk = s.disk := by
  rw [Server.hold]
  split <;> rfl

theorem Tidy.hold (tidy : Tidy s) : Tidy (s.hold d) := by
  rw [Server.hold]
  cases is : s.first d with
  | some o => exact tidy.setNode (Nat.succ_pos _)
  | none =>
      refine tidy.setHash ?_ fun o' is => by
        obtain rfl := Option.some.inj is
        exact Nat.one_pos
      intro o inside
      cases under : s.nodeHash d with
      | nil =>
          rw [under] at inside
          cases inside
      | cons first rest =>
          rw [under] at inside
          rcases List.mem_cons.mp inside with rfl | inside
          · rw [Server.first, under] at is
            cases o with
            | none => rfl
            | some o => cases is
          · exact tidy.rest d o (by rwa [under])

theorem first_hold : ∃ o, (s.hold d).first d = some o := by
  refine first_of_refs ?_
  rw [refs_hold, Pi.add_apply, Pi.single_eq_same]
  exact Nat.succ_pos _

theorem setHash_self : s.setHash d (s.nodeHash d) = s := by
  rw [Server.setHash, Function.update_eq_self]

theorem setHash_setHash {l' : List (Option OpenFile)} :
    (s.setHash d l).setHash d l' = s.setHash d l' := by
  rw [Server.setHash, Server.setHash, Server.setHash, Function.update_idem]

theorem nodeHash_of_first (is : s.first d = some o) :
    s.nodeHash d = some o :: (s.nodeHash d).tail := by
  cases under : s.nodeHash d with
  | nil =>
      rw [Server.first, under] at is
      cases is
  | cons first rest =>
      rw [Server.first, under] at is
      rw [show first = some o from is]
      rfl

/-- What is taken and given back leaves nothing behind. -/
theorem deref_hold (tidy : Tidy s) : (s.hold d).derefNode d = .ok s := by
  cases is : s.first d with
  | some o =>
      have pos := tidy.pos d o is
      have held : s.hold d = s.setNode d { o with oRefs := o.oRefs + 1 } := by
        rw [Server.hold, is]
      have first : (s.hold d).first d = some { o with oRefs := o.oRefs + 1 } := by
        rw [held, Server.setNode, first_setHash, if_pos rfl]
        rfl
      rw [Server.derefNode, first]
      simp only [Nat.add_eq_right, pos.ne', if_false, Nat.add_sub_cancel]
      rw [held, Server.setNode, Server.setNode, setHash_setHash, nodeHash_setHash, List.tail_cons,
        ← nodeHash_of_first is, setHash_self]
  | none =>
      have held : s.hold d = s.setHash d (some ⟨1, false, false⟩ :: s.nodeHash d) := by
        rw [Server.hold, is]
      have first : (s.hold d).first d = some ⟨1, false, false⟩ := by
        rw [held, first_setHash, if_pos rfl]
        rfl
      rw [Server.derefNode, first]
      simp only [if_true]
      rw [held, setHash_setHash, nodeHash_setHash, List.tail_cons, setHash_self]

/-- A reference is given back. -/
theorem Tidy.deref (tidy : Tidy s) (some_ : 0 < s.refs d) :
    ∃ t, s.derefNode d = .ok t ∧ Tidy t ∧ s.refs = t.refs + Pi.single d 1 ∧ t.disk = s.disk := by
  obtain ⟨o, is⟩ := first_of_refs some_
  have refs := refs_of_first is
  rw [Server.derefNode, is]
  by_cases last : o.oRefs = 1
  · refine ⟨_, if_pos last, tidy.setHash (fun o inside => ?_) (fun o is => ?_), ?_, rfl⟩
    · exact tidy.rest d o (List.mem_of_mem_tail inside)
    · rw [tidy.tail_none] at is
      cases is
    · funext e
      by_cases same : e = d
      · subst same
        rw [Pi.add_apply, Pi.single_eq_same, refs, last, Server.refs, first_setHash, if_pos rfl,
          tidy.tail_none]
        rfl
      · rw [Pi.add_apply, Pi.single_eq_of_ne same, Server.refs, Server.refs, first_setHash,
          if_neg same, Nat.add_zero]
  · refine ⟨_, if_neg last, tidy.setNode ?_, ?_, rfl⟩
    · have := tidy.pos d o is
      change 0 < o.oRefs - 1
      omega
    · rw [refs_setNode]
      funext e
      by_cases same : e = d
      · subst same
        simp only [Pi.add_apply, Function.update_self, Pi.single_eq_same]
        have := tidy.pos e o is
        omega
      · simp [same]

theorem Plenty.gets (plenty : Plenty x) : Gets x s d := .inr (plenty.1 d)

/-- A node that there is, is held. -/
theorem getNode_gets (gets : Gets x s d) : s.getNode x d = .ok (s.hold d, some d) := by
  rw [Server.getNode, Server.hold]
  cases is : s.first d with
  | some o => rfl
  | none =>
      obtain ⟨buf, node, entry⟩ := gets.resolve_left fun some_ => some_ is
      simp only [buf, node, entry, Bool.not_true, Bool.false_eq_true, if_false, if_true]

theorem refs_setHash_none (none_ : s.first d = none) (none_' : l.head?.join = none) :
    (s.setHash d l).refs = s.refs := by
  funext e
  rw [Server.refs, first_setHash]
  by_cases same : e = d
  · subst same
    rw [if_pos rfl, none_', Server.refs, none_]
  · rw [if_neg same]
    rfl

theorem rest_of_none (tidy : Tidy s) (none_ : s.first d = none) : ∀ o ∈ s.nodeHash d, o = none := by
  intro o inside
  cases under : s.nodeHash d with
  | nil =>
      rw [under] at inside
      cases inside
  | cons first rest =>
      rw [under] at inside
      rcases List.mem_cons.mp inside with rfl | inside
      · rw [Server.first, under] at none_
        cases o with
        | none => rfl
        | some o => cases none_
      · exact tidy.rest d o (by rwa [under])

/-- A node that there is no memory for: at most a NULL comes to the hash or goes. -/
theorem getNode_not (tidy : Tidy s) (not : ¬ Gets x s d) :
    Ensures (fun _ => ¬ Plenty x) (s.getNode x d) fun r => r.2 = none ∧ Same s r.1 := by
  have short : ¬ Plenty x := fun plenty => not plenty.gets
  have none_ : s.first d = none := by
    by_contra some_
    exact not (.inl some_)
  have same (l : List (Option OpenFile)) (nulls : ∀ o ∈ l, o = none) : Same s (s.setHash d l) := by
    have head : l.head?.join = none := by
      cases l with
      | nil => rfl
      | cons o rest =>
          rw [nulls o List.mem_cons_self]
          rfl
    refine ⟨tidy.setHash (fun o inside => nulls o (List.mem_of_mem_tail inside)) fun o is => ?_,
      refs_setHash_none none_ head, rfl⟩
    rw [head] at is
    cases is
  have nulls := rest_of_none tidy none_
  rw [Server.getNode, none_]
  dsimp only
  refine .ite (fun _ => short) fun buf => .ite (fun node => .ite (fun entry => ?_) fun _ => ?_)
    fun _ => .ite (fun _ => ?_) fun _ => short
  · refine absurd (.inr ⟨?_, node, entry⟩) not
    simpa using buf
  · cases under : s.nodeHash d with
    | nil => exact short
    | cons o rest =>
        exact ⟨rfl, same rest fun o inside => nulls o (under ▸ List.mem_cons_of_mem _ inside)⟩
  · refine ⟨rfl, same _ fun o inside => ?_⟩
    rcases List.mem_cons.mp inside with rfl | inside
    · rfl
    · exact nulls o inside

theorem Same.refl (tidy : Tidy s) : Same s s := ⟨tidy, rfl, rfl⟩

theorem Same.files (same : Same s t) : t.files = s.files := congrArg Prod.fst same.disk

theorem Same.dirs (same : Same s t) : t.dirs = s.dirs := congrArg (fun d => d.2.1) same.disk

theorem files_hold : (s.hold d).files = s.files := congrArg Prod.fst disk_hold

theorem dirs_hold : (s.hold d).dirs = s.dirs := congrArg (fun d => d.2.1) disk_hold

end Nodes

/-! ## Looking up -/

/-- From each revision on, the older ones have lower numbers. -/
def Ordered (files : ℕ → FsFile) : Prop :=
  ∀ d, (files d).fsPrev ≠ 0 → (files (files d).fsPrev).fsRev < (files d).fsRev

/-- The walk from a file on does not meet the revision, and ends at the oldest one. -/
inductive Absent (x : Env) (s : Server) (rev : ℕ) : ℕ → ℕ → Prop where
  | last {o : ℕ} (buf : x.buf o = true) (other : (s.files o).fsRev ≠ rev)
      (first : (s.files o).fsPrev = 0) : Absent x s rev o o
  | older {o l : ℕ} (buf : x.buf o = true) (other : (s.files o).fsRev ≠ rev)
      (more : (s.files o).fsPrev ≠ 0) (gets : Gets x s (s.files o).fsPrev)
      (rest : Absent x s rev (s.files o).fsPrev l) : Absent x s rev o l

section Lookup

variable {x : Env} {s t : Server} {dir d o l rev n : ℕ} {name : Name} {loc : ℕ × ℕ} {de : Dirent}

theorem dirLookup_gets (found : scan x (s.dirs dir) name = some (loc, de))
    (gets : Gets x s de.fsClstart) :
    s.dirLookup x dir name = .ok (s.hold de.fsClstart, some (loc, de.fsClstart)) := by
  rw [Server.dirLookup, found]
  dsimp only
  rw [getNode_gets gets]
  rfl

theorem dirLookup_none (missing : scan x (s.dirs dir) name = none) :
    s.dirLookup x dir name = .ok (s, none) := by
  rw [Server.dirLookup, missing]

/-- A lookup ends with a node that is held, or as it began. -/
theorem dirLookup_spec (tidy : Tidy s) :
    Ensures (fun _ => ¬ Plenty x) (s.dirLookup x dir name) fun r =>
      (∃ loc de, scan x (s.dirs dir) name = some (loc, de) ∧ Gets x s de.fsClstart ∧
        r = (s.hold de.fsClstart, some (loc, de.fsClstart))) ∨
      r.2 = none ∧ Same s r.1 ∧
        ∀ loc de, scan x (s.dirs dir) name = some (loc, de) → ¬ Gets x s de.fsClstart := by
  cases is : scan x (s.dirs dir) name with
  | none =>
      rw [dirLookup_none is]
      exact .inr ⟨rfl, .refl tidy, nofun⟩
  | some found =>
      obtain ⟨loc, de⟩ := found
      by_cases gets : Gets x s de.fsClstart
      · rw [dirLookup_gets is gets]
        exact .inl ⟨loc, de, rfl, gets, rfl⟩
      · rw [Server.dirLookup, is]
        refine (getNode_not tidy gets).bind ?_
        rintro ⟨t, o⟩ ⟨none_, same⟩
        obtain rfl := none_
        refine .inr ⟨rfl, same, fun loc' de' is => ?_⟩
        obtain ⟨rfl, rfl⟩ := Prod.mk.inj (Option.some.inj is)
        exact gets

/-- The walk to a revision that is not there holds the oldest one. -/
theorem walkto_absent (tidy : Tidy s) (ordered : Ordered s.files) (absent : Absent x s rev o l)
    (enough : (s.files o).fsRev < n) :
    (s.hold o).walkto x rev n o = .ok (s.hold l, none) := by
  induction absent generalizing n with
  | last buf other first =>
      cases n with
      | zero => cases enough
      | succ n =>
          rw [Server.walkto, files_hold]
          simp only [buf, other, first, Bool.not_true, Bool.false_eq_true, if_false, if_true]
  | older buf other more gets rest ih =>
      cases n with
      | zero => cases enough
      | succ n =>
          rw [Server.walkto, files_hold]
          simp only [buf, other, more, Bool.not_true, Bool.false_eq_true, if_false,
            deref_hold tidy]
          rw [Except.ok_bind, getNode_gets gets]
          exact ih ((ordered _ more).trans_le (Nat.le_of_lt_succ enough))

/-- The walk ends at a revision that is held; at the end of a walk that does not meet it the oldest
one still is. -/
theorem walkto_spec (tidy : Tidy s) (ordered : Ordered s.files) (enough : (s.files o).fsRev < n) :
    Ensures (fun _ => ¬ Plenty x) ((s.hold o).walkto x rev n o) fun r =>
      (∃ o', r = (s.hold o', some o')) ∨ ∃ l, Absent x s rev o l := by
  induction n generalizing o with
  | zero => cases enough
  | succ n ih =>
      rw [Server.walkto, files_hold]
      refine .ite (fun short plenty => ?_) fun buf => .ite (fun _ => .inl ⟨o, rfl⟩) fun other =>
        .ite (fun first => .inr ⟨o, .last ?_ other first⟩) fun more => ?_
      · simp only [(plenty.1 o).1] at short
        cases short
      · simpa using buf
      rw [deref_hold tidy, Except.ok_bind]
      by_cases gets : Gets x s (s.files o).fsPrev
      · rw [getNode_gets gets]
        refine (ih ((ordered _ more).trans_le (Nat.le_of_lt_succ enough))).mono fun r ends => ?_
        exact ends.imp_right fun ⟨l, absent⟩ =>
          ⟨l, .older (by simpa using buf) other more gets absent⟩
      · refine (getNode_not tidy gets).bind ?_
        rintro ⟨t, got⟩ ⟨none_, -⟩
        obtain rfl := none_
        exact fun plenty => gets plenty.gets

end Lookup

/-! ## New entries -/

/-- A new entry in the first free slot, or in space that is added. -/
inductive Adds (x : Env) (bufs : List Bufferful) (de : Dirent) : List Bufferful → Prop where
  | slot {i j : ℕ} (free : freeSlot x bufs = .free i j) :
      Adds x bufs de (change bufs (i, j) fun _ => de)
  | grown {sector more : ℕ} (full : freeSlot x bufs = .full)
      (space : x.space = some (sector, more)) (buf : x.buf sector = true) :
      Adds x bufs de (bufs ++ [⟨sector, de :: List.replicate more ⟨[], 0⟩⟩])

/-- A name that `findent` can find. -/
def Plain (name : Name) : Prop := name ≠ [] ∧ (name.headD 0).msb = false

/-- An entry without a name is not in use. -/
def Clear (bufs : List Bufferful) : Prop :=
  ∀ b ∈ bufs, ∀ d ∈ b.entries, d.fsName = [] → d.fsClstart = 0

section Entries

variable {x : Env} {bufs bufs' : List Bufferful} {entries : List Dirent} {de : Dirent} {name : Name}
  {i j : ℕ}

theorem findent_not_plain (not : ¬ Plain name) : findent entries name = none := by
  induction entries with
  | nil => rfl
  | cons d rest ih =>
      rw [findent, ih]
      refine ite_eq_left_iff.mpr fun some_ => ite_eq_left_iff.mpr fun there => ?_
      refine if_neg fun is => not ⟨fun empty => some_ (is.trans empty), ?_⟩
      rw [← is]
      exact Bool.not_eq_true _ ▸ there

theorem scan_not_plain (not : ¬ Plain name) : scan x bufs name = none := by
  induction bufs with
  | nil => rfl
  | cons b rest ih =>
      rw [scan, findent_not_plain not, ih]
      exact ite_self _

theorem findent_here {rest : List Dirent} (plain : Plain de.fsName) :
    findent (de :: rest) de.fsName = some (0, de) := by
  have there : de.deleted = false := plain.2
  rw [findent, if_neg plain.1, there, if_neg (Bool.false_ne_true), if_pos rfl]

theorem findfree_cons {d : Dirent} {rest : List Dirent} :
    findfree (d :: rest) =
      if d.fsClstart = 0 ∨ d.deleted = true then some 0 else (findfree rest).map (· + 1) := by
  rw [findfree, List.findIdx?_cons]
  simp only [Bool.or_eq_true, decide_eq_true_eq]
  rfl

theorem change_zero {b : Bufferful} {rest : List Bufferful} {f : Dirent → Dirent} :
    change (b :: rest) (0, j) f = ⟨b.sector, b.entries.modify j f⟩ :: rest := rfl

theorem change_succ {b : Bufferful} {rest : List Bufferful} {f : Dirent → Dirent} :
    change (b :: rest) (i + 1, j) f = b :: change rest (i, j) f := rfl

/-- An entry that is written where there was none is found, or makes no difference. -/
theorem findent_modify (free : findfree entries = some j) (plain : Plain de.fsName) :
    (∃ k, findent (entries.modify j fun _ => de) de.fsName = some (k, de)) ∨
      findent (entries.modify j fun _ => de) de.fsName = findent entries de.fsName := by
  induction entries generalizing j with
  | nil => cases free
  | cons d rest ih =>
      rw [findfree_cons] at free
      split_ifs at free with first
      · obtain rfl := Option.some.inj free
        exact .inl ⟨0, findent_here plain⟩
      · obtain ⟨j, later, rfl⟩ := Option.map_eq_some_iff.mp free
        rw [List.modify_succ_cons, findent, findent]
        by_cases empty : d.fsName = []
        · rw [if_pos empty, if_pos empty]
          exact .inr rfl
        · rw [if_neg empty, if_neg empty]
          rcases ih later with ⟨k, found⟩ | same
          · rw [found]
            split_ifs
            · exact .inl ⟨k + 1, rfl⟩
            · exact .inr rfl
            · exact .inl ⟨k + 1, rfl⟩
          · rw [same]
            exact .inr rfl

theorem findent_modify_found (free : findfree entries = some j) (plain : Plain de.fsName)
    (clear : ∀ d ∈ entries, d.fsName = [] → d.fsClstart = 0) :
    findent (entries.modify j fun _ => de) de.fsName ≠ none := by
  induction entries generalizing j with
  | nil => cases free
  | cons d rest ih =>
      obtain ⟨clear_d, clear⟩ := List.forall_mem_cons.mp clear
      rw [findfree_cons] at free
      split_ifs at free with first
      · obtain rfl := Option.some.inj free
        rw [List.modify_zero_cons, findent_here plain]
        exact Option.some_ne_none _
      · obtain ⟨j, later, rfl⟩ := Option.map_eq_some_iff.mp free
        have named : d.fsName ≠ [] := fun empty => first (.inl (clear_d empty))
        have rest_ := ih later clear
        rw [List.modify_succ_cons, findent, if_neg named]
        split_ifs
        · simpa using rest_
        · exact Option.some_ne_none _
        · simpa using rest_

/-- With memory for every buffer the walk reads them all. -/
theorem freeSlot_readable (plenty : Plenty x) : freeSlot x bufs ≠ .unreadable := by
  induction bufs with
  | nil => exact nofun
  | cons b rest ih =>
      rw [freeSlot, (plenty.1 b.sector).1]
      simp only [Bool.not_true, Bool.false_eq_true, if_false]
      split
      · exact nofun
      · split
        · exact nofun
        · exact ih

/-- What the walk for a free slot finds in the first buffer and in the others. -/
theorem freeSlot_cons (b : Bufferful) (rest : List Bufferful)
    (reads : freeSlot x (b :: rest) ≠ .unreadable) :
    x.buf b.sector = true ∧
      ((∃ j, findfree b.entries = some j ∧ freeSlot x (b :: rest) = .free 0 j) ∨
        findfree b.entries = none ∧
          ((∃ i j, freeSlot x rest = .free i j ∧ freeSlot x (b :: rest) = .free (i + 1) j) ∨
            freeSlot x rest = .full ∧ freeSlot x (b :: rest) = .full)) := by
  rw [freeSlot] at reads ⊢
  cases buf : x.buf b.sector with
  | false =>
      rw [buf] at reads
      exact absurd rfl reads
  | true =>
      rw [buf] at reads
      simp only [Bool.not_true, Bool.false_eq_true, if_false] at reads ⊢
      refine ⟨trivial, ?_⟩
      cases free : findfree b.entries with
      | some j => exact .inl ⟨j, rfl, rfl⟩
      | none =>
          rw [free] at reads
          refine .inr ⟨rfl, ?_⟩
          cases slot : freeSlot x rest with
          | unreadable =>
              rw [slot] at reads
              exact absurd rfl reads
          | full => exact .inr ⟨rfl, rfl⟩
          | free i j => exact .inl ⟨i, j, rfl, rfl⟩

theorem scan_cons {b : Bufferful} {rest : List Bufferful} (reads : x.buf b.sector = true) :
    scan x (b :: rest) name =
      match findent b.entries name with
      | some (j, d) => some ((0, j), d)
      | none => (scan x rest name).map fun ((i, j), d) => ((i + 1, j), d) := by
  rw [scan, reads]
  rfl

theorem scan_change (free : freeSlot x bufs = .free i j) (plain : Plain de.fsName) :
    (∃ loc, scan x (change bufs (i, j) fun _ => de) de.fsName = some (loc, de)) ∨
      scan x (change bufs (i, j) fun _ => de) de.fsName = scan x bufs de.fsName := by
  induction bufs generalizing i with
  | nil => cases free
  | cons b rest ih =>
      obtain ⟨buf, ⟨k, here, is⟩ | ⟨-, ⟨i', k, later, is⟩ | ⟨-, is⟩⟩⟩ :=
        freeSlot_cons b rest (by rw [free]; exact nofun)
      · rw [is] at free
        cases free
        rw [change_zero, scan_cons (b := ⟨b.sector, b.entries.modify j fun _ => de⟩) buf,
          scan_cons buf]
        rcases findent_modify here plain with ⟨k, found⟩ | same
        · simp only [found]
          exact .inl ⟨_, rfl⟩
        · rw [same]
          exact .inr rfl
      · rw [is] at free
        cases free
        rw [change_succ, scan_cons buf, scan_cons buf]
        cases findent b.entries de.fsName with
        | some found => exact .inr rfl
        | none =>
            rcases ih later with ⟨loc, found⟩ | same
            · exact .inl ⟨(loc.1 + 1, loc.2), congrArg (Option.map _) found⟩
            · exact .inr (congrArg (Option.map _) same)
      · rw [is] at free
        cases free

theorem scan_grown {sector more : ℕ} (full : freeSlot x bufs = .full) (buf : x.buf sector = true)
    (plain : Plain de.fsName) :
    (∃ loc, scan x (bufs ++ [⟨sector, de :: List.replicate more ⟨[], 0⟩⟩]) de.fsName =
        some (loc, de)) ∨
      scan x (bufs ++ [⟨sector, de :: List.replicate more ⟨[], 0⟩⟩]) de.fsName =
        scan x bufs de.fsName := by
  induction bufs with
  | nil =>
      refine .inl ⟨(0, 0), ?_⟩
      rw [List.nil_append, scan_cons buf, findent_here plain]
  | cons b rest ih =>
      obtain ⟨buf', ⟨k, -, is⟩ | ⟨-, ⟨i', k, -, is⟩ | ⟨full', -⟩⟩⟩ :=
        freeSlot_cons b rest (by rw [full]; exact nofun)
      · rw [is] at full
        cases full
      · rw [is] at full
        cases full
      · rw [List.cons_append, scan_cons buf', scan_cons buf']
        cases findent b.entries de.fsName with
        | some found => exact .inr rfl
        | none =>
            rcases ih full' with ⟨loc, found⟩ | same
            · exact .inl ⟨(loc.1 + 1, loc.2), congrArg (Option.map _) found⟩
            · exact .inr (congrArg (Option.map _) same)

/-- A lookup after a new entry finds it, or what it found before. -/
theorem Adds.scan (adds : Adds x bufs de bufs') :
    (∃ loc, Nodes.scan x bufs' de.fsName = some (loc, de)) ∨
      Nodes.scan x bufs' de.fsName = Nodes.scan x bufs de.fsName := by
  by_cases plain : Plain de.fsName
  · cases adds with
    | slot free => exact scan_change free plain
    | grown full _ buf => exact scan_grown full buf plain
  · rw [scan_not_plain plain, scan_not_plain plain]
    exact .inr rfl

/-- With names in the entries in use, a new entry is found if it can be. -/
theorem Adds.found (adds : Adds x bufs de bufs') (clear : Clear bufs)
    (plain : Plain de.fsName) : Nodes.scan x bufs' de.fsName ≠ none := by
  cases adds with
  | slot free =>
      rename_i i j
      induction bufs generalizing i with
      | nil => cases free
      | cons b rest ih =>
          obtain ⟨clear_b, clear⟩ := List.forall_mem_cons.mp clear
          obtain ⟨buf, ⟨k, here, is⟩ | ⟨-, ⟨i', k, later, is⟩ | ⟨-, is⟩⟩⟩ :=
            freeSlot_cons b rest (by rw [free]; exact nofun)
          · rw [is] at free
            cases free
            rw [change_zero, scan_cons (b := ⟨b.sector, b.entries.modify j fun _ => de⟩) buf]
            have found := findent_modify_found here plain clear_b
            cases finds : findent (b.entries.modify j fun _ => de) de.fsName with
            | none => exact absurd finds found
            | some at_ => exact Option.some_ne_none _
          · rw [is] at free
            cases free
            rw [change_succ, scan_cons buf]
            cases findent b.entries de.fsName with
            | some found => exact Option.some_ne_none _
            | none => simpa using ih clear later
          · rw [is] at free
            cases free
  | grown full space buf =>
      rename_i sector more
      induction bufs with
      | nil =>
          rw [List.nil_append, scan_cons buf, findent_here plain]
          exact Option.some_ne_none _
      | cons b rest ih =>
          obtain ⟨-, clear⟩ := List.forall_mem_cons.mp clear
          obtain ⟨buf', ⟨k, -, is⟩ | ⟨-, ⟨i', k, -, is⟩ | ⟨full', -⟩⟩⟩ :=
            freeSlot_cons b rest (by rw [full]; exact nofun)
          · rw [is] at full
            cases full
          · rw [is] at full
            cases full
          · rw [List.cons_append, scan_cons buf']
            cases findent b.entries de.fsName with
            | some found => exact Option.some_ne_none _
            | none => simpa using ih clear full'

end Entries

/-! ## New files -/

/-- A new file, with an entry in the directory. -/
def Server.withNew (x : Env) (s : Server) (f : File) (type : ℕ) (bufs : List Bufferful) : Server :=
  let s := (s.created x f type).hold x.block
  { s with dirs := Function.update s.dirs f.fFile bufs }

section Create

variable {x : Env} {s t : Server} {d o type : ℕ} {f : File} {name : Name}

theorem Tidy.created (tidy : Tidy s) : Tidy (s.created x f type) := ⟨tidy.rest, tidy.pos⟩

theorem Tidy.withNew {bufs : List Bufferful} (tidy : Tidy s) : Tidy (s.withNew x f type bufs) :=
  ⟨(tidy.created.hold (d := x.block)).rest, (tidy.created.hold (d := x.block)).pos⟩

theorem refs_withNew {bufs : List Bufferful} :
    (s.withNew x f type bufs).refs = s.refs + Pi.single x.block 1 :=
  refs_hold (s := s.created x f type)

/-- A new file has a node, or nothing is left of it. -/
theorem createFile_spec (tidy : Tidy s) :
    Ensures (fun _ => ¬ Plenty x) (s.createFile x f type) fun r =>
      x.block ≠ 0 ∧ r = ((s.created x f type).hold x.block, some x.block) ∨
      r.2 = none ∧ Tidy r.1 ∧ r.1.refs = s.refs ∧ (Plenty x → x.block = 0) := by
  rw [Server.createFile]
  refine .ite (fun short => .inr ⟨rfl, tidy, rfl, fun plenty => ?_⟩) fun block =>
    .ite (fun short plenty => ?_) fun _ => ?_
  · simpa [(plenty.1 x.block).1] using short
  · simp only [(plenty.1 f.fFile).1] at short
    cases short
  · by_cases gets : Gets x (s.created x f type) x.block
    · rw [getNode_gets gets]
      refine .inl ⟨?_, rfl⟩
      rintro none_
      simp [none_] at block
    · refine (getNode_not tidy.created gets).mono fun r ⟨none_, same⟩ => ?_
      exact .inr ⟨none_, same.tidy, same.refs, fun plenty => absurd plenty.gets gets⟩

/-- A node with one reference is given back. -/
theorem uncreateFile_spec (tidy : Tidy s) (one : s.refs d = 1) :
    Ensures (fun _ => ¬ Plenty x) (s.uncreateFile x d) fun t =>
      Tidy t ∧ s.refs = t.refs + Pi.single d 1 ∧ t.disk = s.disk := by
  obtain ⟨o, is⟩ := first_of_refs (one ▸ Nat.one_pos)
  obtain ⟨t, gives, after⟩ := tidy.deref (one ▸ Nat.one_pos)
  rw [Server.uncreateFile, is]
  refine .ite (fun _ => ?_) fun short plenty => short ⟨?_, (plenty.1 d).1⟩
  · rw [gives]
    exact after
  · rw [← refs_of_first is, one]

variable (name type) in
/-- An entry for a new file, or nothing is left of it. -/
theorem dirNewfile_spec (tidy : Tidy s) (fresh : x.block ≠ 0 → s.first x.block = none)
    (apart : x.block ≠ 0 → f.fFile ≠ x.block) :
    Ensures (fun _ => ¬ (Plenty x ∧ name.length < MAXNAMLEN)) (s.dirNewfile x f name type) fun r =>
      (r.2 = none ∧ Tidy r.1 ∧ r.1.refs = s.refs ∧
        (Plenty x → x.block = 0 ∨ freeSlot x (s.dirs f.fFile) = .full ∧ x.space = none)) ∨
      x.block ≠ 0 ∧ ∃ bufs, Adds x (s.dirs f.fFile) ⟨name, x.block⟩ bufs ∧
        r = (s.withNew x f type bufs, some x.block) := by
  have weaker (_ : Fault) (short : ¬ Plenty x) : ¬ (Plenty x ∧ name.length < MAXNAMLEN) :=
    fun both => short both.1
  rw [Server.dirNewfile]
  refine .ite (fun short => .inl ⟨rfl, tidy, rfl, fun plenty => ?_⟩) fun _ =>
    ((createFile_spec tidy).allow weaker).bind ?_
  · simp only [(plenty.1 f.fFile).1] at short
    cases short
  rintro ⟨t, o⟩ (⟨some_, is⟩ | ⟨none_, tidy', refs, full⟩)
  · obtain ⟨rfl, rfl⟩ := Prod.mk.inj is
    have dirs : ((s.created x f type).hold x.block).dirs f.fFile = s.dirs f.fFile := by
      rw [dirs_hold]
      exact Function.update_of_ne (apart some_) ..
    have tidy' : Tidy ((s.created x f type).hold x.block) := tidy.created.hold
    have one : ((s.created x f type).hold x.block).refs x.block = 1 := by
      rw [refs_hold, Pi.add_apply, Pi.single_eq_same, Server.refs,
        show (s.created x f type).first x.block = none from fresh some_]
      rfl
    have back : Ensures (fun _ => ¬ (Plenty x ∧ name.length < MAXNAMLEN))
        (((s.created x f type).hold x.block).uncreateFile x x.block) fun t =>
          Tidy t ∧ t.refs = s.refs := by
      refine ((uncreateFile_spec tidy' one).allow weaker).mono fun t ⟨tidy, refs, _⟩ => ⟨tidy, ?_⟩
      rw [refs_hold] at refs
      exact (add_right_cancel refs).symm
    have fills {bufs : List Bufferful} (adds : Adds x (s.dirs f.fFile) ⟨name, x.block⟩ bufs) :
        Ensures (fun _ => ¬ (Plenty x ∧ name.length < MAXNAMLEN))
          (((s.created x f type).hold x.block).fill f.fFile bufs name x.block) fun r =>
          ∃ bufs, Adds x (s.dirs f.fFile) ⟨name, x.block⟩ bufs ∧
            r = (s.withNew x f type bufs, some x.block) :=
      .ite (fun long both => absurd both.2 long.not_gt) fun _ => ⟨bufs, adds, rfl⟩
    dsimp only
    rw [dirs]
    cases slot : freeSlot x (s.dirs f.fFile) with
    | free i j => exact (fills (.slot slot)).mono fun r new => .inr ⟨some_, new⟩
    | unreadable =>
        refine back.bind fun t ⟨tidy, refs⟩ => .inl ⟨rfl, tidy, refs, fun plenty => ?_⟩
        exact absurd slot (freeSlot_readable plenty)
    | full =>
        cases space : x.space with
        | none =>
            exact back.bind fun t ⟨tidy, refs⟩ => .inl ⟨rfl, tidy, refs, fun _ => .inr ⟨rfl, rfl⟩⟩
        | some added =>
            obtain ⟨sector, more⟩ := added
            refine .ite (fun short both => ?_) fun buf => ?_
            · simp only [(both.1.1 sector).1] at short
              cases short
            · exact (fills (.grown slot space (by simpa using buf))).mono fun r new =>
                .inr ⟨some_, new⟩
  · obtain rfl := none_
    exact .inl ⟨rfl, tidy', refs, fun plenty => .inl (full plenty)⟩

end Create

end Vsta.Vstafs.Nodes
