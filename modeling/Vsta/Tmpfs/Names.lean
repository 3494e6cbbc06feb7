import Vsta.Tmpfs.Directory
import Vsta.Srv.Sessions
import Vsta.Library.Runs

/-!
# The names of the memory filesystem in every run

The count of a file is the number of clients that have it open, no two files have one name, and a
file that is marked as removed is in use (`Intact`), whatever is asked for. A lookup also finds a
marked file: only in runs that do not open one is a name free from its removal on, and is what is
written to a file under the name kept (`names_intact`, `removed_reused`).
-/

set_option autoImplicit false

namespace Vsta.Tmpfs.Directory

open Vstafs

/-- The clients that have a file open. -/
def users (s : State) (a : ULong) : ℕ := Srv.holders File.fFile (fun _ => true) s.filehash a

/-- The tables hold together. -/
structure Linked (s : State) : Prop where
  nodeKeys : s.nodes.Distinct
  clientKeys : s.filehash.Distinct
  refs : ∀ a n, s.nodes.lookup a = some n → n.oRefs = users s a
  opened : ∀ h f a, s.filehash.lookup h = some f → f.fFile = some a → s.nodes.lookup a ≠ none
  names : ∀ a b n m, s.nodes.lookup a = some n → s.nodes.lookup b = some m →
    n.oName = m.oName → a = b
  ledger : Srv.Ledger s.nodes s.made s.freed

/-- A removed file is in use. -/
def Used (s : State) : Prop :=
  ∀ a n, s.nodes.lookup a = some n → n.oDeleted = true → 0 < n.oRefs

/-- What holds in every reached state. -/
structure Intact (s : State) : Prop where
  linked : Linked s
  used : Used s

variable {s t : State} {a b : ULong} {n : Node} {h : Handle} {f : File} {act : Action}

/-! ## Who has a file open -/

theorem users_insert (f : File) : users { s with filehash := s.filehash.insert h f } b =
    users s b + if f.fFile = some b then 1 else 0 := by
  have more := @Srv.holders_insert _ File.fFile s.filehash h b f fun _ => true
  simpa only [users, true_and] using more

theorem users_delete (client : s.filehash.lookup h = some f) :
    users s b = users { s with filehash := s.filehash.delete h } b +
      if f.fFile = some b then 1 else 0 := by
  have less := @Srv.holders_delete _ File.fFile s.filehash h b f (fun _ => true) client
  simpa only [users, true_and] using less

theorem users_setFile (distinct : s.filehash.Distinct) (client : s.filehash.lookup h = some f)
    (g : File) : users (s.setFile h g) b + (if f.fFile = some b then 1 else 0) =
      users s b + if g.fFile = some b then 1 else 0 := by
  have moved := @Srv.holders_modify _ File.fFile s.filehash h b f distinct (fun _ => true) client
    fun _ => g
  simpa only [users, State.setFile, true_and] using moved

theorem lookup_setFile (client : s.filehash.lookup h = some f) (g : File) (k : Handle) :
    (s.setFile h g).filehash.lookup k = if k = h then some g else s.filehash.lookup k := by
  rw [State.setFile, Hash.lookup_modify, client]
  rfl

/-- A file that a client has open. -/
theorem users_pos (client : s.filehash.lookup h = some f) (opens : f.fFile = some a) :
    0 < users s a :=
  Srv.holders_pos _ client rfl opens

/-! ## Changes of the tables -/

/-- One file changes. -/
def edit (a : ULong) (change : Node → Node) (b : ULong) (n : Node) : Node :=
  if b = a then change n else n

theorem setNode_nodes (change : Node → Node) :
    (s.setNode a change).nodes = s.nodes.mapVals (edit a change) := rfl

theorem setFile_keys (linked : Linked s) (g : File) : (s.setFile h g).filehash.Distinct :=
  linked.clientKeys.modify h fun _ => g

theorem setFile_setNode_nodes (change : Node → Node) (g : File) :
    ((s.setNode a change).setFile h g).nodes = s.nodes.mapVals (edit a change) := rfl

/-- What a change keeps, the table keeps. -/
theorem edit_same {α : Type} (part : Node → α) {change : Node → Node}
    (same : ∀ n, part (change n) = part n) (b : ULong) (n : Node) :
    part (edit a change b n) = part n := by
  rw [edit]
  split_ifs
  · exact same n
  · rfl

theorem edit_oRefs {change : Node → Node} (more : ∀ n, (change n).oRefs = n.oRefs + 1) (b : ULong)
    (n : Node) : (edit a change b n).oRefs = n.oRefs + if a = b then 1 else 0 := by
  rw [edit]
  by_cases same : b = a
  · rw [if_pos same, if_pos same.symm, more]
  · rw [if_neg same, if_neg (Ne.symm same), Nat.add_zero]

/-- Files change where they are and keep their names. -/
theorem Linked.update (linked : Linked s) (change : ULong → Node → Node)
    (nodes : t.nodes = s.nodes.mapVals change) (name : ∀ b n, (change b n).oName = n.oName)
    (made : t.made = s.made) (freed : t.freed = s.freed) (keys : t.filehash.Distinct)
    (refs : ∀ b n, s.nodes.lookup b = some n → (change b n).oRefs = users t b)
    (opened : ∀ h f b, t.filehash.lookup h = some f → f.fFile = some b →
      s.nodes.lookup b ≠ none) : Linked t := by
  have look : ∀ b, t.nodes.lookup b = (s.nodes.lookup b).map (change b) := fun b => by
    rw [nodes, Hash.lookup_mapVals]
  refine ⟨nodes ▸ linked.nodeKeys.mapVals _, keys, fun b n found => ?_,
    fun h f b client opens => ?_, fun b c n m found found' same => ?_, fun b => ?_⟩
  · rw [look] at found
    obtain ⟨n', before, rfl⟩ := Option.map_eq_some_iff.mp found
    exact refs b n' before
  · rw [look, Ne, Option.map_eq_none_iff]
    exact opened h f b client opens
  · rw [look] at found found'
    obtain ⟨n', before, rfl⟩ := Option.map_eq_some_iff.mp found
    obtain ⟨m', before', rfl⟩ := Option.map_eq_some_iff.mp found'
    rw [name, name] at same
    exact linked.names b c n' m' before before' same
  · rw [made, freed, linked.ledger b, look, Option.isSome_map]

/-- A file that nobody has open is freed. -/
theorem Linked.nuke (linked : Linked s) (there : s.nodes.lookup a = some n)
    (last : n.oRefs = 0) : Linked (s.nuke a) := by
  have look : ∀ b, (s.nuke a).nodes.lookup b = if b = a then none else s.nodes.lookup b :=
    fun b => linked.nodeKeys.lookup_delete a b
  refine ⟨linked.nodeKeys.delete a, linked.clientKeys, fun b n found => ?_,
    fun h f b client opens => ?_, fun b c n m found found' same => ?_,
    linked.ledger.free linked.nodeKeys there⟩
  · rw [look] at found
    split_ifs at found
    exact linked.refs b n found
  · have client : s.filehash.lookup h = some f := client
    rw [look, if_neg]
    · exact linked.opened h f b client opens
    · rintro rfl
      have count := linked.refs b n there
      have some_ : 0 < users s b := users_pos client opens
      omega
  · rw [look] at found found'
    split_ifs at found found'
    exact linked.names b c n m found found' same

/-- A new file, which a client opens. -/
theorem Linked.create (linked : Linked s) (client : s.filehash.lookup h = some f)
    (root : f.fFile = none) (fresh : s.nodes.lookup a = none) {name : List UChar}
    (new : ∀ b n, s.nodes.lookup b = some n → n.oName ≠ name) (file : Openfile) (perm : ULong) :
    Linked (({ s with
      nodes := s.nodes.insert a ⟨name, file, 1, false⟩
      made := a :: s.made }).setFile h { f with fFile := some a, fPerm := perm }) := by
  generalize made_ : ({ s with
    nodes := s.nodes.insert a ⟨name, file, 1, false⟩
    made := a :: s.made } : State) = m
  have nodes : m.nodes = s.nodes.insert a ⟨name, file, 1, false⟩ := by rw [← made_]
  have files : m.filehash = s.filehash := by rw [← made_]
  have client' : m.filehash.lookup h = some f := by rw [files, client]
  have look : ∀ b, m.nodes.lookup b =
      if b = a then some ⟨name, file, 1, false⟩ else s.nodes.lookup b := by
    intro b
    rw [nodes, Hash.lookup_insert]
  have count : ∀ b, users (m.setFile h { f with fFile := some a, fPerm := perm }) b =
      users s b + if a = b then 1 else 0 := by
    intro b
    have moved := users_setFile (s := m) (b := b) (files ▸ linked.clientKeys) client'
      { f with fFile := some a, fPerm := perm }
    have same : users m b = users s b := by rw [users, files, users]
    simpa [root, same] using moved
  have nobody : users s a = 0 :=
    Srv.holders_eq_zero linked.clientKeys _ fun k g found opens => linked.opened k g a found opens fresh
  refine ⟨?_, ?_, fun b n found => ?_, fun k g b found opens => ?_,
    fun b c n m' found found' same => ?_, ?_⟩
  · exact (nodes ▸ linked.nodeKeys.insert fresh : m.nodes.Distinct)
  · have keys : m.filehash.Distinct := files ▸ linked.clientKeys
    exact keys.modify h fun _ => { f with fFile := some a, fPerm := perm }
  · have found := (look b).symm.trans found
    rw [count]
    split_ifs at found with here
    · obtain rfl := Option.some.inj found
      rw [if_pos here.symm, here, nobody]
    · rw [if_neg (Ne.symm here)]
      exact linked.refs b n found
  · rw [lookup_setFile client', files] at found
    show m.nodes.lookup b ≠ none
    rw [look]
    split_ifs at found with same
    · obtain rfl := Option.some.inj found
      rw [if_pos (Option.some.inj opens).symm]
      exact Option.some_ne_none _
    · split_ifs
      · exact Option.some_ne_none _
      · exact linked.opened k g b found opens
  · have found := (look b).symm.trans found
    have found' := (look c).symm.trans found'
    split_ifs at found found' with here there there
    · exact here.trans there.symm
    · obtain rfl := Option.some.inj found
      exact absurd same.symm (new c m' found')
    · obtain rfl := Option.some.inj found'
      exact absurd same (new b n found)
    · exact linked.names b c n m' found found' same
  · have ledger := linked.ledger.alloc fresh (⟨name, file, 1, false⟩ : Node)
    show Srv.Ledger m.nodes m.made m.freed
    rw [nodes, ← made_]
    exact ledger

/-! ## What a request does to the files -/

/-- A request that removes a file. -/
def Removes (s : State) (act : Action) (b : ULong) : Prop :=
  ∃ h name n, act = .remove h name ∧ s.dirLookup name = some (b, n)

/-- The end of a client that has a file open. -/
def Closes (s : State) (act : Action) (b : ULong) : Prop :=
  ∃ h f, act = .disconnect h ∧ s.filehash.lookup h = some f ∧ f.fFile = some b

/-- A request that changes what is in a file: one of a client that has it open, or a truncating
open. -/
def Changes (s : State) (act : Action) (b : ULong) : Prop :=
  (∃ h a f, act = .access h a ∧ s.filehash.lookup h = some f ∧ f.fFile = some b) ∨
    ∃ h name mArg n, act = .open_ h name mArg ∧ has mArg ACC_CREATE = true ∧
      s.dirLookup name = some (b, n)

/-- What a request does to the files. One that goes was removed now, with nobody using it, or
before, and its last user closes it; one whose removal is accepted goes or is marked, and a mark
stays; one that is not removed keeps its name and, unless the request is about them, its contents;
and an open does not get to a removed file. -/
structure Served (s : State) (act : Action) (t : State) (r : Reply) : Prop where
  gone : ∀ b n, s.nodes.lookup b = some n → t.nodes.lookup b = none →
    n.oRefs = 0 ∧ Removes s act b ∨ n.oDeleted = true ∧ n.oRefs = 1 ∧ Closes s act b
  marked : ∀ b, Removes s act b → r = .ok →
    t.nodes.lookup b = none ∨ ∃ n, t.nodes.lookup b = some n ∧ n.oDeleted = true
  stays : ∀ b n n', s.nodes.lookup b = some n → t.nodes.lookup b = some n' →
    n.oDeleted = true → n'.oDeleted = true
  kept : ∀ b n, s.nodes.lookup b = some n → n.oDeleted = false → ¬(Removes s act b ∧ r = .ok) →
    ∃ n', t.nodes.lookup b = some n' ∧ n'.oDeleted = false ∧ n'.oName = n.oName ∧
      (n'.file = n.file ∨ Changes s act b)
  found : ∀ h name mArg f b n, act = .open_ h name mArg → r = .ok →
    t.filehash.lookup h = some f → f.fFile = some b → s.nodes.lookup b = some n →
    n.oDeleted = false

/-- The condition on a request: an open does not find a file that was removed and is in use. -/
def Fits (s : State) (label : Outcome × Action) : Prop :=
  match label.2 with
  | .open_ _ name _ => ∀ a n, s.dirLookup name = some (a, n) → n.oDeleted = false
  | _ => True

/-- What is shown of a request. -/
def Goes (s : State) (label : Outcome × Action) : Prop :=
  ∃ t r, s.exec label.1 label.2 = .ok (t, r) ∧ Intact t ∧
    (Fits s label → Served s label.2 t r)

/-- A file that `dir_lookup` finds. -/
theorem dirLookup_spec (linked : Linked s) {name : List UChar}
    (found : s.dirLookup name = some (a, n)) : s.nodes.lookup a = some n ∧ n.oName = name := by
  have named := List.find?_some found
  have member := List.mem_of_find?_eq_some found
  rw [List.mem_reverse] at member
  exact ⟨linked.nodeKeys.lookup_of_mem member, by simpa using named⟩

/-- A name that `dir_lookup` does not find. -/
theorem dirLookup_none {name : List UChar} (absent : s.dirLookup name = none) (b : ULong) (n : Node)
    (there : s.nodes.lookup b = some n) : n.oName ≠ name := by
  have member : (b, n) ∈ s.nodes := (Hash.perm_delete there).mem_iff.mpr List.mem_cons_self
  rw [State.dirLookup, List.find?_eq_none] at absent
  simpa using absent (b, n) (List.mem_reverse.mpr member)

theorem not_removes (other : ∀ h name, act ≠ .remove h name) (b : ULong) : ¬Removes s act b := by
  rintro ⟨h, name, -, is, -⟩
  exact other h name is

/-- Files that change where they are, with their marks. -/
theorem served_update {change : ULong → Node → Node} {r : Reply}
    (look : ∀ b, t.nodes.lookup b = (s.nodes.lookup b).map (change b))
    (same : ∀ b n, (change b n).oDeleted = n.oDeleted ∧ (change b n).oName = n.oName)
    (file : ∀ b n, s.nodes.lookup b = some n → (change b n).file = n.file ∨ Changes s act b)
    (other : ∀ b, ¬(Removes s act b ∧ r = .ok))
    (found : ∀ h name mArg f b n, act = .open_ h name mArg → r = .ok →
      t.filehash.lookup h = some f → f.fFile = some b → s.nodes.lookup b = some n →
      n.oDeleted = false) : Served s act t r := by
  refine ⟨fun b n there gone => ?_, fun b removes ok => absurd ⟨removes, ok⟩ (other b),
    fun b n n' there there' yes => ?_, fun b n there not_ _ => ⟨change b n, ?_, ?_⟩, found⟩
  · rw [look, there] at gone
    cases gone
  · rw [look, there] at there'
    obtain rfl := Option.some.inj there'
    exact (same b n).1.trans yes
  · rw [look, there]
    rfl
  · exact ⟨(same b n).1.trans not_, (same b n).2, file b n there⟩

/-- One file changes and keeps its mark and its name. -/
theorem served_edit {change : Node → Node} {r : Reply}
    (nodes : t.nodes = s.nodes.mapVals (edit a change))
    (kept : ∀ n, (change n).oDeleted = n.oDeleted ∧ (change n).oName = n.oName)
    (file : ∀ n, (change n).file = n.file ∨ Changes s act a)
    (other : ∀ b, ¬(Removes s act b ∧ r = .ok))
    (found : ∀ h name mArg f b n, act = .open_ h name mArg → r = .ok →
      t.filehash.lookup h = some f → f.fFile = some b → s.nodes.lookup b = some n →
      n.oDeleted = false) : Served s act t r := by
  refine served_update (fun b => by rw [nodes, Hash.lookup_mapVals])
    (fun b n => ⟨edit_same Node.oDeleted (fun n => (kept n).1) b n,
      edit_same Node.oName (fun n => (kept n).2) b n⟩) (fun b n _ => ?_) other found
  rw [edit]
  by_cases here : b = a
  · rw [if_pos here, here]
    exact file n
  · rw [if_neg here]
    exact .inl rfl

/-- A request that is refused, or that leaves the files alone. -/
theorem goes_refused (intact : Intact t) (nodes : t.nodes = s.nodes) {label : Outcome × Action}
    {r : Reply} (done : s.exec label.1 label.2 = .ok (t, r))
    (other : ∀ b, ¬(Removes s label.2 b ∧ r = .ok))
    (closed : ∀ h name mArg, label.2 = .open_ h name mArg → r ≠ .ok) : Goes s label := by
  refine ⟨t, r, done, intact, fun _ => ?_⟩
  have look : ∀ b, t.nodes.lookup b = (s.nodes.lookup b).map fun n => n := fun b => by
    rw [nodes, Option.map_id']
  exact served_update look (fun _ _ => ⟨rfl, rfl⟩) (fun _ _ _ => .inl rfl) other
    fun h name mArg f b n is ok => absurd ok (closed h name mArg is)

/-- A request that is refused. -/
theorem goes_same (intact : Intact s) {label : Outcome × Action} {e : FsErr}
    (done : s.exec label.1 label.2 = .ok (s, .err e)) : Goes s label :=
  goes_refused intact rfl done (fun _ both => nomatch both.2) fun _ _ _ _ => nofun

theorem Intact.known (intact : Intact s) (known : s.filehash.lookup h ≠ none) :
    ∃ f, s.filehash.lookup h = some f ∧
      ∀ a, f.fFile = some a → ∃ n, s.nodes.lookup a = some n := by
  obtain ⟨f, client⟩ := Option.ne_none_iff_exists'.mp known
  exact ⟨f, client, fun a opens =>
    Option.ne_none_iff_exists'.mp (intact.linked.opened h f a client opens)⟩

/-- Files change where they are and keep their names and marks. -/
theorem Intact.update (intact : Intact s) (change : ULong → Node → Node)
    (nodes : t.nodes = s.nodes.mapVals change)
    (same : ∀ b n, (change b n).oDeleted = n.oDeleted ∧ (change b n).oName = n.oName)
    (made : t.made = s.made) (freed : t.freed = s.freed) (keys : t.filehash.Distinct)
    (refs : ∀ b n, s.nodes.lookup b = some n → (change b n).oRefs = users t b)
    (opened : ∀ h f b, t.filehash.lookup h = some f → f.fFile = some b →
      s.nodes.lookup b ≠ none)
    (used : ∀ b n, s.nodes.lookup b = some n → 0 < n.oRefs → 0 < (change b n).oRefs) :
    Intact t := by
  refine ⟨intact.linked.update change nodes (fun b n => (same b n).2) made freed keys refs opened,
    fun b n found yes => ?_⟩
  rw [nodes, Hash.lookup_mapVals] at found
  obtain ⟨n', before, rfl⟩ := Option.map_eq_some_iff.mp found
  exact used b n' before (intact.used b n' before ((same b n').1 ▸ yes))

/-! ## The requests -/

/-- A client comes. -/
theorem Intact.come (intact : Intact s) (fresh : s.filehash.lookup h = none)
    (root : f.fFile = none) : Intact { s with filehash := s.filehash.insert h f } := by
  have nodes : s.nodes = s.nodes.mapVals fun _ n => n := (List.map_id _).symm
  refine intact.update _ nodes (fun _ _ => ⟨rfl, rfl⟩) rfl rfl
    (intact.linked.clientKeys.insert fresh) (fun b n found => ?_) (fun k g b client opens => ?_)
    fun _ _ _ positive => positive
  · rw [users_insert, root, if_neg nofun]
    exact intact.linked.refs b n found
  · rw [Hash.lookup_insert] at client
    split_ifs at client
    · obtain rfl := Option.some.inj client
      rw [root] at opens
      cases opens
    · exact intact.linked.opened k g b client opens

/-- A client comes that has a file open. -/
theorem Intact.join (intact : Intact s) (fresh : s.filehash.lookup h = none)
    (opens : f.fFile = some a) (there : s.nodes.lookup a ≠ none) {change : Node → Node}
    (kept : ∀ n, (change n).oDeleted = n.oDeleted ∧ (change n).oName = n.oName)
    (more : ∀ n, (change n).oRefs = n.oRefs + 1) :
    Intact (({ s with filehash := s.filehash.insert h f }).setNode a change) := by
  refine intact.update _ (setNode_nodes change) (fun b n =>
    ⟨edit_same Node.oDeleted (fun n => (kept n).1) b n, edit_same Node.oName (fun n => (kept n).2) b n⟩)
    rfl rfl (intact.linked.clientKeys.insert fresh)
    (fun b n found => ?_) (fun k g b client opens' => ?_) fun b n _ positive => ?_
  · have count : users (({ s with filehash := s.filehash.insert h f }).setNode a change) b =
        users s b + if f.fFile = some b then 1 else 0 := users_insert f
    rw [count, opens, edit_oRefs more, intact.linked.refs b n found]
    simp only [Option.some.injEq]
  · have client : (s.filehash.insert h f).lookup k = some g := client
    rw [Hash.lookup_insert] at client
    split_ifs at client
    · obtain rfl := Option.some.inj client
      rw [opens] at opens'
      exact Option.some.inj opens' ▸ there
    · exact intact.linked.opened k g b client opens'
  · rw [edit_oRefs more]
    omega

/-- A client opens a file that is there. -/
theorem Intact.open_ (intact : Intact s) (client : s.filehash.lookup h = some f)
    (root : f.fFile = none) (there : s.nodes.lookup a ≠ none) {change : Node → Node}
    (kept : ∀ n, (change n).oDeleted = n.oDeleted ∧ (change n).oName = n.oName)
    (more : ∀ n, (change n).oRefs = n.oRefs + 1) (perm : ULong) :
    Intact ((s.setNode a change).setFile h { f with fFile := some a, fPerm := perm }) := by
  refine intact.update _ (setFile_setNode_nodes change _) (fun b n =>
    ⟨edit_same Node.oDeleted (fun n => (kept n).1) b n, edit_same Node.oName (fun n => (kept n).2) b n⟩)
    rfl rfl (setFile_keys intact.linked _)
    (fun b n found => ?_) (fun k g b known opens => ?_) fun b n _ positive => ?_
  · have moved := users_setFile (b := b) intact.linked.clientKeys client
      { f with fFile := some a, fPerm := perm }
    rw [root, if_neg nofun, Nat.add_zero] at moved
    have same : users ((s.setNode a change).setFile h { f with fFile := some a, fPerm := perm }) b =
      users (s.setFile h { f with fFile := some a, fPerm := perm }) b := rfl
    rw [same, moved, edit_oRefs more, intact.linked.refs b n found]
    simp only [Option.some.injEq]
  · have known : (s.setFile h { f with fFile := some a, fPerm := perm }).filehash.lookup k =
      some g := known
    rw [lookup_setFile client] at known
    split_ifs at known
    · obtain rfl := Option.some.inj known
      exact Option.some.inj opens ▸ there
    · exact intact.linked.opened k g b known opens
  · rw [edit_oRefs more]
    omega

/-- What a client does to its file, and where it is in it. -/
theorem Intact.touch (intact : Intact s) (client : s.filehash.lookup h = some f) (pos : ℕ)
    {change : ULong → Node → Node} (nodes : t.nodes = s.nodes.mapVals change)
    (kept : ∀ b n, (change b n).oDeleted = n.oDeleted ∧ (change b n).oName = n.oName)
    (refs : ∀ b n, (change b n).oRefs = n.oRefs) (made : t.made = s.made)
    (freed : t.freed = s.freed)
    (files : t.filehash = (s.setFile h { f with fPos := pos }).filehash) : Intact t := by
  refine intact.update change nodes kept made freed (files ▸ setFile_keys intact.linked _)
    (fun b n found => ?_) (fun k g b known opens => ?_) fun b n _ positive => ?_
  · have moved := users_setFile (b := b) intact.linked.clientKeys client { f with fPos := pos }
    have before := intact.linked.refs b n found
    have same : users t b = users (s.setFile h { f with fPos := pos }) b := by
      rw [users, files, users]
    rw [same, refs]
    simp only at moved
    omega
  · rw [files, lookup_setFile client] at known
    split_ifs at known with same
    · obtain rfl := Option.some.inj known
      exact intact.linked.opened h f b client opens
    · exact intact.linked.opened k g b known opens
  · rwa [refs]

/-- A file in use is marked as removed. -/
theorem Intact.mark (intact : Intact s) (there : s.nodes.lookup a = some n) (busy : 0 < n.oRefs) :
    Intact (s.setNode a fun o => { o with oDeleted := true }) := by
  have refs := edit_same (a := a) Node.oRefs
    (fun _ => rfl : ∀ o : Node, ({ o with oDeleted := true } : Node).oRefs = o.oRefs)
  refine ⟨intact.linked.update _ (setNode_nodes _) (edit_same Node.oName fun _ => rfl) rfl rfl
    intact.linked.clientKeys (fun b n found => ?_) intact.linked.opened, fun b m found yes => ?_⟩
  · rw [refs]
    exact intact.linked.refs b n found
  · rw [State.setNode, Hash.lookup_modify] at found
    split_ifs at found with same
    · rw [there] at found
      obtain rfl := Option.some.inj found
      exact busy
    · exact intact.used b m found yes

/-- A client that has a file open goes. -/
theorem Linked.leave (linked : Linked s) (client : s.filehash.lookup h = some f)
    (opens : f.fFile = some a) :
    Linked (({ s with filehash := s.filehash.delete h }).setNode a
      fun o => { o with oRefs := o.oRefs - 1 }) := by
  refine linked.update _ (setNode_nodes _) (edit_same Node.oName fun _ => rfl) rfl rfl
    (linked.clientKeys.delete h) (fun b n found => ?_) fun k g b known opens' => ?_
  · have less := users_delete (b := b) client
    have before := linked.refs b n found
    have same : users (({ s with filehash := s.filehash.delete h }).setNode a
      fun o => { o with oRefs := o.oRefs - 1 }) b =
        users { s with filehash := s.filehash.delete h } b := rfl
    rw [opens] at less
    simp only [Option.some.injEq] at less
    rw [same, edit]
    by_cases here : b = a
    · rw [if_pos here.symm] at less
      rw [if_pos here]
      simp only
      omega
    · rw [if_neg (Ne.symm here)] at less
      rw [if_neg here]
      omega
  · have known : (s.filehash.delete h).lookup k = some g := known
    rw [linked.clientKeys.lookup_delete] at known
    split_ifs at known
    exact linked.opened k g b known opens'

/-! ## Every request goes through -/

/-- A client comes. -/
theorem goes_connect (intact : Intact s) (x : Outcome) (fresh : s.filehash.lookup h = none) :
    Goes s (x, .connect h) := by
  have other : ∀ b, ¬Removes s (.connect h) b := not_removes nofun
  have closed : ∀ k name mArg, Action.connect h = .open_ k name mArg → Reply.ok ≠ .ok := nofun
  by_cases memory : x.client = true
  · by_cases slot : x.slot = true
    · have done : s.exec x (.connect h) = .ok ({ s with
          filehash := s.filehash.insert h (⟨none, 0, ACC_READ ||| ACC_WRITE⟩ : File) }, .ok) := by
        simp [State.exec, State.newClient, memory, slot]
      exact goes_refused (s := s) (intact.come fresh rfl) rfl done (fun b both => other b both.1) closed
    · exact goes_same intact (e := .ENOMEM) (by simp [State.exec, State.newClient, memory, slot])
  · exact goes_same intact (e := .strerror) (by simp [State.exec, State.newClient, memory])

/-- A client comes that has what another one has. -/
theorem goes_dup {mArg : Handle} (intact : Intact s) (x : Outcome)
    (known : s.filehash.lookup h ≠ none) (fresh : s.filehash.lookup mArg = none) :
    Goes s (x, .dup h mArg) := by
  obtain ⟨f, client, opened⟩ := intact.known known
  have other : ∀ b, ¬Removes s (.dup h mArg) b := not_removes nofun
  have closed : ∀ k name m, Action.dup h mArg = .open_ k name m → Reply.ok ≠ .ok := nofun
  by_cases memory : x.client = true
  · by_cases slot : x.slot = true
    · cases opens : f.fFile with
      | none =>
          have done : s.exec x (.dup h mArg) =
              .ok ({ s with filehash := s.filehash.insert mArg f }, .ok) := by
            simp [State.exec, State.dupClient, State.file, client, bind, Except.bind, memory, slot,
              opens]
          exact goes_refused (s := s) (intact.come fresh opens) rfl done (fun b both => other b both.1) closed
      | some a =>
          obtain ⟨n, there⟩ := opened a opens
          have done : s.exec x (.dup h mArg) =
              .ok (({ s with filehash := s.filehash.insert mArg f }).setNode a
                fun o => { o with oRefs := o.oRefs + 1 }, .ok) := by
            simp [State.exec, State.dupClient, State.file, client, bind, Except.bind, memory, slot,
              opens]
          refine ⟨_, _, done, intact.join fresh opens (by rw [there]; exact nofun)
            (fun _ => ⟨rfl, rfl⟩) fun _ => rfl, fun _ => ?_⟩
          exact served_edit (setNode_nodes _) (fun _ => ⟨rfl, rfl⟩) (fun _ => .inl rfl)
            (fun b both => other b both.1) fun k name m f b n is => nomatch is
    · exact goes_same intact (e := .ENOMEM) (by
        simp [State.exec, State.dupClient, State.file, client, bind, Except.bind, memory, slot])
  · exact goes_same intact (e := .strerror) (by
      simp [State.exec, State.dupClient, State.file, client, bind, Except.bind, memory])

/-- What an open of a client that has no file open comes to. -/
theorem exec_open (x : Outcome) (name : List UChar) (mArg : ULong)
    (client : s.filehash.lookup h = some f) (root : f.fFile = none) (dir : has mArg ACC_DIR = false) :
    s.exec x (.open_ h name mArg) = match s.dirLookup name with
      | none =>
          if !has mArg ACC_CREATE then .ok (s, .err .ESRCH)
          else match x.node with
            | none => .ok (s, .err .ENOMEM)
            | some a =>
                if !x.parts then
                  .ok ({ s with made := a :: s.made, freed := a :: s.freed }, .err .ENOMEM)
                else
                  .ok (({ s with
                    nodes := s.nodes.insert a ⟨name, .truncate, 1, false⟩
                    made := a :: s.made }).setFile h
                      { f with fFile := some a, fPerm := ACC_READ ||| ACC_WRITE ||| ACC_CHMOD }, .ok)
      | some (a, _) =>
          let want := mArg &&& (ACC_READ ||| ACC_WRITE ||| ACC_CHMOD)
          if want &&& x.file.perm ≠ want then .ok (s, .err .EPERM)
          else
            .ok ((s.setNode a fun o => { o with
              file := if has mArg ACC_CREATE then .truncate else o.file
              oRefs := o.oRefs + 1 }).setFile h
                { f with fFile := some a, fPerm := want ||| (x.file.perm &&& ACC_CHMOD) }, .ok) := by
  simp only [State.exec, State.tmpfsOpen, State.file, client, bind, Except.bind, root, dir, ne_eq,
    not_true_eq_false, if_false, Bool.false_eq_true] <;> rfl

/-- **An open gets to the file of the name, or makes one.** -/
theorem goes_open (intact : Intact s) (x : Outcome) (name : List UChar) (mArg : ULong)
    (known : s.filehash.lookup h ≠ none)
    (memory : ∀ a, x.node = some a → s.nodes.lookup a = none) :
    Goes s (x, .open_ h name mArg) := by
  obtain ⟨f, client, -⟩ := intact.known known
  have other : ∀ b, ¬Removes s (.open_ h name mArg) b := not_removes nofun
  by_cases root : f.fFile = none
  case neg =>
    refine goes_same intact (e := .ENOTDIR) ?_
    simp only [State.exec, State.tmpfsOpen, State.file, client, bind, Except.bind, ne_eq, root,
      not_false_eq_true, if_true]
  cases dir : has mArg ACC_DIR with
  | true =>
      refine goes_same intact (e := .EINVAL) ?_
      simp only [State.exec, State.tmpfsOpen, State.file, client, bind, Except.bind, ne_eq, root,
        not_true_eq_false, if_false, dir, if_true]
  | false =>
      have run := exec_open x name mArg client root dir
      cases found : s.dirLookup name with
      | some entry =>
          obtain ⟨a, n⟩ := entry
          obtain ⟨there, -⟩ := dirLookup_spec intact.linked found
          simp only [found] at run
          by_cases refused : mArg &&& (ACC_READ ||| ACC_WRITE ||| ACC_CHMOD) &&& x.file.perm ≠
              mArg &&& (ACC_READ ||| ACC_WRITE ||| ACC_CHMOD)
          · rw [if_pos refused] at run
            exact goes_same intact run
          rw [if_neg refused] at run
          refine ⟨_, _, run, ?_, fun fits => ?_⟩
          · refine intact.open_ client root ?_ ?_ ?_ _
            · rw [there]
              exact Option.some_ne_none _
            · exact fun _ => ⟨rfl, rfl⟩
            · exact fun _ => rfl
          refine served_edit (setFile_setNode_nodes _ _) (fun _ => ⟨rfl, rfl⟩) (fun m => ?_)
            (fun b both => other b both.1) fun k name' m' g b m is _ opened opens before => ?_
          · by_cases create : has mArg ACC_CREATE = true
            · exact .inr (.inr ⟨h, name, mArg, n, rfl, create, found⟩)
            · exact .inl (if_neg create)
          · obtain ⟨rfl, rfl, rfl⟩ : h = k ∧ name = name' ∧ mArg = m' := by simpa using is
            have opened := (lookup_setFile (s := s.setNode a _) client _ h).symm.trans opened
            rw [if_pos rfl] at opened
            obtain rfl := Option.some.inj opened
            obtain rfl := Option.some.inj opens
            rw [there] at before
            obtain rfl := Option.some.inj before
            exact fits a n found
      | none =>
          simp only [found] at run
          by_cases absent : (!has mArg ACC_CREATE) = true
          · rw [if_pos absent] at run
            exact goes_same intact run
          rw [if_neg absent] at run
          cases node : x.node with
          | none =>
              simp only [node] at run
              exact goes_same intact run
          | some a =>
              simp only [node] at run
              have fresh := memory a node
              by_cases short : (!x.parts) = true
              · rw [if_pos short] at run
                have linked := intact.linked
                refine goes_refused ?_ ?_ run (fun _ both => by cases both.2)
                  fun _ _ _ _ done => by cases done
                · exact ⟨⟨linked.nodeKeys, linked.clientKeys, linked.refs, linked.opened,
                    linked.names, linked.ledger.undo a⟩, intact.used⟩
                · rfl
              rw [if_neg short] at run
              refine ⟨_, _, run, ⟨intact.linked.create client root fresh (dirLookup_none found) _ _,
                fun b m present yes => ?_⟩, fun _ => ?_⟩
              · have present : (s.nodes.insert a ⟨name, .truncate, 1, false⟩).lookup b = some m :=
                  present
                rw [Hash.lookup_insert] at present
                split_ifs at present
                · obtain rfl := Option.some.inj present
                  cases yes
                · exact intact.used b m present yes
              · have look : ∀ b n, s.nodes.lookup b = some n →
                    (s.nodes.insert a ⟨name, .truncate, 1, false⟩).lookup b = some n := by
                  intro b n before
                  rw [Hash.lookup_insert, if_neg, before]
                  rintro rfl
                  rw [fresh] at before
                  cases before
                refine ⟨fun b n before gone => ?_, fun b removes => absurd removes (other b),
                  fun b n n' before after yes => ?_,
                  fun b n before not_ _ => ⟨n, look b n before, not_, rfl, .inl rfl⟩,
                  fun k name' m' g b m is _ opened opens before => ?_⟩
                · cases (look b n before).symm.trans gone
                · obtain rfl := Option.some.inj ((look b n before).symm.trans after)
                  exact yes
                · obtain ⟨rfl, rfl, rfl⟩ : h = k ∧ name = name' ∧ mArg = m' := by simpa using is
                  have opened := (lookup_setFile (s := { s with
                    nodes := s.nodes.insert a ⟨name, .truncate, 1, false⟩
                    made := a :: s.made }) client _ h).symm.trans opened
                  rw [if_pos rfl] at opened
                  obtain rfl := Option.some.inj opened
                  obtain rfl := Option.some.inj opens
                  rw [fresh] at before
                  cases before

/-- **A removal that is accepted frees a file that nobody has open, and marks one in use.** -/
theorem goes_remove (intact : Intact s) (x : Outcome) (name : List UChar)
    (known : s.filehash.lookup h ≠ none) : Goes s (x, .remove h name) := by
  obtain ⟨f, client, -⟩ := intact.known known
  by_cases root : f.fFile = none
  case neg =>
    refine goes_same intact (e := .ENOTDIR) ?_
    simp only [State.exec, State.tmpfsRemove, State.file, client, bind, Except.bind, ne_eq, root,
      not_false_eq_true, if_true]
  cases found : s.dirLookup name with
  | none =>
      refine goes_same intact (e := .ESRCH) ?_
      simp only [State.exec, State.tmpfsRemove, State.file, client, bind, Except.bind, ne_eq, root,
        not_true_eq_false, if_false, found]
  | some entry =>
      obtain ⟨a, n⟩ := entry
      obtain ⟨there, -⟩ := dirLookup_spec intact.linked found
      have removes : ∀ b, Removes s (.remove h name) b ↔ b = a := by
        refine fun b => ⟨?_, ?_⟩
        · rintro ⟨h', name', m, is, seen⟩
          obtain ⟨-, rfl⟩ : h = h' ∧ name = name' := by simpa using is
          rw [found] at seen
          exact (Prod.ext_iff.mp (Option.some.inj seen)).1.symm
        · rintro rfl
          exact ⟨h, name, n, rfl, found⟩
      have run : s.exec x (.remove h name) =
          if x.file.perm &&& (ACC_WRITE ||| ACC_CHMOD) = 0 then .ok (s, .err .EPERM)
          else if 0 < n.oRefs then .ok (s.setNode a fun o => { o with oDeleted := true }, .ok)
          else .ok (s.nuke a, .ok) := by
        simp only [State.exec, State.tmpfsRemove, State.file, client, bind, Except.bind, ne_eq,
          root, not_true_eq_false, if_false, found]
      by_cases refused : x.file.perm &&& (ACC_WRITE ||| ACC_CHMOD) = 0
      · rw [if_pos refused] at run
        exact goes_same intact run
      rw [if_neg refused] at run
      by_cases busy : 0 < n.oRefs
      · rw [if_pos busy] at run
        have look : ∀ b, (s.setNode a fun o => { o with oDeleted := true }).nodes.lookup b =
            if b = a then some { n with oDeleted := true } else s.nodes.lookup b := by
          intro b
          rw [State.setNode, Hash.lookup_modify, there]
          rfl
        refine ⟨_, _, run, intact.mark there busy, fun _ => ⟨fun b m before gone => ?_,
          fun b removed _ => .inr ?_, fun b m m' before after yes => ?_,
          fun b m before not_ kept => ⟨m, ?_, not_, rfl, .inl rfl⟩, fun _ _ _ _ _ _ is => nomatch is⟩⟩
        · rw [look, before] at gone
          split_ifs at gone
        · obtain rfl := (removes b).mp removed
          exact ⟨_, (look b).trans (if_pos rfl), rfl⟩
        · rw [look, before] at after
          split_ifs at after
          · obtain rfl := Option.some.inj after
            rfl
          · exact Option.some.inj after ▸ yes
        · rw [look, if_neg fun same => kept ⟨(removes b).mpr same, rfl⟩, before]
      · rw [if_neg busy] at run
        have look : ∀ b, (s.nuke a).nodes.lookup b = if b = a then none else s.nodes.lookup b :=
          fun b => intact.linked.nodeKeys.lookup_delete a b
        have idle : n.oRefs = 0 := by omega
        refine ⟨_, _, run, ⟨intact.linked.nuke there idle, fun b m present yes => ?_⟩,
          fun _ => ⟨fun b m before gone => .inl ?_, fun b removed _ => .inl ?_,
          fun b m m' before after yes => ?_,
          fun b m before not_ kept => ⟨m, ?_, not_, rfl, .inl rfl⟩, fun _ _ _ _ _ _ is => nomatch is⟩⟩
        · rw [look] at present
          split_ifs at present
          exact intact.used b m present yes
        · rw [look, before] at gone
          split_ifs at gone with same
          rw [same, there] at before
          obtain rfl := Option.some.inj before
          exact ⟨idle, (removes b).mpr same⟩
        · rw [look, if_pos ((removes b).mp removed)]
        · rw [look, before] at after
          split_ifs at after
          exact Option.some.inj after ▸ yes
        · rw [look, if_neg fun same => kept ⟨(removes b).mpr same, rfl⟩, before]

/-- A request on the file that a client has open. -/
theorem goes_access (intact : Intact s) (x : Outcome) (act : Tmpfs.Action)
    (known : s.filehash.lookup h ≠ none) : Goes s (x, .access h act) := by
  obtain ⟨f, client, opened⟩ := intact.known known
  have other : ∀ b, ¬Removes s (.access h act) b := not_removes nofun
  cases opens : f.fFile with
  | none =>
      have run : ∃ pos r, s.exec x (.access h act) =
          .ok (s.setFile h { f with fPos := pos }, .file r) := by
        simp only [State.exec, State.access, State.file, client, bind, Except.bind, opens]
        exact ⟨_, _, rfl⟩
      obtain ⟨pos, r, run⟩ := run
      refine goes_refused ?_ ?_ run (fun b both => other b both.1) fun _ _ _ is => nomatch is
      · have nodes : s.nodes = s.nodes.mapVals fun _ n => n := (List.map_id _).symm
        exact intact.touch (t := s.setFile h { f with fPos := pos }) client pos nodes
          (fun _ _ => ⟨rfl, rfl⟩) (fun _ _ => rfl) rfl rfl rfl
      · rfl
  | some i =>
      obtain ⟨n, there⟩ := opened i opens
      have run : ∃ file pos r, s.exec x (.access h act) =
          .ok ((s.setNode i fun o => { o with file := file }).setFile h { f with fPos := pos },
            .file r) := by
        simp only [State.exec, State.access, State.file, State.node, client, there, bind,
          Except.bind, opens]
        exact ⟨_, _, _, rfl⟩
      obtain ⟨file, pos, r, run⟩ := run
      refine ⟨_, _, run, intact.touch client pos (setFile_setNode_nodes _ _)
        (fun b n => ⟨edit_same Node.oDeleted ?_ b n, edit_same Node.oName ?_ b n⟩)
        (edit_same Node.oRefs ?_) rfl rfl rfl, fun _ => ?_⟩
      · exact fun _ => rfl
      · exact fun _ => rfl
      · exact fun _ => rfl
      · exact served_edit (setFile_setNode_nodes _ _) (fun _ => ⟨rfl, rfl⟩)
          (fun _ => .inr (.inl ⟨h, act, f, rfl, client, opens⟩)) (fun b both => other b both.1)
          fun _ _ _ _ _ _ is => nomatch is

/-- **The last client of a removed file frees it.** -/
theorem goes_disconnect (intact : Intact s) (x : Outcome) (known : s.filehash.lookup h ≠ none) :
    Goes s (x, .disconnect h) := by
  obtain ⟨f, client, opened⟩ := intact.known known
  have other : ∀ b, ¬Removes s (.disconnect h) b := not_removes nofun
  cases opens : f.fFile with
  | none =>
      have run : s.exec x (.disconnect h) =
          .ok ({ s with filehash := s.filehash.delete h }, .ok) := by
        simp only [State.exec, State.deadClient, State.tmpfsClose, State.file, client, bind,
          Except.bind, opens]
      refine goes_refused ?_ ?_ run (fun b both => other b both.1) fun _ _ _ is => nomatch is
      · refine intact.update (fun _ n => n) (List.map_id _).symm (fun _ _ => ⟨rfl, rfl⟩) rfl rfl
          (intact.linked.clientKeys.delete h) (fun b n found => ?_) (fun k g b there => ?_)
          fun _ _ _ positive => positive
        · have less := users_delete (b := b) client
          rw [opens, if_neg nofun] at less
          exact (intact.linked.refs b n found).trans less
        · have there : (s.filehash.delete h).lookup k = some g := there
          rw [intact.linked.clientKeys.lookup_delete] at there
          split_ifs at there
          exact intact.linked.opened k g b there
      · rfl
  | some a =>
      obtain ⟨n, there⟩ := opened a opens
      have left := intact.linked.leave client opens
      have positive : 0 < n.oRefs := by
        rw [intact.linked.refs a n there]
        exact users_pos client opens
      have look : ∀ b, (({ s with filehash := s.filehash.delete h } : State).setNode a
          fun o => { o with oRefs := o.oRefs - 1 }).nodes.lookup b =
          if b = a then some { n with oRefs := n.oRefs - 1 } else s.nodes.lookup b := by
        intro b
        rw [State.setNode, Hash.lookup_modify, there]
        rfl
      have run : s.exec x (.disconnect h) = .ok (if n.oDeleted && n.oRefs - 1 = 0 then
          (({ s with filehash := s.filehash.delete h } : State).setNode a
            fun o => { o with oRefs := o.oRefs - 1 }).nuke a
          else ({ s with filehash := s.filehash.delete h } : State).setNode a
            fun o => { o with oRefs := o.oRefs - 1 }, .ok) := by
        simp only [State.exec, State.deadClient, State.tmpfsClose, State.file, client, bind,
          Except.bind, opens, State.node, look, if_pos]
      generalize ({ s with filehash := s.filehash.delete h } : State).setNode a
          (fun o => { o with oRefs := o.oRefs - 1 }) = u at left look run
      have here := (look a).trans (if_pos rfl)
      have closes : Closes s (.disconnect h) a := ⟨h, f, rfl, client, opens⟩
      by_cases last : (n.oDeleted && n.oRefs - 1 = 0) = true
      · rw [if_pos last] at run
        obtain ⟨marked, zero⟩ : n.oDeleted = true ∧ n.oRefs - 1 = 0 := by simpa using last
        have look' : ∀ b, (u.nuke a).nodes.lookup b = if b = a then none else s.nodes.lookup b := by
          intro b
          rw [State.nuke, left.nodeKeys.lookup_delete, look]
          split_ifs <;> rfl
        refine ⟨_, _, run, ⟨left.nuke here zero, fun b m present yes => ?_⟩,
          fun _ => ⟨fun b m before gone => .inr ?_, fun b removed => absurd removed (other b),
          fun b m m' before after yes => ?_, fun b m before not_ _ => ⟨m, ?_, not_, rfl, .inl rfl⟩,
          fun _ _ _ _ _ _ is => nomatch is⟩⟩
        · rw [look'] at present
          split_ifs at present
          exact intact.used b m present yes
        · rw [look', before] at gone
          split_ifs at gone with same
          rw [same, there] at before
          obtain rfl := Option.some.inj before
          exact ⟨marked, by omega, same ▸ closes⟩
        · rw [look', before] at after
          split_ifs at after
          exact Option.some.inj after ▸ yes
        · rw [look', if_neg, before]
          rintro rfl
          rw [there] at before
          obtain rfl := Option.some.inj before
          rw [marked] at not_
          cases not_
      · rw [if_neg last] at run
        refine ⟨_, _, run, ⟨left, fun b m present yes => ?_⟩, fun _ => ?_⟩
        · rw [look] at present
          split_ifs at present
          · obtain rfl := Option.some.inj present
            have marked : n.oDeleted = true := yes
            rw [marked, Bool.true_and, decide_eq_true_eq] at last
            exact Nat.pos_of_ne_zero last
          · exact intact.used b m present yes
        · have look : ∀ b, u.nodes.lookup b =
              (s.nodes.lookup b).map (edit a (fun o => { o with oRefs := o.oRefs - 1 }) b) := by
            intro b
            rw [look]
            by_cases same : b = a
            · rw [if_pos same, same, there, Option.map_some, edit, if_pos rfl]
            · have still : edit a (fun o => { o with oRefs := o.oRefs - 1 }) b = id := by
                funext m
                exact if_neg same
              rw [if_neg same, still, Option.map_id, id]
          refine served_update look (fun b n => ⟨edit_same Node.oDeleted ?_ b n, edit_same Node.oName ?_ b n⟩)
            (fun b n _ => .inl (edit_same Node.file ?_ b n)) (fun b both => other b both.1)
            fun _ _ _ _ _ _ is => nomatch is
          · exact fun _ => rfl
          · exact fun _ => rfl
          · exact fun _ => rfl

/-- **Every request goes through.** -/
theorem exec_spec (intact : Intact s) {label : Outcome × Action} (legal : Legal s label) :
    Goes s label := by
  obtain ⟨x, act⟩ := label
  obtain ⟨memory, known⟩ := legal
  cases act with
  | connect h => exact goes_connect intact x known
  | dup h mArg => exact goes_dup intact x known.1 known.2
  | open_ h name mArg => exact goes_open intact x name mArg known memory
  | remove h name => exact goes_remove intact x name known
  | access h a => exact goes_access intact x a known.1
  | disconnect h => exact goes_disconnect intact x known

theorem start_intact : Intact start :=
  ⟨⟨List.nodup_nil, List.nodup_nil, nofun, nofun, nofun, fun _ => rfl⟩, nofun⟩

/-- **In every run, the count of a file is the number of clients that have it open, no two files
have one name, no client has a file open that is not there, and every file that was freed was freed
once.** No request fails on a pointer, and what a request does to the files, with `Fits`, is as in
`Served`. -/
theorem names_intact (run : Transition.Reaches Step Fits start s) :
    Intact s ∧ ∀ label, Legal s label → ∃ t r, s.exec label.1 label.2 = .ok (t, r) ∧
      (Fits s label → Served s label.2 t r) := by
  have intact : Intact s := by
    refine run.invariant start_intact ?_
    rintro source label target intact - ⟨legal, reply, done⟩
    obtain ⟨t, r, done', intact', -⟩ := exec_spec intact legal
    rw [done] at done'
    obtain ⟨rfl, rfl⟩ : target = t ∧ reply = r := by simpa using done'
    exact intact'
  refine ⟨intact, fun label legal => ?_⟩
  obtain ⟨t, r, done, -, good⟩ := exec_spec intact legal
  exact ⟨t, r, done, good⟩

/-! ## Fixed runs -/

instance (a : Tmpfs.Action) : Decidable (Plain a) := by
  unfold Plain
  split <;> infer_instance

instance (label : Outcome × Action) : Decidable (Legal s label) := by
  unfold Legal
  have memory : Decidable (∀ a, label.1.node = some a → s.nodes.lookup a = none) :=
    match label.1.node with
    | none => .isTrue nofun
    | some b => decidable_of_iff (s.nodes.lookup b = none)
        ⟨fun free a is => Option.some.inj is ▸ free, fun all => all b rfl⟩
  have name : ∀ a, Decidable (s.nodes.lookup a = none) := fun a =>
    decidable_of_iff ((s.nodes.lookup a).isNone = true) Option.isNone_iff_eq_none
  split <;> infer_instance

/-- A request that meets the condition. -/
def fitting (s : State) (label : Outcome × Action) : Bool :=
  match label.2 with
  | .open_ _ name _ => (s.dirLookup name).all fun found => !found.2.oDeleted
  | _ => true

theorem fits_of_fitting (label : Outcome × Action) (good : fitting s label = true) :
    Fits s label := by
  obtain ⟨x, act⟩ := label
  cases act with
  | open_ h name mArg =>
      intro a n found
      simpa [fitting, found] using good
  | connect h => trivial
  | dup h mArg => trivial
  | remove h name => trivial
  | access h a => trivial
  | disconnect h => trivial

/-- What a request that goes through leaves. -/
def next (s : State) (label : Outcome × Action) : Option State :=
  (s.exec label.1 label.2).toOption.map Prod.fst

theorem step_of_next {label : Outcome × Action} (legal : Legal s label)
    (taken : next s label = some t) : Step s label t := by
  refine ⟨legal, ?_⟩
  rw [next] at taken
  cases done : s.exec label.1 label.2 with
  | error fault =>
      rw [done] at taken
      cases taken
  | ok result =>
      rw [done] at taken
      obtain rfl := Option.some.inj taken
      exact ⟨result.2, rfl⟩

/-- A request that is granted, with memory for a file at an address. -/
def granted (a : ULong) : Outcome :=
  ⟨true, true, some a, true, ⟨fun _ => true, true, ACC_READ ||| ACC_WRITE ||| ACC_CHMOD, 0⟩⟩

/-- A client makes a file, and another one removes it. -/
def removal : List (Outcome × Action) :=
  [(granted 0x2000, .connect 1), (granted 0x2000, .open_ 1 [0x61] 0x16),
    (granted 0x3000, .connect 2), (granted 0x3000, .remove 2 [0x61]), (granted 0x3000, .connect 3)]

/-- The files after that. -/
def busy : State :=
  ⟨[(0x2000, ⟨[0x61], .truncate, 1, true⟩)], [(3, ⟨none, 0, 0x6⟩), (2, ⟨none, 0, 0x6⟩),
    (1, ⟨some 0x2000, 0, 0x46⟩)], [0x2000], []⟩

theorem busy_run : Transition.Reaches Step Fits start busy :=
  (Transition.Reaches.refl start).followed
    (fun _ label good => fits_of_fitting label (Bool.and_eq_true _ _ ▸ good).2)
    (fun _ _ _ good => step_of_next (of_decide_eq_true (Bool.and_eq_true _ _ ▸ good).1))
    (show Transition.follow next (fun s l => decide (Legal s l) && fitting s l) start removal =
      some busy from rfl)

/-- The file is freed when its only client goes. -/
theorem names_intact_busy : Transition.Reaches Step Fits start busy ∧ Intact busy ∧
    (∀ label, Legal busy label → ∃ t r, busy.exec label.1 label.2 = .ok (t, r) ∧
      (Fits busy label → Served busy label.2 t r)) ∧
    (busy.exec (granted 0x3000) (.disconnect 1)).map (fun r => r.1.freed) = .ok [0x2000] :=
  have holds := names_intact busy_run
  ⟨busy_run, holds.1, holds.2, rfl⟩

/-- Another client makes a file of the name again, and writes to it. -/
def reuse : List (Outcome × Action) :=
  [(granted 0x3000, .open_ 3 [0x61] 0x16), (granted 0x3000, .access 3 (.write 0 [[0x78]])),
    (granted 0x3000, .disconnect 1)]

/-- **A file whose removal was accepted is found again**, and what is written to it then is freed
with it, though nobody removed it since. -/
theorem removed_reused : ∃ s t, Transition.Reaches Step Transition.Any start s ∧
    s.nodes.lookup 0x2000 = some ⟨[0x61], .truncate, 1, true⟩ ∧
    s.exec (granted 0x3000) (.open_ 3 [0x61] 0x16) = .ok (t, .ok) ∧
    (t.filehash.lookup 3).map File.fFile = some (some 0x2000) ∧
    ∃ u v, Transition.follow next (fun s l => decide (Legal s l)) s reuse = some u ∧
      u.exec (granted 0x3000) (.disconnect 3) = .ok (v, .ok) ∧ v.freed = [0x2000] ∧ v.nodes = [] :=
  ⟨busy, _, busy_run.mono fun _ _ _ => trivial, rfl, rfl, rfl, _, _, rfl, rfl, rfl, rfl⟩

end Vsta.Tmpfs.Directory
