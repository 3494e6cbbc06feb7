import Vsta.Namer.Server
import Vsta.Srv.Sessions
import Vsta.Library.Runs

/-!
# The references of the name server

The count of a node is one for its entry, one for each node under it and one for each client at it
(`Intact`), which no request changes and which no assertion contradicts. A node that was removed
while it was in use is freed by the client that leaves it last, but not by the last node under it:
that its directory is freed then, and that it is not found before, is so in runs of requests that
meet `Fits` (`tree_intact`), and not in others (`removed_found`).
-/

set_option autoImplicit false

namespace Vsta.Namer

open Vstafs

/-- The nodes under a node. -/
def children (s : State) (a : ULong) : ℕ := Srv.holders Node.nParent (fun _ => true) s.nodes a

/-- The clients at a node. -/
def clients (s : State) (a : ULong) : ℕ :=
  Srv.holders (fun f : File => some f.fNode) (fun _ => true) s.filehash a

/-- The tree and the clients hold together. -/
structure Intact (s : State) : Prop where
  nodeKeys : s.nodes.Distinct
  clientKeys : s.filehash.Distinct
  refs : ∀ a n, s.nodes.lookup a = some n → n.nRefs = 1 + children s a + clients s a
  parent : ∀ a n p, s.nodes.lookup a = some n → n.nParent = some p → s.nodes.lookup p ≠ none
  root : ∃ r, s.nodes.lookup rootnode = some r ∧ r.nParent = none ∧ r.nDeleted = false
  rooted : ∀ a n, s.nodes.lookup a = some n → n.nParent = none → a = rootnode
  positioned : ∀ h f, s.filehash.lookup h = some f → s.nodes.lookup f.fNode ≠ none
  ledger : Srv.Ledger s.nodes s.made s.freed

variable {s : State} {a b p : ULong} {n : Node} {h : Handle} {f : File} {change : ℕ → ℕ}

/-! ## What the parts of a request change -/

@[simp] theorem setRefs_filehash : (s.setRefs a change).filehash = s.filehash := rfl
@[simp] theorem setRefs_made : (s.setRefs a change).made = s.made := rfl
@[simp] theorem setRefs_freed : (s.setRefs a change).freed = s.freed := rfl
@[simp] theorem setFile_nodes (mode : ULong) : (s.setFile h a mode).nodes = s.nodes := rfl
@[simp] theorem setFile_made (mode : ULong) : (s.setFile h a mode).made = s.made := rfl
@[simp] theorem setFile_freed (mode : ULong) : (s.setFile h a mode).freed = s.freed := rfl

/-- The count of one node changes. -/
def bump (a : ULong) (change : ℕ → ℕ) (b : ULong) (n : Node) : Node :=
  if b = a then { n with nRefs := change n.nRefs } else n

@[simp] theorem bump_nParent : (bump a change b n).nParent = n.nParent := by
  rw [bump]
  split_ifs <;> rfl

@[simp] theorem bump_nDeleted : (bump a change b n).nDeleted = n.nDeleted := by
  rw [bump]
  split_ifs <;> rfl

theorem bump_nRefs : (bump a change b n).nRefs = if b = a then change n.nRefs else n.nRefs := by
  rw [bump]
  split_ifs <;> rfl

theorem setRefs_nodes : (s.setRefs a change).nodes = s.nodes.mapVals (bump a change) := rfl

theorem lookup_setRefs :
    (s.setRefs a change).nodes.lookup b = (s.nodes.lookup b).map (bump a change b) := by
  rw [setRefs_nodes, Hash.lookup_mapVals]

/-- Nodes change and keep their parents. -/
theorem children_mapVals {t : State} {change : ULong → Node → Node}
    (nodes : t.nodes = s.nodes.mapVals change) (up : ∀ b n, (change b n).nParent = n.nParent) :
    children t b = children s b := by
  rw [children, nodes]
  exact Srv.holders_mapVals up fun _ _ => rfl

@[simp] theorem children_setRefs : children (s.setRefs a change) b = children s b :=
  children_mapVals setRefs_nodes fun _ _ => bump_nParent

@[simp] theorem clients_setRefs : clients (s.setRefs a change) b = clients s b := rfl

@[simp] theorem children_setFile (mode : ULong) : children (s.setFile h a mode) b = children s b :=
  rfl

/-- A client walks from one node to another. -/
theorem clients_setFile (distinct : s.filehash.Distinct) (client : s.filehash.lookup h = some f)
    (mode : ULong) : clients (s.setFile h a mode) b + (if f.fNode = b then 1 else 0) =
      clients s b + if a = b then 1 else 0 := by
  have moved := @Srv.holders_modify _ (fun f : File => some f.fNode) s.filehash h b f distinct
    (fun _ => true) client fun _ => ⟨a, mode⟩
  simpa only [clients, State.setFile, Option.some.injEq, true_and] using moved

/-- Nodes change where they are, and their counts with the clients at them. -/
theorem Intact.update (intact : Intact s) {t : State} (change : ULong → Node → Node)
    (nodes : t.nodes = s.nodes.mapVals change) (up : ∀ b n, (change b n).nParent = n.nParent)
    (kept : ∀ n, (change rootnode n).nDeleted = n.nDeleted) (made : t.made = s.made)
    (freed : t.freed = s.freed) (keys : t.filehash.Distinct)
    (counts : ∀ b n, s.nodes.lookup b = some n →
      (change b n).nRefs + clients s b = n.nRefs + clients t b)
    (positioned : ∀ h f, t.filehash.lookup h = some f → s.nodes.lookup f.fNode ≠ none) :
    Intact t := by
  have look : ∀ b, t.nodes.lookup b = (s.nodes.lookup b).map (change b) := fun b => by
    rw [nodes, Hash.lookup_mapVals]
  have there : ∀ b, t.nodes.lookup b = none ↔ s.nodes.lookup b = none := fun b => by
    rw [look, Option.map_eq_none_iff]
  have parts : ∀ b n, t.nodes.lookup b = some n → ∃ n', s.nodes.lookup b = some n' ∧
      change b n' = n := fun b n found => by
    rw [look] at found
    exact Option.map_eq_some_iff.mp found
  refine ⟨nodes ▸ intact.nodeKeys.mapVals _, keys, fun b n found => ?_, fun b n p found above => ?_,
    ?_, fun b n found above => ?_, fun h f client => ?_, fun b => ?_⟩
  · obtain ⟨n', found', rfl⟩ := parts b n found
    have before := intact.refs b n' found'
    have balance := counts b n' found'
    rw [children_mapVals nodes up]
    omega
  · obtain ⟨n', found', rfl⟩ := parts b n found
    rw [Ne, there]
    exact intact.parent b n' p found' (up b n' ▸ above)
  · obtain ⟨r, found, top, stays⟩ := intact.root
    exact ⟨_, by rw [look, found]; rfl, (up _ r).trans top, (kept r).trans stays⟩
  · obtain ⟨n', found', rfl⟩ := parts b n found
    exact intact.rooted b n' found' (up b n' ▸ above)
  · rw [Ne, there]
    exact positioned h f client
  · rw [made, freed, intact.ledger b, look, Option.isSome_map]

/-! ## The requests -/

/-- A client comes to a node. -/
theorem Intact.arrive (intact : Intact s) (fresh : s.filehash.lookup h = none)
    (there : s.nodes.lookup f.fNode ≠ none) :
    Intact (({ s with filehash := s.filehash.insert h f }).setRefs f.fNode (· + 1)) := by
  have count : ∀ b, clients { s with filehash := s.filehash.insert h f } b =
      clients s b + if f.fNode = b then 1 else 0 := by
    intro b
    have more := @Srv.holders_insert _ (fun f : File => some f.fNode) s.filehash h b f
      fun _ => true
    simpa only [clients, Option.some.injEq, true_and] using more
  refine intact.update _ setRefs_nodes (fun _ _ => bump_nParent) (fun _ => bump_nDeleted) rfl rfl (intact.clientKeys.insert fresh) (fun b n _ => ?_)
    fun k g client => ?_
  · rw [clients_setRefs, count, bump_nRefs]
    by_cases here : b = f.fNode
    · rw [if_pos here, if_pos here.symm]
      omega
    · rw [if_neg here, if_neg (Ne.symm here), Nat.add_zero]
  · rw [setRefs_filehash, Hash.lookup_insert] at client
    split_ifs at client
    · obtain rfl := Option.some.inj client
      exact there
    · exact intact.positioned k g client

/-- A client leaves its node. -/
theorem Intact.leave (intact : Intact s) (client : s.filehash.lookup h = some f) :
    Intact (({ s with filehash := s.filehash.delete h }).setRefs f.fNode (· - 1)) := by
  have count : ∀ b, clients s b = clients { s with filehash := s.filehash.delete h } b +
      if f.fNode = b then 1 else 0 := by
    intro b
    have less := @Srv.holders_delete _ (fun f : File => some f.fNode) s.filehash h b f
      (fun _ => true) client
    simpa only [clients, Option.some.injEq, true_and] using less
  refine intact.update _ setRefs_nodes (fun _ _ => bump_nParent) (fun _ => bump_nDeleted) rfl rfl (intact.clientKeys.delete h) (fun b n found => ?_)
    fun k g client' => ?_
  · have before := intact.refs b n found
    rw [count] at before
    rw [clients_setRefs, count, bump_nRefs]
    by_cases here : b = f.fNode
    · rw [if_pos here.symm] at before ⊢
      rw [if_pos here]
      omega
    · rw [if_neg here, if_neg (Ne.symm here), Nat.add_zero]
  · rw [setRefs_filehash, intact.clientKeys.lookup_delete] at client'
    split_ifs at client'
    exact intact.positioned k g client'

/-- A client walks to another node. -/
theorem Intact.walk (intact : Intact s) (client : s.filehash.lookup h = some f)
    (there : s.nodes.lookup a ≠ none) (mode : ULong) :
    Intact (((s.setRefs f.fNode (· - 1)).setFile h a mode).setRefs a (· + 1)) := by
  have count := fun b => clients_setFile (a := a) (b := b) intact.clientKeys client mode
  have nodes : (((s.setRefs f.fNode (· - 1)).setFile h a mode).setRefs a (· + 1)).nodes =
      s.nodes.mapVals fun b n => bump a (· + 1) b (bump f.fNode (· - 1) b n) := by
    rw [setRefs_nodes, setFile_nodes, setRefs_nodes, Hash.mapVals_mapVals]
  have keys : (s.filehash.modify h fun _ => ⟨a, mode⟩).Distinct := intact.clientKeys.modify _ _
  refine intact.update _ nodes (fun b n => by rw [bump_nParent, bump_nParent])
    (fun n => by rw [bump_nDeleted, bump_nDeleted]) rfl rfl keys (fun b n found => ?_)
    fun k g client' => ?_
  · have before := intact.refs b n found
    have moved := count b
    have same : clients (((s.setRefs f.fNode (· - 1)).setFile h a mode).setRefs a (· + 1)) b =
        clients (s.setFile h a mode) b := rfl
    have positive : b = f.fNode → 0 < clients s b := fun here => by
      rw [clients, here]
      exact Srv.holders_pos _ client rfl rfl
    rw [same, bump_nRefs, bump_nRefs]
    by_cases left : b = f.fNode
    · rw [if_pos left.symm] at moved
      specialize positive left
      rw [if_pos left]
      by_cases here : b = a
      · rw [if_pos here.symm] at moved
        rw [if_pos here]
        omega
      · rw [if_neg (Ne.symm here)] at moved
        rw [if_neg here]
        omega
    · rw [if_neg (Ne.symm left)] at moved
      rw [if_neg left]
      by_cases here : b = a
      · rw [if_pos here.symm] at moved
        rw [if_pos here]
        omega
      · rw [if_neg (Ne.symm here)] at moved
        rw [if_neg here]
        omega
  · have look : (s.filehash.modify h fun _ => ⟨a, mode⟩).lookup k = some g := client'
    rw [Hash.lookup_modify] at look
    split_ifs at look
    · rw [client] at look
      obtain rfl := Option.some.inj look
      exact there
    · exact intact.positioned k g look

/-- A client makes a node under the one it is at, and walks to it. -/
theorem Intact.create (intact : Intact s) (client : s.filehash.lookup h = some f)
    (fresh : s.nodes.lookup a = none) (name : List UChar) (internal : Bool) (mode : ULong) :
    Intact (({ s with
      nodes := s.nodes.insert a ⟨name, internal, false, 2, some f.fNode⟩
      made := a :: s.made }).setFile h a mode) := by
  generalize made_ : ({ s with
    nodes := s.nodes.insert a ⟨name, internal, false, 2, some f.fNode⟩
    made := a :: s.made } : State) = m
  have nodes : m.nodes = s.nodes.insert a ⟨name, internal, false, 2, some f.fNode⟩ := by
    rw [← made_]
  have files : m.filehash = s.filehash := by rw [← made_]
  have look : ∀ b, (m.setFile h a mode).nodes.lookup b =
      if b = a then some ⟨name, internal, false, 2, some f.fNode⟩ else s.nodes.lookup b := by
    intro b
    rw [setFile_nodes, nodes, Hash.lookup_insert]
  have still : ∀ b, s.nodes.lookup b ≠ none → b ≠ a := by
    rintro b there rfl
    exact there fresh
  have parent := intact.positioned h f client
  have under : ∀ b, children (m.setFile h a mode) b =
      children s b + if f.fNode = b then 1 else 0 := by
    intro b
    have more := @Srv.holders_insert _ Node.nParent s.nodes a b
      ⟨name, internal, false, 2, some f.fNode⟩ fun _ => true
    rw [children_setFile, children, nodes, children]
    simpa only [Option.some.injEq, true_and] using more
  have at_ : ∀ b, clients (m.setFile h a mode) b + (if f.fNode = b then 1 else 0) =
      clients s b + if a = b then 1 else 0 := by
    intro b
    have moved := clients_setFile (s := m) (a := a) (b := b) (files ▸ intact.clientKeys)
      (files ▸ client) mode
    have same : clients m b = clients s b := by rw [clients, files, clients]
    rwa [same] at moved
  have nobody : clients s a = 0 ∧ children s a = 0 := by
    refine ⟨Srv.holders_eq_zero intact.clientKeys _ fun k g found points => ?_,
      Srv.holders_eq_zero intact.nodeKeys _ fun k g found points => ?_⟩
    · exact intact.positioned k g found (Option.some.inj points ▸ fresh)
    · exact intact.parent k g a found points fresh
  refine ⟨?_, ?_, fun b n found => ?_, fun b n p found above => ?_, ?_, fun b n found above => ?_,
    fun k g found => ?_, ?_⟩
  · rw [setFile_nodes, nodes]
    exact intact.nodeKeys.insert fresh
  · have keys := intact.clientKeys.modify h fun _ => (⟨a, mode⟩ : File)
    rwa [← files] at keys
  · have moved := at_ b
    rw [under]
    rw [look] at found
    by_cases here : b = a
    · rw [if_pos here] at found
      obtain rfl := Option.some.inj found
      have other : f.fNode ≠ b := here ▸ still _ parent
      rw [if_neg other, if_pos here.symm] at moved
      rw [here] at moved ⊢
      rw [if_neg (here ▸ other), nobody.2]
      simp only
      omega
    · rw [if_neg here] at found
      rw [if_neg (Ne.symm here)] at moved
      have before := intact.refs b n found
      omega
  · rw [look] at found
    rw [look]
    by_cases here : p = a
    · rw [if_pos here]
      exact Option.some_ne_none _
    · rw [if_neg here]
      by_cases there : b = a
      · rw [if_pos there] at found
        obtain rfl := Option.some.inj found
        exact Option.some.inj above ▸ parent
      · rw [if_neg there] at found
        exact intact.parent b n p found above
  · obtain ⟨r, found, top, stays⟩ := intact.root
    exact ⟨r, by rw [look, if_neg (still _ (by rw [found]; exact Option.some_ne_none _)), found],
      top, stays⟩
  · rw [look] at found
    split_ifs at found
    · obtain rfl := Option.some.inj found
      cases above
    · exact intact.rooted b n found above
  · have client' : (m.filehash.modify h fun _ => ⟨a, mode⟩).lookup k = some g := found
    rw [files, Hash.lookup_modify] at client'
    rw [look]
    by_cases here : k = h
    · rw [if_pos here, client] at client'
      obtain rfl := Option.some.inj client'
      rw [if_pos rfl]
      exact Option.some_ne_none _
    · rw [if_neg here] at client'
      have there := intact.positioned k g client'
      rw [if_neg (still _ there)]
      exact there
  · have ledger := intact.ledger.alloc fresh
      (⟨name, internal, false, 2, some f.fNode⟩ : Node)
    rw [setFile_nodes, setFile_made, setFile_freed, nodes, ← made_]
    exact ledger

/-- A node that is marked as removed. -/
theorem Intact.mark (intact : Intact s) (inner : a ≠ rootnode) :
    Intact { s with nodes := s.nodes.modify a fun n => { n with nDeleted := true } } := by
  refine intact.update (fun b n => if b = a then { n with nDeleted := true } else n) rfl
    (fun b n => by split_ifs <;> rfl) (fun n => by rw [if_neg inner.symm]) rfl rfl
    intact.clientKeys (fun b n _ => ?_) intact.positioned
  have same : (if b = a then { n with nDeleted := true } else n).nRefs = n.nRefs := by
    split_ifs <;> rfl
  rw [same]
  rfl

/-- **`delete_node` of a node that only its entry counts** is defined, and takes it out of the
tree. -/
theorem Intact.delete (intact : Intact s) (there : s.nodes.lookup a = some n) (last : n.nRefs = 1)
    (inner : n.nParent = some p) : ∃ t, s.deleteNode a = .ok t ∧ Intact t ∧
      t.filehash = s.filehash ∧ ∀ b, t.nodes.lookup b =
        if b = a then none else (s.nodes.lookup b).map (bump p (· - 1) b) := by
  obtain ⟨parent, found⟩ := Option.ne_none_iff_exists'.mp (intact.parent a n p there inner)
  have counted := intact.refs a n there
  have used : 0 < children s p := Srv.holders_pos _ there rfl inner
  have above := intact.refs p parent found
  have done : s.deleteNode a = .ok { s.setRefs p (· - 1) with
      nodes := (s.setRefs p (· - 1)).nodes.delete a, freed := a :: s.freed } := by
    simp only [State.deleteNode, State.node, there, inner, found, bind, Except.bind]
    rw [if_neg (by omega)]
    rfl
  have keys : (s.setRefs p (· - 1)).nodes.Distinct := by
    rw [setRefs_nodes]
    exact intact.nodeKeys.mapVals _
  have look : ∀ b, ((s.setRefs p (· - 1)).nodes.delete a).lookup b =
      if b = a then none else (s.nodes.lookup b).map (bump p (· - 1) b) := by
    intro b
    rw [keys.lookup_delete, lookup_setRefs]
  refine ⟨_, done, ?_, rfl, look⟩
  have here : (s.setRefs p (· - 1)).nodes.lookup a = some (bump p (· - 1) a n) := by
    rw [lookup_setRefs, there]
    rfl
  have under : ∀ b, children s b =
      Srv.holders Node.nParent (fun _ => true) ((s.setRefs p (· - 1)).nodes.delete a) b +
        if p = b then 1 else 0 := by
    intro b
    have less := @Srv.holders_delete _ Node.nParent _ a b _ (fun _ => true) here
    rw [bump_nParent, inner] at less
    have same : children (s.setRefs p (· - 1)) b = children s b :=
      children_mapVals setRefs_nodes fun _ _ => bump_nParent
    rw [children] at same
    simpa only [same, Option.some.injEq, true_and] using less
  refine ⟨keys.delete a, intact.clientKeys, fun b m found' => ?_, fun b m q found' up => ?_, ?_,
    fun b m found' up => ?_, fun k g client => ?_, ?_⟩
  · have found' := (look b).symm.trans found'
    split_ifs at found' with other
    obtain ⟨m', before, rfl⟩ := Option.map_eq_some_iff.mp found'
    have count := intact.refs b m' before
    have fewer := under b
    show (bump p (· - 1) b m').nRefs = 1 + Srv.holders Node.nParent (fun _ => true)
      ((s.setRefs p (· - 1)).nodes.delete a) b + clients s b
    rw [bump_nRefs]
    by_cases same : b = p
    · rw [if_pos same]
      rw [if_pos same.symm] at fewer
      omega
    · rw [if_neg same]
      rw [if_neg (Ne.symm same)] at fewer
      omega
  · have found' := (look b).symm.trans found'
    split_ifs at found' with other
    obtain ⟨m', before, rfl⟩ := Option.map_eq_some_iff.mp found'
    rw [bump_nParent] at up
    show ((s.setRefs p (· - 1)).nodes.delete a).lookup q ≠ none
    rw [look]
    have child : 0 < children s q := Srv.holders_pos _ before rfl up
    rw [if_neg fun same : q = a => by rw [same] at child; omega, Ne, Option.map_eq_none_iff]
    exact intact.parent b m' q before up
  · obtain ⟨r, found', top, stays⟩ := intact.root
    refine ⟨bump p (· - 1) rootnode r, ?_, bump_nParent.trans top, bump_nDeleted.trans stays⟩
    refine (look rootnode).trans ?_
    rw [if_neg, found']
    · rfl
    · intro same
      rw [same, there] at found'
      obtain rfl := Option.some.inj found'
      rw [top] at inner
      cases inner
  · have found' := (look b).symm.trans found'
    split_ifs at found' with other
    obtain ⟨m', before, rfl⟩ := Option.map_eq_some_iff.mp found'
    rw [bump_nParent] at up
    exact intact.rooted b m' before up
  · show ((s.setRefs p (· - 1)).nodes.delete a).lookup g.fNode ≠ none
    have client : s.filehash.lookup k = some g := client
    rw [look]
    have used : 0 < clients s g.fNode := Srv.holders_pos _ client rfl rfl
    rw [if_neg fun same : g.fNode = a => by rw [same] at used; omega, Ne, Option.map_eq_none_iff]
    exact intact.positioned k g client
  · have ledger : Srv.Ledger (s.setRefs p (· - 1)).nodes s.made s.freed :=
      intact.ledger.modify p fun m => { m with nRefs := m.nRefs - 1 }
    exact ledger.free keys here

/-! ## Removed nodes -/

/-- A node that was removed is still in use. -/
def Pending (s : State) : Prop :=
  ∀ b n, s.nodes.lookup b = some n → n.nDeleted = true → 2 ≤ n.nRefs

/-- A request that removes a node. -/
def Removes (s : State) (a : Action) (b : ULong) : Prop :=
  ∃ h name f n, a = .remove h name ∧ s.filehash.lookup h = some f ∧
    s.lookup f.fNode name = some (b, n)

/-- What a request does to the nodes: one that goes was removed, now or before; one whose removal
is accepted goes or is marked, and a mark stays; and an open does not get to a marked one. -/
structure Served (s : State) (a : Action) (t : State) (r : Reply) : Prop where
  gone : ∀ b n, s.nodes.lookup b = some n → t.nodes.lookup b = none →
    n.nDeleted = true ∨ Removes s a b
  marked : ∀ b, Removes s a b → r = .ok →
    t.nodes.lookup b = none ∨ ∃ n, t.nodes.lookup b = some n ∧ n.nDeleted = true
  stays : ∀ b n n', s.nodes.lookup b = some n → t.nodes.lookup b = some n' →
    n.nDeleted = true → n'.nDeleted = true
  found : ∀ h name mArg f n, a = .open_ h name mArg → r = .ok → t.filehash.lookup h = some f →
    s.nodes.lookup f.fNode = some n → n.nDeleted = false

/-- The condition on a request: an open does not find a removed node, and a client that leaves a
removed node last does not leave a removed directory with nothing else in it. -/
def Fits (s : State) (label : Outcome × Action) : Prop :=
  match label.2 with
  | .open_ h name _ => ∀ f a n, s.filehash.lookup h = some f →
      s.lookup f.fNode name = some (a, n) → n.nDeleted = false
  | .disconnect h => ∀ f n p parent, s.filehash.lookup h = some f →
      s.nodes.lookup f.fNode = some n → n.nDeleted = true → n.nRefs = 2 →
      n.nParent = some p → s.nodes.lookup p = some parent → parent.nDeleted = true →
      parent.nRefs ≠ 2
  | _ => True

/-- What is shown of a request. -/
def Goes (s : State) (label : Outcome × Action) : Prop :=
  ∃ t r, s.exec label.1 label.2 = .ok (t, r) ∧ Intact t ∧
    (Fits s label → Pending s → Pending t ∧ Served s label.2 t r)

/-- A node that `lookup` finds. -/
theorem lookup_spec (intact : Intact s) {name : List UChar} (found : s.lookup p name = some (a, n)) :
    s.nodes.lookup a = some n ∧ n.nParent = some p ∧ n.nName = name := by
  have named := List.find?_some found
  have member := List.mem_of_find?_eq_some found
  rw [State.elems, List.mem_filter, List.mem_reverse] at member
  exact ⟨intact.nodeKeys.lookup_of_mem member.1, by simpa using member.2, by simpa using named⟩

/-- A request that is refused. -/
theorem goes_refused {t : State} (intact : Intact t) (nodes : t.nodes = s.nodes)
    {label : Outcome × Action} {e : FsErr}
    (done : s.exec label.1 label.2 = .ok (t, .err e)) : Goes s label := by
  refine ⟨t, .err e, done, intact, fun _ pending => ⟨?_, ?_, ?_, ?_, ?_⟩⟩
  · rw [Pending, nodes]
    exact pending
  · intro b n found gone
    rw [nodes, found] at gone
    cases gone
  · intro b _ ok
    cases ok
  · intro b n n' found found' yes
    rw [nodes, found] at found'
    exact Option.some.inj found' ▸ yes
  · intro h name mArg f n _ ok
    cases ok

theorem goes_same (intact : Intact s) {label : Outcome × Action} {e : FsErr}
    (done : s.exec label.1 label.2 = .ok (s, .err e)) : Goes s label :=
  goes_refused intact rfl done

/-- Nodes that change where they are, with their marks. -/
theorem served_update {t : State} {act : Action} {change : ULong → Node → Node} {r : Reply}
    (look : ∀ b, t.nodes.lookup b = (s.nodes.lookup b).map (change b))
    (kept : ∀ b n, (change b n).nDeleted = n.nDeleted) (other : ∀ b, ¬Removes s act b)
    (found : ∀ h name mArg f n, act = .open_ h name mArg → r = .ok →
      t.filehash.lookup h = some f → s.nodes.lookup f.fNode = some n → n.nDeleted = false) :
    Served s act t r := by
  refine ⟨fun b n there gone => ?_, fun b removes => absurd removes (other b),
    fun b n n' there there' yes => ?_, found⟩
  · rw [look, there] at gone
    cases gone
  · rw [look, there] at there'
    obtain rfl := Option.some.inj there'
    exact (kept b n).trans yes

/-- What is removed still is in use: its count did not fall, or something points at it. -/
theorem Pending.of {t : State} (intact : Intact t) (uses : ∀ b n, t.nodes.lookup b = some n →
    n.nDeleted = true → 2 ≤ n.nRefs ∨ 0 < children t b ∨ 0 < clients t b) : Pending t := by
  intro b n found yes
  have refs := intact.refs b n found
  have used := uses b n found yes
  omega

/-- A client that is known is at a node that is there. -/
theorem Intact.at_node (intact : Intact s) (known : s.filehash.lookup h ≠ none) :
    ∃ f n, s.filehash.lookup h = some f ∧ s.nodes.lookup f.fNode = some n := by
  obtain ⟨f, client⟩ := Option.ne_none_iff_exists'.mp known
  obtain ⟨n, there⟩ := Option.ne_none_iff_exists'.mp (intact.positioned h f client)
  exact ⟨f, n, client, there⟩

theorem not_removes {act : Action} (other : ∀ h name, act ≠ .remove h name) (b : ULong) :
    ¬Removes s act b := by
  rintro ⟨h, name, -, -, is, -⟩
  exact other h name is

/-- A client comes to a node, as a connect and a duplicate do. -/
theorem goes_arrive (intact : Intact s) {label : Outcome × Action}
    (fresh : s.filehash.lookup h = none) (there : s.nodes.lookup f.fNode ≠ none)
    (done : s.exec label.1 label.2 = .ok (({ s with
      filehash := s.filehash.insert h f }).setRefs f.fNode (· + 1), .ok))
    (plain : (∀ h name, label.2 ≠ .remove h name) ∧ ∀ h name mArg, label.2 ≠ .open_ h name mArg) :
    Goes s label := by
  refine ⟨_, _, done, intact.arrive fresh there, fun _ pending => ⟨?_, ?_⟩⟩
  · intro b n found yes
    rw [lookup_setRefs] at found
    obtain ⟨n', before, rfl⟩ := Option.map_eq_some_iff.mp found
    rw [bump_nDeleted] at yes
    have used := pending b n' before yes
    rw [bump_nRefs]
    split_ifs <;> omega
  · exact served_update (fun b => lookup_setRefs) (fun _ _ => bump_nDeleted)
      (not_removes plain.1) fun h name mArg f n is => absurd is (plain.2 h name mArg)

theorem goes_connect (intact : Intact s) (x : Outcome) (mArg : ULong)
    (fresh : s.filehash.lookup h = none) : Goes s (x, .connect h mArg) := by
  by_cases refused : (!x.client || !canAccess x.perm mArg || !x.slot) = true
  · obtain ⟨e, done⟩ : ∃ e, s.exec x (.connect h mArg) = .ok (s, .err e) := by
      simp only [State.exec, State.newClient]
      split_ifs with client access slot
      · exact ⟨_, rfl⟩
      · exact ⟨_, rfl⟩
      · exact ⟨_, rfl⟩
      · simp [client, access, slot] at refused
    exact goes_same intact done
  · obtain ⟨r, root, -, -⟩ := intact.root
    refine goes_arrive (f := ⟨rootnode, x.perm⟩) intact fresh
      (by rw [root]; exact Option.some_ne_none _) ?_ ⟨nofun, nofun⟩
    simp only [Bool.or_eq_true, not_or] at refused
    simp only [State.exec, State.newClient]
    rw [if_neg refused.1.1, if_neg refused.1.2, if_neg refused.2]

theorem goes_dup (intact : Intact s) (x : Outcome) {mArg : Handle}
    (known : s.filehash.lookup h ≠ none) (fresh : s.filehash.lookup mArg = none) :
    Goes s (x, .dup h mArg) := by
  obtain ⟨f, n, client, there⟩ := intact.at_node known
  by_cases refused : (!x.client || !x.slot) = true
  · obtain ⟨e, done⟩ : ∃ e, s.exec x (.dup h mArg) = .ok (s, .err e) := by
      simp only [State.exec, State.dupClient, State.file, client, bind, Except.bind]
      split_ifs with struct slot
      · exact ⟨_, rfl⟩
      · exact ⟨_, rfl⟩
      · simp [struct, slot] at refused
    exact goes_same intact done
  · refine goes_arrive intact fresh (by rw [there]; exact Option.some_ne_none _) ?_ ⟨nofun, nofun⟩
    simp only [Bool.or_eq_true, not_or] at refused
    simp only [State.exec, State.dupClient, State.file, client, bind, Except.bind]
    rw [if_neg refused.1, if_neg refused.2]

/-- What an open comes to. -/
theorem exec_open (x : Outcome) (name : List UChar) (mArg : ULong)
    (client : s.filehash.lookup h = some f) (there : s.nodes.lookup f.fNode = some n) :
    s.exec x (.open_ h name mArg) = if !n.nInternal then .ok (s, .err .EINVAL)
      else match s.lookup f.fNode name with
        | some (a, _) =>
            if !canAccess x.perm mArg then .ok (s, .err .EPERM)
            else .ok (((s.setRefs f.fNode (· - 1)).setFile h a x.perm).setRefs a (· + 1), .ok)
        | none =>
            if !has mArg ACC_CREATE then .ok (s, .err .ESRCH)
            else if !has f.fMode ACC_WRITE then .ok (s, .err .EPERM)
            else match x.node with
              | none => .ok (s, .err .ENOMEM)
              | some a =>
                  if !x.entry then
                    .ok ({ s with made := a :: s.made, freed := a :: s.freed }, .err .ENOMEM)
                  else
                    .ok (({ s with
                      nodes := s.nodes.insert a ⟨name, has mArg ACC_DIR, false, 2, some f.fNode⟩
                      made := a :: s.made }).setFile h a f.fMode, .ok) := by
  simp only [State.exec, State.namerOpen, State.file, State.node, client, there, bind,
    Except.bind] <;> rfl

/-- **An open walks to a node that is there, or makes one.** -/
theorem goes_open (intact : Intact s) (x : Outcome) (name : List UChar) (mArg : ULong)
    (known : s.filehash.lookup h ≠ none)
    (memory : ∀ a, x.node = some a → s.nodes.lookup a = none) :
    Goes s (x, .open_ h name mArg) := by
  have other : ∀ b, ¬Removes s (.open_ h name mArg) b := not_removes nofun
  obtain ⟨f, parent, client, there⟩ := intact.at_node known
  have run := exec_open x name mArg client there
  by_cases leaf : (!parent.nInternal) = true
  · rw [if_pos leaf] at run
    exact goes_same intact run
  · rw [if_neg leaf] at run
    cases look : s.lookup f.fNode name with
    | some found =>
        obtain ⟨a, n⟩ := found
        simp only [look] at run
        by_cases denied : (!canAccess x.perm mArg) = true
        · rw [if_pos denied] at run
          exact goes_same intact run
        · rw [if_neg denied] at run
          obtain ⟨here, up, -⟩ := lookup_spec intact look
          have walked := intact.walk client (by rw [here]; exact Option.some_ne_none n) x.perm
          have nodes : ∀ b,
              (((s.setRefs f.fNode (· - 1)).setFile h a x.perm).setRefs a (· + 1)).nodes.lookup b =
                (s.nodes.lookup b).map fun n => bump a (· + 1) b (bump f.fNode (· - 1) b n) := by
            intro b
            rw [lookup_setRefs, setFile_nodes, lookup_setRefs, Option.map_map]
            rfl
          refine ⟨_, _, run, walked, fun fits pending => ⟨.of walked fun b m found yes => ?_, ?_⟩⟩
          · rw [nodes] at found
            obtain ⟨m', before, rfl⟩ := Option.map_eq_some_iff.mp found
            rw [bump_nDeleted, bump_nDeleted] at yes
            have used := pending b m' before yes
            by_cases left : b = f.fNode
            · have child : 0 < children s b := Srv.holders_pos _ here rfl (left ▸ up)
              exact .inr (.inl (by simpa using child))
            · rw [bump_nRefs, bump_nRefs, if_neg left]
              refine .inl ?_
              split_ifs <;> omega
          · refine served_update nodes (fun _ _ => by rw [bump_nDeleted, bump_nDeleted])
              other fun k name' _ g m is _ client' before => ?_
            obtain ⟨rfl, rfl, rfl⟩ : h = k ∧ name = name' ∧ _ := by simpa using is
            have at_ : (s.filehash.modify h fun _ => ⟨a, x.perm⟩).lookup h = some g := client'
            rw [Hash.lookup_modify, if_pos rfl, client] at at_
            obtain rfl := Option.some.inj at_
            rw [here] at before
            obtain rfl := Option.some.inj before
            exact fits f a n client look
    | none =>
        simp only [look] at run
        by_cases plain : (!has mArg ACC_CREATE) = true
        · rw [if_pos plain] at run
          exact goes_same intact run
        · rw [if_neg plain] at run
          by_cases denied : (!has f.fMode ACC_WRITE) = true
          · rw [if_pos denied] at run
            exact goes_same intact run
          · rw [if_neg denied] at run
            cases memory_ : x.node with
            | none =>
                simp only [memory_] at run
                exact goes_same intact run
            | some a =>
                simp only [memory_] at run
                have fresh := memory a memory_
                by_cases list : (!x.entry) = true
                · rw [if_pos list] at run
                  exact goes_refused (s := s)
                    (t := { s with made := a :: s.made, freed := a :: s.freed }) ⟨intact.nodeKeys, intact.clientKeys, intact.refs, intact.parent, intact.root,
                      intact.rooted, intact.positioned, intact.ledger.undo a⟩ rfl run
                · rw [if_neg list] at run
                  have made := intact.create client fresh name (has mArg ACC_DIR) f.fMode
                  have look : ∀ b, (s.nodes.insert a
                      ⟨name, has mArg ACC_DIR, false, 2, some f.fNode⟩).lookup b = if b = a then
                        some ⟨name, has mArg ACC_DIR, false, 2, some f.fNode⟩
                      else s.nodes.lookup b := fun b => Hash.lookup_insert ..
                  refine ⟨_, _, run, made, fun _ pending => ⟨fun b m found yes => ?_, ?_⟩⟩
                  · rw [setFile_nodes, look] at found
                    split_ifs at found
                    · obtain rfl := Option.some.inj found
                      cases yes
                    · exact pending b m found yes
                  · refine ⟨fun b m before gone => ?_,
                      fun b removes => absurd removes (other b),
                      fun b m m' before after yes => ?_,
                      fun k name' _ g m is _ client' before => ?_⟩
                    · rw [setFile_nodes, look] at gone
                      split_ifs at gone
                      rw [before] at gone
                      cases gone
                    · rw [setFile_nodes, look] at after
                      split_ifs at after with here
                      · rw [here, fresh] at before
                        cases before
                      · rw [before] at after
                        exact Option.some.inj after ▸ yes
                    · obtain ⟨rfl, rfl, rfl⟩ : h = k ∧ name = name' ∧ _ := by simpa using is
                      have at_ : (s.filehash.modify h fun _ => ⟨a, f.fMode⟩).lookup h = some g :=
                        client'
                      rw [Hash.lookup_modify, if_pos rfl, client] at at_
                      obtain rfl := Option.some.inj at_
                      rw [fresh] at before
                      cases before

/-- What a removal comes to. -/
theorem exec_remove (x : Outcome) (name : List UChar)
    (client : s.filehash.lookup h = some f) (there : s.nodes.lookup f.fNode = some n) :
    s.exec x (.remove h name) = if !n.nInternal then .ok (s, .err .EINVAL)
      else if !has f.fMode ACC_WRITE then .ok (s, .err .EPERM)
      else match s.lookup f.fNode name with
        | none => .ok (s, .err .ESRCH)
        | some (a, n2) =>
            if 1 < n2.nRefs then
              .ok ({ s with nodes := s.nodes.modify a fun n => { n with nDeleted := true } }, .ok)
            else if n2.nRefs = 1 ∧ 2 < n.nRefs then (s.deleteNode a).bind fun t => .ok (t, .ok)
            else .error .assfail := by
  simp only [State.exec, State.namerRemove, State.file, State.node, client, there, bind,
    Except.bind] <;> rfl

/-- **A node that is removed is marked, or goes at once.** -/
theorem goes_remove (intact : Intact s) (x : Outcome) (name : List UChar)
    (known : s.filehash.lookup h ≠ none) : Goes s (x, .remove h name) := by
  obtain ⟨f, dir, client, there⟩ := intact.at_node known
  have run := exec_remove x name client there
  by_cases leaf : (!dir.nInternal) = true
  · rw [if_pos leaf] at run
    exact goes_same intact run
  · rw [if_neg leaf] at run
    by_cases denied : (!has f.fMode ACC_WRITE) = true
    · rw [if_pos denied] at run
      exact goes_same intact run
    · rw [if_neg denied] at run
      cases look : s.lookup f.fNode name with
      | none =>
          simp only [look] at run
          exact goes_same intact run
      | some found =>
          obtain ⟨a, n2⟩ := found
          simp only [look] at run
          obtain ⟨here, up, -⟩ := lookup_spec intact look
          have removes : ∀ b, Removes s (.remove h name) b ↔ b = a := by
            intro b
            constructor
            · rintro ⟨k, other, g, m, is, client', look'⟩
              obtain ⟨rfl, rfl⟩ : h = k ∧ name = other := by simpa using is
              rw [client] at client'
              obtain rfl := Option.some.inj client'
              rw [look] at look'
              exact (congrArg Prod.fst (Option.some.inj look')).symm
            · rintro rfl
              exact ⟨h, name, f, n2, rfl, client, look⟩
          have count := intact.refs a n2 here
          have inner : a ≠ rootnode := by
            rintro rfl
            obtain ⟨r, root, top, -⟩ := intact.root
            rw [root] at here
            obtain rfl := Option.some.inj here
            rw [top] at up
            cases up
          by_cases busy : 1 < n2.nRefs
          · rw [if_pos busy] at run
            have look' : ∀ b, (s.nodes.modify a fun n => { n with nDeleted := true }).lookup b =
                if b = a then some { n2 with nDeleted := true } else s.nodes.lookup b := by
              intro b
              rw [Hash.lookup_modify, here]
              rfl
            refine ⟨_, _, run, intact.mark inner, fun _ pending => ⟨fun b m found yes => ?_, ?_⟩⟩
            · have found := (look' b).symm.trans found
              split_ifs at found
              · obtain rfl := Option.some.inj found
                exact busy
              · exact pending b m found yes
            · refine ⟨fun b m before gone => ?_, fun b removed _ => .inr ?_,
                fun b m m' before after yes => ?_, fun _ _ _ _ _ is => by cases is⟩
              · have gone := (look' b).symm.trans gone
                split_ifs at gone
                rw [before] at gone
                cases gone
              · obtain rfl := (removes b).mp removed
                exact ⟨_, (look' b).trans (if_pos rfl), rfl⟩
              · have after := (look' b).symm.trans after
                split_ifs at after
                · obtain rfl := Option.some.inj after
                  rfl
                · rw [before] at after
                  exact Option.some.inj after ▸ yes
          · rw [if_neg busy] at run
            -- the directory has its entry, this node and the client
            have used : 0 < children s f.fNode ∧ 0 < clients s f.fNode :=
              ⟨Srv.holders_pos _ here rfl up, Srv.holders_pos _ client rfl rfl⟩
            have above := intact.refs _ dir there
            rw [if_pos (by omega)] at run
            obtain ⟨t, deleted, intact', files, look'⟩ := intact.delete here (by omega) up
            rw [deleted] at run
            refine ⟨t, .ok, run, intact', fun _ pending => ⟨.of intact' fun b m found yes => ?_, ?_⟩⟩
            · rw [look'] at found
              split_ifs at found
              obtain ⟨m', before, rfl⟩ := Option.map_eq_some_iff.mp found
              rw [bump_nDeleted] at yes
              have busy := pending b m' before yes
              rw [bump_nRefs]
              split_ifs with parent
              · refine .inr (.inr ?_)
                rw [clients, files, parent]
                exact used.2
              · exact .inl busy
            · refine ⟨fun b m before gone => ?_, fun b removed _ => .inl ?_,
                fun b m m' before after yes => ?_, fun _ _ _ _ _ is => by cases is⟩
              · rw [look', before] at gone
                split_ifs at gone with same
                · exact .inr ((removes b).mpr same)
                · cases gone
              · rw [look', if_pos ((removes b).mp removed)]
              · rw [look', before] at after
                split_ifs at after
                obtain rfl := Option.some.inj after
                rw [bump_nDeleted]
                exact yes

/-- **A client that leaves a removed node last frees it.** -/
theorem goes_disconnect (intact : Intact s) (x : Outcome) (known : s.filehash.lookup h ≠ none) :
    Goes s (x, .disconnect h) := by
  obtain ⟨f, n, client, there⟩ := intact.at_node known
  have left := intact.leave client
  generalize left_ :
    ({ s with filehash := s.filehash.delete h } : State).setRefs f.fNode (· - 1) = u at left
  have look : ∀ b, u.nodes.lookup b = (s.nodes.lookup b).map (bump f.fNode (· - 1) b) := by
    intro b
    rw [← left_, lookup_setRefs]
  have here : u.nodes.lookup f.fNode = some (bump f.fNode (· - 1) f.fNode n) := by
    rw [look, there]
    rfl
  have fewer : (bump f.fNode (· - 1) f.fNode n).nRefs = n.nRefs - 1 := by
    rw [bump_nRefs, if_pos rfl]
  have run : s.exec x (.disconnect h) =
      if n.nRefs - 1 < 2 ∧ n.nDeleted then (u.deleteNode f.fNode).bind fun t => .ok (t, .ok)
      else .ok (u, .ok) := by
    simp only [State.exec, State.deadClient, State.file, client, bind, Except.bind, left_,
      State.node, here, fewer, bump_nDeleted]
  have used : 0 < clients s f.fNode := Srv.holders_pos _ client rfl rfl
  have count := intact.refs _ n there
  have other : ∀ b, ¬Removes s (.disconnect h) b := not_removes nofun
  by_cases last : n.nRefs - 1 < 2 ∧ n.nDeleted = true
  · rw [if_pos last] at run
    have inner : n.nParent ≠ none := by
      intro top
      obtain ⟨r, root, -, stays⟩ := intact.root
      rw [intact.rooted _ n there top, root] at there
      obtain rfl := Option.some.inj there
      rw [last.2] at stays
      cases stays
    obtain ⟨p, up⟩ := Option.ne_none_iff_exists'.mp inner
    obtain ⟨parent, above⟩ := Option.ne_none_iff_exists'.mp (intact.parent _ n p there up)
    have one : (bump f.fNode (· - 1) f.fNode n).nRefs = 1 := by
      have counted := left.refs _ _ here
      omega
    obtain ⟨t, deleted, intact', files, look'⟩ := left.delete here one (bump_nParent.trans up)
    rw [deleted] at run
    have after : ∀ b m, t.nodes.lookup b = some m → ∃ m', s.nodes.lookup b = some m' ∧
        b ≠ f.fNode ∧ m = bump p (· - 1) b (bump f.fNode (· - 1) b m') := by
      intro b m found
      rw [look'] at found
      split_ifs at found with gone
      obtain ⟨m', before, rfl⟩ := Option.map_eq_some_iff.mp found
      rw [look] at before
      obtain ⟨m'', first, rfl⟩ := Option.map_eq_some_iff.mp before
      exact ⟨m'', first, gone, rfl⟩
    refine ⟨t, .ok, run, intact', fun fits pending => ⟨fun b m found yes => ?_, ?_⟩⟩
    · obtain ⟨m', before, apart, rfl⟩ := after b m found
      rw [bump_nDeleted, bump_nDeleted] at yes
      have busy := pending b m' before yes
      rw [bump_nRefs, bump_nRefs, if_neg apart]
      split_ifs with same
      · subst same
        have more := fits f n b m' client there last.2 (by omega) up before yes
        omega
      · exact busy
    · refine ⟨fun b m before gone => .inl ?_, fun b removes => absurd removes (other b),
        fun b m m' before found yes => ?_, fun _ _ _ _ _ is => absurd is nofun⟩
      · rw [look', look, before] at gone
        split_ifs at gone with same
        · rw [same, there] at before
          obtain rfl := Option.some.inj before
          exact last.2
        · cases gone
      · obtain ⟨m'', before', -, rfl⟩ := after b m' found
        rw [before] at before'
        obtain rfl := Option.some.inj before'
        rw [bump_nDeleted, bump_nDeleted]
        exact yes
  · rw [if_neg last] at run
    refine ⟨u, .ok, run, left, fun _ pending => ⟨fun b m found yes => ?_, ?_⟩⟩
    · rw [look] at found
      obtain ⟨m', before, rfl⟩ := Option.map_eq_some_iff.mp found
      rw [bump_nDeleted] at yes
      have busy := pending b m' before yes
      rw [bump_nRefs]
      split_ifs with same
      · rw [same, there] at before
        obtain rfl := Option.some.inj before
        have still := mt (fun few => (⟨few, yes⟩ : n.nRefs - 1 < 2 ∧ n.nDeleted = true)) last
        omega
      · exact busy
    · exact served_update look (fun _ _ => bump_nDeleted) other fun _ _ _ _ _ is =>
        absurd is nofun

/-- **Every request goes through.** -/
theorem exec_spec (intact : Intact s) {label : Outcome × Action} (legal : Legal s label) :
    Goes s label := by
  obtain ⟨x, act⟩ := label
  obtain ⟨memory, known⟩ := legal
  cases act with
  | connect h mArg => exact goes_connect intact x mArg known
  | dup h mArg => exact goes_dup intact x known.1 known.2
  | open_ h name mArg => exact goes_open intact x name mArg known memory
  | remove h name => exact goes_remove intact x name known
  | disconnect h => exact goes_disconnect intact x known

theorem lookup_start : start.nodes.lookup a =
    if a = rootnode then some ⟨[0x2F], true, false, 1, none⟩ else none :=
  Hash.lookup_insert [] rootnode _ a

theorem start_intact : Intact start := by
  refine ⟨List.nodup_singleton _, List.nodup_nil, fun a n found => ?_, fun a n p found up => ?_,
    ⟨_, rfl, rfl, rfl⟩, fun a n found _ => ?_, nofun, fun a => ?_⟩
  · rw [lookup_start] at found
    split_ifs at found
    obtain rfl := Option.some.inj found
    rfl
  · rw [lookup_start] at found
    split_ifs at found
    obtain rfl := Option.some.inj found
    cases up
  · rw [lookup_start] at found
    split_ifs at found with top
    exact top
  · have nothing : Srv.Ledger ([] : Hash Node) [] [] := fun _ => rfl
    exact nothing.alloc rfl _ a

theorem start_pending : Pending start := by
  intro a n found yes
  rw [lookup_start] at found
  split_ifs at found
  obtain rfl := Option.some.inj found
  cases yes

/-- The invariant of runs of requests that meet the condition. -/
structure Sound (s : State) : Prop where
  intact : Intact s
  pending : Pending s

instance (label : Outcome × Action) : Decidable (Legal s label) := by
  unfold Legal
  have memory : Decidable (∀ a, label.1.node = some a → s.nodes.lookup a = none) :=
    match label.1.node with
    | none => .isTrue nofun
    | some b => decidable_of_iff (s.nodes.lookup b = none)
        ⟨fun free a is => Option.some.inj is ▸ free, fun all => all b rfl⟩
  split <;> infer_instance

/-- A request that meets the condition, as far as it can be seen from the nodes it is about. -/
def fitting (s : State) (label : Outcome × Action) : Bool :=
  match label.2 with
  | .open_ h name _ => (s.filehash.lookup h).all fun f =>
      (s.lookup f.fNode name).all fun found => !found.2.nDeleted
  | .disconnect h => (s.filehash.lookup h).all fun f =>
      (s.nodes.lookup f.fNode).all fun n => n.nParent.all fun p =>
        (s.nodes.lookup p).all fun parent => !parent.nDeleted
  | _ => true

theorem fits_of_fitting (label : Outcome × Action) (good : fitting s label = true) :
    Fits s label := by
  obtain ⟨x, act⟩ := label
  cases act with
  | open_ h name mArg =>
      intro f a n client found
      simpa [fitting, client, found] using good
  | disconnect h =>
      intro f n p parent client there _ _ up above yes
      simp [fitting, client, there, up, above, yes] at good
  | connect h mArg => trivial
  | dup h mArg => trivial
  | remove h name => trivial

/-- What a request that goes through leaves. -/
def next (s : State) (label : Outcome × Action) : Option State :=
  (s.exec label.1 label.2).toOption.map Prod.fst

theorem step_of_next {label : Outcome × Action} {t : State} (legal : Legal s label)
    (taken : next s label = some t) : Step s label t := by
  refine ⟨legal, ?_⟩
  rw [next] at taken
  cases done : s.exec label.1 label.2 with
  | error fault =>
      rw [done] at taken
      cases taken
  | ok result =>
      rw [done] at taken
      obtain rfl := Option.some.inj taken
      exact ⟨result.2, rfl⟩

/-- A request that is granted, with memory for a node at an address. -/
def granted (a : ULong) : Outcome :=
  ⟨ACC_READ ||| ACC_WRITE ||| ACC_CHMOD, true, true, some a, true⟩

/-- A client makes a file, and another one removes it. -/
def removal : List (Outcome × Action) :=
  [(granted 0x2000, .connect 1 0x6), (granted 0x2000, .open_ 1 [0x61] 0x16),
    (granted 0x3000, .connect 2 0x6), (granted 0x3000, .remove 2 [0x61])]

/-- The tree after that. -/
def busy : State :=
  ⟨[(0x2000, ⟨[0x61], false, true, 2, some rootnode⟩), (rootnode, ⟨[0x2F], true, false, 3, none⟩)],
    [(2, ⟨rootnode, 0x46⟩), (1, ⟨0x2000, 0x46⟩)], [0x2000, rootnode], []⟩

theorem busy_run : Transition.Reaches Step Fits start busy :=
  (Transition.Reaches.refl start).followed
    (fun s label good => fits_of_fitting label (Bool.and_eq_true _ _ ▸ good).2)
    (fun s label t good => step_of_next (of_decide_eq_true (Bool.and_eq_true _ _ ▸ good).1))
    (show Transition.follow next (fun s l => decide (Legal s l) && fitting s l) start removal =
      some busy from rfl)

/-- A file is made in a directory and both are removed, while there is a client at the file. -/
def emptied : List (Outcome × Action) :=
  [(granted 0x2000, .connect 1 0x6), (granted 0x2000, .open_ 1 [0x64] 0x36),
    (granted 0x3000, .open_ 1 [0x61] 0x16), (granted 0x4000, .connect 2 0x6),
    (granted 0x4000, .open_ 2 [0x64] 0x6), (granted 0x4000, .remove 2 [0x61]),
    (granted 0x4000, .disconnect 2), (granted 0x4000, .connect 3 0x6),
    (granted 0x4000, .remove 3 [0x64])]

end Vsta.Namer
