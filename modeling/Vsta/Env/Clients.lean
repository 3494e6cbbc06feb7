import Vsta.Env.Tree

/-!
# The clients of the environment server

Where the clients are, what holds between requests (`Intact`), the condition on requests (`Fits`),
and what a request that goes through makes of the directories (`after`). A client that gives up a
pointer and takes another one keeps the counts (`swap_spec`).
-/

set_option autoImplicit false

namespace Vsta.Env

open Vstafs

/-- A client is at a node in a list, at the root, or at its home. -/
def Stands (s : State) (f : File) : Prop :=
  ∃ a n, f.fNode = some a ∧ s.nodes.lookup a = some n ∧
    (n.nList = true ∨ a = rootnode ∨ f.fHome = some a)

/-- Where the clients are, and what the members of a group share. -/
structure Placed (s : State) : Prop where
  stands : ∀ h f, s.filehash.lookup h = some f → Stands s f
  share : ∀ h f k g, s.filehash.lookup h = some f → s.filehash.lookup k = some g →
    f.group = g.group → f.fHome = g.fHome
  inner : ∀ h f, s.filehash.lookup h = some f → f.fHome ≠ some rootnode
  fresh : ∀ h f, s.filehash.lookup h = some f → f.group < s.groups

/-- What holds between requests. -/
structure Intact (s : State) : Prop where
  tree : Tree s []
  vals : Vals s []
  live : ∀ a n, s.nodes.lookup a = some n → 0 < n.nRefs
  placed : Placed s

/-- A request makes a node: in a directory, where none is found under the name. -/
def Makes (s : State) (f : File) (name : List UChar) (mArg : ULong) : Prop :=
  (∀ a n, f.fNode = some a → s.nodes.lookup a = some n → n.nInternal = true) ∧
  name.length < NAMESZ ∧ has mArg ACC_CREATE = true ∧ has f.fMode ACC_WRITE = true ∧
  if name = homeName then f.fHome = none else s.lookup f.fNode name false = .ok none

/-- The condition on a request: there is memory for a node that is made and for its place in a list,
and for the place of each copy; and the last member of a group that goes has no home. -/
def Fits (s : State) (label : Outcome × Action) : Prop :=
  match label.2 with
  | .open_ h name mArg => ∀ f, s.filehash.lookup h = some f → Makes s f name mArg →
      label.1.node ≠ none ∧ (name ≠ homeName → label.1.entry = true)
  | .fork h => ∀ f, s.filehash.lookup h = some f → f.fHome ≠ none → label.1.clone ≠ none →
      ∀ b, some b ∈ label.1.copies → label.1.copyEntry b = true
  | .disconnect h => ∀ f, s.filehash.lookup h = some f → f.fHome ≠ none →
      ∃ k g, k ≠ h ∧ s.filehash.lookup k = some g ∧ g.group = f.group
  | _ => True

/-! ## What a request makes of the directories -/

/-- What `alloc_val` leaves in memory. -/
def Outcome.text (x : Outcome) : Option (List UChar) :=
  x.str.bind fun _ => x.sval.map fun byte => [byte]

/-- What a node is when it is made. -/
def Outcome.made (x : Outcome) (mArg : ULong) : Var :=
  if has mArg ACC_DIR then .dir else .file x.text

/-- The entry of a name in a directory. -/
def State.entry (s : State) (a : ULong) (name : List UChar) : Option (ULong × Node) :=
  (s.elems a).find? fun node => node.2.nName = name

/-- What `env_open` with `ACC_CREATE` finds under a name. -/
def State.found (s : State) (f : File) (a : ULong) (name : List UChar) : Option (ULong × Node) :=
  if name = homeName then f.fHome.bind fun b => (s.nodes.lookup b).map fun m => (b, m)
  else s.entry a name

/-- The node a request makes, empties or removes, and its entry afterwards. -/
def touched (s : State) (x : Outcome) : Action → Option (ULong × Option Leaf)
  | .open_ h name mArg => do
      let f ← s.filehash.lookup h
      let a ← f.fNode
      let n ← s.nodes.lookup a
      if !n.nInternal || NAMESZ ≤ name.length || !has mArg ACC_CREATE then none
      else match s.found f a name with
        | some (b, m) =>
            if canAccess x.perm mArg && !m.nInternal then
              some (b, (leaf s b).map fun l => (l.1, l.2.1, .file x.text))
            else none
        | none =>
            if has f.fMode ACC_WRITE && name ≠ homeName then
              x.node.map fun b => (b, some (a, name, x.made mArg))
            else none
  | .remove h name => do
      let f ← s.filehash.lookup h
      let a ← f.fNode
      let n ← s.nodes.lookup a
      if !n.nInternal || !has f.fMode ACC_WRITE then none
      else
        let (b, m) ← s.entry a name
        if 1 < m.nRefs then none else some (b, none)
  | _ => none

/-- The copies that `clone_node` puts in a home. -/
def copied (s : State) (a : ULong) :
    Hash Node → List (Option ULong) → (ULong → Option Leaf) → ULong → Option Leaf
  | [], _, leaves => leaves
  | (_, n2) :: rest, copies, leaves =>
      if n2.nInternal then copied s a rest copies leaves
      else match copies with
        | [] => leaves
        | none :: copies => copied s a rest copies leaves
        | some b :: copies =>
            copied s a rest copies (Function.update leaves b (some (a, n2.nName, var s n2)))

/-- One node is touched, or none. -/
def touch (leaves : ULong → Option Leaf) : Option (ULong × Option Leaf) → ULong → Option Leaf
  | some (b, l) => Function.update leaves b l
  | none => leaves

/-- The directories after a request. -/
def after (s : State) (x : Outcome) : Action → ULong → Option Leaf
  | .fork h => match (s.filehash.lookup h).bind File.fHome, x.clone with
      | some old, some a => copied s a (s.elems old) x.copies (leaf s)
      | _, _ => leaf s
  | act => touch (leaf s) (touched s x act)

/-- What is shown of a request: it goes through, and this is what becomes of the directories. -/
def Shown (s : State) (label : Outcome × Action) (leaves : ULong → Option Leaf) : Prop :=
  ∃ t r, s.exec label.1 label.2 = .ok (t, r) ∧ Intact t ∧ leaf t = leaves

variable {s t u : State} {hand vals : List ULong} {a b p : ULong} {n : Node} {h k : Handle}
  {f g : File} {o : Option ULong}

/-! ## What is there after a request -/

/-- Nodes are there as before, or are new: in a list, or a certain one. -/
def Grows (new : Option ULong) (s t : State) : Prop :=
  ∀ b n, t.nodes.lookup b = some n →
    (∃ n', s.nodes.lookup b = some n' ∧ n.nList = n'.nList ∧ (0 < n'.nRefs → 0 < n.nRefs)) ∨
    (s.nodes.lookup b = none ∧ (n.nList = true ∨ new = some b))

theorem Grows.frame (grows : Grows o s t) (frame : Frame t u) : Grows o s u := by
  intro b n found
  obtain ⟨n', there, same, live⟩ := frame.core b n found
  have list : n.nList = n'.nList := by rw [same]
  rcases grows b n' there with ⟨n'', there', list', live'⟩ | ⟨fresh, spot⟩
  · exact .inl ⟨n'', there', list.trans list', fun positive => live (live' positive)⟩
  · exact .inr ⟨fresh, by rwa [list]⟩

theorem Grows.refl (s : State) : Grows o s s := fun _ n found => .inl ⟨n, found, rfl, id⟩

theorem Frame.grows (frame : Frame s t) : Grows o s t := (Grows.refl s).frame frame

/-- Every node is counted. -/
theorem Grows.live (grows : Grows o s t) (tree : Tree t [])
    (live : ∀ a n, s.nodes.lookup a = some n → 0 < n.nRefs)
    (pointed : ∀ a, o = some a → 0 < Srv.pointers File.ptrs t.filehash a) (a : ULong) (n : Node)
    (found : t.nodes.lookup a = some n) : 0 < n.nRefs := by
  have count := tree.refs a n found
  rw [named] at count
  rcases grows a n found with ⟨n', there, -, positive⟩ | ⟨-, list | is⟩
  · exact positive (live a n' there)
  · rw [list, Bool.toNat_true] at count
    omega
  · have some_ := pointed a is
    omega

/-- A client that is where it was, at a node that is still there. -/
theorem Stands.grows (stands : Stands s f) (grows : Grows o s t)
    (there : ∀ a ∈ f.ptrs, t.nodes.lookup a ≠ none) : Stands t f := by
  obtain ⟨a, n, at_, found, spot⟩ := stands
  have member : a ∈ f.ptrs := List.mem_append_left _ (by rw [at_]; exact List.mem_singleton_self a)
  obtain ⟨n', found'⟩ := Option.ne_none_iff_exists'.mp (there a member)
  refine ⟨a, n', at_, found', ?_⟩
  rcases grows a n' found' with ⟨n'', before, list, -⟩ | ⟨fresh, -⟩
  · rw [found] at before
    obtain rfl := Option.some.inj before
    rwa [list]
  · rw [found] at fresh
    cases fresh

/-- The clients are those there were, but for one that stands. -/
theorem Placed.next (placed : Placed s) (grows : Grows o s t) (tree : Tree t hand)
    (groups : s.groups ≤ t.groups)
    (others : ∀ k g, t.filehash.lookup k = some g → k ≠ h → s.filehash.lookup k = some g)
    (own : ∀ f, t.filehash.lookup h = some f → Stands t f ∧ f.fHome ≠ some rootnode ∧
      f.group < t.groups ∧
      ∀ k g, s.filehash.lookup k = some g → k ≠ h → f.group = g.group → f.fHome = g.fHome) :
    Placed t := by
  refine ⟨fun k g client => ?_, fun k g l m client client' same => ?_, fun k g client => ?_,
    fun k g client => ?_⟩
  · by_cases here : k = h
    · exact (own g (here ▸ client)).1
    · exact (placed.stands k g (others k g client here)).grows grows fun a member =>
        tree.placed k g a client member
  · by_cases first : k = h
    · by_cases second : l = h
      · rw [first] at client
        rw [second, client] at client'
        rw [Option.some.inj client']
      · exact (own g (first ▸ client)).2.2.2 l m (others l m client' second) second same
    · by_cases second : l = h
      · exact ((own m (second ▸ client')).2.2.2 k g (others k g client first) first same.symm).symm
      · exact placed.share k g l m (others k g client first) (others l m client' second) same
  · by_cases here : k = h
    · exact (own g (here ▸ client)).2.1
    · exact placed.inner k g (others k g client here)
  · by_cases here : k = h
    · exact (own g (here ▸ client)).2.2.1
    · exact (placed.fresh k g (others k g client here)).trans_le groups

theorem lookup_setFile (client : s.filehash.lookup h = some f) (g : File) (k : Handle) :
    (s.setFile h g).filehash.lookup k = if k = h then some g else s.filehash.lookup k := by
  rw [State.setFile, Hash.lookup_modify, client]
  rfl

/-- A client changes; its pointers are exchanged with the references in hand. -/
theorem Tree.setFile {hand' : List ULong} (tree : Tree s hand)
    (client : s.filehash.lookup h = some f)
    (counts : ∀ b, g.ptrs.count b + hand'.count b = f.ptrs.count b + hand.count b) :
    Tree (s.setFile h g) hand' := by
  refine tree.client (t := s.setFile h g) rfl rfl rfl (tree.clientKeys.modify h fun _ => g)
    fun b => ?_
  have moved := Srv.pointers_modify (p := File.ptrs) (a := b) tree.clientKeys client fun _ => g
  have balance := counts b
  show Srv.pointers File.ptrs (s.filehash.modify h fun _ => g) b + _ = _
  omega

theorem Vals.setFile (all : Vals s vals) (tree : Tree s hand) (h : Handle) (f : File) :
    Vals (s.setFile h f) vals :=
  all.congr tree.nodeKeys rfl rfl rfl fun _ => rfl

/-- A client gives up a pointer to a node and takes another one, to a node that stays. -/
theorem swap_spec (tree : Tree s hand) (all : Vals s vals)
    (client : s.filehash.lookup h = some f) (bare done : File) (old o : Option ULong)
    (gives : ∀ b, bare.ptrs.count b + old.toList.count b = f.ptrs.count b)
    (takes : ∀ b, done.ptrs.count b = bare.ptrs.count b + o.toList.count b)
    (stays : ∀ u, (s.setFile h bare).derefNode old = .ok u → Frame (s.setFile h bare) u →
      Tree u hand → ∀ a, o = some a → u.nodes.lookup a ≠ none) :
    ∃ t, s.swap h bare old o done = .ok t ∧ Tree t hand ∧ Vals t vals ∧
      Frame s { t with filehash := s.filehash } ∧
      ∀ k, t.filehash.lookup k = if k = h then some done else s.filehash.lookup k := by
  have loose : Tree (s.setFile h bare) (old.toList ++ hand) :=
    tree.setFile client fun b => by rw [List.count_append, ← Nat.add_assoc, gives]
  obtain ⟨u, left, tree₁, all₁, frame₁⟩ := derefNode_spec old loose (all.setFile tree h bare)
  obtain ⟨w, taken, tree₂, all₂, frame₂⟩ := refNode_spec tree₁ all₁ o
    (stays u left frame₁ tree₁)
  have files : w.filehash = (s.setFile h bare).filehash := frame₂.files.trans frame₁.files
  have client' : w.filehash.lookup h = some bare := by
    rw [files, lookup_setFile client, if_pos rfl]
  refine ⟨w.setFile h done, ?_, ?_, all₂.setFile tree₂ h done, ?_, fun k => ?_⟩
  · simp only [State.swap, left, taken, bind, Except.bind]
  · refine tree₂.setFile client' fun b => ?_
    rw [takes, List.count_append]
    omega
  · have frame := frame₁.trans frame₂
    exact ⟨rfl, frame.groups, frame.made, frame.core, frame.stays, frame.texts⟩
  · rw [lookup_setFile client', files, lookup_setFile client]
    split_ifs <;> rfl

/-- A client moves to a node that stays. -/
theorem move_spec (tree : Tree s hand) (all : Vals s vals) (client : s.filehash.lookup h = some f)
    (o : Option ULong) (change : File → File) (same : ∀ f, (change f).ptrs = f.ptrs)
    (stays : ∀ u, Frame (s.setFile h { f with fNode := none }) u → Tree u hand →
      ∀ a, o = some a → u.nodes.lookup a ≠ none) :
    ∃ t, s.move h o change = .ok t ∧ Tree t hand ∧ Vals t vals ∧
      Frame s { t with filehash := s.filehash } ∧ ∀ k, t.filehash.lookup k =
        if k = h then some (change { f with fNode := o }) else s.filehash.lookup k := by
  have parts : ∀ (n : Option ULong) (b : ULong), List.count b (File.ptrs { f with fNode := n }) =
      n.toList.count b + f.fHome.toList.count b := fun n b => List.count_append
  obtain ⟨t, run, holds⟩ := swap_spec tree all client { f with fNode := none }
    (change { f with fNode := o }) f.fNode o (fun b => by
      rw [parts none, Nat.add_comm]
      exact (Nat.add_assoc _ _ _).symm.trans (parts f.fNode b).symm)
    (fun b => by
      rw [same, parts o, parts none, Nat.add_comm]
      exact congrArg (· + _) (Nat.zero_add _).symm) fun u _ => stays u
  refine ⟨t, ?_, holds⟩
  simp only [State.move, State.file, client, bind, Except.bind, run]

end Vsta.Env
