import Vsta.Env.Server
import Vsta.Srv.Pointers

/-!
# The references of the environment server, in the middle of a request

The count of a node is one for its place in a list, and one for each pointer to it of a node under
it or of a client (`Tree`); the count of a string is the number of nodes that have it (`Vals`). In
the middle of a request some references are in hand: they are counted, and no pointer is there for
them. Below is what the parts of a request do to the references in hand.
-/

set_option autoImplicit false

namespace Vsta.Env

open Vstafs

/-- The pointers of a client. -/
def File.ptrs (f : File) : List ULong := f.fNode.toList ++ f.fHome.toList

/-- The pointer of a node to its parent. -/
def Node.up (n : Node) : List ULong := n.nUp.toList

/-- The pointer of a node to its string. -/
def Node.val (n : Node) : List ULong := n.nVal.toList

/-- The pointers to a node, of nodes and clients, and the reference the root always has. -/
def named (s : State) (a : ULong) : ℕ :=
  (if a = rootnode then 1 else 0) + Srv.pointers Node.up s.nodes a +
    Srv.pointers File.ptrs s.filehash a

/-- The tree and the clients hold together, with some references in hand. -/
structure Tree (s : State) (hand : List ULong) : Prop where
  nodeKeys : s.nodes.Distinct
  clientKeys : s.filehash.Distinct
  refs : ∀ a n, s.nodes.lookup a = some n → n.nRefs = n.nList.toNat + named s a + hand.count a
  parent : ∀ a n p, s.nodes.lookup a = some n → n.nUp = some p →
    ∃ m, s.nodes.lookup p = some m ∧ m.born < n.born
  placed : ∀ h f a, s.filehash.lookup h = some f → a ∈ f.ptrs → s.nodes.lookup a ≠ none
  held : ∀ a ∈ hand, s.nodes.lookup a ≠ none
  root : ∃ r, s.nodes.lookup rootnode = some r ∧ r.nUp = none ∧ r.nList = false
  rooted : ∀ a n, s.nodes.lookup a = some n → n.nUp = none → a = rootnode
  born : ∀ a n, s.nodes.lookup a = some n → n.born < s.made.length
  ledger : Srv.Ledger s.nodes s.made s.freed

/-- The strings are counted, with some references in hand. -/
structure Vals (s : State) (vals : List ULong) : Prop where
  keys : s.strings.Distinct
  refs : ∀ v t, s.strings.lookup v = some t →
    t.sRefs = Srv.pointers Node.val s.nodes v + vals.count v ∧ 0 < t.sRefs
  there : ∀ a n v, s.nodes.lookup a = some n → n.nVal = some v → s.strings.lookup v ≠ none
  held : ∀ v ∈ vals, s.strings.lookup v ≠ none
  ledger : Srv.Ledger s.strings s.vmade s.vfreed

variable {s t : State} {hand hand' vals vals' : List ULong} {a b p v : ULong} {n : Node}
  {h : Handle} {f : File}

/-! ## Changes of the tables -/

/-- Nodes change where they are and keep their parents. -/
theorem Tree.update (tree : Tree s hand) (change : ULong → Node → Node)
    (nodes : t.nodes = s.nodes.mapVals change)
    (kept : ∀ b n, (change b n).nUp = n.nUp ∧ (change b n).born = n.born)
    (top : ∀ n, (change rootnode n).nList = n.nList) (made : t.made = s.made)
    (freed : t.freed = s.freed) (files : t.filehash = s.filehash)
    (counts : ∀ b n, s.nodes.lookup b = some n →
      (change b n).nRefs + n.nList.toNat + hand.count b =
        n.nRefs + (change b n).nList.toNat + hand'.count b)
    (held : ∀ b ∈ hand', s.nodes.lookup b ≠ none) : Tree t hand' := by
  have look : ∀ b, t.nodes.lookup b = (s.nodes.lookup b).map (change b) := fun b => by
    rw [nodes, Hash.lookup_mapVals]
  have there : ∀ b, t.nodes.lookup b = none ↔ s.nodes.lookup b = none := fun b => by
    rw [look, Option.map_eq_none_iff]
  have same : ∀ b, named t b = named s b := by
    intro b
    rw [named, named, nodes, files, Srv.pointers_mapVals]
    intro k n
    rw [Node.up, (kept k n).1, Node.up]
  refine ⟨nodes ▸ tree.nodeKeys.mapVals _, files ▸ tree.clientKeys, fun b n found => ?_,
    fun b n p found up => ?_, fun h f b client points => ?_, fun b member => ?_, ?_,
    fun b n found up => ?_, fun b n found => ?_, fun b => ?_⟩
  · rw [look] at found
    obtain ⟨n', before, rfl⟩ := Option.map_eq_some_iff.mp found
    have balance := counts b n' before
    have count := tree.refs b n' before
    rw [same]
    omega
  · rw [look] at found
    obtain ⟨n', before, rfl⟩ := Option.map_eq_some_iff.mp found
    obtain ⟨m, above, older⟩ := tree.parent b n' p before ((kept b n').1 ▸ up)
    refine ⟨change p m, by rw [look, above]; rfl, ?_⟩
    rw [(kept p m).2, (kept b n').2]
    exact older
  · rw [Ne, there]
    exact tree.placed h f b (files ▸ client) points
  · rw [Ne, there]
    exact held b member
  · obtain ⟨r, found, up, list⟩ := tree.root
    exact ⟨_, by rw [look, found]; rfl, (kept _ r).1.trans up, (top r).trans list⟩
  · rw [look] at found
    obtain ⟨n', before, rfl⟩ := Option.map_eq_some_iff.mp found
    exact tree.rooted b n' before ((kept b n').1 ▸ up)
  · rw [look] at found
    obtain ⟨n', before, rfl⟩ := Option.map_eq_some_iff.mp found
    rw [(kept b n').2, made]
    exact tree.born b n' before
  · rw [made, freed, tree.ledger b, look, Option.isSome_map]

/-- Pointers of clients and references in hand are exchanged. -/
theorem Tree.client (tree : Tree s hand) (nodes : t.nodes = s.nodes) (made : t.made = s.made)
    (freed : t.freed = s.freed) (keys : t.filehash.Distinct)
    (counts : ∀ b, Srv.pointers File.ptrs t.filehash b + hand'.count b =
      Srv.pointers File.ptrs s.filehash b + hand.count b) : Tree t hand' := by
  have there : ∀ b, 0 < Srv.pointers File.ptrs t.filehash b + hand'.count b →
      s.nodes.lookup b ≠ none := by
    intro b some_
    rw [counts] at some_
    by_cases points : 0 < Srv.pointers File.ptrs s.filehash b
    · obtain ⟨h, f, client, member⟩ := Srv.exists_of_pointers_pos tree.clientKeys points
      exact tree.placed h f b client member
    · exact tree.held b (List.count_pos_iff.mp (by omega))
  refine ⟨nodes ▸ tree.nodeKeys, keys, fun b n found => ?_, ?_, fun h f b client points => ?_,
    fun b member => ?_, nodes ▸ tree.root, ?_, ?_, ?_⟩
  · have balance := counts b
    have count := tree.refs b n (nodes ▸ found)
    rw [named] at count
    rw [named, nodes]
    omega
  · rw [nodes]
    exact tree.parent
  · rw [nodes]
    refine there b ?_
    have more := Srv.pointers_pos client points
    omega
  · rw [nodes]
    refine there b ?_
    have more := List.count_pos_iff.mpr member
    omega
  · rw [nodes]
    exact tree.rooted
  · rw [nodes, made]
    exact tree.born
  · rw [nodes, made, freed]
    exact tree.ledger

/-- The order of the references in hand does not matter. -/
theorem Tree.perm (tree : Tree s hand) (same : hand.Perm hand') : Tree s hand' :=
  tree.client rfl rfl rfl tree.clientKeys fun b => by rw [same.count_eq]

/-- A node that is not there is not pointed at. -/
theorem Tree.nobody (tree : Tree s hand) (fresh : s.nodes.lookup a = none) :
    named s a = 0 ∧ hand.count a = 0 := by
  have top : a ≠ rootnode := by
    rintro rfl
    obtain ⟨r, found, -⟩ := tree.root
    rw [fresh] at found
    cases found
  have under : Srv.pointers Node.up s.nodes a = 0 :=
    Srv.pointers_eq_zero tree.nodeKeys fun k n found up => by
      obtain ⟨m, above, -⟩ := tree.parent k n a found (Option.mem_toList.mp up)
      rw [fresh] at above
      cases above
  have at_ : Srv.pointers File.ptrs s.filehash a = 0 :=
    Srv.pointers_eq_zero tree.clientKeys fun k f found points => tree.placed k f a found points fresh
  refine ⟨?_, List.count_eq_zero.mpr fun member => tree.held a member fresh⟩
  rw [named, if_neg top, under, at_]

/-- A node is made under another one. -/
theorem Tree.insert (tree : Tree s (p :: hand)) (fresh : s.nodes.lookup a = none)
    (up : n.nUp = some p) (young : n.born = s.made.length)
    (refs : n.nRefs = n.nList.toNat + hand'.count a)
    (counts : ∀ b, b ≠ a → hand'.count b = hand.count b)
    (nodes : t.nodes = s.nodes.insert a n) (made : t.made = a :: s.made)
    (freed : t.freed = s.freed) (files : t.filehash = s.filehash) : Tree t hand' := by
  obtain ⟨none_, empty⟩ := tree.nobody fresh
  have apart : p ≠ a := by
    rintro rfl
    exact tree.held p List.mem_cons_self fresh
  have look : ∀ b, t.nodes.lookup b = if b = a then some n else s.nodes.lookup b := fun b => by
    rw [nodes, Hash.lookup_insert]
  have still : ∀ b, s.nodes.lookup b ≠ none → t.nodes.lookup b = s.nodes.lookup b := by
    intro b there
    rw [look, if_neg]
    rintro rfl
    exact there fresh
  have under : ∀ b, named t b = named s b + if p = b then 1 else 0 := by
    intro b
    have one : (Node.up n).count b = if p = b then 1 else 0 := by
      rw [Node.up, up, Option.toList_some, List.count_singleton]
      simp only [beq_iff_eq]
    rw [named, named, nodes, files, Srv.pointers_insert, one]
    omega
  obtain ⟨r, top, above, list⟩ := tree.root
  refine ⟨nodes ▸ tree.nodeKeys.insert fresh, files ▸ tree.clientKeys, fun b m found => ?_,
    fun b m q found above => ?_, fun h f b client points => ?_, fun b member => ?_,
    ⟨r, ?_, above, list⟩, fun b m found above => ?_, fun b m found => ?_, ?_⟩
  · rw [under]
    rw [look] at found
    by_cases here : b = a
    · rw [if_pos here] at found
      obtain rfl := Option.some.inj found
      rw [here, none_, if_neg apart]
      omega
    · rw [if_neg here] at found
      have count := tree.refs b m found
      rw [List.count_cons] at count
      simp only [beq_iff_eq] at count
      rw [counts b here]
      omega
  · rw [look] at found
    by_cases here : b = a
    · rw [if_pos here] at found
      obtain rfl := Option.some.inj found
      rw [up] at above
      obtain rfl := Option.some.inj above
      obtain ⟨m, there⟩ := Option.ne_none_iff_exists'.mp (tree.held p List.mem_cons_self)
      refine ⟨m, ?_, ?_⟩
      · rw [still p (by rw [there]; exact Option.some_ne_none m), there]
      · rw [young]
        exact tree.born p m there
    · rw [if_neg here] at found
      obtain ⟨m', there, older⟩ := tree.parent b m q found above
      exact ⟨m', by rw [still q (by rw [there]; exact Option.some_ne_none m'), there], older⟩
  · have there := tree.placed h f b (files ▸ client) points
    rw [still b there]
    exact there
  · by_cases here : b = a
    · rw [look, if_pos here]
      exact Option.some_ne_none n
    · have more := List.count_pos_iff.mpr member
      rw [counts b here] at more
      have there := tree.held b (List.mem_cons_of_mem _ (List.count_pos_iff.mp more))
      rw [still b there]
      exact there
  · rw [still _ (by rw [top]; exact Option.some_ne_none r), top]
  · rw [look] at found
    by_cases here : b = a
    · rw [if_pos here] at found
      obtain rfl := Option.some.inj found
      rw [up] at above
      cases above
    · rw [if_neg here] at found
      exact tree.rooted b m found above
  · rw [look] at found
    rw [made, List.length_cons]
    by_cases here : b = a
    · rw [if_pos here] at found
      obtain rfl := Option.some.inj found
      omega
    · rw [if_neg here] at found
      exact (tree.born b m found).trans (Nat.lt_succ_self _)
  · rw [nodes, made, freed]
    exact tree.ledger.alloc fresh n

/-- A node that nothing points at is freed; its reference to its parent is in hand. -/
theorem Tree.delete (tree : Tree s hand) (there : s.nodes.lookup a = some n)
    (nobody : named s a = 0) (gone : hand'.count a = 0)
    (counts : ∀ b, b ≠ a → hand'.count b = hand.count b + n.up.count b)
    (nodes : t.nodes = s.nodes.delete a) (made : t.made = s.made) (freed : t.freed = a :: s.freed)
    (files : t.filehash = s.filehash) : Tree t hand' := by
  have look : ∀ b, t.nodes.lookup b = if b = a then none else s.nodes.lookup b := fun b => by
    rw [nodes, tree.nodeKeys.lookup_delete]
  have under : ∀ b, named s b = n.up.count b + named t b := by
    intro b
    rw [named, named, nodes, files, Srv.pointers_delete there]
    omega
  have top : a ≠ rootnode := by
    rintro rfl
    rw [named, if_pos rfl] at nobody
    omega
  have still : ∀ b, b ≠ a → t.nodes.lookup b = s.nodes.lookup b := fun b apart => by
    rw [look, if_neg apart]
  have unnamed : ∀ b m, s.nodes.lookup b = some m → m.nUp ≠ some a := by
    intro b m found up
    have more := Srv.pointers_pos (p := Node.up) found (Option.mem_toList.mpr up)
    rw [named] at nobody
    omega
  refine ⟨nodes ▸ tree.nodeKeys.delete a, files ▸ tree.clientKeys, fun b m found => ?_,
    fun b m q found above => ?_, fun h f b client points => ?_, fun b member => ?_, ?_,
    fun b m found above => ?_, fun b m found => ?_, ?_⟩
  · rw [look] at found
    split_ifs at found with here
    have count := tree.refs b m found
    have balance := under b
    rw [counts b here]
    omega
  · rw [look] at found
    split_ifs at found with here
    obtain ⟨m', above', older⟩ := tree.parent b m q found above
    refine ⟨m', ?_, older⟩
    rw [still q, above']
    rintro rfl
    exact unnamed b m found above
  · have there' := tree.placed h f b (files ▸ client) points
    rw [still b]
    · exact there'
    · rintro rfl
      have more := Srv.pointers_pos (files ▸ client) points
      rw [named] at nobody
      omega
  · have more := List.count_pos_iff.mpr member
    have here : b ≠ a := by
      rintro rfl
      omega
    rw [still b here]
    rw [counts b here] at more
    by_cases before : 0 < hand.count b
    · exact tree.held b (List.count_pos_iff.mp before)
    · have up : b ∈ n.up := List.count_pos_iff.mp (by omega)
      obtain ⟨m, above, -⟩ := tree.parent a n b there (Option.mem_toList.mp up)
      rw [above]
      exact Option.some_ne_none m
  · obtain ⟨r, found, parts⟩ := tree.root
    exact ⟨r, by rw [still _ top.symm, found], parts⟩
  · rw [look] at found
    split_ifs at found
    exact tree.rooted b m found above
  · rw [look] at found
    split_ifs at found
    rw [made]
    exact tree.born b m found
  · rw [nodes, made, freed]
    exact tree.ledger.free tree.nodeKeys there

/-! ## Strings -/

/-- The strings stay, and who has them is exchanged with what is in hand. -/
theorem Vals.congr (all : Vals s vals) (distinct : s.nodes.Distinct)
    (strings : t.strings = s.strings) (vmade : t.vmade = s.vmade) (vfreed : t.vfreed = s.vfreed)
    (counts : ∀ v, Srv.pointers Node.val t.nodes v + vals'.count v =
      Srv.pointers Node.val s.nodes v + vals.count v) : Vals t vals' := by
  have there : ∀ v, 0 < Srv.pointers Node.val t.nodes v + vals'.count v →
      s.strings.lookup v ≠ none := by
    intro v some_
    rw [counts] at some_
    by_cases points : 0 < Srv.pointers Node.val s.nodes v
    · obtain ⟨a, n, found, member⟩ := Srv.exists_of_pointers_pos distinct points
      exact all.there a n v found (Option.mem_toList.mp member)
    · exact all.held v (List.count_pos_iff.mp (by omega))
  refine ⟨strings ▸ all.keys, fun v str found => ?_, fun a n v found value => ?_,
    fun v member => ?_, ?_⟩
  · rw [counts]
    exact all.refs v str (strings ▸ found)
  · rw [strings]
    refine there v ?_
    have more := Srv.pointers_pos (p := Node.val) found (Option.mem_toList.mpr value)
    omega
  · rw [strings]
    refine there v ?_
    have more := List.count_pos_iff.mpr member
    omega
  · rw [strings, vmade, vfreed]
    exact all.ledger

/-- What is in the memory of a string. -/
def text (s : State) (v : ULong) : Option (List UChar) := (s.strings.lookup v).map Str.sVal

/-- The references of the strings change, and the nodes and the clients do not. -/
structure SameTree (s t : State) : Prop where
  nodes : t.nodes = s.nodes
  files : t.filehash = s.filehash
  groups : t.groups = s.groups
  made : t.made = s.made
  freed : t.freed = s.freed
  texts : ∀ a n v, s.nodes.lookup a = some n → n.nVal = some v → text t v = text s v

theorem SameTree.refl (s : State) : SameTree s s := ⟨rfl, rfl, rfl, rfl, rfl, fun _ _ _ _ _ => rfl⟩

theorem SameTree.tree (same : SameTree s t) (tree : Tree s hand) : Tree t hand :=
  tree.client same.nodes same.made same.freed (same.files ▸ tree.clientKeys) fun b => by
    rw [same.files]

/-- What changes of the strings when only their table does. -/
theorem Vals.there_of (all : Vals s vals) (nodes : t.nodes = s.nodes)
    (kept : ∀ v, s.strings.lookup v ≠ none → 0 < Srv.pointers Node.val s.nodes v →
      t.strings.lookup v ≠ none) (a : ULong) (n : Node) (v : ULong)
    (found : t.nodes.lookup a = some n) (value : n.nVal = some v) : t.strings.lookup v ≠ none := by
  rw [nodes] at found
  exact kept v (all.there a n v found value)
    (Srv.pointers_pos (p := Node.val) found (Option.mem_toList.mpr value))

/-- A string is counted anew, and what is in it stays. -/
theorem text_modify (change : Str → Str) (same : ∀ t, (change t).sVal = t.sVal) (w : ULong) :
    text { s with strings := s.strings.modify v change } w = text s w := by
  rw [text, text, Hash.lookup_modify]
  split_ifs with here
  · rw [here]
    cases s.strings.lookup v with
    | none => rfl
    | some str => exact congrArg some (same str)
  · rfl

/-- A string gets one more reference, which is in hand. -/
theorem refVal_spec (all : Vals s vals) (o : Option ULong)
    (known : ∀ v, o = some v → s.strings.lookup v ≠ none) :
    ∃ t, s.refVal o = .ok t ∧ Vals t (o.toList ++ vals) ∧ SameTree s t := by
  cases o with
  | none => exact ⟨s, rfl, all, .refl s⟩
  | some v =>
      obtain ⟨str, there⟩ := Option.ne_none_iff_exists'.mp (known v rfl)
      simp only [State.refVal, there]
      refine ⟨_, rfl, ?_, rfl, rfl, rfl, rfl, rfl, fun _ _ w _ _ => ?_⟩
      swap
      · exact text_modify (fun t => { t with sRefs := t.sRefs + 1 }) (fun _ => rfl) w
      have look : ∀ w, (s.strings.modify v fun t => { t with sRefs := t.sRefs + 1 }).lookup w =
          if w = v then some { str with sRefs := str.sRefs + 1 } else s.strings.lookup w := by
        intro w
        rw [Hash.lookup_modify, there]
        rfl
      have kept : ∀ w, s.strings.lookup w ≠ none →
          (s.strings.modify v fun t => { t with sRefs := t.sRefs + 1 }).lookup w ≠ none := by
        intro w known
        rw [look]
        split_ifs
        · exact Option.some_ne_none _
        · exact known
      refine ⟨all.keys.modify v fun t => { t with sRefs := t.sRefs + 1 }, fun w m found => ?_,
        all.there_of rfl fun w known _ => kept w known, fun w member => ?_,
        all.ledger.modify v fun t => { t with sRefs := t.sRefs + 1 }⟩
      · have found := (look w).symm.trans found
        rw [Option.toList_some, List.singleton_append, List.count_cons]
        simp only [beq_iff_eq]
        by_cases here : w = v
        · rw [if_pos here] at found
          obtain rfl := Option.some.inj found
          rw [if_pos here.symm, here]
          have count := all.refs v str there
          simp only
          omega
        · rw [if_neg here] at found
          rw [if_neg (Ne.symm here), Nat.add_zero]
          exact all.refs w m found
      · rw [Option.toList_some, List.singleton_append, List.mem_cons] at member
        rcases member with rfl | member
        · exact kept w (by rw [there]; exact Option.some_ne_none str)
        · exact kept w (all.held w member)

/-- A reference in hand to a string is given up. -/
theorem derefVal_spec (o : Option ULong) (all : Vals s (o.toList ++ vals)) :
    ∃ t, s.derefVal o = .ok t ∧ Vals t vals ∧ SameTree s t := by
  cases o with
  | none => exact ⟨s, rfl, all, .refl s⟩
  | some v =>
      rw [Option.toList_some, List.singleton_append] at all
      obtain ⟨str, there⟩ := Option.ne_none_iff_exists'.mp (all.held v List.mem_cons_self)
      obtain ⟨count, positive⟩ := all.refs v str there
      rw [List.count_cons_self] at count
      have less : decr str.sRefs = str.sRefs - 1 := if_neg (by omega)
      simp only [State.derefVal, there]
      by_cases last : decr str.sRefs = 0
      · rw [if_pos last]
        rw [less] at last
        have look : ∀ w, (s.strings.delete v).lookup w =
            if w = v then none else s.strings.lookup w := fun w => all.keys.lookup_delete v w
        refine ⟨_, rfl, ?_, rfl, rfl, rfl, rfl, rfl, fun a n w found value => ?_⟩
        swap
        · rw [text, text, look, if_neg]
          rintro rfl
          have more := Srv.pointers_pos (p := Node.val) found (Option.mem_toList.mpr value)
          omega
        refine ⟨all.keys.delete v, fun w m found => ?_, all.there_of rfl fun w known some_ => ?_,
          fun w member => ?_, all.ledger.free all.keys there⟩
        · have found := (look w).symm.trans found
          split_ifs at found with here
          have before := all.refs w m found
          rwa [List.count_cons_of_ne (Ne.symm here)] at before
        · show (s.strings.delete v).lookup w ≠ none
          rw [look, if_neg]
          · exact known
          · rintro rfl
            omega
        · show (s.strings.delete v).lookup w ≠ none
          have more := List.count_pos_iff.mpr member
          rw [look, if_neg]
          · exact all.held w (List.mem_cons_of_mem _ member)
          · rintro rfl
            omega
      · rw [if_neg last]
        rw [less] at last
        refine ⟨_, rfl, ?_, rfl, rfl, rfl, rfl, rfl, fun _ _ w _ _ => ?_⟩
        swap
        · exact text_modify (fun t => { t with sRefs := decr t.sRefs }) (fun _ => rfl) w
        have look : ∀ w, (s.strings.modify v fun t => { t with sRefs := decr t.sRefs }).lookup w =
            if w = v then some { str with sRefs := str.sRefs - 1 } else s.strings.lookup w := by
          intro w
          rw [Hash.lookup_modify, there, Option.map_some, less]
        have kept : ∀ w, s.strings.lookup w ≠ none →
            (s.strings.modify v fun t => { t with sRefs := decr t.sRefs }).lookup w ≠ none := by
          intro w known
          rw [look]
          split_ifs
          · exact Option.some_ne_none _
          · exact known
        refine ⟨all.keys.modify v fun t => { t with sRefs := decr t.sRefs }, fun w m found => ?_,
          all.there_of rfl fun w known _ => kept w known,
          fun w member => kept w (all.held w (List.mem_cons_of_mem _ member)),
          all.ledger.modify v fun t => { t with sRefs := decr t.sRefs }⟩
        have found := (look w).symm.trans found
        by_cases here : w = v
        · rw [if_pos here] at found
          obtain rfl := Option.some.inj found
          rw [here]
          simp only
          omega
        · rw [if_neg here] at found
          have before := all.refs w m found
          rwa [List.count_cons_of_ne (Ne.symm here)] at before

/-- A new string has one reference, which is in hand. -/
theorem allocVal_spec (all : Vals s vals) (distinct : s.nodes.Distinct) (x : Outcome)
    (free : taken (s.allocVal x) = false) : ∃ t v, s.allocVal x = .ok (t, v) ∧
      Vals t (v.toList ++ vals) ∧ SameTree s t := by
  rw [State.allocVal] at free ⊢
  cases str : x.str with
  | none => exact ⟨s, none, rfl, all, .refl s⟩
  | some v =>
      rw [str] at free
      have absent : s.strings.lookup v = none := by
        cases known : s.strings.lookup v with
        | none => rfl
        | some _ =>
            simp only [known, Option.isSome_some, if_true] at free
            cases free
      simp only [absent, Option.isSome_none, Bool.false_eq_true, if_false]
      cases memory : x.sval with
      | none =>
          refine ⟨_, none, rfl, ⟨all.keys, all.refs, all.there, all.held, all.ledger.undo v⟩, ?_⟩
          exact ⟨rfl, rfl, rfl, rfl, rfl, fun _ _ _ _ _ => rfl⟩
      | some byte =>
          refine ⟨_, some v, rfl, ?_, rfl, rfl, rfl, rfl, rfl, fun a n w found value => ?_⟩
          swap
          · have known := all.there a n w found value
            rw [text, text, Hash.lookup_insert, if_neg]
            rintro rfl
            exact known absent
          have look : ∀ w, (s.strings.insert v (⟨1, [byte]⟩ : Str)).lookup w =
              if w = v then some ⟨1, [byte]⟩ else s.strings.lookup w := fun w =>
            Hash.lookup_insert _ _ _ _
          have kept : ∀ w, s.strings.lookup w ≠ none →
              (s.strings.insert v (⟨1, [byte]⟩ : Str)).lookup w ≠ none := by
            intro w known
            rw [look]
            split_ifs
            · exact Option.some_ne_none _
            · exact known
          have nobody : Srv.pointers Node.val s.nodes v = 0 :=
            Srv.pointers_eq_zero distinct fun a n found value =>
              all.there a n v found (Option.mem_toList.mp value) absent
          have empty : vals.count v = 0 :=
            List.count_eq_zero.mpr fun member => all.held v member absent
          refine ⟨all.keys.insert absent, fun w m found => ?_,
            all.there_of rfl fun w known _ => kept w known, fun w member => ?_,
            all.ledger.alloc absent _⟩
          · have found := (look w).symm.trans found
            show _ = _ + (v :: vals).count w ∧ _
            rw [List.count_cons]
            simp only [beq_iff_eq]
            by_cases here : w = v
            · rw [if_pos here] at found
              obtain rfl := Option.some.inj found
              rw [if_pos here.symm, here, empty]
              show 1 = Srv.pointers Node.val s.nodes v + (0 + 1) ∧ 0 < 1
              omega
            · rw [if_neg here] at found
              rw [if_neg (Ne.symm here), Nat.add_zero]
              exact all.refs w m found
          · rcases List.mem_cons.mp member with rfl | member
            · show (s.strings.insert w (⟨1, [byte]⟩ : Str)).lookup w ≠ none
              rw [look, if_pos rfl]
              exact Option.some_ne_none _
            · exact kept w (all.held w member)

/-! ## Nodes -/

/-- Nodes are there as before, but for their counts, or were freed; those in a list stay. -/
structure Frame (s t : State) : Prop where
  files : t.filehash = s.filehash
  groups : t.groups = s.groups
  made : t.made = s.made
  core : ∀ b n, t.nodes.lookup b = some n → ∃ n', s.nodes.lookup b = some n' ∧
    n = { n' with nRefs := n.nRefs } ∧ (0 < n'.nRefs → 0 < n.nRefs)
  stays : ∀ b n, s.nodes.lookup b = some n → n.nList = true → t.nodes.lookup b ≠ none
  texts : ∀ b n v, t.nodes.lookup b = some n → n.nVal = some v → text t v = text s v

theorem Frame.trans {u : State} (first : Frame s t) (second : Frame t u) : Frame s u := by
  refine ⟨second.files.trans first.files, second.groups.trans first.groups,
    second.made.trans first.made, fun b n found => ?_, fun b n found list => ?_,
    fun b n v found value => ?_⟩
  · obtain ⟨n', there, same, live⟩ := second.core b n found
    obtain ⟨n'', there', same', live'⟩ := first.core b n' there
    refine ⟨n'', there', ?_, fun positive => live (live' positive)⟩
    rw [same, same']
  · obtain ⟨n', there⟩ := Option.ne_none_iff_exists'.mp (first.stays b n found list)
    obtain ⟨n'', there', same, -⟩ := first.core b n' there
    rw [found] at there'
    obtain rfl := Option.some.inj there'
    exact second.stays b n' there (by rw [same]; exact list)
  · obtain ⟨n', there, same, -⟩ := second.core b n found
    rw [same] at value
    exact (second.texts b n v found (same ▸ value)).trans (first.texts b n' v there value)

/-- No node comes. -/
theorem Frame.absent (frame : Frame s t) (fresh : s.nodes.lookup b = none) :
    t.nodes.lookup b = none := by
  by_contra there
  obtain ⟨n, found⟩ := Option.ne_none_iff_exists'.mp there
  obtain ⟨n', before, -⟩ := frame.core b n found
  rw [fresh] at before
  cases before

theorem SameTree.frame (same : SameTree s t) : Frame s t := by
  refine ⟨same.files, same.groups, same.made, fun b n found => ?_, fun b n found _ => ?_,
    fun b n v found => same.texts b n v (same.nodes ▸ found)⟩
  · exact ⟨n, same.nodes ▸ found, rfl, id⟩
  · rw [same.nodes, found]
    exact Option.some_ne_none n

/-- One node changes. -/
def edit (a : ULong) (change : Node → Node) (b : ULong) (n : Node) : Node :=
  if b = a then change n else n

theorem setNode_nodes (change : Node → Node) :
    (s.setNode a change).nodes = s.nodes.mapVals (edit a change) := rfl

/-- What a change keeps, the table keeps. -/
theorem edit_same {α : Type} (part : Node → α) {change : Node → Node}
    (same : ∀ n, part (change n) = part n) (b : ULong) (n : Node) :
    part (edit a change b n) = part n := by
  rw [edit]
  split_ifs
  · exact same n
  · rfl

theorem lookup_setNode (there : s.nodes.lookup a = some n) (change : Node → Node) (b : ULong) :
    (s.setNode a change).nodes.lookup b = if b = a then some (change n) else s.nodes.lookup b := by
  rw [State.setNode, Hash.lookup_modify, there]
  rfl

/-- The strings of the nodes are as before. -/
theorem Vals.setNode (all : Vals s vals) (distinct : s.nodes.Distinct) {change : Node → Node}
    (same : ∀ n, (change n).nVal = n.nVal) : Vals (s.setNode a change) vals := by
  refine all.congr distinct rfl rfl rfl fun v => ?_
  rw [setNode_nodes, Srv.pointers_mapVals fun b n => ?_]
  rw [Node.val, Node.val, edit_same Node.nVal same]

theorem frame_setNode (there : s.nodes.lookup a = some n) {refs : ℕ}
    (live : 0 < n.nRefs → 0 < refs) : Frame s (s.setNode a fun n => { n with nRefs := refs }) := by
  refine ⟨rfl, rfl, rfl, fun b m found => ?_, fun b m found _ => ?_, fun _ _ _ _ _ => rfl⟩
  · rw [lookup_setNode there] at found
    split_ifs at found with here
    · obtain rfl := Option.some.inj found
      exact ⟨n, here ▸ there, rfl, live⟩
    · exact ⟨m, found, rfl, id⟩
  · rw [lookup_setNode there]
    split_ifs
    · exact Option.some_ne_none _
    · rw [found]
      exact Option.some_ne_none m

/-- The count of a node changes with the references in hand. -/
theorem Tree.setRefs (tree : Tree s hand) (there : s.nodes.lookup a = some n) {refs : ℕ}
    (count : refs + hand.count a = n.nRefs + hand'.count a)
    (others : ∀ b, b ≠ a → hand'.count b = hand.count b) :
    Tree (s.setNode a fun n => { n with nRefs := refs }) hand' := by
  refine tree.update _ (setNode_nodes _) (fun b n => ⟨edit_same Node.nUp ?_ b n,
    edit_same Node.born ?_ b n⟩) (fun n => edit_same Node.nList ?_ _ n) rfl rfl rfl
    (fun b m found => ?_) fun b member => ?_
  · exact fun _ => rfl
  · exact fun _ => rfl
  · exact fun _ => rfl
  · rw [edit]
    by_cases here : b = a
    · rw [here, there] at found
      obtain rfl := Option.some.inj found
      rw [if_pos here, here]
      simp only
      omega
    · rw [if_neg here, others b here]
  · by_cases here : b = a
    · rw [here, there]
      exact Option.some_ne_none n
    · have more := List.count_pos_iff.mpr member
      rw [others b here] at more
      exact tree.held b (List.count_pos_iff.mp more)

/-- A node gets one more reference, which is in hand. -/
theorem refNode_spec (tree : Tree s hand) (all : Vals s vals) (o : Option ULong)
    (known : ∀ a, o = some a → s.nodes.lookup a ≠ none) :
    ∃ t, s.refNode o = .ok t ∧ Tree t (o.toList ++ hand) ∧ Vals t vals ∧ Frame s t := by
  cases o with
  | none => exact ⟨s, rfl, tree, all, (SameTree.refl s).frame⟩
  | some a =>
      obtain ⟨n, there⟩ := Option.ne_none_iff_exists'.mp (known a rfl)
      refine ⟨s.setNode a fun m => { m with nRefs := n.nRefs + 1 }, ?_, ?_, ?_, ?_⟩
      · simp only [State.refNode, State.node, there, bind, Except.bind]
      · refine tree.setRefs there ?_ fun b apart => ?_
        · rw [Option.toList_some, List.singleton_append, List.count_cons_self]
          omega
        · rw [Option.toList_some, List.singleton_append, List.count_cons_of_ne (Ne.symm apart)]
      · exact all.setNode tree.nodeKeys fun _ => rfl
      · exact frame_setNode there fun _ => Nat.succ_pos _

theorem refNode_strings {o : Option ULong} (run : s.refNode o = .ok t) :
    t.strings = s.strings := by
  cases o with
  | none =>
      obtain rfl := Except.ok.inj run
      rfl
  | some a =>
      cases there : s.nodes.lookup a with
      | none =>
          simp only [State.refNode, State.node, there, bind, Except.bind] at run
          cases run
      | some n =>
          simp only [State.refNode, State.node, there, bind, Except.bind] at run
          obtain rfl := Except.ok.inj run
          rfl

/-- A node that nothing points at has nothing in its list. -/
theorem elems_empty (nobody : named s a = 0) : (s.elems a).isEmpty = true := by
  rw [State.elems, List.isEmpty_iff, List.filter_eq_nil_iff]
  intro node member points
  rw [Bool.and_eq_true, decide_eq_true_eq] at points
  rw [named] at nobody
  have under : Srv.pointers Node.up s.nodes a = 0 := by omega
  rw [Srv.pointers, List.count_eq_zero, List.mem_flatMap] at under
  refine under ⟨node, List.mem_reverse.mp member, ?_⟩
  rw [Node.up, points.2]
  exact List.mem_singleton_self a

/-- The last reference of a node is given up: it is freed, and then its parent's is. -/
theorem derefAlong_last (tree : Tree s hand) (all : Vals s vals)
    (there : s.nodes.lookup a = some n) (one : n.nRefs = 1) (nobody : named s a = 0)
    (rest : List ULong) (gone : rest.count a = 0) (counts : ∀ b, b ≠ a → rest.count b = hand.count b) (fuel : ℕ) :
    ∃ u, s.derefAlong (fuel + 1) (some a) = u.derefAlong fuel n.nUp ∧
      Tree u (n.nUp.toList ++ rest) ∧ Vals u vals ∧ u.filehash = s.filehash ∧
      u.groups = s.groups ∧ u.made = s.made ∧
      (∀ b, u.nodes.lookup b = if b = a then none else s.nodes.lookup b) ∧
      ∀ b m v, u.nodes.lookup b = some m → m.nVal = some v → text u v = text s v := by
  have top : a ≠ rootnode := by
    rintro rfl
    rw [named, if_pos rfl] at nobody
    omega
  have zero : ¬0 < decr n.nRefs := by
    rw [one]
    exact Nat.lt_irrefl 0
  have empty : ¬(decide (a = rootnode) || !(s.elems a).isEmpty) = true := by
    rw [elems_empty nobody, decide_eq_false top]
    exact Bool.false_ne_true
  have lost : Vals { s with nodes := s.nodes.delete a, freed := a :: s.freed }
      (n.nVal.toList ++ vals) := by
    refine all.congr tree.nodeKeys rfl rfl rfl fun v => ?_
    rw [List.count_append, Srv.pointers_delete there]
    show Srv.pointers Node.val (s.nodes.delete a) v + _ = _
    rw [Node.val]
    omega
  obtain ⟨u, done, all', same⟩ := derefVal_spec n.nVal lost
  refine ⟨u, ?_, ?_, all', same.files, same.groups, same.made, fun b => ?_,
    fun b m v found => same.texts b m v (same.nodes ▸ found)⟩
  · simp only [State.derefAlong, State.node, there, bind, Except.bind, zero, if_false, empty,
      Bool.false_eq_true, done]
  · have apart : (n.nUp.toList ++ rest).count a = 0 := by
      rw [List.count_append, gone, List.count_eq_zero.mpr]
      intro up
      have more := Srv.pointers_pos (p := Node.up) there up
      rw [named] at nobody
      omega
    refine tree.delete there nobody apart (fun b apart => ?_) same.nodes same.made same.freed
      same.files
    rw [List.count_append, counts b apart, Node.up, Nat.add_comm]
  · rw [same.nodes]
    exact tree.nodeKeys.lookup_delete a b

/-- **A reference in hand to a node is given up.** -/
theorem derefAlong_spec {fuel : ℕ} (tree : Tree s (a :: hand)) (all : Vals s vals)
    (there : s.nodes.lookup a = some n) (short : n.born < fuel) :
    ∃ t, s.derefAlong fuel (some a) = .ok t ∧ Tree t hand ∧ Vals t vals ∧ Frame s t := by
  induction fuel generalizing s a n with
  | zero => exact absurd short (Nat.not_lt_zero _)
  | succ fuel ih =>
      have count := tree.refs a n there
      rw [List.count_cons_self] at count
      have less : decr n.nRefs = n.nRefs - 1 := if_neg (by omega)
      by_cases more : 0 < decr n.nRefs
      · refine ⟨s.setNode a fun m => { m with nRefs := decr n.nRefs }, ?_, ?_, ?_, ?_⟩
        · simp only [State.derefAlong, State.node, there, bind, Except.bind, more, if_true]
        · refine tree.setRefs there ?_ fun b apart => ?_
          · rw [less, List.count_cons_self]
            omega
          · rw [List.count_cons_of_ne (Ne.symm apart)]
        · exact all.setNode tree.nodeKeys fun _ => rfl
        · exact frame_setNode there fun _ => more
      · rw [less] at more
        have list : n.nList = false := by
          cases list : n.nList with
          | false => rfl
          | true =>
              rw [list, Bool.toNat_true] at count
              omega
        obtain ⟨u, run, tree', all', files, groups, made, look, texts⟩ := derefAlong_last tree all there
          (by omega) (by omega) hand (by omega)
          (fun b apart => by rw [List.count_cons_of_ne (Ne.symm apart)]) fuel
        have frame : Frame s u := by
          refine ⟨files, groups, made, fun b m found => ?_, fun b m found yes => ?_, texts⟩
          · rw [look] at found
            split_ifs at found
            exact ⟨m, found, rfl, id⟩
          · rw [look, if_neg, found]
            · exact Option.some_ne_none m
            · rintro rfl
              rw [there] at found
              obtain rfl := Option.some.inj found
              rw [list] at yes
              cases yes
        rw [run]
        cases up : n.nUp with
        | none =>
            rw [up] at tree'
            refine ⟨u, ?_, tree', all', frame⟩
            cases fuel <;> rfl
        | some p =>
            rw [up, Option.toList_some, List.singleton_append] at tree'
            obtain ⟨m, above, older⟩ := tree.parent a n p there up
            have apart : p ≠ a := by
              rintro rfl
              rw [there] at above
              obtain rfl := Option.some.inj above
              exact Nat.lt_irrefl _ older
            have above' : u.nodes.lookup p = some m := by rw [look, if_neg apart, above]
            obtain ⟨t, done, tree'', all'', frame'⟩ := ih tree' all' above' (by omega)
            exact ⟨t, done, tree'', all'', frame.trans frame'⟩

/-- A reference in hand is given up. -/
theorem derefNode_spec (o : Option ULong) (tree : Tree s (o.toList ++ hand)) (all : Vals s vals) :
    ∃ t, s.derefNode o = .ok t ∧ Tree t hand ∧ Vals t vals ∧ Frame s t := by
  cases o with
  | none => exact ⟨s, rfl, tree, all, (SameTree.refl s).frame⟩
  | some a =>
      rw [Option.toList_some, List.singleton_append] at tree
      obtain ⟨n, there⟩ := Option.ne_none_iff_exists'.mp (tree.held a List.mem_cons_self)
      exact derefAlong_spec tree all there ((tree.born a n there).trans (Nat.lt_succ_self _))

/-- What `lookup` finds is in the list of a directory. -/
theorem lookupAlong_spec (tree : Tree s hand) {fuel : ℕ} {name : List UChar} {searchup : Bool}
    (there : s.nodes.lookup a = some n) (short : n.born < fuel) :
    ∃ r, s.lookupAlong name searchup fuel (some a) = .ok r ∧ ∀ b, r = some b →
      ∃ m, s.nodes.lookup b = some m ∧ m.nList = true ∧ (searchup = false → m.nUp = some a) := by
  induction fuel generalizing a n with
  | zero => exact absurd short (Nat.not_lt_zero _)
  | succ fuel ih =>
      simp only [State.lookupAlong, State.node, there, bind, Except.bind]
      cases found : (s.elems a).find? fun node => node.2.nName = name with
      | some entry =>
          obtain ⟨b, m⟩ := entry
          refine ⟨some b, rfl, ?_⟩
          intro c is
          obtain rfl := Option.some.inj is
          have member := List.mem_of_find?_eq_some found
          rw [State.elems, List.mem_filter, List.mem_reverse, Bool.and_eq_true,
            decide_eq_true_eq] at member
          exact ⟨m, tree.nodeKeys.lookup_of_mem member.1, member.2.1, fun _ => member.2.2⟩
      | none =>
          cases searchup with
          | false => exact ⟨none, rfl, nofun⟩
          | true =>
              cases up : n.nUp with
              | none =>
                  refine ⟨none, ?_, nofun⟩
                  cases fuel <;> rfl
              | some p =>
                  obtain ⟨m, above, older⟩ := tree.parent a n p there up
                  obtain ⟨r, done, sound⟩ := ih above (by omega)
                  refine ⟨r, done, fun b is => ?_⟩
                  obtain ⟨k, found', list, -⟩ := sound b is
                  exact ⟨k, found', list, nofun⟩

/-! ## What is in the directories -/

/-- What a name stands for: a directory, or a file and its string if there is one. -/
inductive Var where
  | dir
  | file (text : Option (List UChar))
  deriving DecidableEq, Repr

/-- The directory a node is in, its name there, and what it is. -/
abbrev Leaf := ULong × List UChar × Var

/-- What a node is. -/
def var (s : State) (n : Node) : Var :=
  if n.nInternal then .dir else .file (n.nVal.bind (text s))

/-- The entry of a node that has a place in a list. -/
def leaf (s : State) (b : ULong) : Option Leaf :=
  (s.nodes.lookup b).bind fun n =>
    if n.nList then n.nUp.map fun p => (p, n.nName, var s n) else none

/-- A node that is what it was. -/
theorem var_congr (m n : Node) (dir : m.nInternal = n.nInternal) (val : m.nVal = n.nVal)
    (texts : ∀ v, n.nVal = some v → text t v = text s v) : var t m = var s n := by
  rw [var, var, dir, val]
  cases value : n.nVal with
  | none => rfl
  | some v => rw [Option.bind_some, Option.bind_some, texts v value]

theorem Frame.var (frame : Frame s t) {m : Node} (found : t.nodes.lookup b = some m)
    (before : s.nodes.lookup b = some n) : Env.var t m = Env.var s n := by
  obtain ⟨n', there, same, -⟩ := frame.core b m found
  rw [before] at there
  obtain rfl := Option.some.inj there
  have val : m.nVal = n.nVal := by rw [same]
  exact var_congr m n (by rw [same]) val fun v is => frame.texts b m v found (val.trans is)

/-- The directories are as they were. -/
theorem Frame.leaf (frame : Frame s t) : Env.leaf t = Env.leaf s := by
  funext b
  rw [Env.leaf, Env.leaf]
  cases found : t.nodes.lookup b with
  | none =>
      cases before : s.nodes.lookup b with
      | none => rfl
      | some n =>
          rw [Option.bind_none, Option.bind_some, if_neg]
          exact fun list => frame.stays b n before list found
  | some m =>
      obtain ⟨n, there, same, -⟩ := frame.core b m found
      rw [there, Option.bind_some, Option.bind_some, frame.var found there]
      rw [same]

/-- A node that is in a list has a leaf. -/
theorem leaf_eq (there : s.nodes.lookup b = some n) : leaf s b =
    if n.nList then n.nUp.map fun p => (p, n.nName, var s n) else none := by
  rw [leaf, there, Option.bind_some]

end Vsta.Env
