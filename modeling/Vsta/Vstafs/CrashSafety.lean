import Vsta.Vstafs.FreeRuns

/-!
# Crashes while the free list is written

`write_freelist` writes each node with the link 0 first, and links the node before it to it when it
is in place. So at every point the disk holds the front of the list in core, or the list from
before, and `init_block` ends with nodes whose extents no caller holds (`crash_safe`) — as long as
no node runs empty. The node before one that does keeps linking to its sector, on the disk too
(`loads_held_sector`).
-/

set_option autoImplicit false

namespace Vsta.Vstafs.FreeList

open Bytes (Alloc SECSZ sectors sectors_nil sectors_cons sectors_append length_run run_split)
open Transition (Reaches)

/-! ## The list on the disk -/

/-- The disk has an image of every node, with its link and none but its sectors. -/
def Flushed (disk : ℕ → Option Image) (chain : List Node) : Prop :=
  ∀ f ∈ chain, ∃ image, disk f.frThis = some image ∧ image.fNext = f.fNext ∧
    ∀ x ∈ sectors image.fFree, x ∈ sectors f.fFree

/-- A list that `init_block` loads: it ends, its nodes are among `nodes`, and no caller holds a
sector of it. -/
def Loads (disk : ℕ → Option Image) (nodes : List ℕ) (held : Multiset ℕ) : Prop :=
  ∃ k loaded, initBlock disk k FREE_SEC = some loaded ∧ ∀ sec image, (sec, image) ∈ loaded →
    sec ∈ nodes ∧ ∀ x ∈ sectors image.fFree, x ∉ held

/-- **`init_block` loads a list that links from node to node.** -/
theorem initBlock_loads {disk : ℕ → Option Image} {chain : List Node} (flushed : Flushed disk chain)
    (linked : Linked chain) (nonzero : 0 ∉ nodeSectors chain) :
    ∃ loaded, initBlock disk (chain.length + 1) (nextSec chain) = some loaded ∧
      ∀ sec image, (sec, image) ∈ loaded → sec ∈ nodeSectors chain ∧
        ∀ x ∈ sectors image.fFree, x ∈ freeSectors chain := by
  induction chain with
  | nil => exact ⟨[], rfl, by simp⟩
  | cons f rest ih =>
      obtain ⟨image, here, link, within⟩ := flushed f List.mem_cons_self
      obtain ⟨loaded, load, all⟩ := ih (fun g member => flushed g (List.mem_cons_of_mem _ member))
        linked.2 (fun member => nonzero (List.mem_cons_of_mem _ member))
      have this_ : f.frThis ≠ 0 := fun zero => nonzero (zero ▸ List.mem_cons_self)
      refine ⟨(f.frThis, image) :: loaded, ?_, fun sec image' member => ?_⟩
      · change initBlock disk (rest.length + 1 + 1) f.frThis = _
        rw [initBlock, if_neg this_]
        simp only [here]
        rw [link, linked.1, load]
        rfl
      · rcases List.mem_cons.mp member with same | behind
        · obtain ⟨rfl, rfl⟩ := Prod.mk.inj same
          refine ⟨List.mem_cons_self, fun x inside => ?_⟩
          rw [freeSectors_cons]
          exact List.mem_append_left _ (within x inside)
        · obtain ⟨node, free⟩ := all sec image' behind
          refine ⟨List.mem_cons_of_mem _ node, fun x inside => ?_⟩
          rw [freeSectors_cons]
          exact List.mem_append_right _ (free x inside)

/-- What makes a list one that can be loaded. -/
structure Loadable (disk : ℕ → Option Image) (chain : List Node) : Prop where
  flushed : Flushed disk chain
  linked : Linked chain
  head : chain.head?.map Node.frThis = some FREE_SEC
  nonzero : 0 ∉ nodeSectors chain

theorem Loadable.loads {disk : ℕ → Option Image} {chain : List Node} {nodes : List ℕ}
    {held : Multiset ℕ} (loadable : Loadable disk chain)
    (among : ∀ sec ∈ nodeSectors chain, sec ∈ nodes)
    (apart : ∀ x ∈ freeSectors chain, x ∉ held) : Loads disk nodes held := by
  obtain ⟨loaded, load, all⟩ := initBlock_loads loadable.flushed loadable.linked loadable.nonzero
  rw [nextSec, loadable.head, Option.getD_some] at load
  refine ⟨_, loaded, load, fun sec image member => ?_⟩
  obtain ⟨node, free⟩ := all sec image member
  exact ⟨among sec node, fun x inside => apart x (free x inside)⟩

/-! ## Writing nodes -/

theorem Flushed.mono {disk : ℕ → Option Image} {chain more : List Node}
    (flushed : Flushed disk more) (among : ∀ f ∈ chain, f ∈ more) : Flushed disk chain :=
  fun f member => flushed f (among f member)

/-- A write of a sector that is none of the nodes'. -/
theorem Flushed.frame {disk : ℕ → Option Image} {chain : List Node} (flushed : Flushed disk chain)
    {w : Write} (other : w.sec ∉ nodeSectors chain) : Flushed (w.apply disk) chain := by
  intro f member
  obtain ⟨image, here, facts⟩ := flushed f member
  have elsewhere : f.frThis ≠ w.sec := fun same =>
    other (same ▸ List.mem_map_of_mem member)
  refine ⟨image, ?_, facts⟩
  rw [Write.apply, if_neg elsewhere]
  exact here

/-- A node is written. -/
theorem Flushed.write {disk : ℕ → Option Image} {before : List Node} {f : Node} {after : List Node}
    (flushed : Flushed disk (before ++ after)) {w : Write}
    (nodup : (nodeSectors (before ++ f :: after)).Nodup) (sec : w.sec = f.frThis)
    (image : w.image = f.image) : Flushed (w.apply disk) (before ++ f :: after) := by
  have other : w.sec ∉ nodeSectors (before ++ after) := by
    rw [sec]
    simp only [nodeSectors, List.map_append, List.map_cons] at nodup ⊢
    exact (List.nodup_cons.mp (List.nodup_middle.mp nodup)).1
  intro g member
  have cases_ : g = f ∨ g ∈ before ++ after := by
    simp only [List.mem_append, List.mem_cons] at member ⊢
    tauto
  rcases cases_ with rfl | elsewhere
  · refine ⟨g.image, ?_, rfl, fun _ => id⟩
    rw [Write.apply, if_pos sec.symm, image]
  · exact flushed.frame other g elsewhere

/-- The front of a list up to a node, which links to none. -/
def ended (front : List Node) (f : Node) : List Node := front ++ [{ f with fNext := 0 }]

theorem linked_ended {front : List Node} {f : Node} {rest : List Node}
    (linked : Linked (front ++ f :: rest)) : Linked (ended front f) := by
  induction front with
  | nil => exact ⟨rfl, trivial⟩
  | cons g front ih =>
      obtain ⟨link, linked⟩ := linked
      refine ⟨link.trans ?_, ih linked⟩
      cases front with
      | nil => rfl
      | cons => rfl

/-- The last node of a list links to none. -/
theorem ended_last {front : List Node} {f : Node} (linked : Linked (front ++ [f])) :
    ended front f = front ++ [f] := by
  induction front with
  | nil =>
      have link : f.fNext = 0 := linked.1
      rw [ended, ← link]
  | cons g front ih => exact congrArg (g :: ·) (ih linked.2)

theorem nodeSectors_ended (front : List Node) (f : Node) :
    nodeSectors (ended front f) = nodeSectors (front ++ [f]) := by
  simp [ended, nodeSectors]

theorem freeSectors_ended (front : List Node) (f : Node) :
    freeSectors (ended front f) = freeSectors (front ++ [f]) := by
  simp [ended]

/-- The disk after the first `n` of the writes, and what it then holds: the front of the list. -/
theorem writeFreelist_fronts {c front : List Node} {prev : Node} {rest : List Node}
    {disk : ℕ → Option Image} (nodup : (nodeSectors (front ++ prev :: rest)).Nodup)
    (flushed : Flushed disk (ended front prev)) (n : ℕ) :
    ∃ front' f after, front ++ prev :: rest = front' ++ f :: after ∧
      Flushed (applyAll ((writeFreelist c (some prev) rest).take n) disk) (ended front' f) ∧
      ((writeFreelist c (some prev) rest).length ≤ n → after = []) := by
  induction rest generalizing front prev disk n with
  | nil =>
      refine ⟨front, prev, [], rfl, ?_, fun _ => rfl⟩
      simpa [writeFreelist, applyAll] using flushed
  | cons f rest ih =>
      rw [List.append_cons] at nodup ⊢
      have nodupFront : (nodeSectors (front ++ [prev] ++ [f])).Nodup := by
        refine nodup.sublist ?_
        simp only [nodeSectors, List.map_append, List.map_cons, List.map_nil]
        simp
      have other : f.frThis ∉ nodeSectors (ended front prev) := by
        rw [nodeSectors_ended]
        rw [nodeSectors_append, List.nodup_append] at nodupFront
        exact fun member => nodupFront.2.2 _ member _ List.mem_cons_self rfl
      have once : Flushed (Write.apply ⟨c, f.frThis, { f.image with fNext := 0 }⟩ disk)
          (ended front prev) := flushed.frame other
      -- the new node is in place before the one in front of it links to it
      have twice : Flushed (Write.apply (writeSec c prev)
          (Write.apply ⟨c, f.frThis, { f.image with fNext := 0 }⟩ disk))
          (front ++ prev :: [{ f with fNext := 0 }]) := by
        refine Flushed.write (Flushed.write (flushed.mono ?_) ?_ rfl rfl) ?_ rfl rfl
        · exact fun g member => List.mem_append_left _ (by simpa using member)
        · refine nodupFront.sublist ?_
          simp [nodeSectors]
        · simpa [nodeSectors] using nodupFront
      rw [List.append_cons] at twice
      obtain _ | _ | n := n
      · exact ⟨front, prev, f :: rest, by simp, flushed, by simp [writeFreelist]⟩
      · exact ⟨front, prev, f :: rest, by simp, once, by simp [writeFreelist]⟩
      · obtain ⟨front', g, after, eq, done, all⟩ := ih nodup twice n
        refine ⟨front', g, after, eq, done, fun length => all ?_⟩
        simp only [writeFreelist, Option.map_some, Option.toList_some, List.cons_append,
          List.nil_append, List.length_cons] at length
        omega

/-! ## The points between the writes of a call -/

/-- The sectors of the nodes in core at the last of some writes. -/
def nodesAt (nodes : List ℕ) (writes : List Write) : List ℕ :=
  (writes.getLast?.map fun w => nodeSectors w.chain).getD nodes

/-- After any number of writes a list can be loaded, of nodes of that moment and of any later. -/
structure Points (nodes : List ℕ) (disk : ℕ → Option Image) (writes : List Write)
    (held : Multiset ℕ) : Prop where
  loads : ∀ n m, n ≤ m →
    Loads (applyAll (writes.take n) disk) (nodesAt nodes (writes.take m)) held
  grows : ∀ m, ∀ sec ∈ nodes, sec ∈ nodesAt nodes (writes.take m)

theorem Loads.mono {disk : ℕ → Option Image} {nodes more : List ℕ} {held : Multiset ℕ}
    (loads : Loads disk nodes held) (among : ∀ sec ∈ nodes, sec ∈ more) : Loads disk more held := by
  obtain ⟨k, loaded, load, all⟩ := loads
  exact ⟨k, loaded, load, fun sec image member =>
    ⟨among sec (all sec image member).1, (all sec image member).2⟩⟩

theorem nodesAt_append (nodes : List ℕ) (writes more : List Write) :
    nodesAt nodes (writes ++ more) = nodesAt (nodesAt nodes writes) more := by
  rw [nodesAt, nodesAt, nodesAt, List.getLast?_append]
  cases more.getLast? <;> rfl

theorem applyAll_append (writes more : List Write) (disk : ℕ → Option Image) :
    applyAll (writes ++ more) disk = applyAll more (applyAll writes disk) :=
  List.foldl_append

/-- Writes after writes. -/
theorem Points.append {nodes : List ℕ} {disk : ℕ → Option Image} {writes more : List Write}
    {held : Multiset ℕ} (points : Points nodes disk writes held)
    (later : Points (nodesAt nodes writes) (applyAll writes disk) more held) :
    Points nodes disk (writes ++ more) held := by
  constructor
  case loads =>
      intro n m le
      rw [List.take_append, List.take_append, nodesAt_append, applyAll_append]
      by_cases within : n ≤ writes.length
      · rw [show n - writes.length = 0 by omega, List.take_zero]
        by_cases before : m ≤ writes.length
        · rw [show m - writes.length = 0 by omega, List.take_zero]
          exact points.loads n m le
        · have all := points.loads n writes.length within
          rw [List.take_length] at all
          rw [List.take_of_length_le (i := m) (by omega)]
          exact all.mono (later.grows _)
      · rw [List.take_of_length_le (i := n) (by omega), List.take_of_length_le (i := m) (by omega)]
        exact later.loads _ _ (by omega)
  case grows =>
      intro m sec member
      rw [List.take_append, nodesAt_append]
      by_cases before : m ≤ writes.length
      · rw [show m - writes.length = 0 by omega, List.take_zero]
        exact points.grows m sec member
      · have all := points.grows writes.length sec member
        rw [List.take_length] at all
        rw [List.take_of_length_le (i := m) (by omega)]
        exact later.grows _ sec all

/-- One node is written. -/
theorem points_one {nodes : List ℕ} {disk : ℕ → Option Image} {w : Write} {held : Multiset ℕ}
    (old : Loads disk nodes held) (new : Loads (w.apply disk) nodes held)
    (same : nodeSectors w.chain = nodes) : Points nodes disk [w] held := by
  have now (m : ℕ) : nodesAt nodes ([w].take m) = nodes := by
    cases m with
    | zero => rfl
    | succ m => simpa [nodesAt] using same
  refine ⟨fun n m _ => ?_, fun m sec member => ?_⟩
  · rw [now]
    cases n with
    | zero => exact old
    | succ n => simpa [applyAll] using new
  · rwa [now]

/-- The list in core while `free_block` is at work, with the sectors still to be put in and those
that callers hold. -/
structure Ready (chain : List Node) (more held : Multiset ℕ) : Prop where
  ascends : Ascending (extents chain)
  fits : Fits chain
  nodup : (inUse chain + more + held).Nodup
  zero : 0 ∉ inUse chain + more
  linked : Linked chain
  head : chain.head?.map Node.frThis = some FREE_SEC

section
variable {disk : ℕ → Option Image} {chain : List Node} {more held : Multiset ℕ}

theorem Ready.nodup_nodes (ready : Ready chain more held) : (nodeSectors chain).Nodup := by
  have nodup := (Multiset.nodup_add.mp (Multiset.nodup_add.mp ready.nodup).1).1
  exact Multiset.coe_nodup.mp (Multiset.nodup_add.mp nodup).2.1

theorem Ready.apart (ready : Ready chain more held) : ∀ x ∈ freeSectors chain, x ∉ held := by
  intro x free taken
  have disjoint := (Multiset.nodup_add.mp ready.nodup).2.2
  exact Multiset.disjoint_left.mp disjoint
    (Multiset.mem_add.mpr (.inl (Multiset.mem_add.mpr (.inl free)))) taken

theorem Ready.nonzero (ready : Ready chain more held) : 0 ∉ nodeSectors chain := fun member =>
  ready.zero (Multiset.mem_add.mpr (.inl (Multiset.mem_add.mpr (.inr member))))

theorem Ready.loads (ready : Ready chain more held) (flushed : Flushed disk chain) :
    Loads disk (nodeSectors chain) held :=
  (Loadable.mk flushed ready.linked ready.head ready.nonzero).loads (fun _ => id) ready.apart

/-- Nothing is written. -/
theorem Ready.points_nil (ready : Ready chain more held) (flushed : Flushed disk chain) :
    Points (nodeSectors chain) disk [] held := by
  refine ⟨fun n m _ => ?_, fun m sec member => ?_⟩
  · simpa [applyAll, nodesAt] using ready.loads flushed
  · simpa [nodesAt] using member

/-! ## Writing a compressed list -/

theorem writeFreelist_chain {c : List Node} {prev : Option Node} {rest : List Node} {w : Write}
    (member : w ∈ writeFreelist c prev rest) : w.chain = c := by
  induction rest generalizing prev with
  | nil => cases member
  | cons f rest ih =>
      rw [writeFreelist] at member
      rcases List.mem_cons.mp member with rfl | member
      · rfl
      · rcases List.mem_append.mp member with here | behind
        · cases prev with
          | none => cases here
          | some prev =>
              obtain rfl := List.mem_singleton.mp here
              rfl
        · exact ih behind

/-- Writes of one chain. -/
theorem nodesAt_same {nodes : List ℕ} {writes : List Write} {c : List Node}
    (same : ∀ w ∈ writes, w.chain = c) (some_ : writes ≠ []) :
    nodesAt nodes writes = nodeSectors c := by
  rw [nodesAt, List.getLast?_eq_some_getLast some_, Option.map_some, Option.getD_some,
    same _ (List.getLast_mem some_)]

/-- The front of a list that is on the disk can be loaded. -/
theorem Ready.loads_front {front : List Node} {f : Node} {after : List Node}
    (ready : Ready (front ++ f :: after) more held) (flushed : Flushed disk (ended front f)) :
    Loads disk (nodeSectors (front ++ f :: after)) held := by
  have among : ∀ sec ∈ nodeSectors (ended front f), sec ∈ nodeSectors (front ++ f :: after) := by
    intro sec member
    rw [nodeSectors_ended] at member
    rw [List.append_cons, nodeSectors_append]
    exact List.mem_append_left _ member
  have within : ∀ x ∈ freeSectors (ended front f), x ∈ freeSectors (front ++ f :: after) := by
    intro x member
    rw [freeSectors_ended] at member
    rw [List.append_cons, freeSectors_append]
    exact List.mem_append_left _ member
  have head : (ended front f).head?.map Node.frThis = some FREE_SEC := by
    rw [← ready.head]
    cases front <;> rfl
  exact (Loadable.mk flushed (linked_ended ready.linked) head
    fun member => ready.nonzero (among 0 member)).loads among
    fun x member => ready.apart x (within x member)

/-- The whole list is written, the front of it at every point. -/
theorem Ready.writes {f : Node} {rest : List Node} (ready : Ready (f :: rest) more held) (n : ℕ) :
    Loads (applyAll ((writeFreelist (f :: rest) none (f :: rest)).take (n + 1)) disk)
        (nodeSectors (f :: rest)) held ∧
      ((writeFreelist (f :: rest) none (f :: rest)).length ≤ n + 1 →
        Flushed (applyAll ((writeFreelist (f :: rest) none (f :: rest)).take (n + 1)) disk)
          (f :: rest)) := by
  have first : Flushed (Write.apply ⟨f :: rest, f.frThis, { f.image with fNext := 0 }⟩ disk)
      (ended [] f) := by
    change Flushed _ ([] ++ { f with fNext := 0 } :: [])
    refine Flushed.write (fun g member => ?_) ?_ rfl rfl
    · cases member
    · simp [nodeSectors]
  obtain ⟨front, g, after, eq, flushed, all⟩ :=
    writeFreelist_fronts (c := f :: rest)
      (show (nodeSectors ([] ++ f :: rest)).Nodup from ready.nodup_nodes) first n
  rw [List.nil_append] at eq
  refine ⟨?_, fun length => ?_⟩
  · change Loads (applyAll ((writeFreelist (f :: rest) (some f) rest).take n) _) _ _
    have ready' := ready
    rw [eq] at ready'
    have loads := ready'.loads_front flushed
    rw [← eq] at loads
    exact loads
  · change Flushed (applyAll ((writeFreelist (f :: rest) (some f) rest).take n) _) _
    have none_ := all (by simpa [writeFreelist] using length)
    subst none_
    have linked := ready.linked
    rw [eq] at linked
    rw [ended_last linked, ← eq] at flushed
    exact flushed

/-- Compressing keeps the list in core ready. -/
theorem Ready.compress (ready : Ready chain more held) {c : Compressed}
    (compresses : Compresses chain c) (none_ : c.removed = []) : Ready c.chain more held := by
  have inUse_le : inUse c.chain ≤ inUse chain :=
    le_trans (Multiset.le_add_right _ _) compresses.inUse_le
  refine ⟨compresses.ascends ready.ascends, compresses.fits ready.fits, ?_, fun member => ?_,
    compresses.linked none_ ready.linked, compresses.head.trans ready.head⟩
  · refine Multiset.nodup_of_le ?_ ready.nodup
    gcongr
  · refine ready.zero (Multiset.mem_of_le ?_ member)
    gcongr

/-- **`write_freelist` leaves a list that can be loaded after every write.** -/
theorem Ready.points_compress (ready : Ready chain more held) (flushed : Flushed disk chain)
    {c : Compressed} (compresses : Compresses chain c) (none_ : c.removed = []) :
    Points (nodeSectors chain) disk (writeFreelist c.chain none c.chain) held ∧
      Flushed (applyAll (writeFreelist c.chain none c.chain) disk) c.chain ∧
      nodesAt (nodeSectors chain) (writeFreelist c.chain none c.chain) = nodeSectors c.chain := by
  have ready' := ready.compress compresses none_
  obtain ⟨new, nodes⟩ := compresses.nodes none_
  cases chain_eq : c.chain with
  | nil => simp [chain_eq] at ready'; exact absurd ready'.head (by simp)
  | cons f rest =>
      rw [chain_eq] at ready' nodes
      have later (m : ℕ) : nodesAt (nodeSectors chain)
          ((writeFreelist (f :: rest) none (f :: rest)).take (m + 1)) = nodeSectors (f :: rest) :=
        nodesAt_same (fun w member => writeFreelist_chain (List.mem_of_mem_take member))
          (by simp [writeFreelist])
      have grows : ∀ m, ∀ sec ∈ nodeSectors chain, sec ∈ nodesAt (nodeSectors chain)
          ((writeFreelist (f :: rest) none (f :: rest)).take m) := by
        intro m sec member
        cases m with
        | zero => simpa [nodesAt] using member
        | succ m =>
            rw [later, nodes]
            exact List.mem_append_left _ member
      refine ⟨⟨fun n m le => ?_, grows⟩, ?_,
        nodesAt_same (fun w member => writeFreelist_chain member) (by simp [writeFreelist])⟩
      · cases n with
        | zero => exact (ready.loads flushed).mono (grows m)
        | succ n =>
            obtain ⟨m, rfl⟩ := Nat.exists_eq_add_of_le' (Nat.le_trans (Nat.le_add_left 1 n) le)
            rw [later]
            exact (ready'.writes n).1
      · have whole : Flushed (applyAll ((writeFreelist (f :: rest) none (f :: rest)).take
            ((writeFreelist (f :: rest) none (f :: rest)).length + 1)) disk) (f :: rest) :=
          (ready'.writes _).2 (Nat.le_succ _)
        rwa [List.take_of_length_le (Nat.le_succ _)] at whole

/-! ## `free_block` -/

/-- An extent is put in its node. -/
theorem Ready.put {d nblk : ℕ} {pend : Multiset ℕ} {chain' : List Node}
    (ready : Ready chain (pend + (⟨d, nblk⟩ : Alloc).run) held) (puts : Puts d nblk chain chain') :
    Ready chain' pend held := by
  have total : inUse chain' + pend = inUse chain + (pend + (⟨d, nblk⟩ : Alloc).run) := by
    rw [puts.inUse_eq]
    abel
  have head : chain'.head?.map Node.frThis = chain.head?.map Node.frThis := by
    rw [← List.head?_map, ← List.head?_map]
    exact congrArg List.head? puts.nodes
  refine ⟨puts.ascends, puts.fits ready.fits, ?_, ?_, puts.linked ready.linked,
    head.trans ready.head⟩
  · rw [total]
    exact ready.nodup
  · rw [total]
    exact ready.zero

/-- The sectors of a node that gets an extent stay. -/
theorem PutIn.subset {d nblk : ℕ} {room : Bool} {es es' : List Alloc}
    (put : PutIn d nblk room es es') : ∀ x ∈ sectors es, x ∈ sectors es' := by
  obtain ⟨before, after, eq, eq', -⟩ := put.sectors_eq
  intro x member
  rw [eq] at member
  rw [eq']
  simp only [List.mem_append] at member ⊢
  tauto

/-- A node that gets an extent is written, or has more than its image. -/
theorem Ready.points_put {d nblk : ℕ} {pend : Multiset ℕ} {debug : Bool} {before : List Node}
    {f : Node} {after : List Node} {free : List Alloc}
    (ready : Ready (before ++ f :: after) (pend + (⟨d, nblk⟩ : Alloc).run) held)
    (flushed : Flushed disk (before ++ f :: after))
    (put : PutIn d nblk (f.fNfree < NALLOC) f.fFree free)
    (puts : Puts d nblk (before ++ f :: after) (before ++ { f with fFree := free } :: after)) :
    Points (nodeSectors (before ++ f :: after)) disk
        (if debug then [writeSec (before ++ { f with fFree := free } :: after)
          { f with fFree := free }] else []) held ∧
      Flushed (applyAll (if debug then [writeSec (before ++ { f with fFree := free } :: after)
        { f with fFree := free }] else []) disk) (before ++ { f with fFree := free } :: after) ∧
      nodesAt (nodeSectors (before ++ f :: after))
        (if debug then [writeSec (before ++ { f with fFree := free } :: after)
          { f with fFree := free }] else []) =
        nodeSectors (before ++ { f with fFree := free } :: after) := by
  have ready' := ready.put puts
  have stale : Flushed disk (before ++ { f with fFree := free } :: after) := by
    intro g member
    have cases_ : g = { f with fFree := free } ∨ g ∈ before ++ f :: after := by
      simp only [List.mem_append, List.mem_cons] at member ⊢
      tauto
    rcases cases_ with rfl | elsewhere
    · obtain ⟨image, here, link, within⟩ := flushed f (by simp)
      exact ⟨image, here, link, fun x inside => put.subset x (within x inside)⟩
    · exact flushed g elsewhere
  rw [← puts.nodes]
  cases debug with
  | false => exact ⟨ready'.points_nil stale, stale, rfl⟩
  | true =>
      have written : Flushed (applyAll [writeSec (before ++ { f with fFree := free } :: after)
          { f with fFree := free }] disk) (before ++ { f with fFree := free } :: after) := by
        refine Flushed.write (stale.mono fun g member => ?_) ready'.nodup_nodes rfl rfl
        simp only [List.mem_append, List.mem_cons] at member ⊢
        tauto
      exact ⟨points_one (ready'.loads stale) (ready'.loads written) rfl, written, rfl⟩

/-- **After every write of `free_block` a list can be loaded, of nodes of that moment, and no caller
holds a sector of it.** -/
theorem Ready.points {debug : Bool} {kept : ℕ → ℕ → Bool} {k : ℕ} {pend : List ℕ} {d nblk : ℕ}
    {r : Freed} (free : freeLoop debug kept k chain pend d nblk = some r) (some_ : 0 < nblk)
    (ready : Ready chain (pend + (⟨d, nblk⟩ : Alloc).run) held) (flushed : Flushed disk chain)
    (none_ : r.removed = []) :
    Points (nodeSectors chain) disk r.writes held ∧ Flushed (applyAll r.writes disk) r.chain := by
  induction k generalizing chain pend d nblk r disk with
  | zero => cases free
  | succ k ih =>
      have nodup := (Multiset.nodup_add.mp ready.nodup).1
      have round := freeLoop_round free some_ ready.ascends ready.fits (not_free_of_nodup nodup)
      cases round with
      | compressed c r' compresses later =>
          obtain ⟨noneC, noneR⟩ := List.append_eq_nil_iff.mp none_
          obtain ⟨points, flushedC, nodes⟩ := ready.points_compress flushed compresses noneC
          have readyC := ready.compress compresses noneC
          rw [noneC, List.filter_nil, List.append_nil] at later
          obtain ⟨pointsR, flushedR⟩ := ih later some_ readyC flushedC noneR
          rw [applyAll_append]
          rw [← nodes] at pointsR
          exact ⟨points.append pointsR, flushedR⟩
      | last before f after free' eq noneP put puts =>
          subst eq noneP
          obtain ⟨points, flushedP, -⟩ := ready.points_put flushed put puts
          exact ⟨points, flushedP⟩
      | more before f after free' d' r' eq next put puts later =>
          subst eq
          obtain ⟨points, flushedP, nodes⟩ := ready.points_put flushed put puts
          have readyP := ready.put puts
          rw [pending_eq next] at readyP
          obtain ⟨pointsR, flushedR⟩ := ih later Nat.one_pos readyP flushedP none_
          rw [applyAll_append]
          rw [← nodes] at pointsR
          exact ⟨points.append pointsR, flushedR⟩

/-! ## Allocations -/

theorem Ready.gives {run : List ℕ} {chain' : List Node} (ready : Ready chain more held)
    (gives : Gives run chain chain') : Ready chain' more held := by
  have inUse_le : inUse chain' ≤ inUse chain := by
    rw [gives.inUse_eq]
    exact Multiset.le_add_right _ _
  have head : chain'.head?.map Node.frThis = chain.head?.map Node.frThis := by
    rw [← List.head?_map, ← List.head?_map]
    exact congrArg List.head? gives.nodes
  refine ⟨gives.ascends ready.ascends, gives.fits ready.fits, ?_, fun member => ?_,
    gives.linked ready.linked, head.trans ready.head⟩
  · refine Multiset.nodup_of_le ?_ ready.nodup
    gcongr
  · refine ready.zero (Multiset.mem_of_le ?_ member)
    gcongr

/-- **After the write of an allocation a list can be loaded, and no caller holds a sector of
it.** -/
theorem Ready.points_allocates {run : List ℕ} {ret : ℕ} {t : Taken}
    (ready : Ready chain more held) (flushed : Flushed disk chain)
    (allocates : Allocates run ret chain t) :
    Points (nodeSectors chain) disk t.writes held ∧ Flushed (applyAll t.writes disk) t.chain := by
  have ready' := ready.gives allocates.gives.2
  have nodes := allocates.gives.2.nodes
  obtain ⟨before, f, f', after, rfl, shrinks, rfl⟩ := allocates
  have written : Flushed (Write.apply (writeSec (before ++ f' :: after) f') disk)
      (before ++ f' :: after) := by
    refine Flushed.write (flushed.mono fun g member => ?_) ready'.nodup_nodes rfl rfl
    simp only [List.mem_append, List.mem_cons] at member ⊢
    tauto
  have new := ready'.loads written
  rw [nodes] at new
  exact ⟨points_one (ready.loads flushed) new nodes, written⟩

end

/-! ## Runs -/

/-- The disk holds the list between calls. -/
structure Stored (nsec : ℕ) (s : Store) : Prop where
  sound : Sound nsec s
  linked : Linked s.chain
  flushed : Flushed s.disk s.chain

section
variable {debug : Bool} {nsec : ℕ} {s : Store} {r : Result}

theorem Stored.ready (stored : Stored nsec s) : Ready s.chain 0 s.held := by
  have within : inUse s.chain + 0 + s.held ≤ inUse s.chain + s.lost + s.held := by
    gcongr
    exact Multiset.zero_le _
  refine ⟨stored.sound.ascends, stored.sound.fits, Multiset.nodup_of_le within stored.sound.nodup,
    ?_, stored.linked, stored.sound.head⟩
  rw [add_zero]
  exact stored.sound.zero_not_inUse

/-- A run that a caller gives back is one to be put in. -/
theorem Stored.ready_free (stored : Stored nsec s) {d nblk : ℕ}
    (held : ((⟨d, nblk⟩ : Alloc).run : Multiset ℕ) ≤ s.held) :
    Ready s.chain (([] : List ℕ) + (⟨d, nblk⟩ : Alloc).run)
      (s.held - (⟨d, nblk⟩ : Alloc).run) := by
  obtain ⟨left, rest⟩ : ∃ left, s.held = left + ((⟨d, nblk⟩ : Alloc).run : List ℕ) :=
    ⟨_, (Multiset.add_sub_cancel held).symm⟩
  have total : inUse s.chain + (↑([] : List ℕ) + ↑(⟨d, nblk⟩ : Alloc).run) + left =
      inUse s.chain + s.held := by
    rw [rest, Multiset.coe_nil]
    abel
  have within : inUse s.chain + s.held ≤ managed nsec := by
    refine le_trans ?_ stored.sound.within
    gcongr
    exact Multiset.le_add_right _ _
  refine ⟨stored.sound.ascends, stored.sound.fits, ?_, fun member => ?_, stored.linked,
    stored.sound.head⟩
  · rw [rest, Multiset.add_sub_cancel_right, total]
    exact Multiset.nodup_of_le within (nodup_managed nsec)
  · refine zero_not_managed nsec (Multiset.mem_of_le ?_ member)
    refine le_trans ?_ within
    rw [← total]
    exact Multiset.le_add_right _ _

/-- The nodes of a list that is on the disk are none of the sectors handed out. -/
theorem Stored.taken (stored : Stored nsec s) {d nblk : ℕ} {t : Taken}
    (gives : Gives (⟨d, nblk⟩ : Alloc).run s.chain t.chain)
    (flushed : Flushed (applyAll t.writes s.disk) t.chain) :
    Stored nsec (s.taken d nblk t).store := by
  refine ⟨stored.sound.after (stored.sound.gives gives), gives.linked stored.linked,
    fun f member => ?_⟩
  obtain ⟨image, here, facts⟩ := flushed f member
  have outside : f.frThis ∉ (⟨d, nblk⟩ : Alloc).run := by
    intro inside
    have nodup := (Multiset.nodup_add.mp (Multiset.nodup_add.mp stored.sound.nodup).1).1
    rw [gives.inUse_eq] at nodup
    exact Multiset.disjoint_left.mp (Multiset.nodup_add.mp nodup).2.2
      (Multiset.mem_add.mpr (.inr (List.mem_map_of_mem member))) inside
  refine ⟨image, ?_, facts⟩
  change (if f.frThis ∈ (⟨d, nblk⟩ : Alloc).run then none else _) = _
  rw [if_neg outside]
  exact here

/-- What an allocation leaves, and what is on the disk around its write. -/
theorem Stored.allocates (stored : Stored nsec s) {d nblk : ℕ} {t : Taken}
    (cases_ : t.chain = s.chain ∧ t.writes = [] ∧ nblk = 0 ∨
      ∃ ret, Allocates (⟨d, nblk⟩ : Alloc).run ret s.chain t) :
    Points (nodeSectors s.chain) s.disk t.writes s.held ∧ Stored nsec (s.taken d nblk t).store := by
  rcases cases_ with ⟨same, none_, rfl⟩ | ⟨ret, allocates⟩
  · rw [none_]
    refine ⟨stored.ready.points_nil stored.flushed, stored.taken ?_ ?_⟩
    · rw [same]
      exact gives_nothing _
    · rw [same, none_]
      exact stored.flushed
  · obtain ⟨points, flushed⟩ := stored.ready.points_allocates stored.flushed allocates
    exact ⟨points, stored.taken allocates.gives.2 flushed⟩

/-- **What is on the disk around every write of a call, and after it.** -/
theorem Stored.call (stored : Stored nsec s) {c : Call} (call : s.call debug c = some r)
    (keeps : r.removed = []) :
    Points (nodeSectors s.chain) s.disk r.writes (s.heldDuring c) ∧ Stored nsec r.store := by
  cases c with
  | alloc nblk =>
      simp only [Store.call, Option.some.injEq] at call
      subst call
      refine stored.allocates ?_
      rcases stored.sound.allocBlock nblk with nothing | ⟨d, allocates, ret, some_⟩
      · exact .inl (by rw [nothing]; exact ⟨rfl, rfl, rfl⟩)
      · rw [ret, some_]
        exact .inr ⟨d, allocates⟩
  | take d nblk =>
      simp only [Store.call, Option.some.injEq] at call
      subst call
      refine stored.allocates ?_
      rcases takeBlock_cases d nblk s.chain with nothing | ⟨got, allocates⟩
      · exact .inl (by rw [nothing]; exact ⟨rfl, rfl, rfl⟩)
      · rw [allocates.gives.1]
        exact .inr ⟨got, allocates⟩
  | free d nblk kept k =>
      have sound := stored.sound.after (stored.sound.effect call)
      have linked := (stored.sound.effect call).linked keeps stored.linked
      rw [Store.call] at call
      split_ifs at call with legal
      obtain ⟨some_, held⟩ := legal
      obtain ⟨freed, free, rfl⟩ := Option.map_eq_some_iff.mp call
      rw [freeBlock, if_neg (by simp only [not_and]; omega)] at free
      obtain ⟨points, flushed⟩ := Ready.points free some_ (stored.ready_free held) stored.flushed
        keeps
      exact ⟨points, sound, linked, flushed⟩

theorem stored_mkfs (large : FREE_SEC + 1 < nsec) : Stored nsec (mkfs nsec) := by
  refine ⟨sound_mkfs large, ⟨rfl, trivial⟩, fun f member => ?_⟩
  obtain rfl := List.mem_singleton.mp member
  exact ⟨⟨0, [⟨FREE_SEC + 1, nsec - (FREE_SEC + 1)⟩]⟩, by simp [mkfs], rfl, fun _ member => member⟩

theorem stored_run (large : FREE_SEC + 1 < nsec)
    (run : Reaches (Store.Step debug) (KeepsNodes debug) (mkfs nsec) s) : Stored nsec s := by
  refine run.invariant (stored_mkfs large) ?_
  rintro s c s' stored keeps ⟨r, call, rfl⟩
  exact (stored.call call (keeps r call)).2

end

/-- **In every run in which no node runs empty while the list is compressed, the list that
`init_block` would load ends, has only sectors that are nodes of the list and no sector that a
caller holds: between calls, and after any number of the writes of a call.** -/
theorem crash_safe {debug : Bool} {nsec : ℕ} {s : Store} (large : FREE_SEC + 1 < nsec)
    (run : Reaches (Store.Step debug) (KeepsNodes debug) (mkfs nsec) s) :
    Loads s.disk (nodeSectors s.chain) s.held ∧
      ∀ c r, KeepsNodes debug s c → s.call debug c = some r → ∀ n m, n ≤ m →
        Loads (applyAll (r.writes.take n) s.disk) (nodesAt (nodeSectors s.chain) (r.writes.take m))
          (s.heldDuring c) := by
  have stored := stored_run large run
  refine ⟨stored.ready.loads stored.flushed, fun c r keeps call n m le => ?_⟩
  exact (stored.call call (keeps r call)).1.loads n m le

/-- A list of several nodes, loaded from the disk. -/
theorem crash_safe_split : ∃ s : Store,
    s.chain.map (fun f => (f.frThis, f.fNext, f.fNfree)) =
      [(2, 4, 30), (4, 66, 31), (66, 0, 1)] ∧ Loads s.disk (nodeSectors s.chain) s.held := by
  obtain ⟨s, made, chain⟩ := Option.map_eq_some_iff.mp calls_splits
  exact ⟨s, chain, (crash_safe (by decide)
    (reaches_calls (fun s c r call quiet => (keeps_of_quiet s c r call quiet).1)
      (Reaches.refl (mkfs 200)) made)).1⟩

/-- **The node before one that ran empty keeps linking to its sector on the disk, and the sector is
given to a caller.** -/
theorem loads_held_sector : ∃ s, Reaches (Store.Step true) Transition.Any (mkfs 300) s ∧
    4 ∈ s.held ∧ ¬ Loads s.disk (nodeSectors s.chain) s.held := by
  obtain ⟨s, run, -, link, none_, held⟩ := reaches_empties
  obtain ⟨image, first, next⟩ := Option.map_eq_some_iff.mp link
  refine ⟨s, run, held, ?_⟩
  rintro ⟨k, loaded, load, -⟩
  match k with
  | 0 => cases load
  | 1 => simp [initBlock, FREE_SEC, first] at load
  | k + 2 => simp [initBlock, FREE_SEC, first, next, none_] at load

end Vsta.Vstafs.FreeList
