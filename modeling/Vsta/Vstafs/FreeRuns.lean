import Vsta.Vstafs.FreeBlock
import Vsta.Library.Runs

/-!
# Every run of the free list

Calls of `alloc_block`, `take_block` and `free_block` from the list that `mkfs` writes. In every run
the extents ascend and no node has more than it can hold. A node that runs empty is taken out of
the chain in core, but the node before it keeps linking to its sector: in every run without that
each node links to the next (`free_list_in_order`). And where `move_forward` finds that extents
meet, it drops the length of the first: in every run without that every sector is accounted for
(`sectors_accounted`).
-/

set_option autoImplicit false

namespace Vsta.Vstafs.FreeList

open Bytes (Alloc SECSZ sectors sectors_nil sectors_cons sectors_append length_run run_split)
open Transition (Reaches)

/-! ## What allocations leave -/

/-- A chain gives a run of sectors away. -/
structure Gives (run : List ℕ) (chain chain' : List Node) : Prop where
  takes : TakenOut run (freeSectors chain) (freeSectors chain')
  solid : Solid (extents chain) → Solid (extents chain')
  fits : Fits chain → Fits chain'
  nodes : nodeSectors chain' = nodeSectors chain
  linked : Linked chain → Linked chain'

/-- An allocation that finds nothing gives nothing. -/
theorem gives_nothing (chain : List Node) : Gives [] chain chain :=
  ⟨TakenOut.nothing _, id, id, rfl, id⟩

theorem Allocates.gives {run : List ℕ} {ret : ℕ} {chain : List Node} {t : Taken}
    (allocates : Allocates run ret chain t) : t.ret = ret ∧ Gives run chain t.chain := by
  obtain ⟨before, f, f', after, rfl, shrinks, rfl⟩ := allocates
  refine ⟨rfl, ?_, fun solid => ?_, fun fits g member => ?_, ?_,
    fun linked => linked.exchange shrinks.this_eq shrinks.next_eq⟩
  · simp only [freeSectors_append, freeSectors_cons]
    exact (shrinks.takes.front _).behind _
  · simp only [extents_append, extents_cons, solid_append] at solid ⊢
    exact ⟨solid.1, shrinks.solid solid.2.1, solid.2.2⟩
  · rcases List.mem_append.mp member with early | late
    · exact fits g (List.mem_append_left _ early)
    · rcases List.mem_cons.mp late with rfl | late
      · exact le_trans shrinks.fewer (fits f (List.mem_append_right _ List.mem_cons_self))
      · exact fits g (List.mem_append_right _ (List.mem_cons_of_mem _ late))
  · simp only [nodeSectors, List.map_append, List.map_cons, shrinks.this_eq]

theorem Gives.inUse_eq {run : List ℕ} {chain chain' : List Node} (gives : Gives run chain chain') :
    inUse chain = inUse chain' + run := by
  rw [inUse, inUse, gives.takes.coe_eq, gives.nodes]
  abel

theorem Gives.ascends {run : List ℕ} {chain chain' : List Node} (gives : Gives run chain chain')
    (ascends : Ascending (extents chain)) : Ascending (extents chain') := by
  obtain ⟨solid, ascends⟩ := ascending_iff.mp ascends
  exact ascending_iff.mpr ⟨gives.solid solid, ascends.sublist gives.takes.sublist⟩

/-! ## What every call leaves -/

/-- The sectors that `mkfs` makes the free list of. -/
def managed (nsec : ℕ) : Multiset ℕ := (List.range' FREE_SEC (nsec - FREE_SEC) : List ℕ)

theorem nodup_managed (nsec : ℕ) : (managed nsec).Nodup :=
  Multiset.coe_nodup.mpr List.nodup_range'

theorem zero_not_managed (nsec : ℕ) : 0 ∉ managed nsec := by
  simp [managed, List.mem_range'_1, FREE_SEC]

/-- What holds of every state: the list is in order, no node has too many extents, and no sector
is in two places. -/
structure Sound (nsec : ℕ) (s : Store) : Prop where
  ascends : Ascending (extents s.chain)
  fits : Fits s.chain
  within : inUse s.chain + s.lost + s.held ≤ managed nsec
  head : s.chain.head?.map Node.frThis = some FREE_SEC

/-- What a call does to the list, the lost sectors and those that are held. -/
structure Effect (s : Store) (r : Result) : Prop where
  ascends : Ascending (extents r.store.chain)
  fits : Fits r.store.chain
  total_le : inUse r.store.chain + r.store.lost + r.store.held ≤ inUse s.chain + s.lost + s.held
  total_eq : r.border = false →
    inUse r.store.chain + r.store.lost + r.store.held = inUse s.chain + s.lost + s.held
  head : r.store.chain.head?.map Node.frThis = s.chain.head?.map Node.frThis
  nodes : r.removed = [] → ∃ new, nodeSectors r.store.chain = nodeSectors s.chain ++ new
  linked : r.removed = [] → Linked s.chain → Linked r.store.chain

section
variable {debug : Bool} {nsec : ℕ} {s s' : Store} {r : Result}

theorem Sound.nodup (sound : Sound nsec s) : (inUse s.chain + s.lost + s.held).Nodup :=
  Multiset.nodup_of_le sound.within (nodup_managed nsec)

/-- Sector 0 is not on the list. -/
theorem Sound.zero_not_inUse (sound : Sound nsec s) : 0 ∉ inUse s.chain := fun member =>
  zero_not_managed nsec (Multiset.mem_of_le sound.within
    (Multiset.mem_add.mpr (.inl (Multiset.mem_add.mpr (.inl member)))))

/-- The sectors of a chain that gives a run to a caller are accounted for. -/
theorem Sound.gives (sound : Sound nsec s) {d nblk : ℕ} {t : Taken}
    (gives : Gives (⟨d, nblk⟩ : Alloc).run s.chain t.chain) : Effect s (s.taken d nblk t) := by
  have total : inUse t.chain + s.lost + (s.held + ((⟨d, nblk⟩ : Alloc).run : List ℕ)) =
      inUse s.chain + s.lost + s.held := by
    rw [gives.inUse_eq]
    abel
  have head : t.chain.head?.map Node.frThis = s.chain.head?.map Node.frThis := by
    rw [← List.head?_map, ← List.head?_map]
    exact congrArg List.head? gives.nodes
  exact ⟨gives.ascends sound.ascends, gives.fits sound.fits, total.le, fun _ => total, head,
    fun _ => ⟨[], by rw [List.append_nil]; exact gives.nodes⟩, fun _ => gives.linked⟩

/-- `alloc_block` finds nothing, or returns the start of a run that was free. -/
theorem Sound.allocBlock (sound : Sound nsec s) (nblk : ℕ) :
    allocBlock nblk s.chain = ⟨0, s.chain, []⟩ ∨
      ∃ d, Allocates (⟨d, nblk⟩ : Alloc).run d s.chain (allocBlock nblk s.chain) ∧
        (allocBlock nblk s.chain).ret = d ∧ (if d = 0 then 0 else nblk) = nblk := by
  rcases allocBlock_cases nblk s.chain with nothing | ⟨d, allocates⟩
  · exact .inl nothing
  · obtain ⟨ret, gives⟩ := allocates.gives
    refine .inr ⟨d, allocates, ret, ?_⟩
    split_ifs with none_
    · by_contra some_
      refine sound.zero_not_inUse ?_
      rw [gives.inUse_eq]
      exact Multiset.mem_add.mpr (.inr (mem_run.mpr ⟨by simp [none_], by simp only; omega⟩))
    · rfl

theorem Sound.alloc (sound : Sound nsec s) {nblk : ℕ}
    (call : s.call debug (.alloc nblk) = some r) : Effect s r := by
  simp only [Store.call, Option.some.injEq] at call
  subst call
  rcases sound.allocBlock nblk with nothing | ⟨d, allocates, ret, some_⟩
  · rw [nothing]
    exact sound.gives (gives_nothing _)
  · rw [ret, some_]
    exact sound.gives allocates.gives.2

theorem Sound.take (sound : Sound nsec s) {d nblk : ℕ}
    (call : s.call debug (.take d nblk) = some r) : Effect s r := by
  simp only [Store.call, Option.some.injEq] at call
  subst call
  refine sound.gives ?_
  rcases takeBlock_cases d nblk s.chain with nothing | ⟨got, allocates⟩
  · rw [nothing]
    exact gives_nothing _
  · obtain ⟨ret, gives⟩ := allocates.gives
    rw [ret]
    exact gives

/-- What is freed is held, so it is not on the list. -/
theorem Sound.frees (sound : Sound nsec s) {d nblk k : ℕ} {kept : ℕ → ℕ → Bool} {freed : Freed}
    (some_ : 0 < nblk) (held : ((⟨d, nblk⟩ : Alloc).run : Multiset ℕ) ≤ s.held)
    (free : freeBlock debug kept k s.chain d nblk = some freed) :
    Frees s.chain (⟨d, nblk⟩ : Alloc).run freed := by
  rw [freeBlock, if_neg (by simp only [not_and]; omega)] at free
  have frees := freeLoop_frees free some_ sound.ascends sound.fits ?_
  · simpa using frees
  · refine Multiset.nodup_of_le ?_ sound.nodup
    rw [Multiset.coe_nil, zero_add, add_assoc]
    gcongr
    exact le_trans held (Multiset.le_add_left _ _)

theorem Sound.free (sound : Sound nsec s) {d nblk k : ℕ} {kept : ℕ → ℕ → Bool}
    (call : s.call debug (.free d nblk kept k) = some r) : Effect s r := by
  rw [Store.call] at call
  split_ifs at call with legal
  obtain ⟨some_, held⟩ := legal
  obtain ⟨freed, free, rfl⟩ := Option.map_eq_some_iff.mp call
  have frees := sound.frees some_ held free
  obtain ⟨left, rest⟩ : ∃ left, s.held = left + ((⟨d, nblk⟩ : Alloc).run : List ℕ) :=
    ⟨_, (Multiset.add_sub_cancel held).symm⟩
  have after : inUse freed.chain + (s.lost + freed.lost) + left =
      inUse freed.chain + freed.lost + (s.lost + left) := by
    abel
  have before : inUse s.chain + s.lost + s.held =
      inUse s.chain + ((⟨d, nblk⟩ : Alloc).run : List ℕ) + (s.lost + left) := by
    rw [rest]
    abel
  refine ⟨frees.ascends, frees.fits, ?_, fun none_ => ?_, frees.head, frees.nodes, frees.linked⟩
  · simp only [rest, Multiset.add_sub_cancel_right]
    rw [after, ← rest, before]
    exact add_le_add_left frees.inUse_le _
  · simp only [rest, Multiset.add_sub_cancel_right]
    rw [after, ← rest, before, frees.inUse_eq none_]

/-- **What every call leaves.** -/
theorem Sound.effect (sound : Sound nsec s) {c : Call} (call : s.call debug c = some r) :
    Effect s r := by
  cases c with
  | alloc => exact sound.alloc call
  | take => exact sound.take call
  | free => exact sound.free call

theorem Sound.after (sound : Sound nsec s) (effect : Effect s r) : Sound nsec r.store :=
  ⟨effect.ascends, effect.fits, le_trans effect.total_le sound.within,
    effect.head.trans sound.head⟩

/-! ## Runs -/

/-- Every sector is on the list, lost or held by a caller. -/
def Accounted (nsec : ℕ) (s : Store) : Prop :=
  (freeSectors s.chain : Multiset ℕ) + nodeSectors s.chain + s.lost + s.held = managed nsec

theorem accounted_mkfs (large : FREE_SEC + 1 < nsec) : Accounted nsec (mkfs nsec) := by
  have split := List.range'_append_1 (s := FREE_SEC) (m := 1) (n := nsec - (FREE_SEC + 1))
  rw [show 1 + (nsec - (FREE_SEC + 1)) = nsec - FREE_SEC by omega] at split
  rw [Accounted, managed, ← split, ← Multiset.coe_add,
    add_comm (List.range' FREE_SEC 1 : Multiset ℕ)]
  simp [mkfs, freeSectors, nodeSectors, sectors, Alloc.run]

theorem sound_mkfs (large : FREE_SEC + 1 < nsec) : Sound nsec (mkfs nsec) := by
  refine ⟨⟨?_, ?_⟩, ?_, (accounted_mkfs large).le, rfl⟩
  · simp only [mkfs, extents_cons, extents_nil, List.append_nil, solid_cons, solid_nil, and_true]
    omega
  · simp [mkfs]
  · simp [mkfs, Fits, Node.fNfree, NALLOC, SECSZ]

/-- **In every run the extents ascend, no node has more than it holds, and no sector is in two
places.** -/
theorem sound_run {guard : Store → Call → Prop} (large : FREE_SEC + 1 < nsec)
    (run : Reaches (Store.Step debug) guard (mkfs nsec) s) : Sound nsec s := by
  refine run.invariant (sound_mkfs large) ?_
  rintro s c s' sound - ⟨r, call, rfl⟩
  exact sound.after (sound.effect call)

/-- No node runs empty while the list is compressed. -/
def KeepsNodes (debug : Bool) (s : Store) (c : Call) : Prop :=
  ∀ r, s.call debug c = some r → r.removed = []

/-- `move_forward` finds no extents that meet at a border between two nodes. -/
def KeepsBorders (debug : Bool) (s : Store) (c : Call) : Prop :=
  ∀ r, s.call debug c = some r → r.border = false

/-- The list in core: extents not empty, ascending and disjoint along the chain, in nodes that have
no more than they hold and link to the next. -/
structure InOrder (s : Store) : Prop where
  ascends : Ascending (extents s.chain)
  fits : Fits s.chain
  linked : Linked s.chain

theorem inOrder_mkfs (large : FREE_SEC + 1 < nsec) : InOrder (mkfs nsec) :=
  ⟨(sound_mkfs large).ascends, (sound_mkfs large).fits, rfl, trivial⟩

theorem inOrder_run (large : FREE_SEC + 1 < nsec)
    (run : Reaches (Store.Step debug) (KeepsNodes debug) (mkfs nsec) s) : InOrder s := by
  refine run.invariant_on_run (inOrder_mkfs large) ?_
  rintro s c s' before inOrder keeps ⟨r, call, rfl⟩
  have effect := (sound_run large before).effect call
  exact ⟨effect.ascends, effect.fits, effect.linked (keeps r call) inOrder.linked⟩

theorem accounted_run (large : FREE_SEC + 1 < nsec)
    (run : Reaches (Store.Step debug) (KeepsBorders debug) (mkfs nsec) s) : Accounted nsec s := by
  refine run.invariant_on_run (accounted_mkfs large) ?_
  rintro s c s' before accounted keeps ⟨r, call, rfl⟩
  exact (((sound_run large before).effect call).total_eq (keeps r call)).trans accounted

/-- Calls whose results are `ok` make a run. -/
theorem reaches_calls {guard : Store → Call → Prop} {ok : Result → Bool} {calls : List Call}
    {start : Store} (meets : ∀ s c r, s.call debug c = some r → ok r = true → guard s c)
    (run : Reaches (Store.Step debug) guard start s)
    (made : s.calls debug ok calls = some s') : Reaches (Store.Step debug) guard start s' := by
  induction calls generalizing s with
  | nil =>
      obtain rfl := Option.some.inj made
      exact run
  | cons c rest ih =>
      obtain ⟨r, call, made⟩ := Option.bind_eq_some_iff.mp made
      split_ifs at made with good
      exact ih (run.tail (meets s c r call good) ⟨r, call, rfl⟩) made

/-- A result of a call that empties no node and finds no extents that meet. -/
def Result.quiet (r : Result) : Bool := r.removed == [] && !r.border

theorem keeps_of_quiet (s : Store) (c : Call) (r : Result) (call : s.call debug c = some r)
    (quiet : r.quiet = true) : KeepsNodes debug s c ∧ KeepsBorders debug s c := by
  obtain ⟨none_, apart⟩ := Bool.and_eq_true_iff.mp quiet
  constructor
  · intro r' call'
    rw [call, Option.some.injEq] at call'
    subst call'
    exact eq_of_beq none_
  · intro r' call'
    rw [call, Option.some.injEq] at call'
    subst call'
    simpa using apart

end

/-! ## Claims about every run -/

/-- `queue_free` finds memory. -/
def keepAll : ℕ → ℕ → Bool := fun _ _ => true

/-- Sectors that lie apart are freed one by one. -/
def frees (first count : ℕ) : List Call :=
  (List.range count).map fun i => .free (first + 2 * i) 1 keepAll 50

/-- Sectors that lie apart are taken one by one. -/
def takes (first count : ℕ) : List Call :=
  (List.range count).map fun i => .take (first + 2 * i) 1

/-- **In every run in which no node runs empty while the list is compressed, the list in core is in
order: the extents ascend, nodes have no more than they hold, and each links to the next.** -/
theorem free_list_in_order {debug : Bool} {nsec : ℕ} {s : Store} (large : FREE_SEC + 1 < nsec)
    (run : Reaches (Store.Step debug) (KeepsNodes debug) (mkfs nsec) s) :
    (Solid (extents s.chain) ∧
      (extents s.chain).Pairwise fun a b => a.aStart + a.aLen ≤ b.aStart) ∧
      (∀ f ∈ s.chain, f.fNfree ≤ NALLOC) ∧ Linked s.chain :=
  have inOrder := inOrder_run large run
  ⟨inOrder.ascends, inOrder.fits, inOrder.linked⟩

/-- Sectors are freed until the only node is full and is split. -/
def splits : List Call := .alloc 127 :: frees 4 63

theorem calls_splits :
    ((mkfs 200).calls true Result.quiet splits).map
      (fun s => s.chain.map fun f => (f.frThis, f.fNext, f.fNfree)) =
      some [(2, 4, 30), (4, 66, 31), (66, 0, 1)] := by decide +kernel

/-- A list of several nodes that is in order. -/
theorem free_list_in_order_split : ∃ s : Store,
    s.chain.map (fun f => (f.frThis, f.fNext, f.fNfree)) =
      [(2, 4, 30), (4, 66, 31), (66, 0, 1)] ∧ Linked s.chain := by
  obtain ⟨s, made, chain⟩ := Option.map_eq_some_iff.mp calls_splits
  exact ⟨s, chain, (free_list_in_order (by decide)
    (reaches_calls (fun s c r call quiet => (keeps_of_quiet s c r call quiet).1)
      (Reaches.refl (mkfs 200)) made)).2.2⟩

/-- The second node of the list is emptied while the third is split, and its sector is given to
a caller. -/
def empties : List Call :=
  splits ++ .alloc 66 :: frees 130 33 ++ takes 6 20 ++ takes 70 20 ++ .alloc 66 :: frees 196 33 ++
    [.alloc 1]

theorem calls_empties :
    ((mkfs 300).calls true (fun _ => true) empties).map
      (fun s => (s.chain.map (fun f => (f.frThis, f.fNext)), (s.disk 2).map Image.fNext, s.disk 4,
        decide (4 ∈ s.held))) =
      some ([(2, 4), (66, 132), (132, 0)], some 4, none, true) := by decide +kernel

theorem reaches_empties : ∃ s, Reaches (Store.Step true) Transition.Any (mkfs 300) s ∧
    s.chain.map (fun f => (f.frThis, f.fNext)) = [(2, 4), (66, 132), (132, 0)] ∧
    (s.disk 2).map Image.fNext = some 4 ∧ s.disk 4 = none ∧ 4 ∈ s.held := by
  obtain ⟨s, made, eq⟩ := Option.map_eq_some_iff.mp calls_empties
  simp only [Prod.mk.injEq, decide_eq_true_eq] at eq
  exact ⟨s, reaches_calls (fun _ _ _ _ _ => trivial) (Reaches.refl _) made, eq⟩

/-- **The node before one that ran empty keeps linking to it.** -/
theorem links_to_removed : ∃ s, Reaches (Store.Step true) Transition.Any (mkfs 300) s ∧
    ¬ Linked s.chain := by
  obtain ⟨s, run, chain, -⟩ := reaches_empties
  refine ⟨s, run, fun linked => ?_⟩
  obtain ⟨f, rest, eq, first, behind⟩ := List.map_eq_cons_iff.mp chain
  obtain ⟨g, more, rfl, second, -⟩ := List.map_eq_cons_iff.mp behind
  rw [eq] at linked
  have link : f.fNext = g.frThis := linked.1
  rw [(Prod.mk.inj first).2, (Prod.mk.inj second).1] at link
  cases link

/-- **In every run in which `move_forward` finds no extents that meet at a border, every sector is
in one place: free, a node of the list, lost or held. What `alloc_block` returns was free, and
`free_block` adds the run it is given to the sectors of the list and those that are lost, and
nothing else.** -/
theorem sectors_accounted {debug : Bool} {nsec : ℕ} {s : Store} (large : FREE_SEC + 1 < nsec)
    (run : Reaches (Store.Step debug) (KeepsBorders debug) (mkfs nsec) s) :
    ((freeSectors s.chain : Multiset ℕ) + nodeSectors s.chain + s.lost + s.held = managed nsec ∧
      (managed nsec).Nodup) ∧
      (∀ n r, s.call debug (.alloc n) = some r → r.ret ≠ 0 →
        TakenOut (⟨r.ret, n⟩ : Alloc).run (freeSectors s.chain) (freeSectors r.store.chain) ∧
          nodeSectors r.store.chain = nodeSectors s.chain ∧ r.store.lost = s.lost ∧
          r.store.held = s.held + (⟨r.ret, n⟩ : Alloc).run) ∧
      ∀ d n kept k r, KeepsBorders debug s (.free d n kept k) →
        s.call debug (.free d n kept k) = some r →
        (freeSectors r.store.chain : Multiset ℕ) + nodeSectors r.store.chain + r.store.lost =
          freeSectors s.chain + nodeSectors s.chain + s.lost + (⟨d, n⟩ : Alloc).run ∧
          r.store.held + (⟨d, n⟩ : Alloc).run = s.held := by
  have sound := sound_run large run
  refine ⟨⟨accounted_run large run, nodup_managed nsec⟩, fun n r call some_ => ?_,
    fun d n kept k r keeps call => ?_⟩
  · simp only [Store.call, Option.some.injEq] at call
    subst call
    change (allocBlock n s.chain).ret ≠ 0 at some_
    rcases sound.allocBlock n with nothing | ⟨d, allocates, ret, -⟩
    · exact absurd (by rw [nothing]) some_
    · have gives := allocates.gives.2
      rw [← ret] at gives
      rw [if_neg some_]
      exact ⟨gives.takes, gives.nodes, rfl, rfl⟩
  · have total := (sound.effect call).total_eq (keeps r call)
    have held : r.store.held + (⟨d, n⟩ : Alloc).run = s.held := by
      rw [Store.call] at call
      split_ifs at call with legal
      obtain ⟨freed, -, rfl⟩ := Option.map_eq_some_iff.mp call
      exact Multiset.add_sub_cancel legal.2
    refine ⟨?_, held⟩
    rw [← held, add_comm r.store.held, ← add_assoc] at total
    exact add_right_cancel total

/-- Every sector of a list of several nodes is accounted for. -/
theorem sectors_accounted_split : ∃ s : Store,
    s.chain.map (fun f => (f.frThis, f.fNext, f.fNfree)) =
      [(2, 4, 30), (4, 66, 31), (66, 0, 1)] ∧
    (freeSectors s.chain : Multiset ℕ) + nodeSectors s.chain + s.lost + s.held = managed 200 := by
  obtain ⟨s, made, chain⟩ := Option.map_eq_some_iff.mp calls_splits
  exact ⟨s, chain, (sectors_accounted (by decide)
    (reaches_calls (fun s c r call quiet => (keeps_of_quiet s c r call quiet).2)
      (Reaches.refl (mkfs 200)) made)).1.1⟩

/-- A full node is split in front of one that its last extent meets. -/
def borders : List Call :=
  .alloc 127 :: frees 4 62 ++ .alloc 66 :: frees 130 33 ++
    [.free 195 1 keepAll 50, .free 128 1 keepAll 50]

theorem calls_borders :
    ((mkfs 400).calls true (fun _ => true) borders).map
      (fun s => (freeSectors s.chain).length + s.chain.length + Multiset.card s.lost +
        Multiset.card s.held) =
      some 396 := by decide +kernel

/-- **Where extents meet at a border two of 398 sectors are in no place any more.** -/
theorem border_loses : ∃ s, Reaches (Store.Step true) Transition.Any (mkfs 400) s ∧
    (freeSectors s.chain : Multiset ℕ) + nodeSectors s.chain + s.lost + s.held ≠ managed 400 := by
  obtain ⟨s, made, count⟩ := Option.map_eq_some_iff.mp calls_borders
  refine ⟨s, reaches_calls (fun _ _ _ _ _ => trivial) (Reaches.refl _) made, fun total => ?_⟩
  have cards := congrArg Multiset.card total
  simp only [Multiset.card_add, Multiset.coe_card, managed, List.length_range',
    show (nodeSectors s.chain).length = s.chain.length from List.length_map _] at cards
  rw [count] at cards
  cases cards

end Vsta.Vstafs.FreeList
