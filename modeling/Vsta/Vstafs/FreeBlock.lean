import Vsta.Vstafs.Compress

/-!
# Giving sectors back to the free list

`free_block` finds the node an extent belongs to and puts the extent there, compresses the list when
the node is full, and goes on with the sectors of the nodes that ran empty. The extents ascend
throughout; every sector is accounted for unless extents met at a border.
-/

set_option autoImplicit false

namespace Vsta.Vstafs.FreeList

open Bytes (Alloc SECSZ sectors sectors_nil sectors_cons sectors_append length_run run_split)

/-! ## The node an extent belongs to -/

theorem ascending_append {es more : List Alloc} :
    Ascending (es ++ more) ↔ Ascending es ∧ Ascending more ∧
      ∀ a ∈ es, ∀ b ∈ more, a.aStart + a.aLen ≤ b.aStart := by
  simp only [Ascending, solid_append, List.pairwise_append]
  tauto

theorem Ascending.tail {a : Alloc} {rest : List Alloc} (ascends : Ascending (a :: rest)) :
    Ascending rest :=
  ⟨(solid_cons.mp ascends.1).2, (List.pairwise_cons.mp ascends.2).2⟩

/-- The first extent starts before every sector. -/
theorem Ascending.first_le {a : Alloc} {rest : List Alloc} (ascends : Ascending (a :: rest))
    {x : ℕ} (member : x ∈ sectors (a :: rest)) : a.aStart ≤ x := by
  obtain ⟨b, here, inside⟩ := mem_sectors.mp member
  rcases List.mem_cons.mp here with rfl | behind
  · exact (mem_run.mp inside).1
  · have apart := (List.pairwise_cons.mp ascends.2).1 b behind
    have := (mem_run.mp inside).1
    omega

/-- The first extent has the least start. -/
theorem Ascending.first_start {a b : Alloc} {rest : List Alloc} (ascends : Ascending (a :: rest))
    (member : b ∈ a :: rest) : a.aStart ≤ b.aStart := by
  rcases List.mem_cons.mp member with rfl | behind
  · exact le_rfl
  · exact le_trans (Nat.le_add_right _ _) ((List.pairwise_cons.mp ascends.2).1 b behind)

/-- The last extent has the greatest start. -/
theorem Ascending.last_start {a last : Alloc} {es : List Alloc} (ascends : Ascending es)
    (end_ : es.getLast? = some last) (member : a ∈ es) : a.aStart ≤ last.aStart := by
  have whole := List.dropLast_append_getLast? last end_
  rw [← whole] at ascends member
  rcases List.mem_append.mp member with before | here
  · have apart := (ascending_append.mp ascends).2.2 a before last (by simp)
    exact le_trans (Nat.le_add_right _ _) apart
  · rw [List.mem_singleton.mp here]

/-- The scan stays with the node before, or stops at a node with the extents up to `d` in front of
it and those from `d` on behind it. -/
def Sought (d : ℕ) (chain : List Node) (i ff found : ℕ) : Prop :=
  (found = ff ∧ ∀ a ∈ extents chain, d < a.aStart) ∨
    ∃ before f after, chain = before ++ f :: after ∧ found = i + before.length ∧
      (∀ a ∈ extents before, a.aStart ≤ d) ∧ ∀ a ∈ extents after, d < a.aStart

/-- The scan goes on behind a node whose extents start up to `d`. -/
theorem Sought.cons {d : ℕ} {f : Node} {rest : List Node} {i ff found : ℕ}
    (sought : Sought d rest (i + 1) i found) (front : ∀ a ∈ f.fFree, a.aStart ≤ d) :
    Sought d (f :: rest) i ff found := by
  rcases sought with ⟨rfl, behind⟩ | ⟨before, g, after, rfl, rfl, upTo, behind⟩
  · exact .inr ⟨[], f, rest, rfl, rfl, by simp, behind⟩
  · refine .inr ⟨f :: before, g, after, rfl, ?_, fun a member => ?_, behind⟩
    · simp only [List.length_cons]
      omega
    · rw [extents_cons] at member
      rcases List.mem_append.mp member with here | there
      · exact front a here
      · exact upTo a there

theorem seek_sought (d : ℕ) {chain : List Node} (ascends : Ascending (extents chain)) (i ff : ℕ) :
    Sought d chain i ff (seek d chain i ff) := by
  induction chain generalizing i ff with
  | nil => exact .inl ⟨rfl, by simp⟩
  | cons f rest ih =>
      rw [extents_cons] at ascends
      obtain ⟨ascendsF, ascendsRest, apart⟩ := ascending_append.mp ascends
      rw [seek.eq_def]
      cases free : f.fFree with
      | nil =>
          simp only [free]
          exact (ih ascendsRest (i + 1) i).cons (by simp [free])
      | cons first more =>
          obtain ⟨last, end_⟩ : ∃ last, (first :: more).getLast? = some last :=
            ⟨_, List.getLast?_eq_some_getLast (by simp)⟩
          have lastMem : last ∈ f.fFree := by
            rw [free]
            exact List.mem_of_getLast? end_
          simp only [free, end_]
          split_ifs with before within
          · refine .inl ⟨rfl, fun a member => ?_⟩
            rw [extents_cons, free] at member
            rw [free] at ascends
            exact lt_of_lt_of_le before (ascends.first_start member)
          · refine .inr ⟨[], f, rest, rfl, rfl, by simp, fun a member => ?_⟩
            have behind := apart last lastMem a member
            omega
          · refine (ih ascendsRest (i + 1) i).cons fun a member => ?_
            have upTo := ascendsF.last_start (free ▸ end_) member
            omega

/-- **`free_block` finds a node with the extents up to `d` in front of it and those from `d` on
behind it.** -/
theorem seek_finds (d : ℕ) {chain : List Node} (ascends : Ascending (extents chain))
    (some_ : chain ≠ []) :
    ∃ before f after, chain = before ++ f :: after ∧ seek d chain 0 0 = before.length ∧
      (∀ a ∈ extents before, a.aStart ≤ d) ∧ ∀ a ∈ extents after, d < a.aStart := by
  rcases seek_sought d ascends 0 0 with ⟨found, behind⟩ | ⟨before, f, after, eq, found, around⟩
  · obtain ⟨f, rest, rfl⟩ := List.exists_cons_of_ne_nil some_
    refine ⟨[], f, rest, rfl, found, by simp, fun a member => behind a ?_⟩
    rw [extents_cons]
    exact List.mem_append_right _ member
  · exact ⟨before, f, after, eq, by rw [found, Nat.zero_add], around⟩

/-! ## An extent is put in -/

/-- A run comes into a node's extents, behind what is less and in front of what is more. -/
structure PutIn (d nblk : ℕ) (room : Bool) (es es' : List Alloc) : Prop where
  sectors_eq : ∃ before after, sectors es = before ++ after ∧
    sectors es' = before ++ ((⟨d, nblk⟩ : Alloc).run ++ after) ∧ (∀ x ∈ before, x < d) ∧
      ∀ x ∈ after, d < x
  solid : Solid es'
  length : es'.length ≤ es.length + if room then 1 else 0

/-- Put in behind an extent that ends before the run. -/
theorem PutIn.cons {d nblk : ℕ} {room : Bool} {a : Alloc} {es es' : List Alloc}
    (put : PutIn d nblk room es es') (some_ : 0 < a.aLen) (front : a.aStart + a.aLen ≤ d) :
    PutIn d nblk room (a :: es) (a :: es') := by
  obtain ⟨before, after, eq, eq', less, more⟩ := put.sectors_eq
  refine ⟨⟨a.run ++ before, after, ?_, ?_, fun x member => ?_, more⟩, ?_, ?_⟩
  · rw [sectors_cons, eq, List.append_assoc]
  · rw [sectors_cons, eq', List.append_assoc]
  · rcases List.mem_append.mp member with here | there
    · exact lt_of_lt_of_le (mem_run.mp here).2 front
    · exact less x there
  · exact solid_cons.mpr ⟨some_, put.solid⟩
  · have length := put.length
    simp only [List.length_cons]
    omega

/-- Put in before every extent. -/
theorem putIn_front {d nblk : ℕ} {room : Bool} {a : Alloc} {rest es' : List Alloc}
    (ascends : Ascending (a :: rest)) (before : d < a.aStart)
    (eq : sectors es' = (⟨d, nblk⟩ : Alloc).run ++ sectors (a :: rest)) (solid : Solid es')
    (length : es'.length ≤ (a :: rest).length + if room then 1 else 0) :
    PutIn d nblk room (a :: rest) es' :=
  ⟨⟨[], sectors (a :: rest), rfl, eq, by simp,
    fun _ member => lt_of_lt_of_le before (ascends.first_le member)⟩, solid, length⟩

/-- Put in at the end of an extent, which may join the next. -/
theorem putIn_end {d nblk : ℕ} {room : Bool} {a : Alloc} {rest rest' : List Alloc}
    (ascends : Ascending (a :: rest)) (end_ : a.aStart + a.aLen = d) (some_ : 0 < nblk)
    (apart : ∀ x ∈ (⟨d, nblk⟩ : Alloc).run, x ∉ sectors (a :: rest)) (more : ℕ)
    (eq : (⟨d, nblk + more⟩ : Alloc).run ++ sectors rest' =
      (⟨d, nblk⟩ : Alloc).run ++ sectors rest)
    (solid : Solid rest') (length : rest'.length ≤ rest.length) :
    PutIn d nblk room (a :: rest) (⟨a.aStart, a.aLen + nblk + more⟩ :: rest') := by
  obtain ⟨positive, -⟩ := solid_cons.mp ascends.1
  refine ⟨⟨a.run, sectors rest, rfl, ?_, fun x member => ?_, fun x member => ?_⟩, ?_, ?_⟩
  · have split := run_split a.aStart a.aLen (nblk + more)
    rw [end_] at split
    rw [sectors_cons, ← eq, ← List.append_assoc, Nat.add_assoc, split]
  · rw [← end_]
    exact (mem_run.mp member).2
  · obtain ⟨b, behind, inside⟩ := mem_sectors.mp member
    have order := (List.pairwise_cons.mp ascends.2).1 b behind
    have start := (mem_run.mp inside).1
    have other : x ≠ d := by
      rintro rfl
      exact apart x (mem_run.mpr ⟨le_rfl, by simp only; omega⟩)
        (by rw [sectors_cons]; exact List.mem_append_right _ member)
    omega
  · exact solid_cons.mpr ⟨by simp only; omega, solid⟩
  · simp only [List.length_cons]
    omega

/-- **`free_chunk` puts a run that is not on the list in its place, or finds the node full.** -/
theorem freeChunk_puts (room : Bool) {d nblk : ℕ} {es : List Alloc} (ascends : Ascending es)
    (some_ : 0 < nblk) (apart : ∀ x ∈ (⟨d, nblk⟩ : Alloc).run, x ∉ sectors es) :
    (room = false ∧ freeChunk room d nblk es = some .full) ∨
      ∃ es', freeChunk room d nblk es = some (.done es') ∧ PutIn d nblk room es es' := by
  have first : d ∈ (⟨d, nblk⟩ : Alloc).run := mem_run.mpr ⟨le_rfl, by simp only; omega⟩
  induction es with
  | nil =>
      cases room with
      | false => exact .inl ⟨rfl, rfl⟩
      | true =>
          refine .inr ⟨[⟨d, nblk⟩], rfl, ⟨[], [], rfl, by simp, by simp, by simp⟩, ?_, by simp⟩
          simpa [Solid] using some_
  | cons a rest ih =>
      obtain ⟨positive, solidRest⟩ := solid_cons.mp ascends.1
      have outside : ¬ (a.aStart ≤ d ∧ d < a.aStart + a.aLen) := fun inside =>
        apart d first (by rw [sectors_cons]; exact List.mem_append_left _ (mem_run.mpr inside))
      rw [freeChunk.eq_def]
      simp only
      rw [if_neg (by omega)]
      by_cases abuts : a.aStart = d + nblk
      · rw [if_pos abuts]
        refine .inr ⟨_, rfl, putIn_front ascends (by omega) ?_ ?_ (by simp)⟩
        · have split := run_split d nblk a.aLen
          rw [← abuts] at split
          rw [sectors_cons, sectors_cons, ← List.append_assoc, Nat.add_comm a.aLen, split]
        · exact solid_cons.mpr ⟨by simp only; omega, solidRest⟩
      rw [if_neg abuts]
      by_cases end_ : a.aStart + a.aLen = d
      · rw [if_pos end_]
        cases rest with
        | nil =>
            exact .inr ⟨_, rfl, putIn_end ascends end_ some_ apart 0 rfl solid_nil le_rfl⟩
        | cons b rest =>
            by_cases joins : b.aStart = d + nblk
            · refine .inr ⟨_, if_pos joins,
                putIn_end ascends end_ some_ apart _ ?_ (solid_cons.mp solidRest).2 (by simp)⟩
              have split := run_split d nblk b.aLen
              rw [← joins] at split
              rw [sectors_cons, split, List.append_assoc]
            · exact .inr ⟨_, if_neg joins,
                putIn_end ascends end_ some_ apart 0 rfl solidRest le_rfl⟩
      rw [if_neg end_]
      by_cases before : d < a.aStart
      · rw [if_pos before]
        cases room with
        | false => exact .inl ⟨rfl, rfl⟩
        | true =>
            refine .inr ⟨_, rfl, putIn_front ascends before (sectors_cons _ _) ?_ (by simp)⟩
            exact solid_cons.mpr ⟨some_, ascends.1⟩
      · rw [if_neg before]
        have behind : ∀ x ∈ (⟨d, nblk⟩ : Alloc).run, x ∉ sectors rest := fun x member there =>
          apart x member (by rw [sectors_cons]; exact List.mem_append_right _ there)
        rcases ih ascends.tail behind with ⟨full, eq⟩ | ⟨es', eq, put⟩
        · exact .inl ⟨full, by rw [eq]; rfl⟩
        · exact .inr ⟨a :: es', by rw [eq]; rfl, put.cons positive (by omega)⟩

/-! ## The chain with the run in its place -/

/-- A node with more room in its place. -/
theorem set_eq_append (before : List Node) (f f' : Node) (after : List Node) :
    (before ++ f :: after).set before.length f' = before ++ f' :: after := by
  simp

/-- What `free_block` does when the node has room. -/
structure Puts (d nblk : ℕ) (chain chain' : List Node) : Prop where
  inUse_eq : inUse chain' = inUse chain + (⟨d, nblk⟩ : Alloc).run
  ascends : Ascending (extents chain')
  fits : Fits chain → Fits chain'
  nodes : nodeSectors chain' = nodeSectors chain
  linked : Linked chain → Linked chain'

theorem nodeSectors_append (chain more : List Node) :
    nodeSectors (chain ++ more) = nodeSectors chain ++ nodeSectors more := by
  simp [nodeSectors]

/-- Links do not depend on the extents of a node. -/
theorem Linked.exchange {before : List Node} {f f' : Node} {after : List Node}
    (this_eq : f'.frThis = f.frThis) (next_eq : f'.fNext = f.fNext)
    (linked : Linked (before ++ f :: after)) : Linked (before ++ f' :: after) := by
  induction before with
  | nil => exact ⟨next_eq.trans linked.1, linked.2⟩
  | cons g before ih =>
      obtain ⟨link, linked⟩ := linked
      refine ⟨link.trans ?_, ih linked⟩
      cases before with
      | nil => exact this_eq.symm
      | cons => rfl

theorem inUse_append (chain more : List Node) :
    inUse (chain ++ more) = inUse chain + inUse more := by
  rw [inUse, inUse, inUse, freeSectors_append, nodeSectors_append, ← Multiset.coe_add,
    ← Multiset.coe_add]
  abel

/-- **An extent put into the node it belongs to leaves the list ascending.** -/
theorem putIn_puts {d nblk : ℕ} {before : List Node} {f : Node} {after : List Node}
    {free : List Alloc} (ascends : Ascending (extents (before ++ f :: after))) (some_ : 0 < nblk)
    (apart : ∀ x ∈ (⟨d, nblk⟩ : Alloc).run, x ∉ freeSectors (before ++ f :: after))
    (upTo : ∀ a ∈ extents before, a.aStart ≤ d) (behind : ∀ a ∈ extents after, d < a.aStart)
    (put : PutIn d nblk (f.fNfree < NALLOC) f.fFree free) :
    Puts d nblk (before ++ f :: after) (before ++ { f with fFree := free } :: after) := by
  obtain ⟨less, more, eq, eq', isLess, isMore⟩ := put.sectors_eq
  have first : d ∈ (⟨d, nblk⟩ : Alloc).run := mem_run.mpr ⟨le_rfl, by simp only; omega⟩
  have node : freeSectors (before ++ f :: after) =
      freeSectors before ++ (less ++ (more ++ freeSectors after)) := by
    rw [freeSectors_append, freeSectors_cons, eq, List.append_assoc]
  have node' : freeSectors (before ++ { f with fFree := free } :: after) =
      freeSectors before ++ (less ++ ((⟨d, nblk⟩ : Alloc).run ++ (more ++ freeSectors after))) := by
    rw [freeSectors_append, freeSectors_cons, eq']
    simp only [List.append_assoc]
  have front : ∀ x ∈ freeSectors before ++ less, x < d := by
    intro x member
    rcases List.mem_append.mp member with early | here
    · obtain ⟨a, there, inside⟩ := mem_sectors.mp early
      have start := upTo a there
      have outside : ¬ (a.aStart ≤ d ∧ d < a.aStart + a.aLen) := fun inside =>
        apart d first (by
          rw [freeSectors_append]
          exact List.mem_append_left _ (mem_sectors.mpr ⟨a, there, mem_run.mpr inside⟩))
      have end_ := mem_run.mp inside
      omega
    · exact isLess x here
  have back : ∀ x ∈ more ++ freeSectors after, d < x := by
    intro x member
    rcases List.mem_append.mp member with here | late
    · exact isMore x here
    · obtain ⟨a, there, inside⟩ := mem_sectors.mp late
      exact lt_of_lt_of_le (behind a there) (mem_run.mp inside).1
  have outside : ∀ x ∈ more ++ freeSectors after, d + nblk ≤ x := by
    intro x member
    have larger := back x member
    by_contra inside
    refine apart x (mem_run.mpr ⟨larger.le, by simp only; omega⟩) ?_
    rw [node]
    exact List.mem_append_right _ (List.mem_append_right _ member)
  constructor
  case inUse_eq =>
      rw [inUse, inUse, node, node', nodeSectors_append, nodeSectors_append]
      simp only [← Multiset.coe_add]
      rw [show nodeSectors ({ f with fFree := free } :: after) = nodeSectors (f :: after) from rfl]
      abel
  case ascends =>
      obtain ⟨solid, ascends⟩ := ascending_iff.mp ascends
      refine ascending_iff.mpr ⟨?_, ?_⟩
      · rw [extents_append, extents_cons, solid_append, solid_append] at solid ⊢
        exact ⟨solid.1, put.solid, solid.2.2⟩
      · change (freeSectors _).Pairwise _ at ascends
        change (freeSectors _).Pairwise _
        rw [node, ← List.append_assoc, List.pairwise_append] at ascends
        rw [node', ← List.append_assoc]
        refine List.pairwise_append.mpr ⟨ascends.1, List.pairwise_append.mpr
          ⟨run_ascends _, ascends.2.1, fun x here y there => ?_⟩, fun x here y there => ?_⟩
        · exact lt_of_lt_of_le (mem_run.mp here).2 (outside y there)
        · rcases List.mem_append.mp there with inside | late
          · exact lt_of_lt_of_le (front x here) (mem_run.mp inside).1
          · exact ascends.2.2 x here y late
  case fits =>
      intro fits g member
      rcases List.mem_append.mp member with early | late
      · exact fits g (List.mem_append_left _ early)
      · rcases List.mem_cons.mp late with rfl | late
        · have length := put.length
          have most := fits f (List.mem_append_right _ List.mem_cons_self)
          rw [Node.fNfree] at *
          simp only
          split_ifs at length with room
          · have room := of_decide_eq_true room
            omega
          · omega
        · exact fits g (List.mem_append_right _ (List.mem_cons_of_mem _ late))
  case nodes => rw [nodeSectors_append, nodeSectors_append]; rfl
  case linked => exact fun linked => Linked.exchange (f := f) rfl rfl linked

/-! ## `free_block` -/

/-- What `free_block` leaves of a chain, with sectors pending and a run to be freed. -/
structure Frees (chain : List Node) (more : Multiset ℕ) (r : Freed) : Prop where
  ascends : Ascending (extents r.chain)
  fits : Fits r.chain
  inUse_le : inUse r.chain + r.lost ≤ inUse chain + more
  inUse_eq : r.border = false → inUse r.chain + r.lost = inUse chain + more
  head : r.chain.head?.map Node.frThis = chain.head?.map Node.frThis
  nodes : r.removed = [] → ∃ new, nodeSectors r.chain = nodeSectors chain ++ new
  linked : r.removed = [] → Linked chain → Linked r.chain

/-- The sectors removed are kept or lost. -/
theorem removed_split (removed : List ℕ) (kept : ℕ → Bool) :
    (removed : Multiset ℕ) =
      (removed.filter kept : List ℕ) + (removed.filter (fun sec => !kept sec) : List ℕ) := by
  rw [Multiset.coe_add, Multiset.coe_eq_coe]
  exact (List.filter_append_perm kept removed).symm

/-- Sectors that are not on the list twice are not on it. -/
theorem not_free_of_nodup {chain : List Node} {more : Multiset ℕ} {run : List ℕ}
    (nodup : (inUse chain + (more + run)).Nodup) : ∀ x ∈ run, x ∉ freeSectors chain := by
  intro x member free
  have apart := (Multiset.nodup_add.mp nodup).2.2
  exact Multiset.disjoint_left.mp apart (Multiset.mem_add.mpr (.inl free))
    (Multiset.mem_add.mpr (.inr member))

/-- `free_block` has put an extent in, with nothing pending. -/
theorem frees_last {chain chain' : List Node} {d nblk : ℕ} (puts : Puts d nblk chain chain')
    (fits : Fits chain) (writes : List Write) :
    Frees chain (0 + (⟨d, nblk⟩ : Alloc).run) ⟨chain', [], [], false, writes⟩ := by
  have head : chain'.head?.map Node.frThis = chain.head?.map Node.frThis := by
    rw [← List.head?_map, ← List.head?_map]
    exact congrArg List.head? puts.nodes
  refine ⟨puts.ascends, puts.fits fits, ?_, fun _ => ?_, head,
    fun _ => ⟨[], by rw [puts.nodes, List.append_nil]⟩, fun _ => puts.linked⟩
  · rw [puts.inUse_eq, zero_add, Multiset.coe_nil, add_zero]
  · rw [puts.inUse_eq, zero_add, Multiset.coe_nil, add_zero]

/-- `free_block` has put an extent in, and goes on. -/
theorem Frees.put {chain chain' : List Node} {d nblk : ℕ} {pend : Multiset ℕ} {r : Freed}
    (puts : Puts d nblk chain chain') (frees : Frees chain' pend r) (writes : List Write) :
    Frees chain (pend + (⟨d, nblk⟩ : Alloc).run) { r with writes := writes } := by
  have sum : inUse chain' + pend = inUse chain + (pend + (⟨d, nblk⟩ : Alloc).run) := by
    rw [puts.inUse_eq]
    abel
  have head : chain'.head?.map Node.frThis = chain.head?.map Node.frThis := by
    rw [← List.head?_map, ← List.head?_map]
    exact congrArg List.head? puts.nodes
  refine ⟨frees.ascends, frees.fits, ?_, fun none_ => ?_, frees.head.trans head, fun none_ => ?_,
    fun none_ linked => frees.linked none_ (puts.linked linked)⟩
  · rw [← sum]
    exact frees.inUse_le
  · rw [← sum]
    exact frees.inUse_eq none_
  · rw [← puts.nodes]
    exact frees.nodes none_

/-- The list has been compressed, and `free_block` goes on. -/
theorem Frees.compressed {chain : List Node} {c : Compressed} {more : Multiset ℕ} {r : Freed}
    {kept : ℕ → Bool} (compresses : Compresses chain c)
    (frees : Frees c.chain (more + (c.removed.filter kept : List ℕ)) r) (writes : List Write) :
    Frees chain more
      ⟨r.chain, c.removed.filter (fun sec => !kept sec) ++ r.lost, c.removed ++ r.removed,
        c.border || r.border, writes⟩ := by
  have lost : inUse r.chain + ↑(c.removed.filter (fun sec => !kept sec) ++ r.lost) =
      inUse r.chain + r.lost + (c.removed.filter (fun sec => !kept sec) : List ℕ) := by
    rw [← Multiset.coe_add]
    abel
  have sum : inUse c.chain + (more + (c.removed.filter kept : List ℕ)) +
      (c.removed.filter (fun sec => !kept sec) : List ℕ) =
      inUse c.chain + c.removed + more := by
    rw [removed_split c.removed kept]
    abel
  constructor
  case ascends => exact frees.ascends
  case fits => exact frees.fits
  case inUse_le =>
      rw [lost]
      refine (add_le_add_left frees.inUse_le _).trans ?_
      rw [sum]
      gcongr
      exact compresses.inUse_le
  case inUse_eq =>
      intro none_
      obtain ⟨here, later⟩ := Bool.or_eq_false_iff.mp none_
      rw [lost, frees.inUse_eq later, sum, compresses.inUse_eq here]
  case head => exact frees.head.trans compresses.head
  case nodes =>
      intro none_
      obtain ⟨here, later⟩ := List.append_eq_nil_iff.mp none_
      obtain ⟨newC, eqC⟩ := compresses.nodes here
      obtain ⟨newR, eqR⟩ := frees.nodes later
      exact ⟨newC ++ newR, by rw [eqR, eqC, List.append_assoc]⟩
  case linked =>
      intro none_ linked
      obtain ⟨here, later⟩ := List.append_eq_nil_iff.mp none_
      exact frees.linked later (compresses.linked here linked)

/-- Compressing keeps the list ascending. -/
theorem Compresses.ascends {chain : List Node} {c : Compressed} (compresses : Compresses chain c)
    (ascends : Ascending (extents chain)) : Ascending (extents c.chain) := by
  obtain ⟨solid, ascends⟩ := ascending_iff.mp ascends
  exact ascending_iff.mpr ⟨compresses.solid solid, ascends.sublist compresses.sublist⟩

/-- One round of `free_block`: the list is compressed and the round made again, or the extent is
put in, and the last sector pending is next. -/
inductive Round (debug : Bool) (kept : ℕ → ℕ → Bool) (k : ℕ) (chain : List Node) (pend : List ℕ)
    (d nblk : ℕ) : Freed → Prop
  | compressed (c : Compressed) (r : Freed) (compresses : Compresses chain c)
      (later : freeLoop debug kept k c.chain (pend ++ c.removed.filter (kept k)) d nblk = some r) :
      Round debug kept k chain pend d nblk
        ⟨r.chain, c.removed.filter (fun sec => !kept k sec) ++ r.lost, c.removed ++ r.removed,
          c.border || r.border, writeFreelist c.chain none c.chain ++ r.writes⟩
  | last (before : List Node) (f : Node) (after : List Node) (free : List Alloc)
      (eq : chain = before ++ f :: after) (none_ : pend = [])
      (put : PutIn d nblk (f.fNfree < NALLOC) f.fFree free)
      (puts : Puts d nblk chain (before ++ { f with fFree := free } :: after)) :
      Round debug kept k chain pend d nblk
        ⟨before ++ { f with fFree := free } :: after, [], [], false,
          if debug then [writeSec (before ++ { f with fFree := free } :: after)
            { f with fFree := free }] else []⟩
  | more (before : List Node) (f : Node) (after : List Node) (free : List Alloc) (d' : ℕ)
      (r : Freed) (eq : chain = before ++ f :: after) (next : pend.getLast? = some d')
      (put : PutIn d nblk (f.fNfree < NALLOC) f.fFree free)
      (puts : Puts d nblk chain (before ++ { f with fFree := free } :: after))
      (later : freeLoop debug kept k (before ++ { f with fFree := free } :: after) pend.dropLast
        d' 1 = some r) :
      Round debug kept k chain pend d nblk
        { r with
          writes := (if debug then [writeSec (before ++ { f with fFree := free } :: after)
            { f with fFree := free }] else []) ++ r.writes }

/-- **A round of `free_block`, for sectors that are not on the list.** -/
theorem freeLoop_round {debug : Bool} {kept : ℕ → ℕ → Bool} {k : ℕ} {chain : List Node}
    {pend : List ℕ} {d nblk : ℕ} {r : Freed}
    (free : freeLoop debug kept (k + 1) chain pend d nblk = some r) (some_ : 0 < nblk)
    (ascends : Ascending (extents chain)) (fits : Fits chain)
    (apart : ∀ x ∈ (⟨d, nblk⟩ : Alloc).run, x ∉ freeSectors chain) :
    Round debug kept k chain pend d nblk r := by
  rw [freeLoop] at free
  simp only at free
  have there : chain ≠ [] := by
    rintro rfl
    simp at free
  obtain ⟨before, f, after, rfl, found, upTo, behind⟩ := seek_finds d ascends there
  have ascendsF : Ascending f.fFree := by
    rw [extents_append, extents_cons] at ascends
    exact (ascending_append.mp (ascending_append.mp ascends).2.1).1
  have apartF : ∀ x ∈ (⟨d, nblk⟩ : Alloc).run, x ∉ sectors f.fFree := by
    intro x member here
    refine apart x member ?_
    rw [freeSectors_append, freeSectors_cons]
    exact List.mem_append_right _ (List.mem_append_left _ here)
  simp only [found, List.getElem?_append_right le_rfl, Nat.sub_self, List.getElem?_cons_zero,
    set_eq_append] at free
  rcases freeChunk_puts (f.fNfree < NALLOC) ascendsF some_ apartF with
    ⟨-, full⟩ | ⟨es', done, put⟩
  · rw [full] at free
    simp only at free
    cases compress : compressChain debug k (before ++ f :: after) with
    | none => simp [compress] at free
    | some c =>
        simp only [compress] at free
        split_ifs at free
        obtain ⟨r', later, rfl⟩ := Option.map_eq_some_iff.mp free
        exact .compressed c r' (compressChain_compresses compress fits) later
  · rw [done] at free
    simp only at free
    have puts := putIn_puts ascends some_ apart upTo behind put
    cases last : pend.getLast? with
    | none =>
        simp only [last, Option.some.injEq] at free
        subst free
        exact .last before f after es' rfl (List.getLast?_eq_none_iff.mp last) put puts
    | some d' =>
        simp only [last] at free
        obtain ⟨r', later, rfl⟩ := Option.map_eq_some_iff.mp free
        exact .more before f after es' d' r' rfl last put puts later

/-- What is pending is the last of it and the others. -/
theorem pending_eq {pend : List ℕ} {d : ℕ} (last : pend.getLast? = some d) :
    (pend : Multiset ℕ) = ↑pend.dropLast + ((⟨d, 1⟩ : Alloc).run : List ℕ) := by
  rw [Multiset.coe_add]
  exact congrArg _ (List.dropLast_append_getLast? d last).symm

/-- What is pending after the list has been compressed. -/
theorem pending_compressed (pend kept run : List ℕ) :
    (↑(pend ++ kept) : Multiset ℕ) + ↑run = ↑pend + ↑run + ↑kept := by
  rw [← Multiset.coe_add]
  abel

/-- Compressing adds no sector. -/
theorem Compresses.total_le {chain : List Node} {c : Compressed} (compresses : Compresses chain c)
    (kept : ℕ → Bool) (pend run : List ℕ) :
    inUse c.chain + (↑(pend ++ c.removed.filter kept) + ↑run) ≤ inUse chain + (↑pend + ↑run) := by
  rw [pending_compressed]
  calc inUse c.chain + (↑pend + ↑run + ↑(c.removed.filter kept))
      ≤ inUse c.chain + (↑pend + ↑run + ↑c.removed) := by
        gcongr
        exact Multiset.coe_le.mpr (List.filter_sublist).subperm
    _ = inUse c.chain + ↑c.removed + (↑pend + ↑run) := by abel
    _ ≤ inUse chain + (↑pend + ↑run) := by
        gcongr
        exact compresses.inUse_le

/-- Putting an extent in adds its sectors to the list. -/
theorem Puts.total_eq {chain chain' : List Node} {d nblk d' : ℕ} {pend : List ℕ}
    (puts : Puts d nblk chain chain') (last : pend.getLast? = some d') :
    inUse chain' + (↑pend.dropLast + ((⟨d', 1⟩ : Alloc).run : List ℕ)) =
      inUse chain + (↑pend + ((⟨d, nblk⟩ : Alloc).run : List ℕ)) := by
  rw [← pending_eq last, puts.inUse_eq]
  abel

/-- **`free_block` puts sectors that are not on the list in, and keeps the list in order, through
any compressing.** -/
theorem freeLoop_frees {debug : Bool} {kept : ℕ → ℕ → Bool} {k : ℕ} {chain : List Node}
    {pend : List ℕ} {d nblk : ℕ} {r : Freed}
    (free : freeLoop debug kept k chain pend d nblk = some r) (some_ : 0 < nblk)
    (ascends : Ascending (extents chain)) (fits : Fits chain)
    (nodup : (inUse chain + (pend + (⟨d, nblk⟩ : Alloc).run)).Nodup) :
    Frees chain (pend + (⟨d, nblk⟩ : Alloc).run) r := by
  induction k generalizing chain pend d nblk r with
  | zero => cases free
  | succ k ih =>
      have round := freeLoop_round free some_ ascends fits (not_free_of_nodup nodup)
      cases round with
      | compressed c r' compresses later =>
          have frees := ih later some_ (compresses.ascends ascends) (compresses.fits fits)
            (Multiset.nodup_of_le (compresses.total_le _ _ _) nodup)
          rw [pending_compressed] at frees
          exact frees.compressed compresses _
      | last before f after free' eq none_ put puts =>
          subst none_
          exact frees_last puts fits _
      | more before f after free' d' r' eq next put puts later =>
          have frees := ih later Nat.one_pos puts.ascends (puts.fits fits)
            (Multiset.nodup_of_le (puts.total_eq next).le nodup)
          rw [← pending_eq next] at frees
          exact frees.put puts _

end Vsta.Vstafs.FreeList
