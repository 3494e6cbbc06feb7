import Vsta.Vstafs.FreeList
import Mathlib.Data.List.Pairwise
import Mathlib.Algebra.Order.Group.Multiset
import Mathlib.Tactic.Abel

/-!
# The sectors of the free list

What each function of `alloc.c` does to the sectors of the extents, in the order of the list: an
allocation takes a run out, a free puts one in, and moving extents between nodes leaves the list
as it is, but for the sector of a new node and for what is lost where extents meet at a border. The
extents ascend exactly when they are not empty and their sectors ascend.
-/

set_option autoImplicit false

namespace Vsta.Vstafs.FreeList

open Bytes (Alloc SECSZ sectors sectors_nil sectors_cons sectors_append length_run run_split)

/-! ## Chains -/

/-- The extents of a chain. -/
def extents (chain : List Node) : List Alloc := chain.flatMap Node.fFree

/-- The sectors on the free list. -/
def freeSectors (chain : List Node) : List ℕ := sectors (extents chain)

/-- The sectors of the nodes. -/
def nodeSectors (chain : List Node) : List ℕ := chain.map Node.frThis

/-- No extent is empty. -/
def Solid (es : List Alloc) : Prop := ∀ a ∈ es, 0 < a.aLen

@[simp] theorem extents_nil : extents [] = [] := rfl

@[simp] theorem extents_cons (f : Node) (chain : List Node) :
    extents (f :: chain) = f.fFree ++ extents chain := rfl

@[simp] theorem extents_append (chain more : List Node) :
    extents (chain ++ more) = extents chain ++ extents more := by
  simp [extents]

@[simp] theorem freeSectors_nil : freeSectors [] = [] := rfl

@[simp] theorem freeSectors_cons (f : Node) (chain : List Node) :
    freeSectors (f :: chain) = sectors f.fFree ++ freeSectors chain := by
  simp [freeSectors]

@[simp] theorem freeSectors_append (chain more : List Node) :
    freeSectors (chain ++ more) = freeSectors chain ++ freeSectors more := by
  simp [freeSectors]

@[simp] theorem solid_nil : Solid [] := by simp [Solid]

@[simp] theorem solid_cons {a : Alloc} {es : List Alloc} :
    Solid (a :: es) ↔ 0 < a.aLen ∧ Solid es := by
  simp [Solid]

@[simp] theorem solid_append {es more : List Alloc} :
    Solid (es ++ more) ↔ Solid es ∧ Solid more := by
  simp only [Solid, List.mem_append]
  exact ⟨fun all => ⟨fun a here => all a (.inl here), fun a here => all a (.inr here)⟩,
    fun both a here => here.elim (both.1 a) (both.2 a)⟩

theorem mem_run {a : Alloc} {x : ℕ} : x ∈ a.run ↔ a.aStart ≤ x ∧ x < a.aStart + a.aLen := by
  simp [Alloc.run, List.mem_range'_1]

theorem run_ascends (a : Alloc) : a.run.Pairwise (· < ·) := List.pairwise_lt_range'

theorem mem_sectors {es : List Alloc} {x : ℕ} : x ∈ sectors es ↔ ∃ a ∈ es, x ∈ a.run := by
  simp [sectors]

/-- Extents one behind the other: none empty, strictly ascending and disjoint. -/
def Ascending (es : List Alloc) : Prop :=
  Solid es ∧ es.Pairwise fun a b => a.aStart + a.aLen ≤ b.aStart

/-- **Extents ascend exactly when none is empty and their sectors ascend.** -/
theorem ascending_iff {es : List Alloc} :
    Ascending es ↔ Solid es ∧ (sectors es).Pairwise (· < ·) := by
  refine and_congr_right fun solid => ?_
  induction es with
  | nil => simp
  | cons a rest ih =>
      obtain ⟨some_, solid⟩ := solid_cons.mp solid
      rw [List.pairwise_cons, sectors_cons, List.pairwise_append, ih solid]
      constructor
      · rintro ⟨behind, ascends⟩
        refine ⟨run_ascends a, ascends, fun x here y there => ?_⟩
        obtain ⟨b, member, inside⟩ := mem_sectors.mp there
        exact lt_of_lt_of_le (mem_run.mp here).2 (le_trans (behind b member) (mem_run.mp inside).1)
      · rintro ⟨-, ascends, apart⟩
        refine ⟨fun b member => ?_, ascends⟩
        have positive := solid b member
        have last := apart (a.aStart + a.aLen - 1) (mem_run.mpr ⟨by omega, by omega⟩) b.aStart
          (mem_sectors.mpr ⟨b, member, mem_run.mpr ⟨le_rfl, by omega⟩⟩)
        omega

/-! ## Taking sectors out of extents -/

/-- A run is taken out of a list of sectors. -/
def TakenOut (run sectors sectors' : List ℕ) : Prop :=
  ∃ before after, sectors = before ++ run ++ after ∧ sectors' = before ++ after

theorem TakenOut.behind {run ss ss' : List ℕ} (out : TakenOut run ss ss') (front : List ℕ) :
    TakenOut run (front ++ ss) (front ++ ss') := by
  obtain ⟨before, after, rfl, rfl⟩ := out
  exact ⟨front ++ before, after, by simp, by simp⟩

theorem TakenOut.front {run ss ss' : List ℕ} (out : TakenOut run ss ss') (behind : List ℕ) :
    TakenOut run (ss ++ behind) (ss' ++ behind) := by
  obtain ⟨before, after, rfl, rfl⟩ := out
  exact ⟨before, after ++ behind, by simp, by simp⟩

theorem TakenOut.sublist {run ss ss' : List ℕ} (out : TakenOut run ss ss') : ss'.Sublist ss := by
  obtain ⟨before, after, rfl, rfl⟩ := out
  rw [List.append_assoc]
  exact (List.sublist_append_right run after).append_left before

theorem TakenOut.coe_eq {run ss ss' : List ℕ} (out : TakenOut run ss ss') :
    (ss : Multiset ℕ) = run + ss' := by
  obtain ⟨before, after, rfl, rfl⟩ := out
  rw [Multiset.coe_add, Multiset.coe_eq_coe, List.append_assoc]
  exact (List.perm_append_comm_assoc before run after)

theorem TakenOut.nothing (ss : List ℕ) : TakenOut [] ss ss := ⟨[], ss, by simp, by simp⟩

/-- Taking the front of an extent. -/
theorem takenOut_front (a : Alloc) {nblk : ℕ} (fits : nblk ≤ a.aLen) (rest : List Alloc) :
    TakenOut (⟨a.aStart, nblk⟩ : Alloc).run (sectors (a :: rest))
      (sectors (if a.aLen - nblk = 0 then rest
        else ⟨a.aStart + nblk, a.aLen - nblk⟩ :: rest)) := by
  have split := run_split a.aStart nblk (a.aLen - nblk)
  rw [show nblk + (a.aLen - nblk) = a.aLen by omega] at split
  by_cases whole : a.aLen - nblk = 0
  · rw [if_pos whole]
    refine ⟨[], sectors rest, ?_, by simp⟩
    rw [show nblk = a.aLen by omega]
    rfl
  · rw [if_neg whole]
    refine ⟨[], sectors (⟨a.aStart + nblk, a.aLen - nblk⟩ :: rest), ?_, rfl⟩
    rw [sectors_cons, sectors_cons, show a.run = _ from split]
    simp

theorem allocChunk_takes {nblk d : ℕ} {es es' : List Alloc}
    (alloc : allocChunk nblk es = some (d, es')) :
    TakenOut (⟨d, nblk⟩ : Alloc).run (sectors es) (sectors es') ∧ (Solid es → Solid es') ∧
      es'.length ≤ es.length := by
  induction es generalizing es' with
  | nil => cases alloc
  | cons a rest ih =>
      rw [allocChunk] at alloc
      by_cases fits : nblk ≤ a.aLen
      · rw [if_pos fits, Option.some.injEq, Prod.mk.injEq] at alloc
        obtain ⟨rfl, rfl⟩ := alloc
        refine ⟨takenOut_front a fits rest, fun solid => ?_, ?_⟩
        · obtain ⟨-, solid⟩ := solid_cons.mp solid
          split_ifs
          · exact solid
          · exact solid_cons.mpr ⟨by simp only; omega, solid⟩
        · split_ifs <;> simp
      · rw [if_neg fits, Option.map_eq_some_iff] at alloc
        obtain ⟨⟨d', rest'⟩, alloc, eq⟩ := alloc
        obtain ⟨rfl, rfl⟩ := eq
        obtain ⟨out, solid, length⟩ := ih alloc
        exact ⟨out.behind a.run, fun all => solid_cons.mpr
          ⟨(solid_cons.mp all).1, solid (solid_cons.mp all).2⟩, by simpa using length⟩

theorem takeChunk_takes {d nsec got : ℕ} {es es' : List Alloc}
    (take : takeChunk d nsec es = some (got, es')) :
    TakenOut (⟨d, got⟩ : Alloc).run (sectors es) (sectors es') ∧ (Solid es → Solid es') ∧
      es'.length ≤ es.length := by
  induction es generalizing es' with
  | nil => cases take
  | cons a rest ih =>
      rw [takeChunk] at take
      by_cases here : d = a.aStart
      · subst here
        simp only [if_true, Option.some.injEq, Prod.mk.injEq] at take
        obtain ⟨rfl, rfl⟩ := take
        have fits := min_le_right nsec a.aLen
        have same : (min nsec a.aLen = a.aLen) ↔ (a.aLen - min nsec a.aLen = 0) := by omega
        simp only [same]
        refine ⟨takenOut_front a fits rest, fun solid => ?_, ?_⟩
        · obtain ⟨-, solid⟩ := solid_cons.mp solid
          split_ifs
          · exact solid
          · exact solid_cons.mpr ⟨by simp only; omega, solid⟩
        · split_ifs <;> simp
      · rw [if_neg here, Option.map_eq_some_iff] at take
        obtain ⟨⟨got', rest'⟩, take, eq⟩ := take
        obtain ⟨rfl, rfl⟩ := eq
        obtain ⟨out, solid, length⟩ := ih take
        exact ⟨out.behind a.run, fun all => solid_cons.mpr
          ⟨(solid_cons.mp all).1, solid (solid_cons.mp all).2⟩, by simpa using length⟩

/-- A node gives sectors away and stays what it is. -/
structure Shrinks (run : List ℕ) (f f' : Node) : Prop where
  this_eq : f'.frThis = f.frThis
  next_eq : f'.fNext = f.fNext
  takes : TakenOut run (sectors f.fFree) (sectors f'.fFree)
  solid : Solid f.fFree → Solid f'.fFree
  fewer : f'.fNfree ≤ f.fNfree

/-- An allocation finds nothing, or one node of the chain gives the sectors and is written. -/
def Allocates (run : List ℕ) (ret : ℕ) (chain : List Node) (t : Taken) : Prop :=
  ∃ before f f' after, chain = before ++ f :: after ∧ Shrinks run f f' ∧
    t = ⟨ret, before ++ f' :: after, [writeSec (before ++ f' :: after) f']⟩

theorem Allocates.cons {run : List ℕ} {ret : ℕ} {chain : List Node} {t : Taken}
    (allocates : Allocates run ret chain t) (f : Node) :
    Allocates run ret (f :: chain) (t.cons f) := by
  obtain ⟨before, g, g', after, rfl, shrinks, rfl⟩ := allocates
  exact ⟨f :: before, g, g', after, rfl, shrinks, rfl⟩

theorem allocBlock_cases (nblk : ℕ) (chain : List Node) :
    allocBlock nblk chain = ⟨0, chain, []⟩ ∨
      ∃ d, Allocates (⟨d, nblk⟩ : Alloc).run d chain (allocBlock nblk chain) := by
  induction chain with
  | nil => exact .inl rfl
  | cons f rest ih =>
      rw [allocBlock, Node.allocChunk]
      cases alloc : allocChunk nblk f.fFree with
      | none =>
          rcases ih with nothing | ⟨d, allocates⟩
          · exact .inl (by simp [nothing, Taken.cons])
          · exact .inr ⟨d, allocates.cons f⟩
      | some result =>
          obtain ⟨d, free⟩ := result
          obtain ⟨takes, solid, fewer⟩ := allocChunk_takes alloc
          exact .inr ⟨d, [], f, { f with fFree := free, slot0 := ⟨d, 0⟩ }, rest, rfl,
            ⟨rfl, rfl, takes, solid, fewer⟩, rfl⟩

theorem takeBlock_cases (d nsec : ℕ) (chain : List Node) :
    takeBlock d nsec chain = ⟨0, chain, []⟩ ∨
      ∃ got, Allocates (⟨d, got⟩ : Alloc).run got chain (takeBlock d nsec chain) := by
  induction chain with
  | nil => exact .inl rfl
  | cons f rest ih =>
      have behind : (takeBlock d nsec rest).cons f = ⟨0, f :: rest, []⟩ ∨
          ∃ got, Allocates (⟨d, got⟩ : Alloc).run got (f :: rest)
            ((takeBlock d nsec rest).cons f) := by
        rcases ih with nothing | ⟨got, allocates⟩
        · exact .inl (by simp [nothing, Taken.cons])
        · exact .inr ⟨got, allocates.cons f⟩
      rw [takeBlock.eq_def]
      cases free : f.fFree with
      | nil => simpa only [free] using behind
      | cons first more =>
          have last : ∃ last, (first :: more).getLast? = some last :=
            ⟨_, List.getLast?_eq_some_getLast (by simp)⟩
          obtain ⟨last, lastEq⟩ := last
          simp only [free, lastEq]
          split_ifs with before after
          · exact .inl rfl
          · exact behind
          · cases take : takeChunk d nsec (first :: more) with
            | none => exact .inl rfl
            | some result =>
                obtain ⟨got, left⟩ := result
                obtain ⟨takes, solid, fewer⟩ := takeChunk_takes take
                refine .inr ⟨got, [], f, { f with fFree := left, slot0 := first }, rest, rfl,
                  ⟨rfl, rfl, ?_, ?_, ?_⟩, rfl⟩
                · rwa [free]
                · rwa [free]
                · rwa [Node.fNfree, Node.fNfree, free]

/-! ## Moving extents forward -/

/-- The sectors of the list: those that are free and those of the nodes. -/
def inUse (chain : List Node) : Multiset ℕ := freeSectors chain + nodeSectors chain

theorem inUse_cons (f : Node) (chain : List Node) :
    inUse (f :: chain) = sectors f.fFree + {f.frThis} + inUse chain := by
  have nodes : (nodeSectors (f :: chain) : Multiset ℕ) = {f.frThis} + nodeSectors chain := by
    simp [nodeSectors, Multiset.singleton_add]
  rw [inUse, inUse, freeSectors_cons, ← Multiset.coe_add, nodes]
  abel

/-- The sector of the node in front, 0 for none. -/
def nextSec (chain : List Node) : ℕ := (chain.head?.map Node.frThis).getD 0

/-- Every node links to the sector of the next, the last to none. -/
def Linked : List Node → Prop
  | [] => True
  | f :: rest => f.fNext = nextSec rest ∧ Linked rest

/-- No node has more extents than its sector holds. -/
def Fits (chain : List Node) : Prop := ∀ f ∈ chain, f.fNfree ≤ NALLOC

theorem fits_cons {f : Node} {chain : List Node} :
    Fits (f :: chain) ↔ f.fNfree ≤ NALLOC ∧ Fits chain := by
  simp [Fits]

/-- Where extents meet at a border, what is left of both are the sectors from the start of the
first, as many as the second had. -/
theorem meets_sectors {ffrom fto : List Alloc} (border : meets ffrom fto = true) :
    ffrom ≠ [] ∧
      (sectors ffrom.dropLast ++ sectors (takeStart ffrom fto)).Sublist
        (sectors ffrom ++ sectors fto) ∧
      (Solid fto → Solid (takeStart ffrom fto)) ∧ (takeStart ffrom fto).length = fto.length := by
  rw [meets.eq_def] at border
  cases last : ffrom.getLast? with
  | none => simp [last] at border
  | some a =>
      cases fto with
      | nil => simp [last] at border
      | cons b tail =>
          simp only [last, beq_iff_eq] at border
          have front := List.dropLast_append_getLast? a last
          refine ⟨by rintro rfl; simp at last, ?_, by simp [takeStart], by simp [takeStart]⟩
          have joined : a.run ++ b.run =
              (⟨a.aStart, b.aLen⟩ : Alloc).run ++ (⟨a.aStart + b.aLen, a.aLen⟩ : Alloc).run := by
            have one := run_split a.aStart a.aLen b.aLen
            have two := run_split a.aStart b.aLen a.aLen
            rw [border] at one
            rw [← two, Nat.add_comm b.aLen, one]
          have sectors_eq : sectors ffrom = sectors ffrom.dropLast ++ a.run := by
            conv_lhs => rw [← front]
            simp
          rw [sectors_eq, takeStart, last, sectors_cons, sectors_cons, List.append_assoc,
            ← List.append_assoc a.run, joined, List.append_assoc]
          refine List.Sublist.append_left ?_ _
          exact List.Sublist.append_left (List.sublist_append_right _ _) _

/-- What the check for extents that meet leaves of the two nodes and the count. -/
structure Bordered (from_ to_ : Node) (cnt : ℕ) (border : Bool) (ffrom : List Alloc) (to' : Node)
    (cnt' : ℕ) : Prop where
  this_eq : to'.frThis = to_.frThis
  next_eq : to'.fNext = to_.fNext
  sublist : (sectors ffrom ++ sectors to'.fFree).Sublist
    (sectors from_.fFree ++ sectors to_.fFree)
  same : border = false →
    sectors ffrom ++ sectors to'.fFree = sectors from_.fFree ++ sectors to_.fFree
  solidFrom : Solid from_.fFree → Solid ffrom
  solidTo : Solid to_.fFree → Solid to'.fFree
  nfree_eq : to'.fNfree = to_.fNfree
  fewer : ffrom.length - cnt' ≤ from_.fNfree - cnt
  cnt_le : cnt' ≤ cnt

theorem bordered (from_ to_ : Node) (cnt : ℕ) :
    let border := meets from_.fFree to_.fFree
    Bordered from_ to_ cnt border
      (if border then from_.fFree.dropLast else from_.fFree)
      (if border then { to_ with fFree := takeStart from_.fFree to_.fFree } else to_)
      (if border then cnt - 1 else cnt) := by
  intro border
  cases here : border with
  | false =>
      simp only [Bool.false_eq_true, if_false]
      exact ⟨rfl, rfl, List.Sublist.refl _, fun _ => rfl, id, id, rfl, le_rfl, le_rfl⟩
  | true =>
      simp only [if_true]
      obtain ⟨some_, sublist, solid, length⟩ := meets_sectors here
      have positive := List.length_pos_iff.mpr some_
      refine ⟨rfl, rfl, sublist, by simp,
        fun all a member => all a (List.mem_of_mem_dropLast member), solid, length, ?_,
        Nat.sub_le _ _⟩
      simp only [List.length_dropLast, Node.fNfree]
      omega

/-- What `move_forward` leaves of a node and the chain behind it. -/
structure Forward (from_ : Node) (rest : List Node) (cnt : ℕ) (m : Moved) : Prop where
  this_eq : m.from_.frThis = from_.frThis
  sublist : (freeSectors (m.from_ :: m.rest)).Sublist (freeSectors (from_ :: rest))
  inUse_le : inUse (m.from_ :: m.rest) ≤ inUse (from_ :: rest)
  inUse_eq : m.border = false → inUse (m.from_ :: m.rest) = inUse (from_ :: rest)
  solid : Solid (extents (from_ :: rest)) → Solid (extents (m.from_ :: m.rest))
  nodes : ∃ new, nodeSectors m.rest = nodeSectors rest ++ new
  linked : Linked (from_ :: rest) → Linked (m.from_ :: m.rest)
  fewer : m.from_.fNfree ≤ from_.fNfree - cnt
  fits : cnt ≤ NALLOC → Fits rest → Fits m.rest

/-- At the end of the list: a new node. -/
theorem moveForward_new {debug : Bool} {from_ : Node} {cnt : ℕ} {m : Moved}
    (move : moveForward debug from_ [] cnt = some m) : Forward from_ [] cnt m := by
  rw [moveForward] at move
  split_ifs at move
  cases alloc : from_.allocChunk 1 with
  | none => simp [alloc] at move
  | some result =>
      obtain ⟨d, f⟩ := result
      obtain ⟨⟨d', free⟩, alloc', eq⟩ := Option.map_eq_some_iff.mp alloc
      obtain ⟨rfl, rfl⟩ := eq
      obtain ⟨takes, solid, fewer⟩ := allocChunk_takes alloc'
      simp only [alloc, Option.some.injEq] at move
      subst move
      have rejoin (keep : ℕ) : sectors (free.take keep) ++ sectors (free.drop keep) =
          sectors free := by
        rw [← sectors_append, List.take_append_drop]
      have account (keep : ℕ) (slot : Alloc) :
          inUse [{ from_ with fNext := d, fFree := free.take keep, slot0 := slot },
            ⟨d, 0, free.drop keep, ⟨0, 0⟩⟩] = inUse [from_] := by
        have one : ((⟨d, 1⟩ : Alloc).run : Multiset ℕ) = {d} := rfl
        simp only [inUse_cons, takes.coe_eq, one, ← rejoin keep, ← Multiset.coe_add]
        abel
      refine ⟨rfl, ?_, le_of_eq (account _ _), fun _ => account _ _, fun all => ?_, ⟨[d], rfl⟩,
        fun _ => ⟨rfl, rfl, trivial⟩, ?_, fun small _ => ?_⟩
      · simpa [rejoin] using takes.sublist
      · have left : Solid free := solid (by simpa using all)
        simp only [extents_cons, extents_nil, List.append_nil, List.take_append_drop, left]
      · simp only [Node.fNfree, List.length_take] at *
        omega
      · refine fits_cons.mpr ⟨?_, by simp [Fits]⟩
        simp only [Node.fNfree, List.length_drop]
        omega

/-- Nothing is moved. -/
theorem forward_nothing (from_ : Node) (rest : List Node) :
    Forward from_ rest 0 ⟨from_, rest, false⟩ :=
  ⟨rfl, List.Sublist.refl _, le_rfl, fun _ => rfl, id, ⟨[], by simp⟩, id, le_rfl, fun _ => id⟩

/-- One step of `move_forward`, after the next node has made room. -/
theorem forward_cons {from_ to_ to' : Node} {rest : List Node} {cnt cnt' : ℕ} {border : Bool}
    {ffrom : List Alloc} {p : Moved} (out : Bordered from_ to_ cnt border ffrom to' cnt')
    (forward : Forward to' rest (to'.fNfree + cnt' - NALLOC) p) :
    Forward from_ (to_ :: rest) cnt
      ⟨{ from_ with fFree := ffrom.take (ffrom.length - cnt') },
        { p.from_ with fFree := ffrom.drop (ffrom.length - cnt') ++ p.from_.fFree } :: p.rest,
        border || p.border⟩ := by
  have rejoin : sectors (ffrom.take (ffrom.length - cnt')) ++
      sectors (ffrom.drop (ffrom.length - cnt')) = sectors ffrom := by
    rw [← sectors_append, List.take_append_drop]
  have free : freeSectors (({ from_ with fFree := ffrom.take (ffrom.length - cnt') } : Node) ::
      { p.from_ with fFree := ffrom.drop (ffrom.length - cnt') ++ p.from_.fFree } :: p.rest) =
      sectors ffrom ++ freeSectors (p.from_ :: p.rest) := by
    simp only [freeSectors_cons, sectors_append, ← rejoin, List.append_assoc]
  have nodes : nodeSectors (({ from_ with fFree := ffrom.take (ffrom.length - cnt') } : Node) ::
      { p.from_ with fFree := ffrom.drop (ffrom.length - cnt') ++ p.from_.fFree } :: p.rest) =
      from_.frThis :: nodeSectors (p.from_ :: p.rest) := rfl
  have account : inUse (({ from_ with fFree := ffrom.take (ffrom.length - cnt') } : Node) ::
      { p.from_ with fFree := ffrom.drop (ffrom.length - cnt') ++ p.from_.fFree } :: p.rest) =
      sectors ffrom + {from_.frThis} + inUse (p.from_ :: p.rest) := by
    rw [inUse, free, nodes, inUse, ← Multiset.coe_add, ← Multiset.cons_coe,
      ← Multiset.singleton_add]
    abel
  have before : inUse (from_ :: to_ :: rest) =
      ↑(sectors from_.fFree ++ sectors to_.fFree) + {from_.frThis} + {to_.frThis} +
        inUse rest := by
    rw [inUse_cons, inUse_cons, ← Multiset.coe_add]
    abel
  have between : ↑(sectors ffrom) + {from_.frThis} + inUse (to' :: rest) =
      ↑(sectors ffrom ++ sectors to'.fFree) + {from_.frThis} + {to_.frThis} + inUse rest := by
    rw [inUse_cons, ← Multiset.coe_add, out.this_eq]
    abel
  constructor
  case this_eq => rfl
  case sublist =>
      rw [free]
      refine (forward.sublist.append_left _).trans ?_
      rw [freeSectors_cons, freeSectors_cons, freeSectors_cons, ← List.append_assoc,
        ← List.append_assoc]
      exact out.sublist.append_right _
  case inUse_le =>
      rw [account, before]
      refine (add_le_add_right forward.inUse_le _).trans ?_
      rw [between]
      gcongr
      exact Multiset.coe_le.mpr out.sublist.subperm
  case inUse_eq =>
      intro none_
      obtain ⟨here, behind⟩ := Bool.or_eq_false_iff.mp none_
      rw [account, before, forward.inUse_eq behind, between, out.same here]
  case solid =>
      intro all
      simp only [extents_cons, solid_append] at all
      obtain ⟨solidFrom, solidTo, solidRest⟩ := all
      have solidF := out.solidFrom solidFrom
      have moved := forward.solid (by
        simp only [extents_cons, solid_append]
        exact ⟨out.solidTo solidTo, solidRest⟩)
      simp only [extents_cons, solid_append] at moved ⊢
      exact ⟨fun a here => solidF a (List.mem_of_mem_take here),
        ⟨fun a here => solidF a (List.mem_of_mem_drop here), moved.1⟩, moved.2⟩
  case nodes =>
      obtain ⟨new, eq⟩ := forward.nodes
      refine ⟨new, ?_⟩
      change p.from_.frThis :: nodeSectors p.rest = to_.frThis :: nodeSectors rest ++ new
      rw [eq, forward.this_eq, out.this_eq, List.cons_append]
  case linked =>
      rintro ⟨link, linkTo, linked⟩
      have behind := forward.linked ⟨out.next_eq.trans linkTo, linked⟩
      refine ⟨?_, behind.1, behind.2⟩
      change from_.fNext = p.from_.frThis
      rw [link, forward.this_eq, out.this_eq]
      rfl
  case fewer =>
      have fewer := out.fewer
      simp only [Node.fNfree, List.length_take] at *
      omega
  case fits =>
      intro small fits
      obtain ⟨fitsTo, fitsRest⟩ := fits_cons.mp fits
      have small' := le_trans out.cnt_le small
      have less := forward.fewer
      rw [out.nfree_eq] at less
      refine fits_cons.mpr ⟨?_, forward.fits ?_ fitsRest⟩
      · have length : (ffrom.drop (ffrom.length - cnt') ++ p.from_.fFree).length ≤
            cnt' + p.from_.fNfree := by
          rw [List.length_append, List.length_drop, Node.fNfree]
          omega
        refine le_trans length ?_
        omega
      · rw [out.nfree_eq]
        omega

/-- **`move_forward` moves the extents of a list on, keeps their order, and loses sectors only
where extents meet at a border.** -/
theorem moveForward_forward {debug : Bool} {from_ : Node} {rest : List Node} {cnt : ℕ} {m : Moved}
    (move : moveForward debug from_ rest cnt = some m) : Forward from_ rest cnt m := by
  induction rest generalizing from_ cnt m with
  | nil => exact moveForward_new move
  | cons to_ rest ih =>
      rw [moveForward] at move
      split_ifs at move with refused
      have out := bordered from_ to_ cnt
      simp only at move out
      generalize (if meets from_.fFree to_.fFree = true then from_.fFree.dropLast
        else from_.fFree) = ffrom at move out
      generalize (if meets from_.fFree to_.fFree = true then
        { to_ with fFree := takeStart from_.fFree to_.fFree } else to_) = to' at move out
      generalize (if meets from_.fFree to_.fFree = true then cnt - 1 else cnt) = cnt' at move out
      generalize meets from_.fFree to_.fFree = border at move out
      obtain ⟨p, pushed, rfl⟩ := Option.map_eq_some_iff.mp move
      refine forward_cons out ?_
      by_cases more : NALLOC < cnt' + to'.fNfree
      · rw [if_pos more] at pushed
        exact ih pushed
      · rw [if_neg more, Option.some.injEq] at pushed
        subst pushed
        rw [show to'.fNfree + cnt' - NALLOC = 0 by omega]
        exact forward_nothing to' rest

end Vsta.Vstafs.FreeList
