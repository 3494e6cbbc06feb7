import Vsta.Vstafs.FreeListSectors

/-!
# Compressing the free list

`compress_freelist` leaves the order of the sectors as it is. What it takes off the list are the
sector of each node that runs empty, which is queued to be freed, and what `move_forward` loses
where extents meet at a border. As long as no node runs empty every node links to the next.
-/

set_option autoImplicit false

namespace Vsta.Vstafs.FreeList

open Bytes (Alloc SECSZ sectors sectors_nil sectors_cons sectors_append length_run run_split)

/-! ## Moving extents back -/

/-- Extents that meet are one extent. -/
theorem run_join {a b : Alloc} (meet : a.aStart + a.aLen = b.aStart) :
    (⟨a.aStart, a.aLen + b.aLen⟩ : Alloc).run = a.run ++ b.run := by
  have split := run_split a.aStart a.aLen b.aLen
  rwa [meet] at split

/-- What `move_back` does to two neighbours. -/
structure Back (to_ from_ : Node) (cnt : ℕ) (to' from' : Node) : Prop where
  to_eq : to'.frThis = to_.frThis ∧ to'.fNext = to_.fNext
  from_eq : from'.frThis = from_.frThis ∧ from'.fNext = from_.fNext
  sectors_eq : sectors to'.fFree ++ sectors from'.fFree =
    sectors to_.fFree ++ sectors from_.fFree
  solid : Solid to_.fFree → Solid from_.fFree → Solid to'.fFree ∧ Solid from'.fFree
  more : to'.fNfree ≤ to_.fNfree + cnt
  fewer : from'.fNfree ≤ from_.fNfree

/-- Extents move as they are. -/
theorem back_moves (to_ from_ : Node) (cnt : ℕ) :
    Back to_ from_ cnt { to_ with fFree := to_.fFree ++ from_.fFree.take cnt }
      { from_ with fFree := from_.fFree.drop cnt } := by
  refine ⟨⟨rfl, rfl⟩, ⟨rfl, rfl⟩, ?_, fun solidTo solidFrom => ⟨solid_append.mpr ⟨solidTo, ?_⟩, ?_⟩,
    ?_, ?_⟩
  · rw [sectors_append, List.append_assoc, ← sectors_append, List.take_append_drop]
  · exact fun a here => solidFrom a (List.mem_of_mem_take here)
  · exact fun a here => solidFrom a (List.mem_of_mem_drop here)
  · rw [Node.fNfree, Node.fNfree, List.length_append, List.length_take]
    omega
  · rw [Node.fNfree, Node.fNfree, List.length_drop]
    exact Nat.sub_le _ _

/-- The first extent joins the last one before it. -/
theorem back_joins {to_ from_ : Node} (cnt : ℕ) {ato afrom : Alloc} {left : List Alloc}
    (last : to_.fFree.getLast? = some ato) (first : from_.fFree = afrom :: left)
    (meet : ato.aStart + ato.aLen = afrom.aStart) :
    Back to_ from_ cnt
      { to_ with fFree := to_.fFree.dropLast ++ [⟨ato.aStart, ato.aLen + afrom.aLen⟩] ++
          left.take (cnt - 1) }
      { from_ with fFree := left.drop (cnt - 1) } := by
  have whole := List.dropLast_append_getLast? ato last
  refine ⟨⟨rfl, rfl⟩, ⟨rfl, rfl⟩, ?_, fun solidTo solidFrom => ?_, ?_, ?_⟩
  · rw [← whole, first]
    simp only [sectors_append, sectors_cons, sectors_nil, run_join meet, List.append_nil,
      List.dropLast_concat, List.append_assoc]
    rw [← sectors_append, List.take_append_drop]
  · rw [← whole] at solidTo
    rw [first] at solidFrom
    simp only [solid_append, solid_cons, solid_nil, and_true] at solidTo solidFrom ⊢
    refine ⟨⟨⟨solidTo.1, by omega⟩, ?_⟩, ?_⟩
    · exact fun a here => solidFrom.2 a (List.mem_of_mem_take here)
    · exact fun a here => solidFrom.2 a (List.mem_of_mem_drop here)
  · have length := congrArg List.length whole
    simp only [List.length_append, List.length_cons, List.length_nil] at length
    simp only [Node.fNfree, List.length_append, List.length_take, List.length_cons,
      List.length_nil]
    omega
  · simp only [Node.fNfree, first, List.length_drop, List.length_cons]
    omega

/-- **`move_back` keeps the sectors of two neighbours and their order.** -/
theorem moveBack_back {debug : Bool} {to_ from_ to' from' : Node} {cnt : ℕ}
    (move : moveBack debug to_ from_ cnt = some (to', from')) : Back to_ from_ cnt to' from' := by
  rw [moveBack.eq_def] at move
  cases last : to_.fFree.getLast? with
  | none =>
      have nothing : to_.fFree = [] := List.getLast?_eq_none_iff.mp last
      simp only [last] at move
      split_ifs at move
      simp only [Option.some.injEq, Prod.mk.injEq] at move
      obtain ⟨rfl, rfl⟩ := move
      have moves := back_moves to_ from_ cnt
      rwa [nothing, List.nil_append] at moves
  | some ato =>
      simp only [last] at move
      split_ifs at move with meet empty short short
      · simp only [Option.some.injEq, Prod.mk.injEq] at move
        obtain ⟨rfl, rfl⟩ := move
        cases first : from_.fFree with
        | nil => exact absurd (by simp [Node.fNfree, first]) empty
        | cons afrom left =>
            rw [first] at meet
            exact back_joins cnt last first meet
      · simp only [Option.some.injEq, Prod.mk.injEq] at move
        obtain ⟨rfl, rfl⟩ := move
        exact back_moves to_ from_ cnt

/-! ## Pulling back -/

/-- What the inner loop of `compress_freelist` leaves of a node and the chain behind it. -/
structure Pulls (f : Node) (rest : List Node) (p : Pulled) : Prop where
  this_eq : p.node.frThis = f.frThis
  free_eq : freeSectors (p.node :: p.rest) = freeSectors (f :: rest)
  inUse_eq : inUse (p.node :: p.rest) + p.removed = inUse (f :: rest)
  solid : Solid (extents (f :: rest)) → Solid (extents (p.node :: p.rest))
  fits : Fits (f :: rest) → Fits (p.node :: p.rest)
  nodes : p.removed = [] → nodeSectors p.rest = nodeSectors rest
  linked : p.removed = [] → Linked (f :: rest) → Linked (p.node :: p.rest)

/-- Nothing is pulled. -/
theorem pulls_nothing (f : Node) (rest : List Node) : Pulls f rest ⟨f, rest, []⟩ :=
  ⟨rfl, rfl, by simp, id, id, fun _ => rfl, fun _ => id⟩

/-- A node pulls from the next, and goes on. -/
theorem pulls_back {f f2 f' f2' : Node} {rest : List Node} {cnt : ℕ} {p : Pulled}
    (back : Back f f2 cnt f' f2') (half : f.fNfree + cnt ≤ NALLOC)
    (pulls : Pulls f' (f2' :: rest) p) : Pulls f (f2 :: rest) p := by
  have free : freeSectors (f' :: f2' :: rest) = freeSectors (f :: f2 :: rest) := by
    simp only [freeSectors_cons, ← List.append_assoc, back.sectors_eq]
  have nodes : nodeSectors (f' :: f2' :: rest) = nodeSectors (f :: f2 :: rest) := by
    simp only [nodeSectors, List.map_cons, back.to_eq.1, back.from_eq.1]
  constructor
  case this_eq => exact pulls.this_eq.trans back.to_eq.1
  case free_eq => exact pulls.free_eq.trans free
  case inUse_eq => rw [pulls.inUse_eq, inUse, inUse, free, nodes]
  case solid =>
      intro solid
      refine pulls.solid ?_
      simp only [extents_cons, solid_append] at solid ⊢
      obtain ⟨solidTo, solidFrom⟩ := back.solid solid.1 solid.2.1
      exact ⟨solidTo, solidFrom, solid.2.2⟩
  case fits =>
      intro fits
      obtain ⟨-, fits2, fits⟩ := (fits_cons.trans (and_congr_right fun _ => fits_cons)).mp fits
      refine pulls.fits (fits_cons.mpr ⟨le_trans back.more half, fits_cons.mpr ⟨?_, fits⟩⟩)
      exact le_trans back.fewer fits2
  case nodes =>
      intro none_
      rw [pulls.nodes none_]
      simp only [nodeSectors, List.map_cons, back.from_eq.1]
  case linked =>
      rintro none_ ⟨link, link2, linked⟩
      refine pulls.linked none_ ⟨?_, back.from_eq.2.trans link2, linked⟩
      rw [back.to_eq.2, link]
      exact back.from_eq.1.symm

/-- The next node has run empty and is taken out. -/
theorem pulls_removes {f f2 : Node} {rest : List Node} {p : Pulled} (empty : f2.fNfree = 0)
    (pulls : Pulls f rest p) :
    Pulls f (f2 :: rest) { p with removed := f2.frThis :: p.removed } := by
  have nothing : f2.fFree = [] := List.length_eq_zero_iff.mp empty
  constructor
  case this_eq => exact pulls.this_eq
  case free_eq => simpa [nothing] using pulls.free_eq
  case inUse_eq =>
      rw [inUse_cons f, inUse_cons f2, nothing, sectors_nil, ← Multiset.cons_coe,
        ← Multiset.singleton_add]
      have eq := pulls.inUse_eq
      rw [inUse_cons f] at eq
      rw [add_left_comm, eq]
      simp only [Multiset.coe_nil]
      abel
  case solid =>
      intro solid
      simp only [extents_cons, nothing, List.nil_append] at solid
      exact pulls.solid solid
  case fits =>
      intro fits
      obtain ⟨fitsF, -, fits⟩ := (fits_cons.trans (and_congr_right fun _ => fits_cons)).mp fits
      exact pulls.fits (fits_cons.mpr ⟨fitsF, fits⟩)
  case nodes => simp
  case linked => simp

/-- **The inner loop of `compress_freelist` keeps the sectors and their order; the nodes it
empties go.** -/
theorem pullBack_pulls {debug : Bool} {k : ℕ} {f : Node} {rest : List Node} {p : Pulled}
    (pull : pullBack debug k f rest = some p) : Pulls f rest p := by
  induction k generalizing f rest p with
  | zero => cases pull
  | succ k ih =>
      cases rest with
      | nil =>
          simp only [pullBack, Option.some.injEq] at pull
          subst pull
          exact pulls_nothing f []
      | cons f2 rest =>
          rw [pullBack] at pull
          by_cases short : f.fNfree < NALLOC / 2
          · rw [if_pos short] at pull
            cases move : moveBack debug f f2 (min f2.fNfree (NALLOC / 2 - f.fNfree)) with
            | none => simp [move] at pull
            | some pair =>
                obtain ⟨f', f2'⟩ := pair
                have back := moveBack_back move
                have half : f.fNfree + min f2.fNfree (NALLOC / 2 - f.fNfree) ≤ NALLOC := by omega
                simp only [move] at pull
                by_cases empty : f2'.fNfree = 0
                · rw [if_pos empty] at pull
                  obtain ⟨p', behind, rfl⟩ := Option.map_eq_some_iff.mp pull
                  exact pulls_back back half (pulls_removes empty (ih behind))
                · rw [if_neg empty] at pull
                  exact pulls_back back half (ih pull)
          · rw [if_neg short, Option.some.injEq] at pull
            subst pull
            exact pulls_nothing f _

/-! ## The whole chain -/

/-- What `compress_freelist` leaves of a chain. -/
structure Compresses (chain : List Node) (c : Compressed) : Prop where
  sublist : (freeSectors c.chain).Sublist (freeSectors chain)
  inUse_le : inUse c.chain + c.removed ≤ inUse chain
  inUse_eq : c.border = false → inUse c.chain + c.removed = inUse chain
  solid : Solid (extents chain) → Solid (extents c.chain)
  fits : Fits chain → Fits c.chain
  head : c.chain.head?.map Node.frThis = chain.head?.map Node.frThis
  nodes : c.removed = [] → ∃ new, nodeSectors c.chain = nodeSectors chain ++ new
  linked : c.removed = [] → Linked chain → Linked c.chain

/-- A chain with the same head links the same way. -/
theorem nextSec_of_head {chain chain' : List Node}
    (head : chain'.head?.map Node.frThis = chain.head?.map Node.frThis) :
    nextSec chain' = nextSec chain := by
  rw [nextSec, nextSec, head]

/-- A node has moved extents forward, and the chain behind it is compressed. -/
theorem compresses_forward {f : Node} {rest : List Node} {cnt : ℕ} {m : Moved} {c : Compressed}
    (forward : Forward f rest cnt m) (small : cnt ≤ NALLOC) (compresses : Compresses m.rest c) :
    Compresses (f :: rest) ⟨m.from_ :: c.chain, c.removed, m.border || c.border⟩ := by
  have account : inUse (m.from_ :: c.chain) + c.removed =
      ↑(sectors m.from_.fFree) + {m.from_.frThis} + (inUse c.chain + c.removed) := by
    rw [inUse_cons, add_assoc]
  have before : inUse (m.from_ :: m.rest) =
      ↑(sectors m.from_.fFree) + {m.from_.frThis} + inUse m.rest := inUse_cons _ _
  constructor
  case sublist =>
      refine List.Sublist.trans ?_ forward.sublist
      rw [freeSectors_cons, freeSectors_cons]
      exact compresses.sublist.append_left _
  case inUse_le =>
      rw [account]
      refine (add_le_add_right compresses.inUse_le _).trans ?_
      rw [← before]
      exact forward.inUse_le
  case inUse_eq =>
      intro none_
      obtain ⟨here, behind⟩ := Bool.or_eq_false_iff.mp none_
      rw [account, compresses.inUse_eq behind, ← before, forward.inUse_eq here]
  case solid =>
      intro solid
      have moved := forward.solid solid
      rw [extents_cons, solid_append] at moved ⊢
      exact ⟨moved.1, compresses.solid moved.2⟩
  case fits =>
      intro fits
      obtain ⟨fitsF, fits⟩ := fits_cons.mp fits
      refine fits_cons.mpr ⟨le_trans forward.fewer (le_trans (Nat.sub_le _ _) fitsF), ?_⟩
      exact compresses.fits (forward.fits small fits)
  case head => exact congrArg some forward.this_eq
  case nodes =>
      intro none_
      obtain ⟨newC, eqC⟩ := compresses.nodes none_
      obtain ⟨newM, eqM⟩ := forward.nodes
      refine ⟨newM ++ newC, ?_⟩
      change m.from_.frThis :: nodeSectors c.chain = f.frThis :: nodeSectors rest ++ _
      rw [eqC, eqM, forward.this_eq, List.cons_append, List.append_assoc]
  case linked =>
      intro none_ linked
      obtain ⟨link, linked⟩ := forward.linked linked
      exact ⟨link.trans (nextSec_of_head compresses.head).symm, compresses.linked none_ linked⟩

/-- A node has pulled extents back, and the chain behind it is compressed. -/
theorem compresses_pull {f : Node} {rest : List Node} {p : Pulled} {c : Compressed}
    (pulls : Pulls f rest p) (compresses : Compresses p.rest c) :
    Compresses (f :: rest) ⟨p.node :: c.chain, p.removed ++ c.removed, c.border⟩ := by
  have account : inUse (p.node :: c.chain) + ↑(p.removed ++ c.removed) =
      ↑(sectors p.node.fFree) + {p.node.frThis} + (inUse c.chain + c.removed) + p.removed := by
    rw [inUse_cons, ← Multiset.coe_add]
    abel
  have before : ↑(sectors p.node.fFree) + {p.node.frThis} + inUse p.rest + ↑p.removed =
      inUse (f :: rest) := by
    rw [← pulls.inUse_eq, inUse_cons]
  constructor
  case sublist =>
      rw [← pulls.free_eq, freeSectors_cons, freeSectors_cons]
      exact compresses.sublist.append_left _
  case inUse_le =>
      rw [account, ← before]
      gcongr
      exact compresses.inUse_le
  case inUse_eq =>
      intro none_
      rw [account, ← before, compresses.inUse_eq none_]
  case solid =>
      intro solid
      have pulled := pulls.solid solid
      rw [extents_cons, solid_append] at pulled ⊢
      exact ⟨pulled.1, compresses.solid pulled.2⟩
  case fits =>
      intro fits
      obtain ⟨fitsN, fits⟩ := fits_cons.mp (pulls.fits fits)
      exact fits_cons.mpr ⟨fitsN, compresses.fits fits⟩
  case head => exact congrArg some pulls.this_eq
  case nodes =>
      intro none_
      obtain ⟨noneP, noneC⟩ := List.append_eq_nil_iff.mp none_
      obtain ⟨new, eq⟩ := compresses.nodes noneC
      refine ⟨new, ?_⟩
      change p.node.frThis :: nodeSectors c.chain = f.frThis :: nodeSectors rest ++ _
      rw [eq, pulls.nodes noneP, pulls.this_eq, List.cons_append]
  case linked =>
      intro none_ linked
      obtain ⟨noneP, noneC⟩ := List.append_eq_nil_iff.mp none_
      obtain ⟨link, linked⟩ := pulls.linked noneP linked
      exact ⟨link.trans (nextSec_of_head compresses.head).symm, compresses.linked noneC linked⟩

/-- **`compress_freelist` keeps the order of the sectors, and accounts for every sector unless
extents meet at a border.** -/
theorem compressChain_compresses {debug : Bool} {k : ℕ} {chain : List Node} {c : Compressed}
    (compress : compressChain debug k chain = some c) (fits : Fits chain) :
    Compresses chain c := by
  induction k generalizing chain c with
  | zero => cases compress
  | succ k ih =>
      cases chain with
      | nil =>
          simp only [compressChain, Option.some.injEq] at compress
          subst compress
          exact ⟨List.Sublist.refl _, by simp [inUse], fun _ => by simp [inUse], id, id, rfl,
            fun _ => ⟨[], rfl⟩, fun _ => id⟩
      | cons f rest =>
          rw [compressChain] at compress
          by_cases many : NALLOC / 2 < f.fNfree
          · rw [if_pos many] at compress
            cases move : moveForward debug f rest (f.fNfree - NALLOC / 2) with
            | none => simp [move] at compress
            | some m =>
                simp only [move] at compress
                obtain ⟨c', behind, rfl⟩ := Option.map_eq_some_iff.mp compress
                have forward := moveForward_forward move
                obtain ⟨fitsF, fits⟩ := fits_cons.mp fits
                have small := le_trans (Nat.sub_le f.fNfree (NALLOC / 2)) fitsF
                exact compresses_forward forward small (ih behind (forward.fits small fits))
          · rw [if_neg many] at compress
            cases pull : pullBack debug k f rest with
            | none => simp [pull] at compress
            | some p =>
                simp only [pull] at compress
                obtain ⟨c', behind, rfl⟩ := Option.map_eq_some_iff.mp compress
                have pulls := pullBack_pulls pull
                exact compresses_pull pulls (ih behind (fits_cons.mp (pulls.fits fits)).2)

end Vsta.Vstafs.FreeList
