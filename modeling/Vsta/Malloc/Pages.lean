import Mathlib.Tactic.SplitIfs
import Vsta.Malloc.Pieces

/-!
# Pages of the heap

What a size in a header, a chunk that is mapped and pages that are taken from the pool do to the
invariant: nothing, and the pages are vacant.
-/

set_option autoImplicit false

namespace Vsta.Malloc

open Threaded

section Memory

variable {h : Heap} {live : List Block} {avail : ℕ → List ℕ} {p q : Block}
  {a b n core pgs size idx : ℕ} {c : Chunk}

theorem Vacant.retag (vacant : Vacant h.chunks (pieces live avail) a n) :
    Vacant (retag h.chunks c idx size) (pieces live avail) a n := by
  obtain ⟨⟨d, inside, low, high⟩, apart⟩ := vacant
  obtain ⟨e, member, addr, stop, -⟩ := retag_mem c idx size inside
  exact ⟨⟨e, member, addr ▸ low, stop ▸ high⟩, apart⟩

/-- A header may be written where no piece begins in the page. -/
theorem Good.retag (good : Good h live avail) (member : c ∈ h.chunks)
    (empty : ∀ p ∈ pieces live avail, c.cVaddr ≤ p.addr → p.stop ≤ c.stop →
      btop (p.addr - c.cVaddr) ≠ idx) :
    Good { h with chunks := Malloc.retag h.chunks c idx size } live avail where
  laid := good.laid.retag
  inside p held := by
    obtain ⟨d, inside, low, high, is, large⟩ := good.inside p held
    obtain ⟨e, member', addr, stop, -, -, keeps⟩ :=
      retag_mem c idx size inside
    refine ⟨e, member', addr ▸ low, stop ▸ high, ?_, fun more => addr ▸ stop ▸ large more⟩
    rw [addr, ← is]
    refine keeps _ ?_
    by_cases same : d.cVaddr = c.cVaddr
    · have is := good.laid.same inside member (Nat.le_refl _) d.cVaddr_le_stop same.ge
        (same.trans_le c.cVaddr_le_stop)
      subst is
      exact .inr (empty p held low high)
    · exact .inl same
  sizes := good.sizes
  within := good.within
  apart := good.apart
  linked := good.linked
  pool := good.pool.imp_right fun ⟨aligned, vacant⟩ => ⟨aligned, vacant.retag⟩
  allocsz := good.allocsz

theorem btop_page {x y : ℕ} (aligned : NBPG ∣ x) (same : btop y = btop x) :
    x ≤ y ∧ y < x + NBPG := by
  simp only [btop, NBPG] at *
  omega

variable (size) in
/-- The size is set of pages that no piece has. -/
theorem Good.setSize (good : Good h live avail) (aligned : NBPG ∣ a)
    (vacant : Vacant h.chunks (pieces live avail) a n) (page : NBPG ≤ n) :
    ∃ c ∈ h.chunks, c.cVaddr ≤ a ∧ a + n ≤ c.stop ∧
      h.setSize a size =
        some { h with chunks := Malloc.retag h.chunks c (btop (a - c.cVaddr)) size } ∧
      Good { h with chunks := Malloc.retag h.chunks c (btop (a - c.cVaddr)) size } live avail := by
  obtain ⟨⟨c, member, low, high⟩, apart⟩ := vacant
  have := NBPG_pos
  refine ⟨c, member, low, high, ?_, good.retag member fun p held low' high' same => ?_⟩
  · rw [Heap.setSize, good.laid.findChunk member low (by omega)]
    rfl
  · obtain ⟨from_, to_⟩ := btop_page
      (Nat.dvd_sub aligned (good.laid.fine c member).aligned) same
    have size := good.sizes p held
    have far := apart p held
    simp only [Block.stop, width] at *
    omega

/-! ## New memory -/

/-- What `mmap` answers when so many pages are asked for and granted. -/
structure New (h : Heap) (core pgs : ℕ) : Prop where
  some_ : core ≠ 0
  aligned : NBPG ∣ core
  small : core + pgs * NBPG < 2 ^ 32
  apart : ∀ c ∈ h.chunks, c.stop ≤ core ∨ core + pgs * NBPG + NBPG ≤ c.cVaddr

/-- The heap with a new chunk. -/
def Heap.grown (h : Heap) (core pgs : ℕ) : Heap :=
  { h with
    mem := clear h.mem core (ptob (pgs + 1))
    chunks := ⟨core + NBPG, pgs, fun _ => 0⟩ :: h.chunks }

theorem New.ptob_eq (new : New h core pgs) : ptob pgs = pgs * NBPG :=
  ptob_small ((Nat.le_add_left _ _).trans_lt new.small)

theorem New.allocCore (new : New h core (pgs + 1)) :
    h.allocCore core pgs = (h.grown core pgs, core + NBPG) := if_neg new.some_

theorem New.unchanged (new : New h core (pgs + 1)) (good : Good h live avail) :
    Unchanged h (h.grown core pgs) (pieces live avail) := by
  intro p held x has
  obtain ⟨c, member, low, high, -⟩ := good.inside p held
  have far := new.apart c member
  refine clear_outside ?_
  rw [new.ptob_eq]
  rw [Block.Has] at has
  omega

theorem New.stop (core pgs : ℕ) :
    (Chunk.mk (core + NBPG) pgs fun _ => 0).stop = core + (pgs + 1) * NBPG := by
  rw [Chunk.stop, Nat.add_assoc, Nat.succ_mul, Nat.add_comm NBPG]

/-- A new chunk leaves the pieces as they are. -/
theorem New.good (new : New h core (pgs + 1)) (good : Good h live avail) :
    Good (h.grown core pgs) live avail := by
  have laid : Laid (h.grown core pgs).chunks := by
    refine good.laid.cons ⟨(Nat.dvd_add_left (Nat.dvd_refl _)).mpr new.aligned, ?_, ?_⟩ ?_
    · exact Nat.lt_add_of_pos_left (Nat.pos_of_ne_zero new.some_)
    · rw [New.stop]
      exact new.small
    · intro c member
      have far := new.apart c member
      rw [Chunk.Apart, New.stop]
      change _ ∨ c.stop + NBPG ≤ core + NBPG
      omega
  have same := New.unchanged new good
  refine { (good.memory (clear h.mem core (ptob (pgs + 1))) fun b bucket a inside =>
    same _ (mem_pieces_avail bucket inside)) with laid := laid, inside := ?_, pool := ?_ }
  · intro p held
    obtain ⟨c, member, rest⟩ := good.inside p held
    exact ⟨c, List.mem_cons_of_mem _ member, rest⟩
  · refine good.pool.imp_right ?_
    rintro ⟨aligned, ⟨c, member, rest⟩, far⟩
    exact ⟨aligned, ⟨c, List.mem_cons_of_mem _ member, rest⟩, far⟩

/-- The pages of a new chunk are vacant. -/
theorem New.vacant (new : New h core (pgs + 1)) (good : Good h live avail) :
    Vacant (h.grown core pgs).chunks (pieces live avail) (core + NBPG) (pgs * NBPG) := by
  refine ⟨⟨_, List.mem_cons_self, Nat.le_refl _, Nat.le_refl _⟩, fun p held => ?_⟩
  obtain ⟨c, member, low, high, -⟩ := good.inside p held
  have far := new.apart c member
  rw [Nat.succ_mul] at far
  omega

/-- The pool is apart from a new chunk. -/
theorem New.pool (new : New h core (pgs + 1)) (good : Good h live avail) :
    h.freepgs = 0 ∨ core + NBPG + pgs * NBPG ≤ h.freemem ∨
      h.freemem + h.freepgs * NBPG ≤ core + NBPG := by
  refine good.pool.imp_right fun ⟨_, ⟨c, member, low, high⟩, _⟩ => ?_
  have far := new.apart c member
  rw [Nat.succ_mul] at far
  omega

/-! ## Pages for a bucket -/

/-- What is left of the pool when pages are taken. -/
theorem Good.takePages (good : Good h live avail) (some_ : 0 < pgs) (enough : pgs ≤ h.freepgs)
    (same : ptob pgs = pgs * NBPG) :
    Good (h.takePages pgs).1 live avail ∧ NBPG ∣ h.freemem ∧
      Vacant h.chunks (pieces live avail) h.freemem (pgs * NBPG) ∧
      (h.takePages pgs).1.freemem = h.freemem + pgs * NBPG := by
  obtain ⟨aligned, ⟨c, member, low, high⟩, far⟩ := good.pool.resolve_left (by omega)
  have split : h.freepgs * NBPG = pgs * NBPG + (h.freepgs - pgs) * NBPG := by
    rw [← Nat.add_mul, Nat.add_sub_cancel' enough]
  have moved : (h.takePages pgs).1.freemem = h.freemem + pgs * NBPG := by
    rw [← same]
    rfl
  refine ⟨{ good with pool := .inr ⟨?_, ⟨c, member, ?_, ?_⟩, fun p held => ?_⟩ }, aligned,
    ⟨⟨c, member, low, by omega⟩, fun p held => ?_⟩, moved⟩
  · rw [moved]
    exact (Nat.dvd_add_right aligned).mpr (Nat.dvd_mul_left _ _)
  · rw [moved]
    omega
  · rw [moved]
    change _ + (h.freepgs - pgs) * NBPG ≤ _
    omega
  · have := far p held
    rw [moved]
    change _ + (h.freepgs - pgs) * NBPG ≤ _ ∨ _
    omega
  · have := far p held
    omega

/-- `alloc_pages` finds pages that no piece has. -/
theorem Good.allocPages (good : Good h live avail) (some_ : 0 < pgs) (few : pgs ≤ MINPG)
    (same : ptob pgs = pgs * NBPG) (new : h.freepgs < pgs → New h core (h.allocsz + 1)) :
    ∃ h' p, h.allocPages core pgs = (h', p) ∧ Good h' live avail ∧ NBPG ∣ p ∧
      Vacant h'.chunks (pieces live avail) p (pgs * NBPG) ∧ h'.freemem = p + pgs * NBPG ∧
      Unchanged h h' (pieces live avail) := by
  by_cases enough : pgs ≤ h.freepgs
  · obtain ⟨good', aligned, vacant, moved⟩ := good.takePages some_ enough same
    exact ⟨_, _, if_pos enough, good', aligned, vacant, moved, fun _ _ _ _ => rfl⟩
  · have new := new (Nat.lt_of_not_le enough)
    have good' := new.good good
    have filled : Good { h.grown core h.allocsz with
        freemem := core + NBPG
        freepgs := h.allocsz
        allocsz := if h.allocsz < MAXPG then 2 * h.allocsz else h.allocsz } live avail := by
      refine { good' with pool := .inr ⟨?_, new.vacant good⟩, allocsz := ?_ }
      · exact (Nat.dvd_add_left (Nat.dvd_refl _)).mpr new.aligned
      · have := good.allocsz
        change MINPG ≤ (if h.allocsz < MAXPG then 2 * h.allocsz else h.allocsz) ∧
          (if h.allocsz < MAXPG then 2 * h.allocsz else h.allocsz) < 2 * MAXPG
        split_ifs <;> omega
    obtain ⟨good'', aligned, vacant, moved⟩ :=
      filled.takePages some_ (few.trans good.allocsz.1) same
    refine ⟨_, _, ?_, good'', aligned, vacant, moved, new.unchanged good⟩
    rw [Heap.allocPages, if_neg enough, new.allocCore]
    exact if_neg (Nat.ne_of_gt (Nat.add_pos_right _ NBPG_pos))

end Memory

end Vsta.Malloc
