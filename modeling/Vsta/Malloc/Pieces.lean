import Mathlib.Data.List.Pairwise
import Mathlib.Data.List.Perm.Basic
import Mathlib.Tactic.IntervalCases
import Vsta.Malloc.Calls

/-!
# The pieces of the heap

Each piece of memory is live, or an element of the free list of its bucket. `Good` says that chunks
are apart, that each piece is in a chunk that has its size, that pieces are apart, and that what is
left of the pool is in a chunk and apart from them.
-/

set_option autoImplicit false

namespace Vsta.Malloc

open Threaded

theorem NBPG_pos : 0 < NBPG := by decide

/-! ## Sizes -/

theorem ptob_small {pgs : ℕ} (small : pgs * NBPG < 2 ^ 32) : ptob pgs = pgs * NBPG := wrap_eq small

theorem roomOf_bucket {b : ℕ} (bucket : b ≤ MAX_BUCKET) : roomOf b = bSize b := if_pos bucket

/-- The pages of a bucket hold whole elements, that begin in the first page. -/
theorem bucket_pages {b : ℕ} (low : MIN_BUCKET ≤ b) (high : b ≤ MAX_BUCKET) :
    0 < btorp (bSize b) ∧ btorp (bSize b) ≤ MINPG ∧
      ptob (btorp (bSize b)) = btorp (bSize b) * NBPG ∧
      0 < ptob (btorp (bSize b)) / bSize b ∧
      ptob (btorp (bSize b)) / bSize b * bSize b = btorp (bSize b) * NBPG ∧
      (ptob (btorp (bSize b)) / bSize b - 1) * bSize b < NBPG := by
  rw [MIN_BUCKET] at low
  rw [MAX_BUCKET] at high
  interval_cases b <;> decide

theorem highest_le (size bucket : ℕ) : highest size bucket ≤ bucket := by
  induction bucket with
  | zero => exact Nat.le_refl _
  | succ bucket ih =>
      rw [highest]
      split_ifs
      · exact Nat.le_refl _
      · omega

/-- The bit that is found is the highest one. -/
theorem highest_spec {size : ℕ} (bucket : ℕ) (some_ : size ≠ 0) (below : size < 2 ^ (bucket + 1)) :
    2 ^ highest size bucket ≤ size ∧ size < 2 ^ (highest size bucket + 1) := by
  induction bucket with
  | zero =>
      rw [highest]
      omega
  | succ bucket ih =>
      rw [highest]
      split_ifs with bit
      · exact ⟨Nat.ge_two_pow_of_testBit bit, below⟩
      · refine ih (Nat.lt_pow_two_of_testBit _ fun i above => ?_)
        rcases Nat.lt_or_ge i (bucket + 2) with low | high
        · obtain rfl : i = bucket + 1 := by omega
          exact Bool.eq_false_iff.mpr bit
        · exact Nat.testBit_lt_two_pow (below.trans_le (Nat.pow_le_pow_right (by decide) high))

/-- A bucket has elements of the size that it is for. -/
theorem bucketOf_spec {size : ℕ} (small : size ≤ 2 ^ MAX_BUCKET) :
    MIN_BUCKET ≤ bucketOf size ∧ bucketOf size ≤ MAX_BUCKET ∧ size ≤ bSize (bucketOf size) := by
  simp only [bucketOf, bSize]
  split_ifs with less exact_
  · exact ⟨Nat.le_refl _, by decide, less.le⟩
  all_goals
    rw [Nat.not_lt] at less
    obtain ⟨low, high⟩ := highest_spec MAX_BUCKET
      (by have : 0 < 2 ^ MIN_BUCKET := by decide
          omega) (small.trans_lt (by decide))
    have above : MIN_BUCKET ≤ highest size MAX_BUCKET := by
      by_contra lower
      have := Nat.pow_le_pow_right (n := 2) (by decide)
        (show highest size MAX_BUCKET + 1 ≤ MIN_BUCKET by omega)
      omega
  · refine ⟨above, highest_le _ _, ?_⟩
    obtain ⟨k, is⟩ := Nat.dvd_of_mod_eq_zero exact_
    rw [pow_succ] at high
    have : k < 2 := by
      by_contra more
      have := Nat.mul_le_mul_left (2 ^ highest size MAX_BUCKET) (Nat.not_lt.mp more)
      omega
    calc size = 2 ^ highest size MAX_BUCKET * k := is
      _ ≤ 2 ^ highest size MAX_BUCKET * 1 := Nat.mul_le_mul_left _ (by omega)
      _ = 2 ^ highest size MAX_BUCKET := Nat.mul_one _
  · refine ⟨by omega, ?_, high.le⟩
    by_contra more
    have top : highest size MAX_BUCKET = MAX_BUCKET := by
      have := highest_le size MAX_BUCKET
      omega
    rw [top] at exact_ low
    obtain rfl : size = 2 ^ MAX_BUCKET := Nat.le_antisymm small low
    exact exact_ (Nat.mod_self _)

/-! ## Chunks -/

/-- A chunk of whole pages that ends where an address can. -/
structure Chunk.Fine (c : Chunk) : Prop where
  aligned : NBPG ∣ c.cVaddr
  behind : NBPG < c.cVaddr
  small : c.stop < 2 ^ 32

/-- Chunks that share no page, with the page before each. -/
def Chunk.Apart (c d : Chunk) : Prop := c.stop + NBPG ≤ d.cVaddr ∨ d.stop + NBPG ≤ c.cVaddr

/-- Chunks that are fine and apart. -/
structure Laid (chunks : List Chunk) : Prop where
  fine : ∀ c ∈ chunks, c.Fine
  apart : chunks.Pairwise Chunk.Apart

section Chunks

variable {chunks : List Chunk} {c d : Chunk} {a idx size : ℕ}

instance : Std.Symm Chunk.Apart := ⟨fun _ _ => Or.symm⟩

theorem Chunk.cVaddr_le_stop (c : Chunk) : c.cVaddr ≤ c.stop := Nat.le_add_right _ _

theorem Chunk.Fine.ptob_cLen (fine : c.Fine) : ptob c.cLen = c.cLen * NBPG :=
  ptob_small ((Nat.le_add_left _ _).trans_lt fine.small)

theorem Chunk.Fine.holds_iff (fine : c.Fine) : c.Holds a ↔ c.cVaddr ≤ a ∧ a < c.stop := by
  rw [Chunk.Holds, fine.ptob_cLen, Chunk.stop]

/-- Two chunks with one address are one chunk. -/
theorem Laid.same (laid : Laid chunks) (first : c ∈ chunks) (second : d ∈ chunks)
    (low : c.cVaddr ≤ a) (high : a ≤ c.stop) (low' : d.cVaddr ≤ a) (high' : a ≤ d.stop) :
    c = d := by
  by_contra differ
  have apart := laid.apart.forall first second differ
  rw [Chunk.Apart] at apart
  have := NBPG_pos
  omega

theorem Laid.findChunk (laid : Laid chunks) (inside : c ∈ chunks) (low : c.cVaddr ≤ a)
    (high : a < c.stop) : findChunk chunks a = some c := by
  rw [Malloc.findChunk]
  cases found : chunks.find? fun c => c.Holds a with
  | none =>
      have not := List.find?_eq_none.mp found c inside
      rw [decide_eq_true_eq, (laid.fine c inside).holds_iff] at not
      exact absurd ⟨low, high⟩ not
  | some d =>
      have member := List.mem_of_find?_eq_some found
      have holds := List.find?_some found
      rw [decide_eq_true_eq, (laid.fine d member).holds_iff] at holds
      rw [laid.same inside member low high.le holds.1 holds.2.le]

/-- The chunks with a size put in the header of one of them. -/
def retag (chunks : List Chunk) (c : Chunk) (idx size : ℕ) : List Chunk :=
  chunks.map fun d => if d.cVaddr = c.cVaddr then d.put idx size else d

theorem mem_retag : d ∈ retag chunks c idx size →
    ∃ e ∈ chunks, d.cVaddr = e.cVaddr ∧ d.cLen = e.cLen := by
  rintro inside
  obtain ⟨e, member, rfl⟩ := List.mem_map.mp inside
  refine ⟨e, member, ?_⟩
  split_ifs
  · exact ⟨rfl, rfl⟩
  · exact ⟨rfl, rfl⟩

variable (c idx size) in
/-- What a chunk is after the header is written. -/
theorem retag_mem (inside : d ∈ chunks) : ∃ e ∈ retag chunks c idx size,
    e.cVaddr = d.cVaddr ∧ e.stop = d.stop ∧ e.cLen = d.cLen ∧
      (d.cVaddr = c.cVaddr → e.cPerpage idx = size % 2 ^ 16) ∧
      ∀ i, d.cVaddr ≠ c.cVaddr ∨ i ≠ idx → e.cPerpage i = d.cPerpage i := by
  refine ⟨_, List.mem_map_of_mem inside, ?_⟩
  by_cases same : d.cVaddr = c.cVaddr
  · rw [if_pos same]
    exact ⟨rfl, rfl, rfl, fun _ => if_pos rfl, fun i other => if_neg (other.resolve_left
      fun differ => differ same)⟩
  · rw [if_neg same]
    exact ⟨rfl, rfl, rfl, fun is => absurd is same, fun _ _ => rfl⟩

theorem Laid.retag (laid : Laid chunks) : Laid (retag chunks c idx size) where
  fine d inside := by
    obtain ⟨e, member, addr, len⟩ := mem_retag inside
    have fine := laid.fine e member
    refine ⟨addr ▸ fine.aligned, addr ▸ fine.behind, ?_⟩
    rw [Chunk.stop, addr, len]
    exact fine.small
  apart := by
    refine List.pairwise_map.mpr (laid.apart.imp fun {d e} apart => ?_)
    split_ifs
    · exact apart
    · exact apart
    · exact apart
    · exact apart

theorem Laid.cons (laid : Laid chunks) (fine : c.Fine) (apart : ∀ d ∈ chunks, c.Apart d) :
    Laid (c :: chunks) :=
  ⟨List.forall_mem_cons.mpr ⟨fine, laid.fine⟩, List.pairwise_cons.mpr ⟨apart, laid.apart⟩⟩

end Chunks

/-! ## Pieces -/

/-- The blocks of the program, and the elements of the free lists. -/
def pieces (live : List Block) (avail : ℕ → List ℕ) : List Block :=
  live ++ (List.range (MAX_BUCKET + 1)).flatMap fun b => (avail b).map (Block.mk · b)

/-- A piece in the memory of a chunk, that has its size in the header. -/
def Inside (chunks : List Chunk) (p : Block) : Prop :=
  ∃ c ∈ chunks, c.cVaddr ≤ p.addr ∧ p.stop ≤ c.stop ∧
    c.cPerpage (btop (p.addr - c.cVaddr)) = p.kept ∧
    (MAX_BUCKET < p.cls → p.addr = c.cVaddr ∧ p.stop = c.stop)

/-- `n` bytes in the memory of a chunk that no piece has. -/
def Vacant (chunks : List Chunk) (held : List Block) (a n : ℕ) : Prop :=
  (∃ c ∈ chunks, c.cVaddr ≤ a ∧ a + n ≤ c.stop) ∧
    ∀ p ∈ held, a + n ≤ p.addr ∨ p.stop ≤ a

/-- The invariant, with the elements of each bucket. -/
structure Good (h : Heap) (live : List Block) (avail : ℕ → List ℕ) : Prop where
  laid : Laid h.chunks
  inside : ∀ p ∈ pieces live avail, Inside h.chunks p
  sizes : ∀ p ∈ pieces live avail, width ≤ p.len
  within : ∀ p ∈ pieces live avail, roomOf p.kept ≤ p.len
  apart : (pieces live avail).Pairwise Block.Apart
  linked : ∀ b ≤ MAX_BUCKET, Linked h.mem (h.bMem b) (avail b)
  pool : h.freepgs = 0 ∨
    NBPG ∣ h.freemem ∧ Vacant h.chunks (pieces live avail) h.freemem (h.freepgs * NBPG)
  allocsz : MINPG ≤ h.allocsz ∧ h.allocsz < 2 * MAXPG

theorem good_fresh : Good fresh [] fun _ => [] where
  laid := ⟨nofun, .nil⟩
  inside := nofun
  sizes := nofun
  within := nofun
  apart := .nil
  linked _ _ := rfl
  pool := .inl rfl
  allocsz := by decide

instance : Std.Symm Block.Apart := ⟨fun _ _ => Or.symm⟩

section Pieces

variable {h : Heap} {live live' : List Block} {avail avail' : ℕ → List ℕ} {p q : Block}
  {a b n : ℕ} {l : List ℕ} {mem : Mem}

theorem mem_pieces_live (inside : p ∈ live) : p ∈ pieces live avail :=
  List.mem_append_left _ inside

theorem mem_pieces_avail (bucket : b ≤ MAX_BUCKET) (inside : a ∈ avail b) :
    ⟨a, b⟩ ∈ pieces live avail :=
  List.mem_append_right _ (List.mem_flatMap.mpr
    ⟨b, List.mem_range.mpr (Nat.lt_succ_of_le bucket), List.mem_map_of_mem inside⟩)

/-- One more element of one list. -/
theorem flatMap_perm {α β : Type*} {l : List α} {x : α} {y : β} {f g : α → List β}
    (nodup : l.Nodup) (inside : x ∈ l) (more : f x = y :: g x) (same : ∀ z ≠ x, f z = g z) :
    (l.flatMap f).Perm (y :: l.flatMap g) := by
  induction l with
  | nil => cases inside
  | cons z rest ih =>
      obtain ⟨fresh, nodup⟩ := List.nodup_cons.mp nodup
      simp only [List.flatMap_cons]
      by_cases is : z = x
      · subst is
        rw [more, List.flatMap_congr fun w member => same w fun is => fresh (is ▸ member)]
        exact .refl _
      · rw [same z is]
        have inside := (List.mem_cons.mp inside).resolve_left fun eq => is eq.symm
        exact ((ih nodup inside).append_left _).trans List.perm_middle

/-- One more element of a bucket is one more piece. -/
theorem pieces_perm (bucket : b ≤ MAX_BUCKET) (more : avail b = a :: avail' b)
    (same : ∀ c ≠ b, avail c = avail' c) :
    (pieces live avail).Perm (⟨a, b⟩ :: pieces live avail') := by
  refine ((flatMap_perm List.nodup_range (x := b) (y := Block.mk a b) ?_ ?_ ?_).append_left
    live).trans List.perm_middle
  · exact List.mem_range.mpr (Nat.lt_succ_of_le bucket)
  · rw [more, List.map_cons]
  · intro c other
    rw [same c other]

variable (live avail a) in
/-- The pieces after a push. -/
theorem pieces_push (bucket : b ≤ MAX_BUCKET) :
    (pieces live fun c => if c = b then a :: avail c else avail c).Perm
      (⟨a, b⟩ :: pieces live avail) :=
  pieces_perm bucket (if_pos rfl) fun _ other => if_neg other

variable (live) in
/-- The pieces before a pop. -/
theorem pieces_pop (bucket : b ≤ MAX_BUCKET) (is : avail b = a :: l) :
    (pieces live avail).Perm
      (⟨a, b⟩ :: pieces live fun c => if c = b then l else avail c) :=
  pieces_perm bucket (by rw [if_pos rfl]; exact is) fun _ other => (if_neg other).symm

theorem Inside.pos (laid : Laid h.chunks) (inside : Inside h.chunks p) : p.addr ≠ 0 := by
  obtain ⟨c, member, low, -⟩ := inside
  have := (laid.fine c member).behind
  omega

theorem Inside.small (laid : Laid h.chunks) (inside : Inside h.chunks p) : p.stop < 2 ^ 32 := by
  obtain ⟨c, member, -, high, -⟩ := inside
  exact high.trans_lt (laid.fine c member).small

/-- The header has the size of a piece. -/
theorem Inside.getSize (laid : Laid h.chunks) (inside : Inside h.chunks p) (some_ : 0 < p.len) :
    h.getSize p.addr = some p.kept := by
  obtain ⟨c, member, low, high, is, -⟩ := inside
  rw [Heap.getSize, laid.findChunk member low, Option.map_some, is]
  rw [Block.stop] at high
  omega

theorem Good.head_small (good : Good h live avail) (bucket : b ≤ MAX_BUCKET) :
    h.bMem b < 2 ^ 32 := by
  have linked := good.linked b bucket
  cases is : avail b with
  | nil =>
      rw [is] at linked
      rw [show h.bMem b = 0 from linked]
      decide
  | cons a rest =>
      rw [is] at linked
      have member : a ∈ avail b := is ▸ List.mem_cons_self
      have small := (good.inside _ (mem_pieces_avail bucket member)).small good.laid
      simp only [Block.stop] at small
      rw [linked.1]
      omega

variable (mem) in
/-- The memory may change where no free list keeps an address. -/
theorem Good.memory (good : Good h live avail)
    (same : ∀ b ≤ MAX_BUCKET, ∀ a ∈ avail b, ∀ x, (Block.mk a b).Has x → mem x = h.mem x) :
    Good { h with mem := mem } live avail :=
  { good with
    linked := fun b bucket => (good.linked b bucket).frame fun a inside x low high =>
      same b bucket a inside x ⟨low, by
        have := good.sizes _ (mem_pieces_avail bucket inside)
        simp only [Block.stop]
        omega⟩ }

/-- The invariant is about the pieces as a whole. -/
theorem Good.perm (good : Good h live avail) {bMem : ℕ → ℕ}
    (perm : (pieces live' avail').Perm (pieces live avail))
    (linked : ∀ b ≤ MAX_BUCKET, Linked mem (bMem b) (avail' b)) :
    Good { h with mem := mem, bMem := bMem } live' avail' where
  laid := good.laid
  inside p member := good.inside p (perm.mem_iff.mp member)
  sizes p member := good.sizes p (perm.mem_iff.mp member)
  within p member := good.within p (perm.mem_iff.mp member)
  apart := good.apart.perm perm.symm Or.symm
  linked := linked
  pool := good.pool.imp_right fun ⟨aligned, chunk, apart⟩ =>
    ⟨aligned, chunk, fun p member => apart p (perm.mem_iff.mp member)⟩
  allocsz := good.allocsz

/-- The head of a bucket is handed out. -/
theorem Good.pop (good : Good h live avail) (bucket : b ≤ MAX_BUCKET) (is : avail b = a :: l) :
    Good { h with bMem := fun c => if c = b then load h.mem a else h.bMem c }
      (⟨a, b⟩ :: live) (fun c => if c = b then l else avail c) := by
  refine good.perm (pieces_pop live bucket is).symm fun c below => ?_
  by_cases same : c = b
  · subst same
    rw [if_pos rfl, if_pos rfl]
    have linked := good.linked c bucket
    rw [is] at linked
    exact linked.2.2
  · rw [if_neg same, if_neg same]
    exact good.linked c below

/-- A block is put in front of its bucket. -/
theorem Good.put (good : Good h live avail) (bucket : b ≤ MAX_BUCKET)
    (is : live.Perm (⟨a, b⟩ :: live')) :
    Good (h.push b a) live' (fun c => if c = b then a :: avail c else avail c) := by
  have taken : (pieces live avail).Perm (⟨a, b⟩ :: pieces live' avail) := is.append_right _
  have member : ⟨a, b⟩ ∈ pieces live avail := taken.mem_iff.mpr List.mem_cons_self
  have apart : ∀ c ≤ MAX_BUCKET, ∀ a' ∈ avail c, a + width ≤ a' ∨ a' + width ≤ a := by
    intro c below a' inside
    have far := List.rel_of_pairwise_cons (good.apart.perm taken Or.symm)
      (mem_pieces_avail below inside)
    have first := good.sizes _ member
    have second := good.sizes _ (mem_pieces_avail below inside)
    simp only [Block.Apart, Block.stop] at far
    omega
  refine good.perm ((pieces_push live' avail a bucket).trans taken.symm) fun c below => ?_
  by_cases same : c = b
  · subst same
    rw [if_pos rfl, if_pos rfl]
    exact (good.linked c bucket).push (good.head_small bucket)
      ((good.inside _ member).pos good.laid) (apart c bucket)
  · rw [if_neg same, if_neg same]
    refine (good.linked c below).frame fun a' inside x low high => store_outside ?_
    have := apart c below a' inside
    omega

/-- A piece that no other has a byte of. -/
theorem Good.add (good : Good h live avail) (inside : Inside h.chunks p) (size : width ≤ p.len)
    (within : roomOf p.kept ≤ p.len)
    (apart : ∀ q ∈ pieces live avail, p.Apart q)
    (pool : h.freepgs = 0 ∨ p.stop ≤ h.freemem ∨ h.freemem + h.freepgs * NBPG ≤ p.addr) :
    Good h (p :: live) avail where
  laid := good.laid
  inside := List.forall_mem_cons.mpr ⟨inside, good.inside⟩
  sizes := List.forall_mem_cons.mpr ⟨size, good.sizes⟩
  within := List.forall_mem_cons.mpr ⟨within, good.within⟩
  apart := List.pairwise_cons.mpr ⟨apart, good.apart⟩
  linked := good.linked
  pool := by
    rcases pool with none_ | far
    · exact .inl none_
    · refine good.pool.imp_right fun ⟨aligned, chunk, free⟩ => ⟨aligned, chunk, ?_⟩
      exact List.forall_mem_cons.mpr ⟨far.symm, free⟩
  allocsz := good.allocsz

end Pieces

end Vsta.Malloc
