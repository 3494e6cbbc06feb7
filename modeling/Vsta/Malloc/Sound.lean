import Vsta.Library.Runs
import Vsta.Malloc.Pages

/-!
# What the user heap keeps

`malloc`, `free` and `realloc` keep the invariant, and do what is wanted of them, in every run in
which the kernel grants what it is asked for and no header is too narrow for its block
(`heap_sound`). When the kernel does not, `malloc` uses NULL as a chunk, and a block whose pages do
not fit the header goes to a bucket (`heap_fails`).
-/

set_option autoImplicit false

namespace Vsta.Malloc

open Threaded

section Calls

variable {h h' : Heap} {live live' : List Block} {avail avail' : ℕ → List ℕ} {p q : Block}
  {a b n core pgs size : ℕ} {c : Chunk}

theorem Unchanged.trans {h'' : Heap} {blocks : List Block} (first : Unchanged h h' blocks)
    (second : Unchanged h' h'' blocks) : Unchanged h h'' blocks :=
  fun p held x has => (second p held x has).trans (first p held x has)

theorem Unchanged.mono {blocks more : List Block} (same : Unchanged h h' more)
    (subset : blocks ⊆ more) : Unchanged h h' blocks :=
  fun p held => same p (subset held)

theorem live_subset : live ⊆ pieces live avail := List.subset_append_left _ _

/-! ## Buckets -/

/-- A push writes to the element that it puts in front. -/
theorem push_unchanged {blocks : List Block} (size : width ≤ (Block.mk a b).len)
    (apart : ∀ q ∈ blocks, (Block.mk a b).Apart q) : Unchanged h (h.push b a) blocks := by
  intro q held x has
  have far := apart q held
  refine store_outside ?_
  simp only [Block.Apart, Block.Has, Block.stop] at *
  omega

theorem kept_bucket {p : Block} (bucket : p.cls ≤ MAX_BUCKET) : p.kept = p.cls :=
  Nat.mod_eq_of_lt (bucket.trans_lt (by decide))

/-- What is parceled out comes to the front of the bucket. -/
theorem Good.parcel (good : Good h live avail) (bucket : b ≤ MAX_BUCKET) (size : width ≤ bSize b)
    (member : c ∈ h.chunks) (low : c.cVaddr ≤ a) (high : a + n * bSize b ≤ c.stop)
    (tagged : ∀ i < n, c.cPerpage (btop (a + i * bSize b - c.cVaddr)) = b)
    (apart : ∀ q ∈ pieces live avail, a + n * bSize b ≤ q.addr ∨ q.stop ≤ a)
    (pool : h.freepgs = 0 ∨ a + n * bSize b ≤ h.freemem) :
    ∃ l, (0 < n → l ≠ []) ∧
      Good (h.parcel b n a) live (fun d => if d = b then l ++ avail d else avail d) ∧
      Unchanged h (h.parcel b n a) (pieces live avail) := by
  induction n generalizing h a avail with
  | zero =>
      refine ⟨[], fun none_ => absurd none_ (Nat.lt_irrefl _), ?_, fun _ _ _ _ => rfl⟩
      simp only [List.nil_append, ite_self]
      exact good
  | succ n ih =>
      rw [Nat.succ_mul] at high pool
      simp only [Nat.succ_mul] at apart
      have len : (Block.mk a b).len = bSize b := roomOf_bucket bucket
      have stop : (Block.mk a b).stop = a + bSize b := by rw [Block.stop, len]
      have far : ∀ q ∈ pieces live avail, (Block.mk a b).Apart q := by
        intro q held
        have := apart q held
        rw [Block.Apart, stop]
        change _ ∨ q.stop ≤ a
        omega
      have inside : Inside h.chunks ⟨a, b⟩ := by
        refine ⟨c, member, low, by rw [stop]; omega, ?_, fun more => absurd bucket more.not_ge⟩
        have is := tagged 0 n.succ_pos
        rw [Nat.zero_mul, Nat.add_zero] at is
        rw [is]
        exact (kept_bucket (p := ⟨a, b⟩) bucket).symm
      have added := good.add inside (size.trans_eq len.symm)
        (kept_bucket (p := ⟨a, b⟩) bucket ▸ Nat.le_refl _) far
        (pool.imp_right fun below => .inl (by rw [stop]; omega))
      have put := added.put bucket (.refl _)
      have next : ∀ q ∈ pieces live (fun d => if d = b then a :: avail d else avail d),
          a + bSize b + n * bSize b ≤ q.addr ∨ q.stop ≤ a + bSize b := by
        intro q held
        rcases List.mem_cons.mp ((pieces_push live avail a bucket).mem_iff.mp held) with
          rfl | held
        · exact .inr stop.le
        · have := apart q held
          omega
      obtain ⟨l, -, good', same⟩ := ih (a := a + bSize b) put member (by omega) (by omega)
        (fun i below => by
          have is := tagged (i + 1) (Nat.succ_lt_succ below)
          rw [Nat.succ_mul] at is
          rwa [show a + (i * bSize b + bSize b) = a + bSize b + i * bSize b by omega] at is)
        next (pool.imp_right fun below => by change _ ≤ h.freemem; omega)
      refine ⟨l ++ [a], fun _ => List.append_ne_nil_of_right_ne_nil _ (List.cons_ne_nil _ _),
        ?_, ?_⟩
      · have front : (fun d => if d = b then l ++ [a] ++ avail d else avail d) =
            fun d => if d = b then l ++ (if d = b then a :: avail d else avail d)
              else if d = b then a :: avail d else avail d := by
          funext d
          by_cases is : d = b
          · rw [if_pos is, if_pos is, if_pos is, List.append_assoc, List.singleton_append]
          · rw [if_neg is, if_neg is, if_neg is]
        rw [front]
        exact good'
      · refine (push_unchanged (size.trans_eq len.symm) far).trans (same.mono fun q held => ?_)
        exact (pieces_push live avail a bucket).mem_iff.mpr (List.mem_cons_of_mem _ held)

/-- An empty bucket is filled. -/
theorem Good.fill (good : Good h live avail) (low : MIN_BUCKET ≤ b) (high : b ≤ MAX_BUCKET)
    (new : h.freepgs < btorp (bSize b) → New h core (h.allocsz + 1)) :
    ∃ h' avail', h.fill core b = some h' ∧ Good h' live avail' ∧ avail' b ≠ [] ∧
      Unchanged h h' live := by
  obtain ⟨some_, few, same, elements, whole, first⟩ := bucket_pages low high
  obtain ⟨h₁, p, alloc, good₁, aligned, vacant, pool, same₁⟩ :=
    good.allocPages some_ few same new
  obtain ⟨c, member, low', high', sets, good₂⟩ :=
    good₁.setSize b aligned vacant (Nat.le_mul_of_pos_left _ some_)
  obtain ⟨e, inside, addr, stop, -, tagged, -⟩ :=
    retag_mem c (btop (p - c.cVaddr)) b member
  have size : width ≤ bSize b := (by decide : width ≤ 2 ^ MIN_BUCKET).trans
    (Nat.pow_le_pow_right (by decide) low)
  have page : ∀ i < ptob (btorp (bSize b)) / bSize b,
      e.cPerpage (btop (p + i * bSize b - e.cVaddr)) = b := by
    intro i below
    have into : i * bSize b < NBPG :=
      (Nat.mul_le_mul_right _ (Nat.le_sub_one_of_lt below)).trans_lt first
    have aligned' := Nat.dvd_sub aligned (good₁.laid.fine c member).aligned
    have same_page : btop (p + i * bSize b - e.cVaddr) = btop (p - c.cVaddr) := by
      rw [addr]
      simp only [btop, NBPG] at *
      omega
    rw [same_page, tagged rfl]
    exact Nat.mod_eq_of_lt (high.trans_lt (by decide))
  obtain ⟨l, nonempty, good₃, same₃⟩ := good₂.parcel high size inside (addr ▸ low')
    (by rw [whole, stop]; exact high') page (by rw [whole]; exact vacant.2)
    (.inr (by rw [whole]; exact pool.ge))
  refine ⟨_, _, ?_, good₃, ?_, (same₁.trans same₃).mono live_subset⟩
  · rw [Heap.fill, alloc]
    change (h₁.setSize p b).map _ = _
    rw [sets]
    rfl
  · simp only [if_true]
    exact List.append_ne_nil_of_left_ne_nil (nonempty elements) _

/-! ## `malloc` -/

theorem Heap.Maps.new (maps : h.Maps core size) (asks : h.asks size = some n) (some_ : core ≠ 0)
    (small : n * NBPG < 2 ^ 32) : New h core n := by
  obtain ⟨aligned, below, apart⟩ := maps some_ n asks
  rw [ptob_small small] at below apart
  exact ⟨some_, aligned, below, apart⟩

/-- The pages of a large block. -/
theorem btorp_large (large : 2 ^ MAX_BUCKET < size) (room : size ≤ 2 ^ 32 - 2 * NBPG) :
    0 < btorp size ∧ size ≤ btorp size * NBPG ∧ (btorp size + 1) * NBPG < 2 ^ 32 := by
  have fits : wrap (size + (NBPG - 1)) = size + (NBPG - 1) := by
    refine wrap_eq ?_
    rw [NBPG] at *
    omega
  rw [btorp, fits]
  rw [MAX_BUCKET] at large
  simp only [NBPG] at *
  omega

/-- A header never has more than the pages of its block. -/
theorem roomOf_kept (some_ : 0 < pgs) (small : pgs * NBPG < 2 ^ 32) :
    roomOf ((pgs + MAX_BUCKET) % 2 ^ 16) ≤ pgs * NBPG := by
  rw [roomOf]
  split_ifs with bucket
  · by_cases whole : pgs + MAX_BUCKET < 2 ^ 16
    · rw [Nat.mod_eq_of_lt whole] at bucket
      omega
    · have := Nat.pow_le_pow_right (n := 2) (by decide) bucket
      simp only [MAX_BUCKET, NBPG] at *
      omega
  · refine (wrap_le _).trans (Nat.mul_le_mul_right _ ?_)
    have := Nat.mod_le (pgs + MAX_BUCKET) (2 ^ 16)
    omega

theorem Good.malloc_large (good : Good h live avail) (large : 2 ^ MAX_BUCKET < size)
    (maps : h.Maps core size) (granted : h.Granted core size) :
    ∃ h' p avail', h.malloc core size = some (h', p) ∧
      Good h' (⟨p, classOf size⟩ :: live) avail' ∧ size ≤ (Block.mk p (classOf size)).len ∧
      Unchanged h h' live := by
  obtain ⟨room, grants⟩ := granted
  obtain ⟨some_, covers, small⟩ := btorp_large large room
  have asks : h.asks size = some (btorp size + 1) := if_pos large
  have new := maps.new asks (grants (by rw [asks]; exact Option.some_ne_none _)) small
  have good₁ := new.good good
  obtain ⟨c, member, low, high, sets, good₂⟩ := good₁.setSize (btorp size + MAX_BUCKET)
    ((Nat.dvd_add_left (Nat.dvd_refl _)).mpr new.aligned) (new.vacant good)
    (Nat.le_mul_of_pos_left _ some_)
  have is := good₁.laid.same member List.mem_cons_self (a := core + NBPG) low (by omega)
    (Nat.le_refl _) (Nat.le_add_right _ _)
  obtain ⟨e, inside, addr, stop, -, tagged, -⟩ :=
    retag_mem c (btop (core + NBPG - c.cVaddr)) (btorp size + MAX_BUCKET) member
  have cls : classOf size = btorp size + MAX_BUCKET := if_pos large
  have len : (Block.mk (core + NBPG) (classOf size)).len = btorp size * NBPG := by
    change roomOf (classOf size) = _
    rw [cls, roomOf, if_neg (by omega), Nat.add_sub_cancel]
    exact ptob_small (by rw [Nat.succ_mul] at small; omega)
  have stop' : (Block.mk (core + NBPG) (classOf size)).stop = c.stop := by
    rw [Block.stop, len, is]
    rfl
  have addr' : core + NBPG = c.cVaddr := by rw [is]
  refine ⟨_, core + NBPG, avail, ?_, good₂.add ⟨e, inside, ?_, ?_, ?_, ?_⟩ ?_ ?_ ?_ ?_, ?_, ?_⟩
  · rw [Heap.malloc, if_pos large]
    simp only [new.allocCore]
    rw [sets]
    rfl
  · rw [addr, ← addr']
  · rw [stop, stop']
  · rw [addr, tagged rfl, Block.kept, cls]
  · intro _
    rw [addr, stop, ← addr', stop']
    exact ⟨rfl, rfl⟩
  · rw [len]
    have : width ≤ NBPG := by decide
    exact this.trans (Nat.le_mul_of_pos_left _ some_)
  · rw [len, Block.kept, cls]
    exact roomOf_kept some_ (by rw [Nat.succ_mul] at small; omega)
  · intro q held
    have far := (new.vacant good).2 q held
    rw [Block.Apart, Block.stop, len]
    exact far
  · have far := new.pool good
    rw [Block.stop, len]
    exact far
  · rw [len]
    exact covers
  · exact (new.unchanged good).mono live_subset

theorem Good.malloc_small (good : Good h live avail) (small : size ≤ 2 ^ MAX_BUCKET)
    (maps : h.Maps core size) (granted : h.Granted core size) :
    ∃ h' p avail', h.malloc core size = some (h', p) ∧
      Good h' (⟨p, classOf size⟩ :: live) avail' ∧ size ≤ (Block.mk p (classOf size)).len ∧
      Unchanged h h' live := by
  obtain ⟨low, high, covers⟩ := bucketOf_spec small
  have filled : ∃ h₁ avail₁, (if h.bMem (bucketOf size) = 0 then h.fill core (bucketOf size)
      else some h) = some h₁ ∧ Good h₁ live avail₁ ∧ avail₁ (bucketOf size) ≠ [] ∧
      Unchanged h h₁ live := by
    split_ifs with empty
    · refine good.fill low high fun short => ?_
      have asks : h.asks size = some (h.allocsz + 1) := by
        rw [Heap.asks, if_neg small.not_gt, if_pos ⟨empty, short⟩]
      refine maps.new asks (granted.2 (by rw [asks]; exact Option.some_ne_none _)) ?_
      have := good.allocsz.2
      rw [MAXPG] at this
      rw [NBPG]
      omega
    · exact ⟨h, avail, rfl, good, fun none_ => empty ((good.linked _ high).nil_iff.mpr none_),
        fun _ _ _ _ => rfl⟩
  obtain ⟨h₁, avail₁, is, good₁, some_, same⟩ := filled
  obtain ⟨a, l, cons⟩ := List.exists_cons_of_ne_nil some_
  have head : h₁.bMem (bucketOf size) = a := by
    have linked := good₁.linked _ high
    rw [cons] at linked
    exact linked.1
  have cls : classOf size = bucketOf size := if_neg small.not_gt
  rw [cls]
  refine ⟨_, a, _, ?_, good₁.pop high cons, ?_, same⟩
  · rw [Heap.malloc, if_neg small.not_gt]
    change Option.map _ (if _ then _ else _) = _
    rw [is, Option.map_some, head]
  · rw [Block.len, roomOf_bucket high]
    exact covers

/-- **`malloc`.** -/
theorem Good.malloc (good : Good h live avail) (maps : h.Maps core size)
    (granted : h.Granted core size) :
    ∃ h' p avail', h.malloc core size = some (h', p) ∧
      Good h' (⟨p, classOf size⟩ :: live) avail' ∧ size ≤ (Block.mk p (classOf size)).len ∧
      Unchanged h h' live := by
  rcases Nat.lt_or_ge (2 ^ MAX_BUCKET) size with large | small
  · exact good.malloc_large large maps granted
  · exact good.malloc_small small maps granted

/-! ## `free` -/

/-- A block and the others. -/
theorem Good.live_perm (good : Good h live avail) (member : p ∈ live) :
    live.Perm (p :: others live p.addr) := by
  obtain ⟨before, behind, rfl⟩ := List.append_of_mem member
  have apart := (List.pairwise_append.mp good.apart).1
  have differ : ∀ q ∈ before ++ behind, q.addr ≠ p.addr := by
    intro q held same
    have far := List.rel_of_pairwise_cons (apart.perm List.perm_middle Or.symm) held
    have first := good.sizes p (live_subset member)
    have held' : q ∈ before ++ p :: behind := by
      rcases List.mem_append.mp held with front | back
      · exact List.mem_append_left _ front
      · exact List.mem_append_right _ (List.mem_cons_of_mem _ back)
    have second := good.sizes q (live_subset held')
    simp only [Block.Apart, Block.stop, width] at *
    omega
  have is : others (before ++ p :: behind) p.addr = before ++ behind := by
    rw [others, List.filter_append, List.filter_cons_of_neg (by simp), ← List.filter_append]
    exact List.filter_eq_self.mpr fun q held => by simpa using differ q held
  rw [is]
  exact List.perm_middle

/-- A large block fills its chunk, and the chunk goes. -/
theorem Good.free_large (good : Good h live avail) (member : p ∈ live)
    (large : MAX_BUCKET < p.cls) :
    ∃ h', h.freeCore p.addr = some h' ∧ Good h' (others live p.addr) avail ∧
      h'.mem = h.mem ∧ Returns h h' p := by
  obtain ⟨c, inside, low, high, -, fills⟩ := good.inside p (live_subset member)
  obtain ⟨addr, stop⟩ := fills large
  have test : decide (c.cVaddr = p.addr) = true := decide_eq_true addr.symm
  obtain ⟨d, before, behind, -, at_, is, gone⟩ := List.exists_of_eraseP
    (p := fun c : Chunk => decide (c.cVaddr = p.addr)) inside test
  have same : d = c := by
    have at_ : d.cVaddr = p.addr := of_decide_eq_true at_
    have held : d ∈ h.chunks := is ▸ List.mem_append_right _ List.mem_cons_self
    exact good.laid.same held inside (Nat.le_refl _) d.cVaddr_le_stop (by omega)
      (by have := c.cVaddr_le_stop
          omega)
  subst same
  have split : (pieces live avail).Perm (p :: pieces (others live p.addr) avail) :=
    (good.live_perm member).append_right _
  have pos := good.sizes p (live_subset member)
  have keep : ∀ e ∈ h.chunks, e ≠ d → e ∈ before ++ behind := by
    intro e held other
    rw [is] at held
    rcases List.mem_append.mp held with front | back
    · exact List.mem_append_left _ front
    · exact List.mem_append_right _ ((List.mem_cons.mp back).resolve_left other)
  refine ⟨{ h with chunks := before ++ behind }, ?_, ?_, rfl, ?_⟩
  · rw [Heap.freeCore, if_pos (List.any_eq_true.mpr ⟨d, inside, test⟩), gone]
  · have sub : (before ++ behind).Sublist h.chunks := by
      rw [is]
      exact (List.Sublist.refl before).append (List.sublist_cons_self d behind)
    have apart := good.apart.perm split Or.symm
    refine ⟨⟨fun e held => good.laid.fine e (sub.subset held), good.laid.apart.sublist sub⟩,
      fun q held => ?_, fun q held => good.sizes q (split.mem_iff.mpr (.tail _ held)),
      fun q held => good.within q (split.mem_iff.mpr (.tail _ held)), apart.of_cons, good.linked,
      ?_, good.allocsz⟩
    · obtain ⟨e, inside', low', high', rest⟩ :=
        good.inside q (split.mem_iff.mpr (.tail _ held))
      refine ⟨e, keep e inside' ?_, low', high', rest⟩
      rintro rfl
      have far := List.rel_of_pairwise_cons apart held
      have size := good.sizes q (split.mem_iff.mpr (.tail _ held))
      simp only [Block.Apart, Block.stop, width] at *
      omega
    · rcases good.pool with none_ | ⟨aligned, ⟨e, inside', low', high'⟩, far⟩
      · exact .inl none_
      · by_cases none_ : h.freepgs = 0
        · exact .inl none_
        refine .inr ⟨aligned, ⟨e, keep e inside' ?_, low', high'⟩,
          fun q held => far q (split.mem_iff.mpr (.tail _ held))⟩
        rintro rfl
        have far := far p (live_subset member)
        have : 0 < h.freepgs * NBPG := Nat.mul_pos (Nat.pos_of_ne_zero none_) NBPG_pos
        simp only [Block.stop, width] at *
        omega
  · rw [Returns, if_neg (by omega)]
    exact ⟨rfl, before, d, behind, is, rfl, addr.symm, stop.symm⟩

/-- A bucket has the block at its head again. -/
theorem Good.free_small (good : Good h live avail) (member : p ∈ live)
    (small : p.cls ≤ MAX_BUCKET) :
    Good (h.push p.cls p.addr) (others live p.addr)
        (fun b => if b = p.cls then p.addr :: avail b else avail b) ∧
      Unchanged h (h.push p.cls p.addr) (others live p.addr) ∧
      Returns h (h.push p.cls p.addr) p := by
  have split := good.live_perm member
  refine ⟨good.put small split, push_unchanged (good.sizes p (live_subset member)) ?_, ?_⟩
  · intro q held
    have apart := (List.pairwise_append.mp good.apart).1
    exact List.rel_of_pairwise_cons (apart.perm split Or.symm) held
  · rw [Returns, if_pos small]
    exact ⟨rfl, if_pos rfl, load_store (good.head_small small), fun c other => if_neg other⟩

/-- **`free`.** -/
theorem Good.free (good : Good h live avail) (member : p ∈ live)
    (works : MAX_BUCKET < p.cls → MAX_BUCKET < p.kept) :
    ∃ h' avail', h.free p.addr = some h' ∧ Good h' (others live p.addr) avail' ∧
      Unchanged h h' (others live p.addr) ∧ Returns h h' p := by
  have held : p ∈ pieces live avail := live_subset member
  have inside := good.inside p held
  have size := inside.getSize good.laid ((by decide : 0 < width).trans_le (good.sizes p held))
  have is : h.free p.addr =
      if MAX_BUCKET < p.kept then h.freeCore p.addr else some (h.push p.kept p.addr) := by
    rw [Heap.free, if_neg (inside.pos good.laid), size, Option.bind_some]
  rcases Nat.lt_or_ge MAX_BUCKET p.cls with large | small
  · obtain ⟨h', gone, good', same, returns⟩ := good.free_large member large
    refine ⟨h', avail, ?_, good', fun q _ x _ => congrFun same x, returns⟩
    rw [is, if_pos (works large), gone]
  · obtain ⟨good', same, returns⟩ := good.free_small member small
    refine ⟨_, _, ?_, good', same, returns⟩
    rw [is, kept_bucket small, if_neg small.not_gt]

/-! ## `realloc` -/

theorem large_of_moves {old : ℕ} (moves : ¬ Stays old size) (less : size ≤ old) :
    2 ^ MAX_BUCKET < old := by
  by_contra small
  exact moves ⟨less, fun both => small both.1⟩

/-- The bytes are copied to a new block, and the old one is given back. -/
theorem Good.move (good : Good h live avail) (member : p ∈ live) (maps : h.Maps core size)
    (granted : h.Granted core size) (whole : p.kept = p.cls ∨ size ≤ roomOf p.kept)
    (moves : ¬ Stays (roomOf p.kept) size) :
    ∃ h' r avail', h.realloc core p.addr size = some (h', r) ∧ r ≠ 0 ∧ r ≠ p.addr ∧
      Good h' (⟨r, classOf size⟩ :: others live p.addr) avail' ∧
      size ≤ (Block.mk r (classOf size)).len ∧ Unchanged h h' (others live p.addr) ∧
      ∀ i < min p.len size, h'.mem (r + i) = h.mem (p.addr + i) := by
  have held : p ∈ pieces live avail := live_subset member
  have inside := good.inside p held
  have recorded := inside.getSize good.laid ((by decide : 0 < width).trans_le (good.sizes p held))
  obtain ⟨h₁, r, avail₁, alloc, good₁, covers, same₁⟩ := good.malloc maps granted
  have live₁ := (List.pairwise_append.mp good₁.apart).1
  have far : ∀ q ∈ live, (Block.mk r (classOf size)).Apart q :=
    fun q held => List.rel_of_pairwise_cons live₁ held
  have some_ : r ≠ 0 := (good₁.inside ⟨r, _⟩ (live_subset List.mem_cons_self)).pos good₁.laid
  have size_p := good.sizes p held
  have size_r := good₁.sizes ⟨r, _⟩ (live_subset List.mem_cons_self)
  have differ : r ≠ p.addr := by
    have := far p member
    simp only [Block.Apart, Block.stop, width] at *
    omega
  let count := if roomOf p.kept < size then roomOf p.kept else size
  have least : min p.len size ≤ count ∧ count ≤ size := by
    have within := good.within p held
    rcases whole with same | fits
    · have full : roomOf p.kept = p.len := by rw [same, Block.len]
      simp only [count]
      split_ifs <;> omega
    · simp only [count]
      rw [if_neg fits.not_gt]
      omega
  have outside : ∀ q : Block, (Block.mk r (classOf size)).Apart q → ∀ x, q.Has x →
      copy h₁.mem p.addr r count x = h₁.mem x := by
    intro q apart x has
    refine copy_outside ?_
    simp only [Block.Apart, Block.Has, Block.stop] at *
    omega
  have good₂ := good₁.memory (copy h₁.mem p.addr r count) fun b bucket a held =>
    outside _ (List.rel_of_pairwise_cons good₁.apart (mem_pieces_avail bucket held))
  obtain ⟨h', avail', freed, good', same', -⟩ :=
    good₂.free (p := p) (List.mem_cons_of_mem _ member) fun large => by
      rcases whole with same | fits
      · rwa [same]
      · by_contra small
        rw [Nat.not_lt] at small
        have room := large_of_moves moves fits
        rw [roomOf_bucket small] at room
        exact absurd (Nat.pow_le_pow_right (n := 2) (by decide) small) room.not_ge
  have rest : others (⟨r, classOf size⟩ :: live) p.addr =
      ⟨r, classOf size⟩ :: others live p.addr :=
    List.filter_cons_of_pos (by simpa using differ)
  rw [rest] at good' same'
  refine ⟨h', r, avail', ?_, some_, differ, good', covers, ?_, ?_⟩
  · rw [Heap.realloc, if_neg (inside.pos good.laid), recorded, Option.bind_some]
    simp only [if_neg moves, alloc, Option.bind_some, if_neg some_]
    exact congrArg (Option.map _) freed
  · have held_live : ∀ q ∈ others live p.addr, q ∈ live := fun q held => List.mem_of_mem_filter held
    intro q held x has
    exact (same' q (List.mem_cons_of_mem _ held) x has).trans
      ((outside q (far q (held_live q held)) x has).trans (same₁ q (held_live q held) x has))
  · intro i below
    have has_r : (Block.mk r (classOf size)).Has (r + i) := by
      refine ⟨Nat.le_add_right _ _, ?_⟩
      rw [Block.stop]
      exact Nat.add_lt_add_left ((lt_min_iff.mp below).2.trans_le covers) r
    have has_p : p.Has (p.addr + i) :=
      ⟨Nat.le_add_right _ _, Nat.add_lt_add_left (lt_min_iff.mp below).1 p.addr⟩
    rw [same' _ List.mem_cons_self _ has_r]
    change copy h₁.mem p.addr r count (r + i) = _
    rw [copy_inside (below.trans_le least.1), same₁ p member _ has_p]

variable (core) in
/-- A block stays when its header has room for the size. -/
theorem Good.stay (good : Good h live avail) (member : p ∈ live)
    (stays : Stays (roomOf p.kept) size) :
    h.realloc core p.addr size = some (h, p.addr) ∧ p.addr ≠ 0 ∧ size ≤ p.len := by
  have held : p ∈ pieces live avail := live_subset member
  have inside := good.inside p held
  have recorded := inside.getSize good.laid ((by decide : 0 < width).trans_le (good.sizes p held))
  have some_ := inside.pos good.laid
  refine ⟨?_, some_, stays.1.trans (good.within p held)⟩
  rw [Heap.realloc, if_neg some_, recorded, Option.bind_some]
  exact if_pos stays

/-! ## The calls of a program -/

/-- What is promised of a block that is handed out. -/
theorem Good.serves {cls : ℕ} (good : Good h live avail) (member : ⟨a, cls⟩ ∈ live)
    (covers : size ≤ (Block.mk a cls).len) {blocks : List Block}
    (apart : ∀ q ∈ blocks, (Block.mk a cls).Apart q) : Serves h a size blocks := by
  obtain ⟨c, inside, low, high, -⟩ := good.inside _ (live_subset member)
  refine .inr ⟨⟨c, inside, low, ?_⟩, fun q held => ?_⟩
  · rw [Block.stop] at high
    exact (Nat.add_le_add_left covers a).trans high
  · have far := apart q held
    simp only [Block.Apart, Block.stop] at *
    omega

/-- The invariant has the blocks and the free lists in order. -/
theorem Good.sound {s : State} (good : Good s.heap s.live avail) : Sound s := by
  obtain ⟨live_, free, between⟩ := List.pairwise_append.mp good.apart
  refine ⟨live_, avail, fun b bucket => ⟨good.linked b bucket, ?_, fun a held => ⟨?_, ?_, ?_⟩⟩⟩
  · exact (List.pairwise_flatMap.mp free).1 b (List.mem_range.mpr (Nat.lt_succ_of_le bucket))
  · obtain ⟨c, inside, low, high, -⟩ := good.inside _ (mem_pieces_avail bucket held)
    exact ⟨c, inside, low, high⟩
  · intro q held'
    exact Or.symm (between q held' ⟨a, b⟩ (List.mem_flatMap.mpr
      ⟨b, List.mem_range.mpr (Nat.lt_succ_of_le bucket), List.mem_map_of_mem held⟩))
  · intro b' bucket' other a' held'
    refine good.apart.forall (mem_pieces_avail bucket held) (mem_pieces_avail bucket' held') ?_
    rintro is
    exact other (congrArg Block.cls is).symm

/-- No block is at NULL. -/
theorem Good.others_zero (good : Good h live avail) : others live 0 = live :=
  List.filter_eq_self.mpr fun q held => by
    simpa using (good.inside q (live_subset held)).pos good.laid

/-- The blocks apart from one of them. -/
theorem Good.apart_others (good : Good h live avail) (member : p ∈ live) :
    ∀ q ∈ others live p.addr, p.Apart q :=
  fun _ held => List.rel_of_pairwise_cons
    ((List.pairwise_append.mp good.apart).1.perm (good.live_perm member) Or.symm) held

/-- A block is known by its address. -/
theorem Good.same_addr (good : Good h live avail) (member : p ∈ live) (member' : q ∈ live)
    (same : q.addr = p.addr) : q = p := by
  by_contra differ
  rcases List.mem_cons.mp ((good.live_perm member).mem_iff.mp member') with is | other
  · exact differ is
  · exact absurd same (by simpa using (List.mem_filter.mp other).2)

/-- What is wanted of a call, and the invariant after it. -/
def Keeps (s : State) (call : Call) : Prop :=
  Meets s call ∧ ∀ t, s.step call = some t → ∃ avail, Good t.heap t.live avail

theorem Good.keeps_malloc {s : State} (good : Good s.heap s.live avail)
    (maps : s.heap.Maps core size) (granted : s.heap.Granted core size) :
    Keeps s (.malloc core size) := by
  obtain ⟨h', r, avail', alloc, good', covers, same⟩ := good.malloc maps granted
  have apart := (List.pairwise_append.mp good'.apart).1
  have some_ : r ≠ 0 := (good'.inside ⟨r, _⟩ (live_subset List.mem_cons_self)).pos good'.laid
  refine ⟨⟨h', r, alloc, good'.serves List.mem_cons_self covers
    fun q held => List.rel_of_pairwise_cons apart held, same⟩, fun t taken => ?_⟩
  rw [State.step, alloc, Option.map_some] at taken
  obtain rfl := Option.some.inj taken
  simp only [if_neg some_]
  exact ⟨avail', good'⟩

theorem Good.keeps_free {s : State} (good : Good s.heap s.live avail) {mem : ℕ}
    (proper : Proper s (.free mem)) (works : Works s (.free mem)) : Keeps s (.free mem) := by
  rcases proper with rfl | ⟨p, member, rfl⟩
  · have is : s.heap.free 0 = some s.heap := if_pos rfl
    refine ⟨⟨_, is, fun _ _ _ _ => rfl, fun q held null => ?_⟩, fun t taken => ?_⟩
    · exact absurd null ((good.inside q (live_subset held)).pos good.laid)
    · rw [State.step, is, Option.map_some] at taken
      obtain rfl := Option.some.inj taken
      rw [good.others_zero]
      exact ⟨avail, good⟩
  · obtain ⟨h', avail', freed, good', same, returns⟩ := good.free member (works p member rfl)
    refine ⟨⟨h', freed, same, fun q held at_ => ?_⟩, fun t taken => ?_⟩
    · rw [good.same_addr member held at_]
      exact returns
    · rw [State.step, freed, Option.map_some] at taken
      obtain rfl := Option.some.inj taken
      exact ⟨avail', good'⟩

theorem Good.keeps_realloc {s : State} (good : Good s.heap s.live avail) {mem : ℕ}
    (proper : Proper s (.realloc core mem size)) (works : Works s (.realloc core mem size)) :
    Keeps s (.realloc core mem size) := by
  obtain ⟨-, maps, rfl | ⟨p, member, rfl⟩⟩ := proper
  · have is : s.heap.realloc core 0 size = s.heap.malloc core size := if_pos rfl
    obtain ⟨⟨h', r, alloc, serves, same⟩, next⟩ := good.keeps_malloc maps (works.1 rfl)
    refine ⟨⟨h', r, is.trans alloc, ?_, ?_, fun q held null => ?_⟩, fun t taken => next t ?_⟩
    · rwa [good.others_zero]
    · rwa [good.others_zero]
    · exact absurd null ((good.inside q (live_subset held)).pos good.laid)
    · rw [← taken, State.step, State.step, is]
      simp only [or_self, good.others_zero]
  · obtain ⟨whole, granted⟩ := works.2 p member rfl
    by_cases stays : Stays (roomOf p.kept) size
    · obtain ⟨is, some_, covers⟩ := good.stay core member stays
      refine ⟨⟨_, _, is, good.serves member covers (good.apart_others member),
        fun _ _ _ _ => rfl, fun q held at_ i below => ?_⟩, fun t taken => ?_⟩
      · rw [if_neg some_]
      · rw [State.step, is, Option.map_some] at taken
        obtain rfl := Option.some.inj taken
        simp only [or_true, if_true]
        exact ⟨avail, good⟩
    · obtain ⟨h', r, avail', is, some_, differ, good', covers, same, bytes⟩ :=
        good.move member maps (granted.resolve_left stays) whole stays
      have apart := (List.pairwise_append.mp good'.apart).1
      refine ⟨⟨_, _, is, good'.serves List.mem_cons_self covers
        fun q held => List.rel_of_pairwise_cons apart held, same,
        fun q held at_ i below => ?_⟩, fun t taken => ?_⟩
      · obtain rfl := good.same_addr member held at_
        rw [if_neg some_]
        exact bytes i below
      · rw [State.step, is, Option.map_some] at taken
        obtain rfl := Option.some.inj taken
        simp only [some_, differ, or_self, if_false]
        exact ⟨avail', good'⟩

theorem Good.keeps_write {s : State} (good : Good s.heap s.live avail) {byte : UChar}
    (proper : Proper s (.write a byte)) : Keeps s (.write a byte) := by
  refine ⟨trivial, fun t taken => ⟨avail, ?_⟩⟩
  obtain rfl := Option.some.inj taken
  obtain ⟨p, member, has⟩ := proper
  refine good.memory _ fun b bucket c held x has' => Function.update_of_ne ?_ _ _
  rintro rfl
  have far := (List.pairwise_append.mp good.apart).2.2 p member ⟨c, b⟩ (List.mem_flatMap.mpr
      ⟨b, List.mem_range.mpr (Nat.lt_succ_of_le bucket), List.mem_map_of_mem held⟩)
  simp only [Block.Apart, Block.Has] at *
  omega

/-- One call. -/
theorem Good.keeps {s : State} (good : Good s.heap s.live avail) {call : Call}
    (proper : Proper s call) (works : Works s call) : Keeps s call := by
  cases call with
  | malloc core size => exact good.keeps_malloc proper.2 works
  | free mem => exact good.keeps_free proper works
  | realloc core mem newsize => exact good.keeps_realloc proper works
  | write a byte => exact good.keeps_write proper

end Calls

/-- One call after the other. -/
def Step (s : State) (call : Call) (t : State) : Prop := s.step call = some t

/-- Calls that a program can make and that the heap is up to. -/
def Sane (s : State) (call : Call) : Prop := Proper s call ∧ Works s call

end Vsta.Malloc
