import Vsta.Vas.Calls
import Vsta.ResourceMap.Refinement
import Mathlib.Data.List.Pairwise

/-!
# The integrity of an address space

An address space is `Intact` when its views are pairwise disjoint and a page of the window is free
in the map exactly when no view holds a byte of it. `WellFormed` adds what carries this through a
call: the shape of the map, and that a view either keeps out of the window or lies in it on a
page boundary. Every call either attaches a view in a place of its own (`attach_fixed`,
`attach_chosen`) or detaches one (`detach_wellFormed`).
-/

set_option autoImplicit false

namespace Vsta.AddressSpace

open ResourceMap
open Vm (PsetType NBPG)

/-! ## Ranges of bytes -/

/-- The first byte behind `len` pages from `vaddr` on. -/
def stop (vaddr : ULong) (len : Uint) : ℕ := vaddr.toNat + len.toNat * NBPG

/-- The bytes of `len` pages from `vaddr` on. -/
def bytes (vaddr : ULong) (len : Uint) : Set ℕ := Set.Ico vaddr.toNat (stop vaddr len)

/-- The bytes of a view. -/
abbrev Pview.bytes (pv : Pview) : Set ℕ := AddressSpace.bytes pv.pVaddr pv.pLen

/-- The bytes of the window. -/
def windowBytes : Set ℕ := Set.Ico VMAP_BASE.toNat (VMAP_BASE.toNat + VMAP_SIZE.toNat)

/-- The pages of the window. -/
def windowPages : Set ℕ :=
  Set.Ico (VMAP_BASE.toNat / NBPG) ((VMAP_BASE.toNat + VMAP_SIZE.toNat) / NBPG)

theorem mem_bytes {vaddr : ULong} {len : Uint} {x : ℕ} :
    x ∈ bytes vaddr len ↔ vaddr.toNat ≤ x ∧ x < vaddr.toNat + len.toNat * 4096 := Iff.rfl

theorem mem_windowBytes {x : ℕ} : x ∈ windowBytes ↔ 0x40000000 ≤ x ∧ x < 0x60000000 := Iff.rfl

theorem mem_windowPages {x : ℕ} : x ∈ windowPages ↔ 0x40000 ≤ x ∧ x < 0x60000 := Iff.rfl

theorem inWindow_iff {vaddr : ULong} : inWindow vaddr = true ↔ vaddr.toNat ∈ windowBytes := by
  simp only [inWindow, Bool.and_eq_true, decide_eq_true_eq, BitVec.le_def, BitVec.lt_def]
  exact Iff.rfl

theorem toNat_ptob (x : Uint) : (ptob x).toNat = x.toNat * 4096 % 2 ^ 32 := by
  simp [ptob, BitVec.toNat_shiftLeft, Nat.shiftLeft_eq]

theorem toNat_btop (x : ULong) : (btop x).toNat = x.toNat / 4096 := by
  simp [btop, BitVec.toNat_ushiftRight, Nat.shiftRight_eq_div_pow]

/-- The end of a range that does not wrap. -/
theorem toNat_stop {vaddr : ULong} {len : Uint} (below : stop vaddr len < 2 ^ 32) :
    (vaddr + ptob len).toNat = vaddr.toNat + len.toNat * 4096 := by
  simp only [stop, NBPG] at below
  rw [BitVec.toNat_add, toNat_ptob]
  omega

theorem contains_iff {pv : Pview} (below : stop pv.pVaddr pv.pLen < 2 ^ 32) (va : ULong) :
    contains pv va = true ↔ va.toNat ∈ pv.bytes := by
  simp only [contains, Bool.and_eq_true, decide_eq_true_eq, BitVec.le_def, BitVec.lt_def,
    toNat_stop below, mem_bytes]

/-- The range begins behind the start of a view and ends before its end. -/
def Inside (vaddr : ULong) (len : Uint) (pv : Pview) : Prop :=
  pv.pVaddr.toNat < vaddr.toNat ∧ stop vaddr len < stop pv.pVaddr pv.pLen

/-- The test of `overlapping_pview` misses a range only where it lies inside a view. -/
theorem disjoint_of_not_overlaps {vaddr : ULong} {len : Uint} {pv : Pview}
    (below : stop vaddr len < 2 ^ 32) (below' : stop pv.pVaddr pv.pLen < 2 ^ 32)
    (missed : overlaps vaddr len pv = false) (outside : ¬Inside vaddr len pv) :
    Disjoint (bytes vaddr len) pv.bytes := by
  simp only [overlaps, Bool.or_eq_false_iff, Bool.and_eq_false_iff, decide_eq_false_iff_not,
    BitVec.le_def, BitVec.lt_def, toNat_stop below, toNat_stop below'] at missed
  simp only [Inside, stop, NBPG] at outside
  rw [Set.disjoint_left]
  intro x here there
  rw [mem_bytes] at here there
  omega

/-! ## The invariant -/

/-- The views are pairwise disjoint, and the free map and the views partition the window. -/
structure Intact (vas : Vas) : Prop where
  apart : vas.vViews.Pairwise fun v w => Disjoint v.bytes w.bytes
  partition : ∀ x ∈ windowBytes,
    x / NBPG ∈ free vas.hMap.slots ↔ ∀ v ∈ vas.vViews, x ∉ v.bytes
  inside : free vas.hMap.slots ⊆ windowPages

/-- A view that keeps out of the window, or lies in it on a page boundary. -/
def Placed (pv : Pview) : Prop :=
  stop pv.pVaddr pv.pLen < 2 ^ 32 ∧
    ((pv.pVaddr.toNat ∉ windowBytes ∧ Disjoint pv.bytes windowBytes) ∨
      (pv.pVaddr.toNat ∈ windowBytes ∧ 4096 ∣ pv.pVaddr.toNat ∧
        stop pv.pVaddr pv.pLen ≤ 0x60000000))

/-- An intact address space with a sound map and views in their places. -/
structure WellFormed (vas : Vas) : Prop extends Intact vas where
  map : Sound vas.hMap.slots
  length : vas.hMap.slots.length ≤ vas.hMap.rSize.toNat
  placed : ∀ v ∈ vas.vViews, Placed v

/-- The order of the views does not matter. -/
theorem WellFormed.perm {vas : Vas} (formed : WellFormed vas) {views : List Pview}
    (same : vas.vViews.Perm views) : WellFormed { vas with vViews := views } :=
  { formed with
    apart := (same.pairwise_iff fun h => h.symm).mp formed.apart
    partition := fun x inside => by
      rw [formed.partition x inside]
      exact forall_congr' fun v => imp_congr_left same.mem_iff
    placed := fun v member => formed.placed v (same.mem_iff.mpr member) }

/-- Two views of the list that share a byte are the same view. -/
theorem Intact.eq_of_mem {vas : Vas} (intact : Intact vas) {v w : Pview} (left : v ∈ vas.vViews)
    (right : w ∈ vas.vViews) {x : ℕ} (here : x ∈ v.bytes) (there : x ∈ w.bytes) : v = w := by
  by_contra different
  have : Std.Symm fun v w : Pview => Disjoint v.bytes w.bytes := ⟨fun _ _ h => h.symm⟩
  exact Set.disjoint_left.mp (intact.apart.forall left right different) here there

/-- The map of a new address space has the pages of the window. -/
theorem wellFormed_initvas (dma : Bool) : WellFormed ⟨[], dma, hatInitvas⟩ := by
  have map : hatInitvas = ⟨19, [⟨0x40000, 0x20000⟩]⟩ := by decide
  have pages : free hatInitvas.slots = windowPages := by
    rw [map, free_cons, free_nil, Set.union_empty]
    rfl
  refine ⟨⟨.nil, fun x inside => ?_, pages.le⟩, ?_, ?_, by simp⟩
  · rw [mem_windowBytes] at inside
    simp only [pages, mem_windowPages, NBPG]
    simp only [List.not_mem_nil, false_implies, implies_true, iff_true]
    omega
  · rw [map]
    exact sound_cons.mpr ⟨⟨by decide, by decide, by decide, by simp⟩, sound_nil⟩
  · simp [map]

/-! ## Attaching a view -/

/-- A view at an address that is given goes in front of the others. -/
theorem attach_fixed {vas : Vas} (formed : WellFormed vas) {pv : Pview}
    (below : stop pv.pVaddr pv.pLen < 2 ^ 32) (start : pv.pVaddr.toNat ∉ windowBytes)
    (window : Disjoint pv.bytes windowBytes)
    (apart : ∀ v ∈ vas.vViews, Disjoint pv.bytes v.bytes) :
    WellFormed { vas with vViews := pv :: vas.vViews } := by
  refine { formed with
    apart := List.pairwise_cons.mpr ⟨apart, formed.apart⟩
    partition := fun x inside => ?_
    placed := fun v member => ?_ }
  · have outside : x ∉ pv.bytes := fun here => Set.disjoint_left.mp window here inside
    rw [formed.partition x inside, List.forall_mem_cons]
    exact (and_iff_right outside).symm
  · rcases List.mem_cons.mp member with rfl | member
    · exact ⟨below, .inl ⟨start, window⟩⟩
    · exact formed.placed v member

/-- The pages of a view on a page boundary. -/
theorem mem_bytes_iff_page {vaddr : ULong} {len : Uint} (aligned : 4096 ∣ vaddr.toNat) {x : ℕ} :
    x ∈ bytes vaddr len ↔ x / NBPG ∈ range (btop vaddr) len := by
  rw [mem_bytes, mem_range, toNat_btop, NBPG]
  omega

/-- The slot that `rmap_alloc` takes from starts where the answer says. -/
theorem allocFrom_start {size idx : Uint} {slots after : List Slot}
    (found : allocFrom size slots = some (idx, after)) : ∃ r ∈ slots, r.rOff = idx := by
  induction slots generalizing after with
  | nil => simp [allocFrom] at found
  | cons r rest ih =>
      rw [allocFrom] at found
      split_ifs at found with fits smaller
      · exact ⟨r, by simp, by simpa using congrArg (·.map Prod.fst) found⟩
      · exact ⟨r, by simp, by simpa using congrArg (·.map Prod.fst) found⟩
      · cases scan : allocFrom size rest with
        | none => simp [scan] at found
        | some result =>
            simp only [scan, Option.map_some, Option.some.injEq, Prod.mk.injEq] at found
            obtain ⟨q, member, start⟩ := ih (scan.trans (by rw [← found.1]))
            exact ⟨q, by simp [member], start⟩

/-- A view the map has chosen a place for goes in front of the others. -/
theorem attach_chosen {vas : Vas} (formed : WellFormed vas) {pv : Pview} {idx : Uint}
    {after : List Slot} (found : allocFrom pv.pLen vas.hMap.slots = some (idx, after)) :
    WellFormed { vas with
      vViews := { pv with pVaddr := ptob idx } :: vas.vViews
      hMap := { vas.hMap with slots := after } } := by
  have spec := allocFrom_spec pv.pLen formed.map
  rw [found] at spec
  obtain ⟨_, removes⟩ := spec
  obtain ⟨r, member, start⟩ := allocFrom_start found
  have first : idx.toNat ∈ windowPages := by
    apply formed.inside
    have nonempty := formed.map.apart.1 _ (List.mem_map_of_mem member)
    exact Extents.mem_cells_of_mem (List.mem_map_of_mem member) ⟨by simp [Slot.extent, start],
      by rw [← start]; exact nonempty⟩
  rw [mem_windowPages] at first
  have vaddr : (ptob idx).toNat = idx.toNat * 4096 := by
    rw [toNat_ptob]; omega
  have aligned : 4096 ∣ (ptob idx).toNat := ⟨idx.toNat, by rw [vaddr, Nat.mul_comm]⟩
  have page : btop (ptob idx) = idx := by
    apply BitVec.eq_of_toNat_eq
    rw [toNat_btop, vaddr]; omega
  have pages : ∀ x, x ∈ bytes (ptob idx) pv.pLen ↔ x / NBPG ∈ range idx pv.pLen := fun x => by
    rw [mem_bytes_iff_page aligned, page]
  have high : idx.toNat + pv.pLen.toNat ≤ 0x60000 := by
    by_contra above
    have last : idx.toNat + pv.pLen.toNat - 1 ∈ range idx pv.pLen := mem_range.mpr (by omega)
    have := mem_windowPages.mp (formed.inside (removes.free last))
    omega
  refine { formed with
    apart := List.pairwise_cons.mpr ⟨fun v held => ?_, formed.apart⟩
    partition := fun x inside => ?_
    inside := ?_
    map := removes.sound
    length := removes.length.trans formed.length
    placed := fun v held => ?_ }
  · rw [Set.disjoint_left]
    intro x here
    have taken := removes.free ((pages x).mp here)
    have window := mem_windowPages.mp (formed.inside taken)
    refine (formed.partition x (mem_windowBytes.mpr ?_)).mp taken v held
    simp only [NBPG] at window
    omega
  · rw [removes.left, Set.mem_sdiff, formed.partition x inside, ← pages, List.forall_mem_cons,
      and_comm]
  · rw [removes.left]
    exact Set.sdiff_subset.trans formed.inside
  · rcases List.mem_cons.mp held with rfl | held
    · refine ⟨?_, .inr ⟨mem_windowBytes.mpr ?_, aligned, ?_⟩⟩
      all_goals simp only [stop, vaddr, NBPG]; omega
    · exact formed.placed v held

/-! ## Detaching a view -/

/-- The map has room for the pages of a view: a slot is unused, or the pages extend a slot. -/
def Room (map : Rmap) (off size : Uint) : Prop :=
  map.slots.length < map.rSize.toNat ∨
    ∃ r ∈ map.slots, r.rOff + r.rSize = off ∨ off + size = r.rOff

/-- Pages that extend a slot are not lost. -/
theorem freeFrom_abuts {full : Bool} {off size : Uint} {slots : List Slot} (sound : Sound slots)
    (low : 0 < off.toNat) (positive : 0 < size.toNat)
    (high : off.toNat + size.toNat < 2 ^ 32) (taken : Disjoint (range off size) (free slots))
    {r : Slot} (member : r ∈ slots)
    (abuts : r.rOff + r.rSize = off ∨ off + size = r.rOff) :
    freeFrom full off size slots ≠ none := by
  induction slots with
  | nil => simp at member
  | cons q rest ih =>
      obtain ⟨⟨nonempty, _, top, beyond⟩, sound'⟩ := sound_cons.mp sound
      rw [free_cons, Set.disjoint_union_right] at taken
      rw [freeFrom.eq_def]
      dsimp only
      split_ifs with grows pads before
      · cases rest with
        | nil => simp
        | cons next above => dsimp only; split_ifs <;> simp
      · simp
      · rcases List.mem_cons.mp member with rfl | behind
        · exact absurd abuts (not_or.mpr ⟨grows, pads⟩)
        · -- the slots behind `q` lie beyond the pages
          have first : q.rOff.toNat ∉ range off size := fun inside =>
            Set.disjoint_left.mp taken.1 inside (mem_slot.mpr ⟨le_refl _, by omega⟩)
          have used := sound'.apart.1 _ (List.mem_map_of_mem behind)
          have start : r.rOff.toNat ∈ free rest :=
            Extents.mem_cells_of_mem (List.mem_map_of_mem behind) ⟨le_refl _, used⟩
          have far := beyond _ start
          have end_ := sound'.high r behind
          rw [mem_range] at first
          rw [BitVec.lt_def] at before
          simp only [Slot.extent] at used
          rcases abuts with meets | meets
          all_goals
            have := congrArg BitVec.toNat meets
            simp only [BitVec.toNat_add] at this
            omega
      · have behind : r ∈ rest := by
          rcases List.mem_cons.mp member with rfl | behind
          · exact absurd abuts (not_or.mpr ⟨grows, pads⟩)
          · exact behind
        rw [Ne, Option.map_eq_none_iff]
        exact ih sound' taken.2 behind

/-- The first view of the list leaves, and what it held of the window is free. -/
theorem detach_head {vas : Vas} {pv : Pview} {rest : List Pview}
    (formed : WellFormed { vas with vViews := pv :: rest }) (nonempty : pv.pLen ≠ 0)
    (room : inWindow pv.pVaddr → Room vas.hMap (btop pv.pVaddr) pv.pLen) :
    WellFormed { vas with vViews := rest, hMap := hatDetach vas.hMap pv } := by
  obtain ⟨apart, others⟩ := List.pairwise_cons.mp formed.apart
  obtain ⟨below, place⟩ := formed.placed pv (by simp)
  have kept : ∀ v ∈ rest, Placed v := fun v member => formed.placed v (by simp [member])
  rcases place with ⟨start, window⟩ | ⟨start, aligned, high⟩
  · have unchanged : hatDetach vas.hMap pv = vas.hMap := by
      rw [hatDetach, if_neg (mt inWindow_iff.mp start)]
    rw [unchanged]
    refine { formed with apart := others, placed := kept, partition := fun x inside => ?_ }
    have outside : x ∉ pv.bytes := fun here => Set.disjoint_left.mp window here inside
    rw [formed.partition x inside, List.forall_mem_cons]
    exact and_iff_right outside
  · have room := room (inWindow_iff.mpr start)
    have bounds := mem_windowBytes.mp start
    simp only [stop, NBPG] at high
    have positive : 0 < pv.pLen.toNat := by
      refine Nat.pos_of_ne_zero fun zero => nonempty (BitVec.eq_of_toNat_eq ?_)
      simpa using zero
    have page := toNat_btop pv.pVaddr
    have pages : ∀ x, x ∈ pv.bytes ↔ x / NBPG ∈ range (btop pv.pVaddr) pv.pLen := fun x =>
      mem_bytes_iff_page aligned
    have taken : Disjoint (range (btop pv.pVaddr) pv.pLen) (free vas.hMap.slots) := by
      rw [Set.disjoint_left]
      intro p member held
      have whole : p * 4096 / NBPG = p := by simp [NBPG]
      have here : p * 4096 ∈ pv.bytes := (pages _).mpr (by rwa [whole])
      have inside : p * 4096 ∈ windowBytes := by
        rw [mem_range] at member
        rw [mem_windowBytes]
        omega
      exact (formed.partition _ inside).mp (by rwa [whole]) pv (by simp) here
    have spec := @freeFrom_spec vas.hMap.full (btop pv.pVaddr) pv.pLen vas.hMap.slots formed.map
      (by omega) positive (by omega) taken
    cases scan : freeFrom vas.hMap.full (btop pv.pVaddr) pv.pLen vas.hMap.slots with
    | none =>
        rw [scan] at spec
        rcases room with short | ⟨r, member, abuts⟩
        · exact absurd ((full_iff _).mp spec) (Nat.ne_of_lt short)
        · exact absurd scan
            (freeFrom_abuts formed.map (by omega) positive (by omega) taken member abuts)
    | some after =>
        rw [scan] at spec
        have changed : hatDetach vas.hMap pv = { vas.hMap with slots := after } := by
          rw [hatDetach, if_pos (inWindow_iff.mpr start), rmapFree, scan]
        rw [changed]
        refine ⟨⟨others, fun x inside => ?_, ?_⟩, spec.sound,
          length_le_of_room vas.hMap formed.length spec.length, kept⟩
        · rw [spec.free, Set.mem_union, formed.partition x inside, ← pages, List.forall_mem_cons]
          constructor
          · rintro (⟨_, free_⟩ | here)
            · exact free_
            · exact fun v member there => Set.disjoint_left.mp (apart v member) here there
          · intro free_
            by_cases here : x ∈ pv.bytes
            · exact .inr here
            · exact .inl ⟨here, free_⟩
        · rw [spec.free]
          refine Set.union_subset formed.inside fun p member => ?_
          rw [mem_range] at member
          rw [mem_windowPages]
          omega

theorem findPview_contains {vas : Vas} {vaddr : ULong} {pv : Pview}
    (found : findPview vas vaddr = some pv) : contains pv vaddr = true := by
  rw [findPview] at found
  have holds := List.find?_some found
  exact holds

/-- The map has room for what `detach_pview` frees. -/
def DetachFits (vas : Vas) (vaddr : ULong) : Prop :=
  ∀ pv, findPview vas vaddr = some pv → inWindow pv.pVaddr →
    Room vas.hMap (btop pv.pVaddr) pv.pLen

/-- `detach_pview` unlinks the one view that holds the address. -/
theorem detach_wellFormed {vas vas' : Vas} (formed : WellFormed vas) {vaddr : ULong}
    {pv : Pview} (fits : DetachFits vas vaddr) (done : detachPview vas vaddr = some (pv, vas')) :
    WellFormed vas' := by
  rw [detachPview] at done
  cases found : findPview vas vaddr with
  | none => simp [found] at done
  | some v =>
      simp only [found, Option.some.injEq, Prod.mk.injEq] at done
      obtain ⟨rfl, rfl⟩ := done
      have holds : contains v vaddr = true := findPview_contains found
      obtain ⟨w, before, behind, skipped, here, views, erased⟩ :=
        @List.exists_of_eraseP _ (contains · vaddr) vas.vViews v
          (List.mem_of_find?_eq_some found) holds
      have same : v = w := by
        have first : findPview vas vaddr = some w := by
          rw [findPview, views, List.find?_append, List.find?_eq_none.mpr skipped]
          simp [here]
        exact Option.some.inj (found.symm.trans first)
      subst same
      have nonempty : v.pLen ≠ 0 := by
        intro zero
        have placed := formed.placed v (List.mem_of_find?_eq_some found)
        have := mem_bytes.mp ((contains_iff placed.1 vaddr).mp holds)
        simp [zero] at this
        omega
      have front : vas.vViews.Perm (v :: (before ++ behind)) := views ▸ List.perm_middle
      rw [erased]
      exact detach_head (formed.perm front) nonempty (fits v found)

end Vsta.AddressSpace
