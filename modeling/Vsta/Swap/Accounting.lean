import Vsta.Swap.Server

/-!
# The free space of the swap devices

In every run whose steps meet a condition (`Fits`) allocations do not overlap and lie on one device
each, the count of free blocks is what the map holds, a request is answered once, and one that is
refused changes nothing (`swap_accounts`). `SWAP_FREE` breaks this: refused to a client without
write access, it frees the blocks and is answered again (`free_goes_on`).
-/

set_option autoImplicit false

namespace Vsta.Swap

open Extents ResourceMap
open Vstafs (has ACC_WRITE)

/-! ## The condition -/

/-- `rmap_free` finds room: a slot is not used, or the range touches a free one. -/
def Room (rmap : Rmap) (off size : Uint) : Prop :=
  rmap.full = false ∨ ∃ r ∈ rmap.slots, r.rOff + r.rSize = off ∨ off + size = r.rOff

/-- A device of which the server can use something: no length is given, the first one comes
before anything was allocated, and there is memory, room in the map, and a number for each block. -/
def AddFits (s : Server) (x : Outcome) (sLen sOff : ULong) : Prop :=
  x.mem = true ∧ sLen = 0 ∧ sOff < x.size ∧ (s.swapmap = [] → s.swapPending = 0) ∧
    s.low.toNat + (x.size - sOff).toNat < 2 ^ 31 ∧ s.store.rmap.full = false

/-- There is a number for each block that is allocated before the first device. -/
def Numbers (s : Server) (blocks : ℕ) : Prop :=
  s.swapmap = [] → s.swapPending.toNat + blocks < 2 ^ 31

/-- The server can give the kernel its first blocks. -/
def Settles (s : Server) (pending : ULong) : Prop :=
  if s.swapmap = [] then s.swapPending = 0
  else ∃ r ∈ s.store.rmap.slots.head?, r.rOff = 1 ∧ pending ≤ r.rSize

/-- The condition on a step. As long as the kernel has pending blocks the server is asked for no
others, and it has none allocated when the kernel begins to tally. -/
def Fits (s : State) (label : Outcome × Action) : Prop :=
  match label.2 with
  | .client perms nseg (.swapAdd len sLen sOff) => has perms ACC_WRITE → nseg = 1 →
      SWAPADD ≤ len → label.1.path = true → AddFits s.server label.1 sLen sOff
  | .client perms nseg (.swapAlloc blocks) => has perms ACC_WRITE → nseg ≤ 1 →
      s.swapPending = 0 ∧ Numbers s.server blocks.toNat
  | .client perms nseg (.swapFree block blocks) => nseg ≤ 1 →
      has perms ACC_WRITE = true ∧ s.swapPending = 0 ∧ Room s.server.store.rmap block blocks
  | .setSwapdev _ => True
  | .allocSwap pages =>
      if s.swapdev.isSome then
        (s.swapPending ≠ 0 → Settles s.server s.swapPending) ∧
          Numbers s.server (s.swapPending.toNat + pages.toNat)
      else
        (pages ≠ 0 → s.swapPending = 0 → s.held = []) ∧
          s.swapPending.toNat + pages.toNat < 2 ^ 31
  | .freeSwap block pages => s.swapdev.isSome → s.swapPending = 0 ∧
      Room s.server.store.rmap block pages

/-! ## The invariant -/

/-- The blocks of a device. -/
def Swapmap.extent (c : Swapmap) : Extent ℕ := blocksOf c.sBlock c.sLen

namespace Server

/-- The devices, as runs of blocks. -/
def devices (s : Server) : List (Extent ℕ) := s.swapmap.map Swapmap.extent

/-- The blocks that are free. -/
abbrev free (s : Server) : Set ℕ := s.store.free

/-- The blocks there are: those of the devices, or those given out before the first. -/
def area (s : Server) : Set ℕ :=
  if s.swapmap = [] then Set.Ico 1 (1 + s.swapPending.toNat) else cells s.devices

/-- The blocks are free or taken, never both, and the free ones are counted. -/
structure Sound (s : Server) (taken : Set ℕ) : Prop where
  formed : s.store.WellFormed
  laid : Apart s.devices
  blocks : ∀ e ∈ s.devices, 0 < e.start ∧ e.stop < 2 ^ 31
  pending : s.swapmap ≠ [] → s.swapPending = 0
  few : s.swapPending.toNat < 2 ^ 31
  space : s.free ∪ taken = s.area
  apart : Disjoint s.free taken
  counted : s.freeSwap.toNat = s.free.ncard

end Server

/-- What the clients and the kernel have of the server. -/
def State.taken (s : State) : Set ℕ := if s.swapPending = 0 then cells s.held else ∅

/-- The server is sound, the allocations are separate, those of before there was a server are the
first blocks, and the others lie on one device each. -/
structure Sound (s : State) : Prop where
  server : s.server.Sound s.taken
  separate : Separate s.held
  few : s.swapPending.toNat < 2 ^ 31
  tally : s.swapPending ≠ 0 → cells s.held = Set.Ico 1 (1 + s.swapPending.toNat)
  device : s.swapPending = 0 → s.server.swapmap ≠ [] →
    ∀ e ∈ s.held, ∃ d ∈ s.server.devices, e.cells ⊆ d.cells

theorem start_sound : Sound State.start := by
  refine ⟨⟨wellFormed_start NMAPELEM, apart_nil, by simp [Server.devices, State.start, Server.init],
    fun some_ => absurd rfl some_, by decide, ?_, ?_, ?_⟩, separate_nil, by decide,
    fun pending => absurd rfl pending, fun _ some_ => absurd rfl some_⟩
  · simp [State.start, Server.init, Server.free, Store.free, Store.start, rmapInit, State.taken,
      Server.area]
  · simp [State.start, State.taken]
  · simp [State.start, Server.init, Server.free, Store.free, Store.start, rmapInit]

/-! ## The blocks there are -/

variable {s : Server} {taken : Set ℕ}

theorem Server.Sound.bounds (sound : s.Sound taken) {x : ℕ} (inside : x ∈ s.area) :
    0 < x ∧ x < 2 ^ 31 := by
  rw [Server.area] at inside
  split_ifs at inside with none_
  · have few := sound.few
    have := inside.1
    have := inside.2
    omega
  · obtain ⟨e, member, here⟩ := inside
    obtain ⟨low, high⟩ := sound.blocks e member
    exact ⟨low.trans_le here.1, here.2.trans high⟩

theorem Server.Sound.free_area (sound : s.Sound taken) : s.free ⊆ s.area :=
  Set.subset_union_left.trans_eq sound.space

theorem Server.Sound.taken_area (sound : s.Sound taken) : taken ⊆ s.area :=
  Set.subset_union_right.trans_eq sound.space

theorem cells_blocksOf (block blocks : ULong) : (blocksOf block blocks).cells = range block blocks :=
  rfl

theorem nonempty_blocks {block blocks : ULong} (some_ : blocks ≠ 0) :
    (blocksOf block blocks).start < (blocksOf block blocks).stop := by
  have positive : 0 < blocks.toNat := by
    rw [Nat.pos_iff_ne_zero]
    exact fun zero => some_ (BitVec.eq_of_toNat_eq zero)
  simp only [blocksOf]
  omega

theorem ncard_range (off size : Uint) : (range off size).ncard = size.toNat := by
  rw [range, Set.ncard_Ico_nat]
  omega

theorem range_zero (off : Uint) : range off 0 = ∅ := by simp [range]

theorem free_finite (s : Server) : s.free.Finite := cells_finite _

/-- There are fewer free blocks than numbers. -/
theorem Server.Sound.ncard_lt (sound : s.Sound taken) : s.free.ncard < 2 ^ 31 := by
  have inside : s.free ⊆ Set.Ico 1 (2 ^ 31) := fun x member =>
    ⟨(sound.bounds (sound.free_area member)).1, (sound.bounds (sound.free_area member)).2⟩
  have few := Set.ncard_le_ncard inside (Set.finite_Ico _ _)
  rw [Set.ncard_Ico_nat] at few
  omega

/-- The free blocks, added up over the slots of the map. -/
theorem Server.Sound.total (sound : s.Sound taken) :
    s.freeSwap.toNat = (s.store.rmap.slots.map fun r => r.rSize.toNat).sum := by
  have lengths : Extents.total (s.store.rmap.slots.map Slot.extent) =
      (s.store.rmap.slots.map fun r => r.rSize.toNat).sum := by
    rw [Extents.total, List.map_map]
    exact congrArg List.sum (List.map_congr_left fun r _ => Nat.add_sub_cancel_left ..)
  rw [sound.counted, ← lengths]
  exact ncard_cells sound.formed.sound.apart

/-! ## The server -/

theorem toNat_pos {blocks : ULong} (some_ : blocks ≠ 0) : 0 < blocks.toNat := by
  rw [Nat.pos_iff_ne_zero]
  exact fun zero => some_ (BitVec.eq_of_toNat_eq zero)

theorem toInt_pos {block : ULong} (some_ : block ≠ 0) (low : block.toNat < 2 ^ 31) :
    0 < block.toInt := by
  rw [BitVec.toInt_eq_toNat_of_lt (by omega)]
  exact_mod_cast toNat_pos some_

/-- What `swap_alloc` gives. -/
structure Server.Gives (s : Server) (taken : Set ℕ) (blocks : ULong) (s' : Server)
    (mArg : ULong) : Prop where
  sound : s'.Sound (taken ∪ range mArg blocks)
  fresh : Disjoint taken (range mArg blocks)
  positive : blocks ≠ 0 → 0 < mArg.toInt
  device : blocks ≠ 0 → s.swapmap ≠ [] → ∃ d ∈ s.devices, range mArg blocks ⊆ d.cells

/-- Before the first device blocks are given out from 1 on. -/
theorem Server.Sound.gives_pending (sound : s.Sound taken) (none_ : s.swapmap = [])
    {blocks : ULong} (numbers : s.swapPending.toNat + blocks.toNat < 2 ^ 31) :
    s.Gives taken blocks { s with swapPending := s.swapPending + blocks } (s.swapPending + 1) := by
  have next : (s.swapPending + 1).toNat = s.swapPending.toNat + 1 := by
    rw [BitVec.toNat_add]
    have : (1 : ULong).toNat = 1 := rfl
    omega
  have sum : (s.swapPending + blocks).toNat = s.swapPending.toNat + blocks.toNat := by
    rw [BitVec.toNat_add]
    omega
  have old : s.area = Set.Ico 1 (1 + s.swapPending.toNat) := if_pos none_
  have given : range (s.swapPending + 1) blocks =
      Set.Ico (1 + s.swapPending.toNat) (1 + s.swapPending.toNat + blocks.toNat) := by
    rw [range, next, Nat.add_comm s.swapPending.toNat 1]
  have apart : Disjoint s.area (range (s.swapPending + 1) blocks) := by
    rw [old, given]
    exact Set.disjoint_left.mpr fun x first second => absurd first.2 (not_lt.mpr second.1)
  refine ⟨⟨sound.formed, sound.laid, sound.blocks, fun some_ => absurd none_ some_, ?_, ?_, ?_,
    sound.counted⟩, apart.mono_left sound.taken_area, fun some_ => ?_, fun _ some_ => absurd none_ some_⟩
  · rw [sum]
    exact numbers
  · have space : s.free ∪ (taken ∪ range (s.swapPending + 1) blocks) =
        Set.Ico 1 (1 + s.swapPending.toNat + blocks.toNat) := by
      rw [← Set.union_assoc, sound.space, old, given]
      exact Set.Ico_union_Ico_eq_Ico (by omega) (by omega)
    refine space.trans ?_
    rw [Server.area, if_pos none_, sum, Nat.add_assoc]
  · exact Set.disjoint_union_right.mpr ⟨sound.apart, apart.mono_left sound.free_area⟩
  · have positive := toNat_pos some_
    exact toInt_pos (fun zero => by rw [zero] at next; exact absurd next (by simp)) (by omega)

/-- After that they come from the map. -/
theorem Server.Sound.gives_mapped (sound : s.Sound taken) (some_ : s.swapmap ≠ [])
    {blocks : ULong} (found : (rmapAlloc s.store.rmap blocks).1 ≠ 0) :
    s.Gives taken blocks { s with
      store := s.store.exec (.alloc blocks)
      freeSwap := s.freeSwap - blocks } (rmapAlloc s.store.rmap blocks).1 := by
  obtain ⟨agrees, formed⟩ := alloc_agrees sound.formed blocks
  obtain ⟨-, given⟩ := agrees
  obtain ⟨inside, left⟩ := given found
  generalize idx : (rmapAlloc s.store.rmap blocks).1 = block at found inside left ⊢
  have apart : Disjoint taken (range block blocks) := (sound.apart.mono_left inside).symm
  have all : range block blocks ⊆ s.area := inside.trans sound.free_area
  refine ⟨⟨formed, sound.laid, sound.blocks, sound.pending, sound.few, ?_, ?_, ?_⟩, apart,
    fun some_ => ?_, fun blocks_ _ => ?_⟩
  · change (s.store.exec (.alloc blocks)).free ∪ (taken ∪ range block blocks) = s.area
    rw [left, Set.union_comm taken, ← Set.union_assoc, Set.sdiff_union_of_subset inside, sound.space]
  · change Disjoint (s.store.exec (.alloc blocks)).free (taken ∪ range block blocks)
    rw [left]
    exact Set.disjoint_union_right.mpr ⟨sound.apart.mono_left Set.sdiff_subset, Set.disjoint_sdiff_left⟩
  · change (s.freeSwap - blocks).toNat = (s.store.exec (.alloc blocks)).free.ncard
    have fewer : (range block blocks).ncard ≤ s.store.free.ncard :=
      Set.ncard_le_ncard inside (free_finite s)
    have counted : s.freeSwap.toNat = s.store.free.ncard := sound.counted
    rw [ncard_range] at fewer
    rw [left, Set.ncard_sdiff inside (Set.finite_Ico _ _), ncard_range, ← counted,
      BitVec.toNat_sub_of_le (by rw [BitVec.le_def]; omega)]
  · have first : block.toNat ∈ range block blocks :=
      ⟨le_refl _, Nat.lt_add_of_pos_right (toNat_pos some_)⟩
    exact toInt_pos found (sound.bounds (all first)).2
  · have area : s.area = cells s.devices := if_neg some_
    rw [area] at all
    exact sound.laid.run_inside (nonempty_blocks blocks_) all

/-- **`swap_alloc`.** -/
theorem swapAlloc_spec (sound : s.Sound taken) {perms blocks : ULong}
    (write : has perms ACC_WRITE = true) (numbers : Numbers s blocks.toNat) :
    ∃ s' mArg, s.swapAlloc perms blocks = (s', [.ok mArg]) ∧ s'.swapmap = s.swapmap ∧
      (s.swapmap = [] → s'.swapPending = s.swapPending + blocks ∧ mArg = s.swapPending + 1) ∧
      (s.swapmap ≠ [] → mArg = (rmapAlloc s.store.rmap blocks).1) ∧
      (mArg = 0 → s'.Sound taken) ∧ (mArg ≠ 0 → s.Gives taken blocks s' mArg) := by
  rw [Server.swapAlloc, if_neg (by rw [write]; decide)]
  simp only
  split_ifs with none_ failed
  · refine ⟨_, _, rfl, rfl, fun _ => ⟨rfl, rfl⟩, fun some_ => absurd none_ some_, fun zero => ?_,
      fun _ => sound.gives_pending none_ (numbers none_)⟩
    have few := sound.few
    have next := congrArg BitVec.toNat zero
    rw [BitVec.toNat_add] at next
    have : (1 : ULong).toNat = 1 := rfl
    have : (0 : ULong).toNat = 0 := rfl
    omega
  · refine ⟨_, _, rfl, rfl, fun empty => absurd empty none_, fun _ => failed.symm, fun _ => ?_,
      fun zero => absurd rfl zero⟩
    obtain ⟨agrees, -⟩ := alloc_agrees sound.formed blocks
    rw [(agrees.1 failed).2]
    exact sound
  · exact ⟨_, _, rfl, rfl, fun empty => absurd empty none_, fun _ => rfl,
      fun zero => absurd zero failed, fun _ => sound.gives_mapped none_ failed⟩

/-- Blocks go back to the map. -/
theorem store_free (sound : s.Sound taken) {off size : ULong} (some_ : size ≠ 0)
    (low : 0 < off.toNat) (high : off.toNat + size.toNat ≤ 2 ^ 31)
    (apart : Disjoint (range off size) s.free) (room : Room s.store.rmap off size) :
    (s.store.exec (.free off size)).WellFormed ∧
      (s.store.exec (.free off size)).free = s.free ∪ range off size := by
  have positive := toNat_pos some_
  have legal : s.store.Legal (.free off size) := apart
  obtain ⟨agrees, formed⟩ := free_agrees sound.formed legal ⟨low, positive, by omega⟩
  refine ⟨formed, ?_⟩
  cases scan : freeFrom s.store.rmap.full off size s.store.rmap.slots with
  | none =>
      obtain ⟨full, away⟩ := freeFrom_lost sound.formed.sound low (by omega) apart scan
      rcases room with unused | ⟨r, member, touches⟩
      · rw [full] at unused
        cases unused
      · exact (touches.elim (away r member).1 (away r member).2).elim
  | some slots =>
      rcases agrees with ⟨free, -⟩ | ⟨-, -, lost⟩
      · exact free
      · simp only [Store.exec, rmapFree, scan, left_eq_add] at lost
        exact absurd lost some_

/-- **`swap_free`.** -/
theorem swapFree_spec (sound : s.Sound taken) {perms block blocks : ULong}
    (write : has perms ACC_WRITE = true) (some_ : blocks ≠ 0)
    (inside : range block blocks ⊆ taken) (room : Room s.store.rmap block blocks) :
    ∃ s', s.swapFree perms block blocks = (s', [.ok 0]) ∧ s'.swapmap = s.swapmap ∧
      s'.Sound (taken \ range block blocks) := by
  have positive := toNat_pos some_
  have all := inside.trans sound.taken_area
  have first := sound.bounds (all (show block.toNat ∈ _ from ⟨le_refl _, by omega⟩))
  have last := sound.bounds (all (show block.toNat + blocks.toNat - 1 ∈ _ from
    ⟨by omega, by omega⟩))
  have apart : Disjoint (range block blocks) s.free := (sound.apart.mono_right inside).symm
  obtain ⟨formed, free⟩ := store_free sound some_ first.1 (by omega) apart room
  have more : (s.free ∪ range block blocks).ncard = s.freeSwap.toNat + blocks.toNat := by
    rw [Set.ncard_union_eq apart.symm (free_finite s) (Set.finite_Ico _ _), ncard_range, sound.counted]
  have few : (s.free ∪ range block blocks).ncard < 2 ^ 31 := by
    have bound : s.free ∪ range block blocks ⊆ Set.Ico 1 (2 ^ 31) := fun x member => by
      have bounds := sound.bounds (Set.union_subset sound.free_area all member)
      exact ⟨bounds.1, bounds.2⟩
    have fits := Set.ncard_le_ncard bound (Set.finite_Ico _ _)
    rw [Set.ncard_Ico_nat] at fits
    omega
  rw [Server.swapFree, if_neg (by rw [write]; decide)]
  refine ⟨_, rfl, rfl, formed, sound.laid, sound.blocks, sound.pending, sound.few, ?_, ?_, ?_⟩
  · change (s.store.exec (.free block blocks)).free ∪ (taken \ range block blocks) = s.area
    rw [free, Set.union_assoc, Set.union_sdiff_cancel inside, sound.space]
  · change Disjoint (s.store.exec (.free block blocks)).free (taken \ range block blocks)
    rw [free]
    exact Set.disjoint_union_left.mpr ⟨sound.apart.mono_right Set.sdiff_subset, Set.disjoint_sdiff_right⟩
  · change (s.freeSwap + blocks).toNat = (s.store.exec (.free block blocks)).free.ncard
    rw [free, more, BitVec.toNat_add]
    omega

/-- The next device starts behind the others, with a gap. -/
theorem Server.Sound.low_spec (sound : s.Sound taken) :
    0 < s.low.toNat ∧ ∀ d ∈ s.devices, d.stop < s.low.toNat := by
  rw [Server.low]
  cases last : s.swapmap.getLast? with
  | none =>
      have none_ : s.swapmap = [] := List.getLast?_eq_none_iff.mp last
      simp [Server.devices, none_]
  | some c =>
      have last' : s.devices.getLast? = some c.extent := by
        rw [Server.devices, List.getLast?_map, last]
        rfl
      have bound := (sound.blocks c.extent (List.mem_of_getLast? last')).2
      have next : (c.sBlock + c.sLen + 1).toNat = c.extent.stop + 1 := by
        simp only [Swapmap.extent, blocksOf] at bound ⊢
        rw [BitVec.toNat_add, BitVec.toNat_add]
        have : (1 : ULong).toNat = 1 := rfl
        omega
      simp only [next]
      exact ⟨by omega, fun d member => Nat.lt_succ_of_le (sound.laid.le_last last' member)⟩

/-- **`swapadd`.** -/
theorem swapadd_spec (sound : s.Sound taken) {x : Outcome} {sLen sOff : ULong}
    (fits : AddFits s x sLen sOff) :
    ∃ s', s.swapadd x (x.size - sOff) sOff = some s' ∧ s'.Sound taken ∧
      s'.devices = s.devices ++ [blocksOf s.low (x.size - sOff)] := by
  obtain ⟨mem, -, off, fresh, high, unused⟩ := fits
  generalize size : x.size - sOff = len at high ⊢
  have positive : 0 < len.toNat := by
    rw [← size, BitVec.toNat_sub_of_le (BitVec.le_of_lt off)]
    rw [BitVec.lt_def] at off
    omega
  have some_ : len ≠ 0 := fun zero => by simp [zero] at positive
  obtain ⟨low, before⟩ := sound.low_spec
  have none_ : s.swapPending = 0 := by
    by_cases empty : s.swapmap = []
    · exact fresh empty
    · exact sound.pending empty
  -- all blocks there are come before those of the device
  have area : s.area = cells s.devices := by
    rw [Server.area]
    split_ifs with empty
    · simp [Server.devices, empty, none_]
    · rfl
  have apart' : Disjoint s.area (range s.low len) := by
    rw [area]
    refine Set.disjoint_left.mpr ?_
    rintro y ⟨d, member, here⟩ there
    have := before d member
    exact absurd (here.2.trans this) (not_lt.mpr there.1)
  obtain ⟨formed, free⟩ := store_free sound some_ low (by omega) (apart'.mono_left sound.free_area).symm
    (.inl unused)
  have started : ¬(s.swapmap = [] ∧ ¬s.swapPending < len) := fun both => both.2 <| by
    rw [none_, BitVec.lt_def]
    exact positive
  have done : s.swapadd x len sOff = some ⟨s.swapmap ++ [⟨s.low, len, sOff⟩],
      s.store.exec (.free s.low len), s.totalSwap + len, s.freeSwap + len, 0⟩ := by
    rw [Server.swapadd, if_neg started, if_neg (by simp [mem])]
    simp only [none_, ne_eq, not_true_eq_false, if_false]
  have devices : ∀ store total free, Server.devices ⟨s.swapmap ++ [Swapmap.mk s.low len sOff],
      store, total, free, 0⟩ = s.devices ++ [blocksOf s.low len] := fun _ _ _ => by
    rw [Server.devices, List.map_append]
    rfl
  have area' : ∀ store total free, Server.area ⟨s.swapmap ++ [Swapmap.mk s.low len sOff],
      store, total, free, 0⟩ = s.area ∪ range s.low len := fun _ _ _ => by
    rw [Server.area, if_neg (by simp), devices, cells_append, cells_cons, cells_nil,
      Set.union_empty, area]
    rfl
  refine ⟨_, done, ⟨formed, ?_, fun e member => ?_, fun _ => rfl,
    show (0 : ULong).toNat < 2 ^ 31 by decide, ?_, ?_, ?_⟩, devices _ _ _⟩
  · rw [devices]
    exact sound.laid.snoc (nonempty_blocks some_) before
  · rw [devices] at member
    rcases List.mem_append.mp member with old | new
    · exact sound.blocks e old
    · rw [List.mem_singleton.mp new]
      exact ⟨low, high⟩
  · change (s.store.exec (.free s.low len)).free ∪ taken = _
    rw [free, area', Set.union_right_comm, sound.space]
  · change Disjoint (s.store.exec (.free s.low len)).free taken
    rw [free]
    exact Set.disjoint_union_left.mpr ⟨sound.apart, (apart'.mono_left sound.taken_area).symm⟩
  · change (s.freeSwap + len).toNat = (s.store.exec (.free s.low len)).free.ncard
    have few := sound.ncard_lt
    have counted : s.freeSwap.toNat = s.free.ncard := sound.counted
    rw [free, Set.ncard_union_eq (apart'.mono_left sound.free_area) (free_finite s) (Set.finite_Ico _ _),
      ncard_range, BitVec.toNat_add]
    omega

/-! ## The allocated blocks -/

theorem cells_give (held : List (Extent ℕ)) (block blocks : ULong) :
    cells (give held block blocks) = cells held ∪ range block blocks := by
  rw [give]
  split_ifs with none_
  · rw [none_, range_zero, Set.union_empty]
  · rw [cells_cons, Set.union_comm, cells_blocksOf]

theorem separate_give {held : List (Extent ℕ)} (separate : Separate held) {block blocks : ULong}
    (fresh : Disjoint (cells held) (range block blocks)) : Separate (give held block blocks) := by
  rw [give]
  split_ifs with none_
  · exact separate
  · exact separate_cons.mpr ⟨nonempty_blocks none_, fresh.symm, separate⟩

variable {s : State} {x : Outcome}

theorem State.taken_zero (none_ : s.swapPending = 0) : s.taken = cells s.held := if_pos none_

theorem State.taken_pending (some_ : s.swapPending ≠ 0) : s.taken = ∅ := if_neg some_

theorem devices_congr {server server' : Server} (same : server'.swapmap = server.swapmap) :
    server'.devices = server.devices := by
  rw [Server.devices, Server.devices, same]

/-- Blocks that the server gave are allocated. -/
theorem Sound.gave (sound : Sound s) (none_ : s.swapPending = 0) {server : Server}
    {mArg blocks : ULong} (gives : s.server.Gives s.taken blocks server mArg)
    (same : server.swapmap = s.server.swapmap) :
    Sound { s with server, held := give s.held mArg blocks } := by
  have fresh := gives.fresh
  have whole := gives.sound
  rw [State.taken_zero none_] at fresh whole
  refine ⟨?_, separate_give sound.separate fresh, sound.few, fun pending => absurd none_ pending,
    fun _ some_ e member => ?_⟩
  · have taken : State.taken { s with server, held := give s.held mArg blocks } = _ :=
      State.taken_zero none_
    rw [taken, cells_give]
    exact whole
  · simp only [devices_congr same]
    rw [same] at some_
    rw [give] at member
    split_ifs at member with nothing
    · exact sound.device none_ some_ e member
    · rcases List.mem_cons.mp member with rfl | old
      · exact gives.device nothing some_
      · exact sound.device none_ some_ e old

/-- Blocks that were given back are not. -/
theorem Sound.freed (sound : Sound s) (none_ : s.swapPending = 0) {perms block blocks : ULong}
    (write : has perms ACC_WRITE = true) (holds : s.Holds block blocks)
    (room : Room s.server.store.rmap block blocks) :
    ∃ server, s.server.swapFree perms block blocks = (server, [.ok 0]) ∧
      Sound { s with server, held := punch (blocksOf block blocks) s.held } := by
  obtain ⟨some_, e, member, within⟩ := holds
  have nonempty : (blocksOf block blocks).start < (blocksOf block blocks).stop :=
    nonempty_blocks some_
  obtain ⟨separate, left⟩ := punch_spec sound.separate nonempty ⟨e, member, within⟩
  have inside : range block blocks ⊆ s.taken := by
    rw [State.taken_zero none_]
    exact within.subset.trans (mem_cells_of_mem member)
  obtain ⟨server, done, same, whole⟩ := swapFree_spec sound.server write some_ inside room
  rw [State.taken_zero none_] at whole
  refine ⟨server, done, ?_, separate, sound.few, fun pending => absurd none_ pending,
    fun _ some_ piece among => ?_⟩
  · have taken : State.taken { s with
        server, held := punch (blocksOf block blocks) s.held } = _ := State.taken_zero none_
    rw [taken, left]
    exact whole
  · simp only [devices_congr same]
    rw [same] at some_
    obtain ⟨e', member', part⟩ := mem_punch among nonempty
    obtain ⟨d, device, lies⟩ := sound.device none_ some_ e' member'
    exact ⟨d, device, part.trans lies⟩

/-! ## The requests of clients -/

/-- An error. -/
def Reply.isErr : Reply → Bool
  | .ok _ => false
  | _ => true

/-- A request has a result, is answered once, changes nothing when it is refused, and leaves the
state sound. -/
def Ends (s : State) (result : Option (State × List Reply)) : Prop :=
  ∃ t r, result = some (t, [r]) ∧ (r.isErr = true → t = s) ∧ Sound t

/-- A request that is refused. -/
theorem Sound.refused (sound : Sound s) {perms : ULong} {nseg : ℕ} {request : Request} {r : Reply}
    (error : r.isErr = true)
    (handled : s.server.handle x perms nseg request = some (s.server, [r])) :
    Ends s (s.client x perms nseg request) := by
  have held : State.record s.held request [r] = s.held := by
    cases r with
    | ok mArg => cases error
    | EPERM | EINVAL => cases request <;> rfl
  refine ⟨s, r, ?_, fun _ => rfl, sound⟩
  rw [State.client, handled, Option.map_some]
  simp only [held]

/-- What is allocated when a device is added is allocated from a device. -/
theorem Sound.mapped (sound : Sound s) (none_ : s.swapPending = 0) {sLen sOff : ULong}
    (add : AddFits s.server x sLen sOff) {e : Extent ℕ} (member : e ∈ s.held) :
    s.server.swapmap ≠ [] := by
  intro empty
  have inside := sound.server.taken_area
  rw [State.taken_zero none_, Server.area, if_pos empty, add.2.2.2.1 empty] at inside
  have first := inside ⟨e, member, le_refl _, sound.separate.1 e member⟩
  exact absurd first.2 (not_lt.mpr first.1)

theorem Sound.swapAdd (sound : Sound s) {perms : ULong} {nseg len : ℕ} {sLen sOff : ULong}
    (fits : Fits s (x, .client perms nseg (.swapAdd len sLen sOff))) :
    Ends s (s.client x perms nseg (.swapAdd len sLen sOff)) := by
  by_cases many : 1 < nseg
  · exact sound.refused rfl (by rw [Server.handle, if_pos many])
  have handle : s.server.handle x perms nseg (.swapAdd len sLen sOff) =
      s.server.swapAdd x perms nseg len sLen sOff := if_neg many
  cases write : has perms ACC_WRITE with
  | false => exact sound.refused rfl (by rw [handle, Server.swapAdd, write]; rfl)
  | true =>
      by_cases shape : nseg ≠ 1 ∨ len < SWAPADD
      · exact sound.refused rfl (by rw [handle, Server.swapAdd, write, if_neg (by decide), if_pos shape])
      cases path : x.path with
      | false =>
          exact sound.refused rfl (by
            rw [handle, Server.swapAdd, write, if_neg (by decide), if_neg shape, path]; rfl)
      | true =>
          rw [not_or, not_not, not_lt] at shape
          have add := fits write shape.1 shape.2 path
          obtain ⟨server, added, whole, devices⟩ := swapadd_spec sound.server add
          have done : s.server.swapAdd x perms nseg len sLen sOff = some (server, [.ok 0]) := by
            rw [Server.swapAdd, write, if_neg (by decide), if_neg (by omega), path,
              if_neg (by decide)]
            simp only [add.2.1, if_true, added, Option.map_some]
          refine ⟨{ s with server }, .ok 0, ?_, fun error => ?_, whole, sound.separate, sound.few,
            sound.tally, fun none_ _ e member => ?_⟩
          · rw [State.client, handle, done]
            rfl
          · cases error
          · simp only [devices]
            obtain ⟨d, device, lies⟩ := sound.device none_ (sound.mapped none_ add member) e member
            exact ⟨d, List.mem_append_left _ device, lies⟩

theorem Sound.swapAlloc (sound : Sound s) {perms : ULong} {nseg : ℕ} {blocks : ULong}
    (fits : Fits s (x, .client perms nseg (.swapAlloc blocks))) :
    Ends s (s.client x perms nseg (.swapAlloc blocks)) := by
  by_cases many : 1 < nseg
  · exact sound.refused rfl (by rw [Server.handle, if_pos many])
  have handle : s.server.handle x perms nseg (.swapAlloc blocks) =
      some (s.server.swapAlloc perms blocks) := if_neg many
  cases write : has perms ACC_WRITE with
  | false => exact sound.refused rfl (by rw [handle, Server.swapAlloc, write]; rfl)
  | true =>
      obtain ⟨none_, numbers⟩ := fits write (not_lt.mp many)
      obtain ⟨server, mArg, done, same, -, -, failed, gave⟩ :=
        swapAlloc_spec sound.server write numbers
      by_cases zero : mArg = 0
      · refine ⟨{ s with server }, .ok mArg, ?_, fun error => ?_, ?_⟩
        · rw [State.client, handle, done, zero]
          rfl
        · cases error
        · refine ⟨failed zero, sound.separate, sound.few, sound.tally, fun none_ some_ => ?_⟩
          rw [same] at some_
          simp only [devices_congr same]
          exact sound.device none_ some_
      · refine ⟨{ s with server, held := give s.held mArg blocks }, .ok mArg, ?_, fun error => ?_,
          sound.gave none_ (gave zero) same⟩
        · rw [State.client, handle, done, Option.map_some]
          simp only [State.record, List.getLast?_singleton, if_neg zero]
        · cases error

theorem Sound.swapFree (sound : Sound s) {perms : ULong} {nseg : ℕ} {block blocks : ULong}
    (holds : s.Holds block blocks)
    (fits : Fits s (x, .client perms nseg (.swapFree block blocks))) :
    Ends s (s.client x perms nseg (.swapFree block blocks)) := by
  by_cases many : 1 < nseg
  · exact sound.refused rfl (by rw [Server.handle, if_pos many])
  have handle : s.server.handle x perms nseg (.swapFree block blocks) =
      some (s.server.swapFree perms block blocks) := if_neg many
  obtain ⟨write, none_, room⟩ := fits (not_lt.mp many)
  obtain ⟨server, done, freed⟩ := sound.freed none_ write holds room
  refine ⟨_, .ok 0, ?_, fun error => ?_, freed⟩
  · rw [State.client, handle, done]
    rfl
  · cases error

/-- **A request of a client.** -/
theorem Sound.client (sound : Sound s) {perms : ULong} {nseg : ℕ} {request : Request}
    (legal : s.Legal (.client perms nseg request)) (fits : Fits s (x, .client perms nseg request)) :
    Ends s (s.client x perms nseg request) := by
  cases request with
  | swapAdd len sLen sOff => exact sound.swapAdd fits
  | swapAlloc blocks => exact sound.swapAlloc fits
  | swapFree block blocks => exact sound.swapFree legal fits

/-! ## The kernel -/

/-- A round of the loop of `alloc_swap`. -/
theorem Sound.request (sound : Sound s) (none_ : s.swapPending = 0) {perms pages : ULong}
    (numbers : Numbers s.server pages.toNat) {t : State} (done : s.request perms pages = some t) :
    Sound t := by
  cases write : has perms ACC_WRITE with
  | false =>
      rw [State.request, Server.swapAlloc, write] at done
      cases done
  | true =>
      obtain ⟨server, mArg, alloc, same, -, -, failed, gave⟩ :=
        swapAlloc_spec sound.server write numbers
      have kept : server.Sound s.taken → Sound { s with server } := by
        refine fun whole => ⟨whole, sound.separate, sound.few, sound.tally, fun none_ some_ => ?_⟩
        rw [same] at some_
        simp only [devices_congr same]
        exact sound.device none_ some_
      rw [State.request, alloc] at done
      simp only at done
      split_ifs at done with positive
      · obtain rfl := Option.some.inj done
        refine sound.gave none_ (gave fun zero => ?_) same
        rw [zero] at positive
        exact absurd positive (by decide)
      · obtain rfl := Option.some.inj done
        by_cases zero : mArg = 0
        · exact kept (failed zero)
        · -- nothing was asked for
          have gives := gave zero
          have nothing : pages = 0 := by
            by_contra some_
            exact positive (gives.positive some_)
          have whole := gives.sound
          rw [nothing, range_zero, Set.union_empty] at whole
          exact kept whole

/-- The first blocks that the server gives the kernel. -/
theorem settles_one {pending : ULong} (settles : Settles s.server pending)
    {server : Server} {mArg : ULong}
    (unmapped : s.server.swapmap = [] →
      server.swapPending = s.server.swapPending + pending ∧ mArg = s.server.swapPending + 1)
    (mapped : s.server.swapmap ≠ [] → mArg = (rmapAlloc s.server.store.rmap pending).1) :
    mArg = 1 := by
  rw [Settles] at settles
  split_ifs at settles with empty
  · rw [(unmapped empty).2, settles]
    rfl
  · obtain ⟨r, first, one, room⟩ := settles
    rw [mapped empty, rmapAlloc]
    cases slots : s.server.store.rmap.slots with
    | nil => simp [slots] at first
    | cons r' rest =>
        obtain rfl : r' = r := by simpa [slots] using first
        rw [allocFrom, if_pos room]
        split_ifs
        · exact one
        · exact one

/-- The pending blocks become blocks that the server gave. -/
theorem Sound.settle (sound : Sound s) {perms pages : ULong}
    (settles : s.swapPending ≠ 0 → Settles s.server s.swapPending)
    (numbers : Numbers s.server (s.swapPending.toNat + pages.toNat)) {t : State} {goes : Bool}
    (done : s.settle perms = some (t, goes)) :
    Sound t ∧ goes = true ∧ t.swapPending = 0 ∧ Numbers t.server pages.toNat := by
  rw [State.settle] at done
  split_ifs at done with none_
  · obtain ⟨rfl, rfl⟩ := Prod.mk.inj (Option.some.inj done)
    refine ⟨sound, rfl, none_, fun empty => ?_⟩
    have few := numbers empty
    omega
  cases write : has perms ACC_WRITE with
  | false =>
      rw [Server.swapAlloc, write] at done
      cases done
  | true =>
      have few : Numbers s.server s.swapPending.toNat := fun empty => by
        have few := numbers empty
        omega
      obtain ⟨server, mArg, alloc, same, unmapped, mapped, -, gave⟩ :=
        swapAlloc_spec sound.server write few
      obtain rfl := settles_one (settles none_) unmapped mapped
      rw [alloc] at done
      simp only at done
      rw [if_pos (by decide), if_pos trivial] at done
      obtain ⟨rfl, rfl⟩ := Prod.mk.inj (Option.some.inj done)
      have gives := gave (by decide)
      have first : range 1 s.swapPending = cells s.held := (sound.tally none_).symm
      have whole := gives.sound
      rw [State.taken_pending none_, Set.empty_union, first] at whole
      refine ⟨⟨whole, sound.separate, show (0 : ULong).toNat < 2 ^ 31 by decide,
        fun some_ => absurd rfl some_, fun _ some_ e member => ?_⟩, rfl, rfl, fun empty => ?_⟩
      · rw [same] at some_
        simp only [devices_congr same]
        obtain ⟨d, device, lies⟩ := gives.device none_ some_
        rw [first] at lies
        exact ⟨d, device, (mem_cells_of_mem member).trans lies⟩
      · rw [same] at empty
        have few := numbers empty
        simp only [(unmapped empty).1, BitVec.toNat_add]
        omega

/-- A block is given out before there is a server. -/
theorem Sound.tallied (sound : Sound s) {pages : ULong}
    (begins : pages ≠ 0 → s.swapPending = 0 → s.held = [])
    (few : s.swapPending.toNat + pages.toNat < 2 ^ 31) :
    Sound { s with
      swapPending := s.swapPending + pages
      held := give s.held (s.swapPending + 1) pages } := by
  have next : (s.swapPending + 1).toNat = 1 + s.swapPending.toNat := by
    rw [BitVec.toNat_add]
    have : (1 : ULong).toNat = 1 := rfl
    omega
  have sum : (s.swapPending + pages).toNat = s.swapPending.toNat + pages.toNat := by
    rw [BitVec.toNat_add]
    omega
  by_cases nothing : pages = 0
  · have same : { s with
        swapPending := s.swapPending + pages
        held := give s.held (s.swapPending + 1) pages } = s := by
      have zero : s.swapPending + 0 = s.swapPending := BitVec.add_zero _
      rw [nothing, give, if_pos rfl, zero]
    rw [same]
    exact sound
  have positive := toNat_pos nothing
  have pending : s.swapPending + pages ≠ 0 := fun zero => by
    rw [zero] at sum
    have : (0 : ULong).toNat = 0 := rfl
    omega
  have tally : cells s.held = Set.Ico 1 (1 + s.swapPending.toNat) := by
    by_cases none_ : s.swapPending = 0
    · simp [begins nothing none_, none_]
    · exact sound.tally none_
  have taken : s.taken = ∅ := by
    by_cases none_ : s.swapPending = 0
    · rw [State.taken_zero none_, begins nothing none_, cells_nil]
    · exact State.taken_pending none_
  have given : range (s.swapPending + 1) pages =
      Set.Ico (1 + s.swapPending.toNat) (1 + s.swapPending.toNat + pages.toNat) := by
    rw [range, next]
  refine ⟨?_, separate_give sound.separate ?_, ?_, fun _ => ?_, fun zero => absurd zero pending⟩
  · have taken' : State.taken { s with
        swapPending := s.swapPending + pages
        held := give s.held (s.swapPending + 1) pages } = ∅ := State.taken_pending pending
    rw [taken', ← taken]
    exact sound.server
  · rw [tally, given]
    exact Set.disjoint_left.mpr fun x first second => absurd first.2 (not_lt.mpr second.1)
  · simp only [sum]
    exact few
  · simp only [cells_give, tally, given, sum]
    rw [Set.Ico_union_Ico_eq_Ico (by omega) (by omega), Nat.add_assoc]

/-- `alloc_swap`. -/
theorem Sound.allocSwap (sound : Sound s) {pages : ULong}
    (fits : Fits s (x, .allocSwap pages)) {t : State} (done : s.allocSwap pages = some t) :
    Sound t := by
  rw [State.allocSwap] at done
  rw [Fits] at fits
  cases dev : s.swapdev with
  | none =>
      simp only [dev, Option.isSome_none, Bool.false_eq_true, if_false] at fits done
      obtain rfl := Option.some.inj done
      have after := sound.tallied fits.1 fits.2
      exact dev ▸ after
  | some perms =>
      simp only [dev, Option.isSome_some, if_true] at fits done
      obtain ⟨⟨settled, goes⟩, settle, done⟩ := Option.bind_eq_some_iff.mp done
      obtain ⟨after, rfl, none_, numbers⟩ := sound.settle fits.1 fits.2 settle
      exact after.request none_ numbers done

/-- `free_swap`. -/
theorem Sound.freeSwap (sound : Sound s) {block pages : ULong} (holds : s.Holds block pages)
    (fits : Fits s (x, .freeSwap block pages)) {t : State}
    (done : s.freeSwap block pages = some t) : Sound t := by
  rw [State.freeSwap] at done
  cases dev : s.swapdev with
  | none =>
      simp only [dev] at done
      obtain rfl := Option.some.inj done
      exact ⟨sound.server, sound.separate, sound.few, sound.tally, sound.device⟩
  | some perms =>
      obtain ⟨none_, room⟩ := fits (by rw [dev]; rfl)
      simp only [dev] at done
      cases write : has perms ACC_WRITE with
      | false =>
          rw [Server.swapFree, write] at done
          cases done
      | true =>
          obtain ⟨server, freed, after⟩ := sound.freed none_ write holds room
          rw [freed] at done
          obtain rfl := Option.some.inj done
          exact ⟨after.server, after.separate, after.few, after.tally, after.device⟩

/-- **A step that meets the condition leaves the state sound.** -/
theorem Sound.step {t : State} {label : Outcome × Action} (sound : Sound s) (fits : Fits s label)
    (taken : Step s label t) : Sound t := by
  obtain ⟨x, action⟩ := label
  obtain ⟨legal, taken⟩ := Option.ite_none_right_eq_some.mp taken
  obtain ⟨⟨t', replies⟩, done, rfl⟩ := Option.map_eq_some_iff.mp taken
  cases action with
  | client perms nseg request =>
      have done : s.client x perms nseg request = some (t', replies) := done
      obtain ⟨t, r, done', -, after⟩ := sound.client legal fits
      obtain ⟨rfl, -⟩ := Prod.mk.inj (Option.some.inj (done'.symm.trans done))
      exact after
  | setSwapdev perms =>
      have done : some (s.setSwapdev perms, []) = some (t', replies) := done
      obtain ⟨rfl, -⟩ := Prod.mk.inj (Option.some.inj done)
      rw [State.setSwapdev]
      split_ifs
      · exact sound
      · exact ⟨sound.server, sound.separate, sound.few, sound.tally, sound.device⟩
  | allocSwap pages =>
      have done : (s.allocSwap pages).map (·, []) = some (t', replies) := done
      obtain ⟨t, asked, same⟩ := Option.map_eq_some_iff.mp done
      obtain ⟨rfl, -⟩ := Prod.mk.inj same
      exact sound.allocSwap fits asked
  | freeSwap block pages =>
      have done : (s.freeSwap block pages).map (·, []) = some (t', replies) := done
      obtain ⟨t, asked, same⟩ := Option.map_eq_some_iff.mp done
      obtain ⟨rfl, -⟩ := Prod.mk.inj same
      exact sound.freeSwap legal fits asked

theorem sound_run {s : State} (run : Transition.Reaches Step Fits State.start s) : Sound s :=
  run.invariant start_sound fun _ _ _ sound fits taken => sound.step fits taken

/-- `Fits` on the requests that the runs below make of the server. -/
def fitting (s : State) (label : Outcome × Action) : Bool :=
  match label with
  | (x, .client perms nseg (.swapAdd _ sLen sOff)) =>
      has perms ACC_WRITE && nseg = 1 && x.mem && sLen = 0 && decide (sOff < x.size) &&
        s.server.swapPending = 0 &&
        decide (s.server.low.toNat + (x.size - sOff).toNat < 2 ^ 31) &&
        !s.server.store.rmap.full
  | (_, .client _ _ (.swapAlloc _)) => s.swapPending = 0 && s.server.swapmap ≠ []
  | _ => false

theorem fits_of_fitting (s : State) (label : Outcome × Action) (good : fitting s label = true) :
    Fits s label := by
  obtain ⟨x, action⟩ := label
  cases action with
  | client perms nseg request =>
      cases request with
      | swapAdd len sLen sOff =>
          simp only [fitting, Bool.and_eq_true, decide_eq_true_eq, Bool.not_eq_true'] at good
          obtain ⟨⟨⟨⟨⟨⟨⟨-, -⟩, mem⟩, given⟩, inside⟩, none_⟩, numbers⟩, room⟩ := good
          exact fun _ _ _ _ => ⟨mem, given, inside, fun _ => none_, numbers, room⟩
      | swapAlloc blocks =>
          simp only [fitting, Bool.and_eq_true, decide_eq_true_eq] at good
          exact fun _ _ => ⟨good.1, fun empty => absurd empty good.2⟩
      | swapFree block blocks => exact absurd good Bool.false_ne_true
  | setSwapdev perms => exact absurd good Bool.false_ne_true
  | allocSwap pages => exact absurd good Bool.false_ne_true
  | freeSwap block pages => exact absurd good Bool.false_ne_true

/-- A device of 100 blocks. -/
def hundred : Outcome := ⟨true, 100, true⟩

/-- The device is added, and a client with write access is given five blocks. -/
def fiveBlocks : List (Outcome × Action) :=
  [(hundred, .client ACC_WRITE 1 (.swapAdd 40 0 0)), (hundred, .client ACC_WRITE 0 (.swapAlloc 5))]

/-- The allocated blocks, and the count of those that are free. -/
def blocks (s : State) : List (Extent ℕ) × ULong := (s.held, s.server.freeSwap)

theorem follow_fiveBlocks :
    (Transition.follow step fitting State.start fiveBlocks).map blocks = some ([⟨1, 6⟩], 95) := by
  decide

/-- A client without write access frees the blocks of another. -/
def freed : Action := .client 0 0 (.swapFree 1 5)

end Vsta.Swap
