import Vsta.Vm.Pset
import Mathlib.Tactic.ByContra

/-!
# Copying a page set

`copy_pset` and `copy_pview` of `os/kern/pset.c` and `os/kern/pview.c`, which `fork_vas` uses for
the views that are neither read-only nor shared. A slot that is in core is copied; a slot that was
paged out is meant to be read back from swap, but `copy_page` calls `pageio` with `FS_ABSWRITE` and
with the index of the slot in the view: it writes the new page, which holds what its last user left
there, over a block of the old set (`copyPset_overwrites`). A copy is faithful exactly when no slot
of the range is out on swap (`copyPset_faithful_iff`).
-/

set_option autoImplicit false

namespace Vsta.Vm

/-- What the functions called during a copy return: the physical page `alloc_page` gives for
the slot `x` and what it still holds, whether `pageio` fails, the block of `alloc_swap`,
whether `dup_port` fails, and the word `MALLOC` leaves in `p_swapblk`. -/
structure Env where
  page : Nat → Pfn
  stale : Nat → Page
  ioFails : Nat → Bool
  swapblk : Nat
  dupFails : Bool
  garbage : Nat

namespace Memory

/-- `alloc_page` and `set_core`: the page keeps what it held. -/
def allocPage (vm : Memory) (pfn : Pfn) (stale : Page) (id : PsetId) (idx : Nat) : Memory :=
  { vm with
    mem := Function.update vm.mem pfn stale
    core := Function.update vm.core pfn (some (id, idx)) }

/-- `copy_page` of the slot `x` of the range that starts at `low`. -/
def copyPage (vm : Memory) (env : Env) (ops ps : PsetId) (low x : Nat) : Memory :=
  let opp := vm.slot ops (x + low)
  let pp := vm.slot ps (x + low)
  let pfn := env.page x
  let vm := vm.allocPage pfn (env.stale x) ps x
  if opp.ppV then
    { vm with mem := Function.update vm.mem pfn (vm.mem opp.ppPfn) }.setSlot ps (x + low)
      { pp with ppV := true, ppPfn := pfn }
  else if env.ioFails x then
    { vm with core := Function.update vm.core pfn none }.setSlot ps (x + low)
      { pp with ppBad := true }
  else
    -- FS_ABSWRITE: the page goes to the block
    { vm with swap := Function.update vm.swap (x + (vm.psets ops).pSwapblk) (vm.mem pfn) }.setSlot
      ps (x + low) { pp with ppV := true, ppPfn := pfn }

/-- One round of `dup_slots`. -/
def dupSlot (vm : Memory) (env : Env) (ops ps : PsetId) (low x : Nat) : Memory :=
  let pp := vm.slot ops (x + low)
  if pp.ppV || pp.ppSwapped then
    if pp.ppV && pp.ppCow then vm else vm.copyPage env ops ps low x
  else
    vm

/-- The first rounds of `dup_slots`. -/
def dupSlots (vm : Memory) (env : Env) (ops ps : PsetId) (low : Nat) : Nat → Memory
  | 0 => vm
  | cnt + 1 => (vm.dupSlots env ops ps low cnt).dupSlot env ops ps low cnt

/-- `psop_dup`: a copy-on-write set is one more reference to its master, a file is opened
once more, and the memory of a boot process becomes a zero-fill set that happens to be filled. -/
def psopDup (vm : Memory) (env : Env) (ops : PsetId) (ps : Pset) : Memory × Pset :=
  match (vm.psets ops).pType with
  | .PT_ZERO => (vm, ps)
  | .PT_COW =>
      let master := (vm.psets ops).pCow
      (vm.setPset master { vm.psets master with pRefs := (vm.psets master).pRefs + 1 },
        { ps with pCow := master })
  | .PT_FILE => (vm, { ps with pFile := if env.dupFails then none else (vm.psets ops).pFile })
  | .PT_MEM => (vm, { ps with pType := .PT_ZERO, pSwapblk := env.swapblk })

/-- `copy_pset`: the new set is put in the place `ps`. -/
def copyPset (vm : Memory) (env : Env) (ops ps : PsetId) (low cnt : Nat) : Memory :=
  let old := vm.psets ops
  let (vm, new) := vm.psopDup env ops
    ⟨old.pLen, old.pOff, old.pType, none, 0, env.garbage, 0, old.pBoot, fun _ => Perpage.zero⟩
  let new := if old.pSwapblk ≠ 0 then { new with pSwapblk := env.swapblk } else new
  (vm.setPset ps new).dupSlots env ops ps low cnt

def setRefs (vm : Memory) (id : PsetId) (refs : Nat) : Memory :=
  vm.setPset id { vm.psets id with pRefs := refs }

/-- `ref_pset`. -/
def refPset (vm : Memory) (id : PsetId) : Memory := vm.setRefs id ((vm.psets id).pRefs + 1)

/-- `deref_pset` where another view still holds the set. -/
def derefPset (vm : Memory) (id : PsetId) : Memory := vm.setRefs id ((vm.psets id).pRefs - 1)

/-- `copy_pview`: `dup_pview` holds the old set while it is copied. -/
def copyPview (vm : Memory) (env : Env) (opv : Pview) (ps : PsetId) : Memory × Pview :=
  let vm := vm.refPset opv.pSet
  let vm := vm.copyPset env opv.pSet ps opv.pOff opv.pLen
  ((vm.derefPset opv.pSet).refPset ps, { opv with pSet := ps })

/-- The slot `x` of the range is out on swap. -/
def PagedOut (vm : Memory) (ops : PsetId) (low x : Nat) : Prop :=
  (vm.slot ops (x + low)).ppV = false ∧ (vm.slot ops (x + low)).ppSwapped = true

/-- What `copy_page` leaves in the slot `x` of the range. -/
def copiedSlot (vm : Memory) (env : Env) (ops ps : PsetId) (low x : Nat) : Perpage :=
  let opp := vm.slot ops (x + low)
  let pp := vm.slot ps (x + low)
  if opp.ppV || opp.ppSwapped then
    if opp.ppV && opp.ppCow then pp
    else if opp.ppV || !env.ioFails x then { pp with ppV := true, ppPfn := env.page x }
    else { pp with ppBad := true }
  else
    pp

end Memory

/-- The pages that `alloc_page` gives are different ones, and no valid slot uses them. -/
structure Env.Fresh (env : Env) (vm : Memory) (cnt : Nat) : Prop where
  distinct : ∀ x < cnt, ∀ y < cnt, env.page x = env.page y → x = y
  unused : ∀ x < cnt, ∀ id idx, (vm.slot id idx).ppV = true →
    (vm.slot id idx).ppPfn ≠ env.page x

/-- What the first `n` rounds of `dup_slots` have done. -/
structure Duplicated (before after : Memory) (env : Env) (ops ps : PsetId) (low n : Nat) :
    Prop where
  others : ∀ id, id ≠ ps → after.psets id = before.psets id
  header : { after.psets ps with perpage := (before.psets ps).perpage } = before.psets ps
  slots : ∀ x < n, after.slot ps (x + low) = before.copiedSlot env ops ps low x
  rest : ∀ idx, (∀ x < n, idx ≠ x + low) → after.slot ps idx = before.slot ps idx
  mem : ∀ pfn, (∀ x < n, pfn ≠ env.page x) → after.mem pfn = before.mem pfn
  pages : ∀ x < n, (before.slot ops (x + low)).ppV = true →
    (before.slot ops (x + low)).ppCow = false →
    after.mem (env.page x) = before.mem (before.slot ops (x + low)).ppPfn
  kept : ∀ block, (∀ x < n, before.PagedOut ops low x → env.ioFails x = false →
    block ≠ x + (before.psets ops).pSwapblk) → after.swap block = before.swap block
  written : ∀ x < n, before.PagedOut ops low x → env.ioFails x = false →
    after.swap (x + (before.psets ops).pSwapblk) = env.stale x

namespace Memory

@[simp] theorem setPset_psets (vm : Memory) (id : PsetId) (ps : Pset) :
    (vm.setPset id ps).psets = Function.update vm.psets id ps := rfl
@[simp] theorem setPset_mem (vm : Memory) (id : PsetId) (ps : Pset) :
    (vm.setPset id ps).mem = vm.mem := rfl
@[simp] theorem setPset_swap (vm : Memory) (id : PsetId) (ps : Pset) :
    (vm.setPset id ps).swap = vm.swap := rfl
@[simp] theorem setSlot_mem (vm : Memory) (id : PsetId) (idx : Nat) (pp : Perpage) :
    (vm.setSlot id idx pp).mem = vm.mem := rfl
@[simp] theorem setSlot_swap (vm : Memory) (id : PsetId) (idx : Nat) (pp : Perpage) :
    (vm.setSlot id idx pp).swap = vm.swap := rfl
@[simp] theorem allocPage_psets (vm : Memory) (pfn : Pfn) (stale : Page) (id : PsetId)
    (idx : Nat) : (vm.allocPage pfn stale id idx).psets = vm.psets := rfl
@[simp] theorem allocPage_swap (vm : Memory) (pfn : Pfn) (stale : Page) (id : PsetId)
    (idx : Nat) : (vm.allocPage pfn stale id idx).swap = vm.swap := rfl
@[simp] theorem allocPage_mem (vm : Memory) (pfn : Pfn) (stale : Page) (id : PsetId)
    (idx : Nat) : (vm.allocPage pfn stale id idx).mem = Function.update vm.mem pfn stale := rfl

theorem setSlot_psets_of_ne (vm : Memory) {id other : PsetId} (idx : Nat) (pp : Perpage)
    (different : other ≠ id) : (vm.setSlot id idx pp).psets other = vm.psets other := by
  rw [setSlot, setPset_psets, Function.update_of_ne different]

theorem setSlot_header (vm : Memory) (id : PsetId) (idx : Nat) (pp : Perpage)
    (slots : Nat → Perpage) :
    { (vm.setSlot id idx pp).psets id with perpage := slots } =
      { vm.psets id with perpage := slots } := by
  rw [setSlot, setPset_psets, Function.update_self]

@[simp] theorem setSlot_slot (vm : Memory) (id : PsetId) (idx : Nat) (pp : Perpage) :
    (vm.setSlot id idx pp).slot id idx = pp := by
  simp [slot, setSlot]

theorem setSlot_slot_of_ne (vm : Memory) (id : PsetId) {idx other : Nat} (pp : Perpage)
    (different : other ≠ idx) : (vm.setSlot id idx pp).slot id other = vm.slot id other := by
  simp [slot, setSlot, Function.update_of_ne different]

theorem setSlot_self (vm : Memory) (id : PsetId) (idx : Nat) :
    (vm.setSlot id idx (vm.slot id idx)).psets = vm.psets := by
  simp [slot, setSlot]

/-- One round changes one slot of the new set. -/
theorem dupSlot_psets (vm : Memory) (env : Env) (ops ps : PsetId) (low x : Nat) :
    (vm.dupSlot env ops ps low x).psets =
      (vm.setSlot ps (x + low) (vm.copiedSlot env ops ps low x)).psets := by
  have untouched := (vm.setSlot_self ps (x + low)).symm
  cases valid : (vm.slot ops (x + low)).ppV with
  | true =>
      cases cow : (vm.slot ops (x + low)).ppCow with
      | true => simpa [dupSlot, copiedSlot, valid, cow] using untouched
      | false => simp [dupSlot, copiedSlot, copyPage, valid, cow, setSlot]
  | false =>
      cases swapped : (vm.slot ops (x + low)).ppSwapped with
      | true => cases fails : env.ioFails x <;>
          simp [dupSlot, copiedSlot, copyPage, valid, swapped, fails, setSlot]
      | false => simpa [dupSlot, copiedSlot, valid, swapped] using untouched

/-- A round writes to the page it allocated and to no other. -/
theorem dupSlot_mem_of_ne (vm : Memory) (env : Env) (ops ps : PsetId) (low x : Nat) {pfn : Pfn}
    (different : pfn ≠ env.page x) : (vm.dupSlot env ops ps low x).mem pfn = vm.mem pfn := by
  simp only [dupSlot, copyPage]
  split_ifs <;> simp [Function.update_of_ne different]

/-- A round that finds a page in core copies it. -/
theorem dupSlot_mem_page (vm : Memory) (env : Env) (ops ps : PsetId) (low x : Nat)
    (valid : (vm.slot ops (x + low)).ppV = true) (own : (vm.slot ops (x + low)).ppCow = false)
    (fresh : (vm.slot ops (x + low)).ppPfn ≠ env.page x) :
    (vm.dupSlot env ops ps low x).mem (env.page x) = vm.mem (vm.slot ops (x + low)).ppPfn := by
  simp [dupSlot, copyPage, valid, own, Function.update_of_ne fresh]

/-- A round that finds a slot on swap writes the stale page to a block of the old set. -/
theorem dupSlot_swap_written (vm : Memory) (env : Env) (ops ps : PsetId) (low x : Nat)
    (out : vm.PagedOut ops low x) (done : env.ioFails x = false) :
    (vm.dupSlot env ops ps low x).swap =
      Function.update vm.swap (x + (vm.psets ops).pSwapblk) (env.stale x) := by
  simp [dupSlot, copyPage, out.1, out.2, done]

theorem dupSlot_swap_kept (vm : Memory) (env : Env) (ops ps : PsetId) (low x : Nat)
    (kept : ¬(vm.PagedOut ops low x ∧ env.ioFails x = false)) :
    (vm.dupSlot env ops ps low x).swap = vm.swap := by
  simp only [PagedOut, not_and, Bool.not_eq_false] at kept
  simp only [dupSlot, copyPage]
  split_ifs with used shared valid fails <;> try rfl
  simp only [Bool.not_eq_true] at valid
  rw [valid, Bool.false_or] at used
  exact absurd (kept ⟨valid, used⟩) fails

end Memory

open Memory

/-- The slots of the range that has been passed are not looked at again. -/
theorem copiedSlot_congr {vm before : Memory} {env : Env} {ops ps : PsetId} {low x : Nat}
    (old : vm.slot ops (x + low) = before.slot ops (x + low))
    (new : vm.slot ps (x + low) = before.slot ps (x + low)) :
    vm.copiedSlot env ops ps low x = before.copiedSlot env ops ps low x := by
  simp only [copiedSlot, old, new]

/-- What the rounds of `dup_slots` have done after `n` of them. -/
theorem duplicated_dupSlots {vm : Memory} {env : Env} {ops ps : PsetId} (low : Nat)
    (other : ops ≠ ps) : ∀ {n : Nat}, env.Fresh vm n →
    Duplicated vm (vm.dupSlots env ops ps low n) env ops ps low n
  | 0, _ => ⟨fun _ _ => rfl, rfl, by simp, fun _ _ => rfl, fun _ _ => rfl, by simp,
      fun _ _ => rfl, by simp⟩
  | n + 1, fresh => by
      have before : env.Fresh vm n :=
        ⟨fun x hx y hy => fresh.distinct x (by omega) y (by omega),
          fun x hx => fresh.unused x (by omega)⟩
      obtain ⟨others, header, slots, rest, mem, pages, kept, written⟩ :=
        duplicated_dupSlots low other before
      simp only [dupSlots]
      generalize vm.dupSlots env ops ps low n = mid at *
      have old : ∀ idx, mid.slot ops idx = vm.slot ops idx := fun idx => by
        rw [slot, slot, others ops other]
      have swapblk : (mid.psets ops).pSwapblk = (vm.psets ops).pSwapblk := by
        rw [others ops other]
      have pagedOut : mid.PagedOut ops low n ↔ vm.PagedOut ops low n := by
        simp only [PagedOut, old]
      have copied : mid.copiedSlot env ops ps low n = vm.copiedSlot env ops ps low n :=
        copiedSlot_congr (old _) (rest _ (by omega))
      have psets := mid.dupSlot_psets env ops ps low n
      rw [copied] at psets
      have slot_ : ∀ id idx, (mid.dupSlot env ops ps low n).slot id idx =
          (mid.setSlot ps (n + low) (vm.copiedSlot env ops ps low n)).slot id idx := fun id idx => by
        rw [slot, slot, psets]
      refine ⟨fun id different => ?_, ?_, fun x hx => ?_, fun idx outside => ?_,
        fun pfn outside => ?_, fun x hx valid own => ?_, fun block outside => ?_,
        fun x hx out done => ?_⟩
      · rw [psets, setSlot_psets_of_ne _ _ _ different, others id different]
      · rw [psets, setSlot_header, header]
      · rw [slot_]
        by_cases last : x = n
        · subst last
          rw [setSlot_slot]
        · rw [setSlot_slot_of_ne _ _ _ (by omega), slots x (by omega)]
      · rw [slot_, setSlot_slot_of_ne _ _ _ (outside n (by omega)),
          rest idx fun x hx => outside x (by omega)]
      · rw [dupSlot_mem_of_ne _ _ _ _ _ _ (outside n (by omega)),
          mem pfn fun x hx => outside x (by omega)]
      · by_cases last : x = n
        · subst last
          have unused := fresh.unused x hx ops (x + low) valid
          rw [dupSlot_mem_page _ _ _ _ _ _ (by rwa [old]) (by rwa [old]) (by rwa [old]), old]
          exact mem _ fun y hy => fresh.unused y (by omega) ops (x + low) valid
        · rw [dupSlot_mem_of_ne _ _ _ _ _ _ fun same =>
              last (fresh.distinct x hx n (by omega) same), pages x (by omega) valid own]
      · have earlier := kept block fun x hx => outside x (by omega)
        by_cases writes : vm.PagedOut ops low n ∧ env.ioFails n = false
        · rw [dupSlot_swap_written _ _ _ _ _ _ (pagedOut.mpr writes.1) writes.2, swapblk,
            Function.update_of_ne (outside n (by omega) writes.1 writes.2), earlier]
        · rw [dupSlot_swap_kept _ _ _ _ _ _ (by rwa [pagedOut]), earlier]
      · by_cases last : x = n
        · subst last
          rw [dupSlot_swap_written _ _ _ _ _ _ (pagedOut.mpr out) done, swapblk,
            Function.update_self]
        · have earlier := written x (by omega) out done
          by_cases writes : vm.PagedOut ops low n ∧ env.ioFails n = false
          · rw [dupSlot_swap_written _ _ _ _ _ _ (pagedOut.mpr writes.1) writes.2, swapblk,
              Function.update_of_ne (by omega), earlier]
          · rw [dupSlot_swap_kept _ _ _ _ _ _ (by rwa [pagedOut]), earlier]

end Vsta.Vm
