import Vsta.ResourceMap.Rmap
import Vsta.Vm.Pset

/-!
# Views of an address space

The list of views of a `struct vas`, as `vas.c`, `pview.c` and `seg.c` search and change it, and
the part of the HAT (`mach/hat.c`) that places a view. An address is a 32-bit integer and
its arithmetic wraps. Addresses from `VMAP_BASE` on are a window the kernel allocates from; the
pages of the window that are free are kept in a resource map.

The page table entries and the slots under a view are not part of this model: they do not
decide where a view goes.
-/

set_option autoImplicit false

namespace Vsta.AddressSpace

open ResourceMap
open Vm (PsetType NBPG)

/-- Where the window starts: 1 GB. -/
abbrev VMAP_BASE : ULong := 0x40000000

/-- The bytes of the window: 1/2 GB. -/
abbrev VMAP_SIZE : ULong := 0x20000000

/-- The elements of the map of the window. -/
abbrev NRMAPSLOT : Uint := 20

/-- Read only. -/
abbrev PROT_RO : UChar := 0x01

/-- Not duplicated by `fork()`. -/
abbrev PROT_NOFORK : UChar := 0x02

/-- Created by `mmap()`. -/
abbrev PROT_MMAP : UChar := 0x04

/-- The view is in the process of `fork()`. -/
abbrev PROT_FORK : UChar := 0x08

/-- Bytes of a number of pages. -/
def ptob (x : Uint) : ULong := x <<< 12

/-- The page of a byte. -/
def btop (x : ULong) : Uint := x >>> 12

/-- Pages that hold a number of bytes. -/
def btorp (x : ULong) : Uint := (x + 4095) >>> 12

/-- What a view reads of its page set: its length, its type and `PF_SHARED`. -/
structure Pset where
  pLen : Uint
  pType : PsetType
  pShared : Bool
  deriving DecidableEq, Repr

/-- A view of `pLen` pages of a set at `pVaddr`. -/
structure Pview where
  pSet : Pset
  pVaddr : ULong
  pLen : Uint
  pProt : UChar
  deriving DecidableEq, Repr

/-- An address space: its views from the list's head on, `VF_DMA`, and the map of the window. -/
structure Vas where
  vViews : List Pview
  vDma : Bool
  hMap : Rmap
  deriving DecidableEq, Repr

/-- A bit of the protection of a view is on. -/
def Pview.has (pv : Pview) (bit : UChar) : Bool := pv.pProt &&& bit != 0

/-! ## The HAT -/

/-- An address in the window. -/
def inWindow (vaddr : ULong) : Bool := VMAP_BASE ≤ vaddr && vaddr < VMAP_BASE + VMAP_SIZE

/-- The map of `hat_initvas`: the whole window is free. -/
def hatInitvas : Rmap := (rmapFree (rmapInit NRMAPSLOT) 0 (btop VMAP_BASE) (btop VMAP_SIZE)).1

/-- `hat_attach`: an address that is given is taken or refused, otherwise the map chooses one. No
result: the view is refused. -/
def hatAttach (map : Rmap) (pv : Pview) : Option (Pview × Rmap) :=
  if pv.pVaddr ≠ 0 then
    if 0x80000000 ≤ pv.pVaddr then none
    else if pv.has PROT_FORK then some (pv, map)
    else if inWindow pv.pVaddr then none
    else some (pv, map)
  else
    let (pg, map') := rmapAlloc map pv.pLen
    if pg = 0 then none else some ({ pv with pVaddr := ptob pg }, map')

/-- `hat_detach`: what lies in the window is free again. The count of what the map loses
is read nowhere. -/
def hatDetach (map : Rmap) (pv : Pview) : Rmap :=
  if inWindow pv.pVaddr then (rmapFree map 0 (btop pv.pVaddr) pv.pLen).1 else map

/-! ## The list of views -/

/-- `CONTAINS`. -/
def contains (pv : Pview) (va : ULong) : Bool :=
  pv.pVaddr ≤ va && va < pv.pVaddr + ptob pv.pLen

/-- The test of `overlapping_pview` on one view. -/
def overlaps (vaddr : ULong) (len : Uint) (pv : Pview) : Bool :=
  let end_ := vaddr + ptob len
  let end2 := pv.pVaddr + ptob pv.pLen
  (vaddr ≤ pv.pVaddr && pv.pVaddr < end_) || (vaddr < end2 && end2 ≤ end_)

/-- `overlapping_pview`: the range overlaps an existing view. -/
def overlappingPview (vas : Vas) (vaddr : ULong) (len : Uint) : Bool :=
  vas.vViews.any (overlaps vaddr len)

/-- `find_pview`: the first view that contains the address. -/
def findPview (vas : Vas) (vaddr : ULong) : Option Pview :=
  vas.vViews.find? (contains · vaddr)

/-- `attach_pview`: the view as it is attached, and the address space. No result: refused. -/
def attachPview (vas : Vas) (pv : Pview) : Option (Pview × Vas) :=
  match hatAttach vas.hMap pv with
  | none => none
  | some (placed, map) => some (placed, { vas with vViews := placed :: vas.vViews, hMap := map })

/-- `detach_pview`: the view is unlinked and its pages in the window are freed. No result: there is
no such view and the assertion stops the kernel. -/
def detachPview (vas : Vas) (vaddr : ULong) : Option (Pview × Vas) :=
  match findPview vas vaddr with
  | none => none
  | some pv => some (pv,
      { vas with vViews := vas.vViews.eraseP (contains · vaddr), hMap := hatDetach vas.hMap pv })

/-- `remove_pview`. -/
def removePview (vas : Vas) (vaddr : ULong) : Option Vas :=
  (detachPview vas vaddr).map (·.2)

/-- The loop of `free_vas`, for as many views as there are. -/
def freeViews : ℕ → Vas → Option Vas
  | 0, vas => some vas
  | rounds + 1, vas =>
      match vas.vViews with
      | [] => some vas
      | pv :: _ => (removePview vas pv.pVaddr).bind (freeViews rounds)

/-- `free_vas`. -/
def freeVas (vas : Vas) : Option Vas := freeViews vas.vViews.length vas

/-- `alloc_pview`. -/
def allocPview (ps : Pset) : Pview := ⟨ps, 0, ps.pLen, 0⟩

/-- `alloc_pset_zfod`, with swap for its pages. -/
def allocPsetZfod (pages : Uint) : Pset := ⟨pages, .PT_ZERO, false⟩

/-- `physmem_pset`. -/
def physmemPset (npfn : Uint) : Pset := ⟨npfn, .PT_MEM, false⟩

/-- `alloc_pset_cow`, with swap for its pages. -/
def allocPsetCow (len : Uint) : Pset := ⟨len, .PT_COW, false⟩

/-- `alloc_zfod`: zeroed memory where the map puts it. -/
def allocZfod (vas : Vas) (pages : Uint) (prot : UChar) : Option (Pview × Vas) :=
  let pv := allocPview (allocPsetZfod pages)
  attachPview vas { pv with pProt := pv.pProt ||| prot }

/-- `alloc_zfod_vaddr`: zeroed memory at the address of the caller. -/
def allocZfodVaddr (vas : Vas) (pages : Uint) (vaddr : ULong) : Option (Pview × Vas) :=
  attachPview vas { allocPview (allocPsetZfod pages) with pVaddr := vaddr, pProt := 0 }

/-- `attach_seg`: the view of a segment goes where the map puts it. -/
def attachSeg (vas : Vas) (sPview : Pview) : Option (Pview × Vas) :=
  attachPview vas { sPview with pProt := if vas.vDma then 0 else PROT_RO, pVaddr := 0 }

/-- `detach_seg`. -/
def detachSeg (vas : Vas) (sPview : Pview) : Option (Pview × Vas) :=
  detachPview vas sPview.pVaddr

end Vsta.AddressSpace
