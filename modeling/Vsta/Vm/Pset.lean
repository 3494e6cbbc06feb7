import Vsta.Basic
import Mathlib.Logic.Function.Basic

/-!
# Page sets, physical pages and swap

The data of `sys/pset.h` and `sys/core.h`: a page set is an array of slots (`struct perpage`),
a valid slot names a physical page, a slot that was paged out has an image on the swap device,
and a copy-on-write set shares pages with the set it was made from. `Memory.read` is what a slot
holds, in core, on swap or where it would be filled from.
-/

set_option autoImplicit false

namespace Vsta.Vm

/-- Bytes in a page. -/
abbrev NBPG : Nat := 4096

abbrev Page := Fin NBPG → UChar

abbrev PsetId := Nat
abbrev Pfn := Nat

/-- A slot of a page set: the bits of `pp_flags`, the count of its users and its page. -/
structure Perpage where
  ppV : Bool
  ppCow : Bool
  ppSwapped : Bool
  ppBad : Bool
  ppM : Bool
  ppR : Bool
  ppRefs : Nat
  ppPfn : Pfn
  deriving DecidableEq, Repr

/-- A slot as `bzero` leaves it. -/
def Perpage.zero : Perpage := ⟨false, false, false, false, false, false, 0, 0⟩

/-- `p_type`. -/
inductive PsetType where
  | PT_ZERO | PT_FILE | PT_COW | PT_MEM
  deriving DecidableEq, Repr

/-- A page set. `p_data` is the file of a `PT_FILE` set and the master of a `PT_COW` set. -/
structure Pset where
  pLen : Nat
  pOff : Nat
  pType : PsetType
  pFile : Option Nat
  pCow : PsetId
  pSwapblk : Nat
  pRefs : Nat
  pBoot : Bool
  perpage : Nat → Perpage

/-- A view of `p_len` slots of a set from `p_off` on. -/
structure Pview where
  pSet : PsetId
  pOff : Nat
  pLen : Nat
  deriving DecidableEq, Repr

/-- The sets, the physical pages and who they belong to (`core`), and the swap device. -/
structure Memory where
  psets : PsetId → Pset
  mem : Pfn → Page
  core : Pfn → Option (PsetId × Nat)
  swap : Nat → Page

/-- `bzero` of a page. -/
def zeroPage : Page := fun _ => 0

namespace Memory

/-- The slot `idx` of a set. -/
def slot (vm : Memory) (id : PsetId) (idx : Nat) : Perpage := (vm.psets id).perpage idx

def setPset (vm : Memory) (id : PsetId) (ps : Pset) : Memory :=
  { vm with psets := Function.update vm.psets id ps }

def setSlot (vm : Memory) (id : PsetId) (idx : Nat) (pp : Perpage) : Memory :=
  vm.setPset id
    { vm.psets id with perpage := Function.update (vm.psets id).perpage idx pp }

/-- What a slot that has its own contents holds: the page in core, or its image on swap. -/
def own (vm : Memory) (id : PsetId) (idx : Nat) : Option Page :=
  if (vm.slot id idx).ppV then some (vm.mem (vm.slot id idx).ppPfn)
  else if (vm.slot id idx).ppSwapped then some (vm.swap ((vm.psets id).pSwapblk + idx))
  else none

/-- Where a set that shadows no other fills a slot from. -/
def fill (files : Nat → Nat → Page) (vm : Memory) (id : PsetId) (idx : Nat) : Option Page :=
  match (vm.psets id).pType with
  | .PT_ZERO => some zeroPage
  | .PT_FILE => (vm.psets id).pFile.map fun file => files file ((vm.psets id).pOff + idx)
  | .PT_COW | .PT_MEM => none

/-- What a slot holds. A bad slot has lost its contents. A copy-on-write set that has no
copy of its own shows the slot of its master. -/
def read (files : Nat → Nat → Page) (vm : Memory) (id : PsetId) (idx : Nat) : Option Page :=
  if (vm.slot id idx).ppBad then none
  else match vm.own id idx with
    | some page => some page
    | none =>
        match (vm.psets id).pType with
        | .PT_COW =>
            let master := (vm.psets id).pCow
            let idx2 := (vm.psets id).pOff + idx
            if (vm.slot master idx2).ppBad then none
            else (vm.own master idx2).orElse fun _ => vm.fill files master idx2
        | _ => vm.fill files id idx

end Memory

end Vsta.Vm
