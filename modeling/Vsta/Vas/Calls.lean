import Vsta.Vas.Pview
import Mathlib.Logic.Function.Basic

/-!
# The calls that change an address space

`mmap` and `munmap` (`mmap.c`), `fork_vas` (`vas.c`) and `exec` (`exec.c`) over the views of
`Vsta.Vas.Pview`, and the system of all address spaces. A server's answer, the port table and
the identity of the caller are arguments. A call without a result has run into an
assertion or a null pointer and the kernel stops.
-/

set_option autoImplicit false

namespace Vsta.AddressSpace

open ResourceMap
open Vm (PsetType NBPG)

/-! ## `mmap` and `munmap` -/

abbrev PROT_WRITE : Uint := 4

abbrev MAP_ANON : Uint := 1
abbrev MAP_FILE : Uint := 2
abbrev MAP_FIXED : Uint := 4
abbrev MAP_PRIVATE : Uint := 8
abbrev MAP_SHARED : Uint := 16
abbrev MAP_PHYS : Uint := 32

/-- A bit of an argument is on. -/
def has (word bit : Uint) : Bool := word &&& bit != 0

/-- The view `add_map` makes of the set of a file. -/
def fileView (ps : Pset) (vaddr len off : ULong) (prot : UChar) : Pview :=
  let pv :=
    if prot &&& PROT_RO != 0 then
      let pv := allocPview ps
      if off < pv.pLen then { pv with pLen := pv.pLen - off } else pv
    else
      allocPview (allocPsetCow len)
  let pv := if len < pv.pLen then { pv with pLen := len } else pv
  { pv with pVaddr := vaddr, pProt := prot }

/-- `add_map`: `file` is the set that `get_map_pset` finds or makes. -/
def addMap (vas : Vas) (file : Option Pset) (vaddr len off : ULong) (prot : UChar) :
    Option (Pview × Vas) :=
  match file with
  | none => none
  | some ps => attachPview vas (fileView ps vaddr len off prot)

/-- The arguments of `mmap`. -/
structure MmapArgs where
  addr : ULong
  len : ULong
  prot : Uint
  flags : Uint
  offset : ULong
  deriving DecidableEq, Repr

/-- The pages `mmap` checks and, but for a file, maps. -/
def MmapArgs.plen (args : MmapArgs) : Uint := btorp args.len

/-- The view of an anonymous mapping. -/
def MmapArgs.anonView (args : MmapArgs) : Pview :=
  let ps := allocPsetZfod args.plen
  let pv := allocPview ps
  { pv with pProt := pv.pProt ||| PROT_MMAP,
            pSet := { ps with pShared := has args.flags MAP_SHARED },
            pVaddr := args.addr }

/-- The view of a physical mapping: `addr` is the physical address, `offset` the virtual one. -/
def MmapArgs.physView (args : MmapArgs) : Pview :=
  let ps := physmemPset args.plen
  { allocPview ps with pSet := { ps with pShared := true }, pProt := PROT_MMAP,
                       pVaddr := args.offset }

/-- The pages of the file that are asked for. -/
def MmapArgs.fileLen (args : MmapArgs) : ULong :=
  btorp (args.len + (args.offset - ptob (btop args.offset)))

/-- The protection of a file's view. -/
def MmapArgs.fileProt (args : MmapArgs) : UChar :=
  (if has args.prot PROT_WRITE then 0 else PROT_RO) ||| PROT_MMAP

/-- What `attach_pview` answers, as the address space that is left. -/
def attached (vas : Vas) (answer : Option (Pview × Vas)) : ULong × Vas :=
  match answer with
  | none => (0, vas)
  | some (pv, vas') => (pv.pVaddr, vas')

/-- `mmap`: the address or 0, and the address space. -/
def mmap (vas : Vas) (args : MmapArgs) (sys : Bool) (file : Option Pset) : ULong × Vas :=
  if args.addr ≠ 0 ∧ overlappingPview vas args.addr args.plen then
    (0, vas)
  else if has args.flags MAP_ANON then
    if has args.flags (MAP_FILE ||| MAP_PHYS) || !has args.prot PROT_WRITE then
      (0, vas)
    else
      attached vas (attachPview vas args.anonView)
  else if has args.flags MAP_PHYS then
    if has args.flags (MAP_FILE ||| MAP_FIXED) || !sys then
      (0, vas)
    else
      attached vas (attachPview vas args.physView)
  else if has args.flags MAP_FILE then
    if has args.prot PROT_WRITE && !has args.flags MAP_PRIVATE then
      (0, vas)
    else
      attached vas
        (addMap vas file args.addr args.fileLen (btop args.offset) args.fileProt)
  else
    (0, vas)

/-- `munmap`. -/
def munmap (vas : Vas) (vaddr : ULong) : Option Vas :=
  match findPview vas vaddr with
  | none => some vas
  | some pv => if pv.has PROT_MMAP then removePview vas vaddr else some vas

/-! ## `fork_vas` -/

/-- One view in the scan for the one that is closest to, but above, an address. -/
def closer (vaddr : ULong) (closest : Option Pview) (pv : Pview) : Option Pview :=
  if pv.pVaddr ≤ vaddr then closest
  else match closest with
    | none => some pv
    | some least => if pv.pVaddr < least.pVaddr then some pv else some least

/-- The scan of `fork_vas`. -/
def closest (views : List Pview) (vaddr : ULong) : Option Pview :=
  views.foldl (closer vaddr) none

/-- `dup_pview`. -/
def dupPview (opv : Pview) : Pview := opv

/-- `copy_pview`: the copy of a physical set is a set of zeroed memory that is filled. -/
def copyPview (opv : Pview) : Pview :=
  match opv.pSet.pType with
  | .PT_MEM => { dupPview opv with pSet := { opv.pSet with pType := .PT_ZERO } }
  | _ => dupPview opv

/-- One view of `fork_vas`, unless it is marked as not for a fork. No result: the view is refused,
and `attach_valid_slots` meets a view without a valid map. -/
def forkView (vas : Vas) (pv : Pview) : Option Vas :=
  if pv.has PROT_NOFORK then
    some vas
  else
    let pv2 := if pv.has PROT_RO || pv.pSet.pShared then dupPview pv else copyPview pv
    match attachPview vas { pv2 with pProt := pv2.pProt ||| PROT_FORK } with
    | none => none
    | some (placed, vas') =>
        some { vas' with
          vViews := { placed with pProt := placed.pProt &&& ~~~PROT_FORK } :: vas.vViews }

/-- What the scan has found. -/
def Closest (views : List Pview) (vaddr : ULong) : Option Pview → Prop
  | none => ∀ v ∈ views, v.pVaddr ≤ vaddr
  | some pv => pv ∈ views ∧ vaddr < pv.pVaddr ∧
      ∀ v ∈ views, vaddr < v.pVaddr → pv.pVaddr ≤ v.pVaddr

theorem closest_spec (views : List Pview) (vaddr : ULong) :
    Closest views vaddr (closest views vaddr) := by
  induction views using List.reverseRecOn with
  | nil => simp [closest, Closest]
  | append_singleton views pv ih =>
      have last : closest (views ++ [pv]) vaddr = closer vaddr (closest views vaddr) pv := by
        simp [closest]
      rw [last, closer.eq_def]
      split_ifs with low
      · cases found : closest views vaddr with
        | none =>
            rw [found] at ih
            intro v member
            rcases List.mem_append.mp member with before | here
            · exact ih v before
            · exact List.mem_singleton.mp here ▸ low
        | some least =>
            rw [found] at ih
            refine ⟨by simp [ih.1], ih.2.1, fun v member above => ?_⟩
            rcases List.mem_append.mp member with before | here
            · exact ih.2.2 v before above
            · rw [List.mem_singleton.mp here] at above
              exact absurd above (BitVec.not_lt.mpr low)
      · rw [BitVec.not_le] at low
        cases found : closest views vaddr with
        | none =>
            rw [found] at ih
            refine ⟨by simp, low, fun v member above => ?_⟩
            rcases List.mem_append.mp member with before | here
            · exact absurd above (BitVec.not_lt.mpr (ih v before))
            · exact BitVec.le_of_eq (List.mem_singleton.mp here ▸ rfl)
        | some least =>
            rw [found] at ih
            dsimp only
            split_ifs with nearer
            · refine ⟨by simp, low, fun v member above => ?_⟩
              rcases List.mem_append.mp member with before | here
              · exact BitVec.le_trans (BitVec.le_of_lt nearer) (ih.2.2 v before above)
              · exact BitVec.le_of_eq (List.mem_singleton.mp here ▸ rfl)
            · refine ⟨by simp [ih.1], ih.2.1, fun v member above => ?_⟩
              rcases List.mem_append.mp member with before | here
              · exact ih.2.2 v before above
              · rw [List.mem_singleton.mp here]
                exact BitVec.not_lt.mp nearer

/-- The loop of `fork_vas` from an address on. -/
def forkViews (views : List Pview) (vaddr : ULong) (vas : Vas) : Option Vas :=
  match _found : closest views vaddr with
  | none => some vas
  | some pv =>
      match forkView vas pv with
      | none => none
      | some vas' => forkViews views pv.pVaddr vas'
termination_by 2 ^ 32 - vaddr.toNat
decreasing_by
  have spec := closest_spec views vaddr
  rw [_found] at spec
  have above := BitVec.lt_def.mp spec.2.1
  omega

/-- `fork_vas`: `hat_fork` copies the map at the end. -/
def forkVas (ovas : Vas) : Option Vas :=
  (forkViews ovas.vViews 0 ⟨[], false, hatInitvas⟩).map fun vas => { vas with hMap := ovas.hMap }

/-! ## `exec` -/

/-- Pages of the stack of a process. -/
abbrev UMAXSTACK : ULong := 256 * 4096

/-- Where the stack of a process starts. -/
abbrev USTACKADDR : ULong := 0x80000000 - UMAXSTACK

abbrev M_RO : Uint := 1
abbrev M_ZFOD : Uint := 2

/-- Mapping ranges of an executable file. -/
abbrev NMAP : ℕ := 4

/-- A mapping of an executable file. -/
structure Mapseg where
  mVaddr : ULong
  mOff : Uint
  mLen : Uint
  mFlags : Uint
  deriving DecidableEq, Repr

/-- The mappings that are asked for. -/
structure Mapfile where
  mMap : List Mapseg
  length : mMap.length = NMAP

/-- What remains through `exec`: shared memory from `mmap`, but for physical memory. -/
def Pview.survives (pv : Pview) : Bool :=
  pv.has PROT_MMAP && (pv.pSet.pShared && pv.pSet.pType != .PT_MEM)

/-- The loop of `discard_vas` from a view on. -/
def discardFrom : List Pview → Vas → Option Vas
  | [], vas => some vas
  | pv :: pvn, vas =>
      if pv.survives then discardFrom pvn vas
      else match detachPview vas pv.pVaddr with
        | none => none
        | some (_, vas') => discardFrom pvn vas'

/-- `discard_vas`. -/
def discardVas (vas : Vas) : Option Vas := discardFrom vas.vViews vas

/-- `add_stack`: there isn't much to be done if it fails. -/
def addStack (vas : Vas) : Vas :=
  (attached vas (allocZfodVaddr vas (btorp UMAXSTACK) USTACKADDR)).2

/-- The body of the loop of `add_views`. `file` is what `get_map_pset` answers. -/
def addView (vas : Vas) (m : Mapseg) (file : Option Pset) : Vas :=
  if has m.mFlags M_ZFOD then
    (attached vas (allocZfodVaddr vas m.mLen m.mVaddr)).2
  else
    (attached vas (addMap vas file m.mVaddr m.mLen m.mOff
      (if has m.mFlags M_RO then PROT_RO else 0))).2

/-- The loop of `add_views` from mapping `x` on; `files` are the answers of `get_map_pset`. -/
def addViews (files : ℕ → Option Pset) : ℕ → List Mapseg → Vas → Vas
  | _, [], vas => vas
  | x, m :: rest, vas =>
      if m.mLen = 0 then vas
      else addViews files (x + 1) rest (addView vas m (files x))

/-- `exec`: `argMap` is what is copied in, `alone` that the process has no other thread,
`portref` that it has the port. -/
def exec (vas : Vas) (argMap : Option Mapfile) (alone portref : Bool)
    (files : ℕ → Option Pset) : Option Vas :=
  match argMap with
  | none => some vas
  | some m =>
      if !alone || !portref then some vas
      else (discardVas vas).map fun vas => addViews files 0 m.mMap (addStack vas)

/-! ## The system -/

/-- What happens to one address space. -/
inductive Call where
  | mmap (args : MmapArgs) (sys : Bool) (file : Option Pset)
  | munmap (vaddr : ULong)
  | exec (argMap : Option Mapfile) (alone portref : Bool) (files : ℕ → Option Pset)
  | attach (pv : Pview)
  | detach (vaddr : ULong)
  | attachSeg (sPview : Pview)
  | detachSeg (sPview : Pview)
  | allocZfod (pages : Uint) (prot : UChar)

/-- The address space a call leaves. -/
def Call.run (vas : Vas) : Call → Option Vas
  | .mmap args sys file => some (AddressSpace.mmap vas args sys file).2
  | .munmap vaddr => AddressSpace.munmap vas vaddr
  | .exec argMap alone portref files => AddressSpace.exec vas argMap alone portref files
  | .attach pv => some (attached vas (attachPview vas pv)).2
  | .detach vaddr => removePview vas vaddr
  | .attachSeg sPview => some (attached vas (AddressSpace.attachSeg vas sPview)).2
  | .detachSeg sPview => (AddressSpace.detachSeg vas sPview).map (·.2)
  | .allocZfod pages prot => some (attached vas (AddressSpace.allocZfod vas pages prot)).2

/-- The address spaces that exist. -/
abbrev System := ℕ → Option Vas

/-- A step of the system: an address space is made, changed by a call, duplicated into another
or torn down. -/
inductive Label where
  | create (i : ℕ) (dma : Bool)
  | call (i : ℕ) (c : Call)
  | fork (i j : ℕ)
  | exit (i : ℕ)

/-- The state a step leaves. -/
def System.next (s : System) : Label → Option System
  | .create i dma =>
      match s i with
      | none => some (Function.update s i (some ⟨[], dma, hatInitvas⟩))
      | some _ => none
  | .call i c => (s i).bind fun vas => (c.run vas).map fun vas => Function.update s i (some vas)
  | .fork i j =>
      match s i, s j with
      | some ovas, none => (forkVas ovas).map fun vas => Function.update s j (some vas)
      | _, _ => none
  | .exit i => (s i).bind fun vas => (freeVas vas).map fun _ => Function.update s i none

/-- The callers of `attach_pview`, but for `fork_vas`, leave `PROT_FORK` off. -/
def Legal : Label → Prop
  | .call _ (.attach pv) => pv.has PROT_FORK = false
  | _ => True

/-- One step. -/
def Step (s : System) (label : Label) (t : System) : Prop := Legal label ∧ s.next label = some t

/-- No address space exists. -/
def System.start : System := fun _ => none

end Vsta.AddressSpace
