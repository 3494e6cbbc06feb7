import Vsta.Basic

/-!
# The resource map of `lib/rmap.c`

A map is an open array whose first element is a header: its `r_size` is the number of
slots, its `r_off` the number of them in use. Only the used slots are ever read, so the
model keeps those and `r_off` is their number. A pointer that scans the array is the list of
the slots from it on.
-/

set_option autoImplicit false

namespace Vsta.ResourceMap

/-- A used slot: `size` integers from `off` on. -/
structure Slot where
  rOff : Uint
  rSize : Uint
  deriving DecidableEq, Repr

/-- The header's `r_size`, and the used slots in order. -/
structure Rmap where
  rSize : Uint
  slots : List Slot
  deriving DecidableEq, Repr

/-- `rmap_init`: one of the `size` elements is the header. -/
def rmapInit (size : Uint) : Rmap := ⟨size - 1, []⟩

/-- The test of `makespace`: every slot is used. -/
def Rmap.full (rmap : Rmap) : Bool := rmap.rSize.toNat == rmap.slots.length

/-- `collapse`: the slots behind an emptied one move down over it. -/
def collapse : List Slot → List Slot
  | [] => []
  | _ :: rest => rest

/-- The scan of `rmap_alloc` from a slot on: the first slot that is large enough gives
its lowest integers away. -/
def allocFrom (size : Uint) : List Slot → Option (Uint × List Slot)
  | [] => none
  | r :: rest =>
      if size ≤ r.rSize then
        if size < r.rSize then
          some (r.rOff, ⟨r.rOff + size, r.rSize - size⟩ :: rest)
        else
          some (r.rOff, collapse (r :: rest))
      else
        (allocFrom size rest).map fun (idx, rest') => (idx, r :: rest')

/-- `rmap_alloc`: returns 0 on failure. -/
def rmapAlloc (rmap : Rmap) (size : Uint) : Uint × Rmap :=
  match allocFrom size rmap.slots with
  | none => (0, rmap)
  | some (idx, slots) => (idx, { rmap with slots })

/-- `makespace` and the slot that is stored in the room it makes. -/
def makespace (full : Bool) (slot : Slot) (from_ : List Slot) : Option (List Slot) :=
  if full then none else some (slot :: from_)

/-- The scan of `rmap_free` from a slot on. No result: the space is lost. -/
def freeFrom (full : Bool) (off size : Uint) : List Slot → Option (List Slot)
  | [] => makespace full ⟨off, size⟩ []
  | r :: rest =>
      if r.rOff + r.rSize = off then
        let grown : Slot := ⟨r.rOff, r.rSize + size⟩
        match rest with
        | [] => some [grown]
        | next :: above =>
            if grown.rOff + grown.rSize = next.rOff then
              some (⟨grown.rOff, grown.rSize + next.rSize⟩ :: above)
            else
              some (grown :: next :: above)
      else if off + size = r.rOff then
        some (⟨off, r.rSize + size⟩ :: rest)
      else if off < r.rOff then
        makespace full ⟨off, size⟩ (r :: rest)
      else
        (freeFrom full off size rest).map (r :: ·)

/-- `rmap_free`: the map and `lost_elems`. -/
def rmapFree (rmap : Rmap) (lostElems : ULong) (off size : Uint) : Rmap × ULong :=
  match freeFrom rmap.full off size rmap.slots with
  | none => (rmap, lostElems + size)
  | some slots => ({ rmap with slots }, lostElems)

/-- `rmap_grab` at the slot that holds the start of the range: all of it or nothing. No result:
the range is refused. The number is what is added to `lost_elems`. -/
def grabHere (full : Bool) (off size : Uint) (r : Slot) (rest : List Slot) :
    Option (List Slot × ULong) :=
  let top := r.rOff + r.rSize
  let rtop := off + size
  if top < rtop then
    none
  else if off = r.rOff then
    if r.rSize - size = 0 then
      some (collapse (r :: rest), 0)
    else
      some (⟨r.rOff + size, r.rSize - size⟩ :: rest, 0)
  else if rtop = top then
    some (⟨r.rOff, r.rSize - size⟩ :: rest, 0)
  else
    match makespace full ⟨rtop, top - rtop⟩ rest with
    -- no room for a second slot: what lies below the range is lost
    | none => some (⟨rtop, top - rtop⟩ :: rest, r.rSize - (top - rtop) - size)
    | some above => some (⟨r.rOff, off - r.rOff⟩ :: above, 0)

/-- The scan of `rmap_grab` from a slot on. -/
def grabFrom (full : Bool) (off size : Uint) : List Slot → Option (List Slot × ULong)
  | [] => none
  | r :: rest =>
      if off < r.rOff then
        none
      else if r.rOff ≤ off ∧ off < r.rOff + r.rSize then
        grabHere full off size r rest
      else
        (grabFrom full off size rest).map fun (rest', lost) => (r :: rest', lost)

/-- `rmap_grab`: 0 on success, 1 on failure, the map and `lost_elems`. -/
def rmapGrab (rmap : Rmap) (lostElems : ULong) (off size : Uint) : Nat × Rmap × ULong :=
  match grabFrom rmap.full off size rmap.slots with
  | none => (1, rmap, lostElems)
  | some (slots, lost) => (0, { rmap with slots }, lostElems + lost)

end Vsta.ResourceMap
