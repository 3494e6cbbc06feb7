import Vsta.Basic
import Mathlib.Data.List.Infix

/-!
# The mount table

`lib/mount.c`: a process has a table of mount points, each with the ports that are mounted there,
the newest first. `open` (`lib/open.c`) looks for the slot of a path and tries the ports of the slot
in turn.

The array of slots is a list, and so are the entries of a slot; the ports that were mounted and
those that were disconnected are kept as history. A path is absolute; one that starts with two
slashes goes to the name server instead. What a server makes of the rest of a path is up to it.
-/

set_option autoImplicit false

namespace Vsta.Mount

/-- A character string. -/
abbrev Str := List UChar

/-- `/`. -/
abbrev slash : UChar := 0x2F

/-- `struct mnttab`, with the ports of its entries. -/
structure Mnttab where
  mName : Str
  mLen : ℕ
  mEntries : List ℤ
  deriving DecidableEq, Repr

/-- `__mnttab`, null before the first mount, and its slots; the ports that were mounted, and those
that were disconnected. -/
structure State where
  null : Bool
  slots : List Mnttab
  mounted : List ℤ
  gone : List ℤ
  deriving DecidableEq, Repr

/-- What a call finds: memory for an entry, for the table and for a name, and the port that `clone`
returns. -/
structure Outcome where
  entry : Bool
  table : Bool
  name : Bool
  new : ℤ
  deriving DecidableEq, Repr

/-- A call. -/
inductive Action where
  | mountport (point : Str) (port : ℤ)
  | umount (point : Str) (port : ℤ)
  | cloneMount (point : Str)
  deriving DecidableEq, Repr

/-- The use of an entry that is not there, or of the character before a name. -/
inductive Fault where
  | null
  | bounds
  deriving DecidableEq, Repr

/-- The slot of a point. -/
def slot (point : Str) (slots : List Mnttab) : Option Mnttab :=
  slots.find? fun mt => point = mt.mName

/-- The entries of the slot of a point change. -/
def setEntries (point : Str) (entries : List ℤ) : List Mnttab → List Mnttab
  | [] => []
  | mt :: rest =>
      if point = mt.mName then { mt with mEntries := entries } :: rest
      else mt :: setEntries point entries rest

/-- The slot of a point is taken out, and those behind it move up. -/
def removeSlot (point : Str) : List Mnttab → List Mnttab
  | [] => []
  | mt :: rest => if point = mt.mName then rest else mt :: removeSlot point rest

namespace State

/-- `mountport`. -/
def mountport (s : State) (x : Outcome) (point : Str) (port : ℤ) : State × ℤ :=
  if !x.entry then (s, -1)
  else match slot point s.slots with
    | some mt =>
        ({ s with
          slots := setEntries point (port :: mt.mEntries) s.slots
          mounted := port :: s.mounted }, 0)
    | none =>
        if !x.table then (s, -1)
        else
          let s := { s with null := false }
          if !x.name then (s, -1)
          else ({ s with
            slots := s.slots ++ [⟨point, point.length, [port]⟩]
            mounted := port :: s.mounted }, 0)

/-- `umount`. -/
def umount (s : State) (point : Str) (port : ℤ) : State × ℤ :=
  match slot point s.slots with
  | none => (s, -1)
  | some mt =>
      if 0 ≤ port then
        if port ∈ mt.mEntries then
          let entries := mt.mEntries.erase port
          let s := { s with
            slots := setEntries point entries s.slots
            gone := port :: s.gone }
          -- with no entry left the loop is left, and what follows it is the return for not found
          if entries = [] then (s, -1) else (s, 0)
        else (s, -1)
      else
        ({ s with
          slots := removeSlot point s.slots
          gone := mt.mEntries ++ s.gone }, 0)

/-- `clone_mount`. -/
def cloneMount (s : State) (x : Outcome) (point : Str) : Except Fault (State × ℤ) :=
  match slot point s.slots with
  | none => .ok (s, -1)
  | some mt =>
      match mt.mEntries with
      | [] => .error .null
      | old :: rest =>
          if x.new < 0 then .ok (s, -1)
          else
            .ok ({ s with
              slots := setEntries point (x.new :: rest) s.slots
              mounted := x.new :: s.mounted
              gone := old :: s.gone }, x.new)

/-- `mount_port`. -/
def mountPort (s : State) (point : Str) : Except Fault ℤ :=
  match slot point s.slots with
  | none => .ok (-1)
  | some mt =>
      match mt.mEntries with
      | [] => .error .null
      | port :: _ => .ok port

/-- A call. -/
def exec (s : State) (x : Outcome) : Action → Except Fault (State × ℤ)
  | .mountport point port => .ok (s.mountport x point port)
  | .umount point port => .ok (s.umount point port)
  | .cloneMount point => s.cloneMount x point

end State

/-- A process that has mounted nothing. -/
def start : State := ⟨true, [], [], []⟩

/-- What can happen: `clone` fails or returns a port that is not in use. -/
def Legal (s : State) (label : Outcome × Action) : Prop :=
  0 ≤ label.1.new → ∀ mt ∈ s.slots, label.1.new ∉ mt.mEntries

/-- One call. -/
def Step (s : State) (label : Outcome × Action) (t : State) : Prop :=
  Legal s label ∧ ∃ r, s.exec label.1 label.2 = .ok (t, r)

/-! ## Opening -/

/-- The loops of `__dotdot` over the elements of a path: those that stay, and whether any was wiped
out. -/
def wipe : List Str → List Str → Bool × List Str
  | kept, [] => (false, kept.reverse)
  | kept, e :: rest =>
      if e = [] ∨ e = [0x2E] then (true, (wipe kept rest).2)
      else if e ≠ [0x2E, 0x2E] then wipe (e :: kept) rest
      -- the root has no element to take with it
      else (true, (wipe kept.tail rest).2)

/-- The path of its elements. -/
def rebuild (elems : List Str) : Str :=
  if elems = [] then [slash] else elems.flatMap (slash :: ·)

/-- `__dotdot` on an absolute path. -/
def dotdot (path : Str) : Str :=
  let (hadDot, elems) := wipe [] (path.splitOn slash).tail
  if hadDot then rebuild elems else path

/-- Two strings are walked until one ends or they differ. -/
def walk : Str → Str → Str × Str
  | q :: qs, r :: rs => if q = r then walk qs rs else (q :: qs, r :: rs)
  | qs, rs => (qs, rs)

/-- The scan of `open` for the longest match. -/
def scan (p : Str) : List Mnttab → ℕ → Option Mnttab → Except Fault (ℕ × Option Mnttab)
  | [], len, found => .ok (len, found)
  | mt :: rest, len, found =>
      match walk mt.mName p with
      | ([], []) => .ok (mt.mName.length, some mt)
      | ([], r :: _) =>
          match mt.mName.getLast? with
          | none => .error .bounds
          | some last =>
              if last = slash ∧ p[mt.mName.length - 1]? = some slash ∨ last ≠ slash ∧ r = slash then
                if len < mt.mName.length then scan p rest mt.mName.length (some mt)
                else scan p rest len found
              else scan p rest len found
      | _ => scan p rest len found

/-- What `open` finds: memory for the elements, whether a server takes the rest of the path, and a
descriptor. -/
structure Opening where
  mem : Bool
  tryOpen : ℤ → Str → Bool
  fd : Bool

/-- The end of an `open`: no memory, no mount, no entry or descriptor, or a file of a port. -/
inductive Opened where
  | nomem
  | ESRCH
  | failed
  | file (point : Str) (port : ℤ)
  deriving DecidableEq, Repr

/-- The entries of a slot in turn. -/
def tryEach (x : Opening) (mt : Mnttab) (p : Str) : Opened :=
  match mt.mEntries.find? (x.tryOpen · p) with
  | none => .failed
  | some port => if x.fd then .file mt.mName port else .failed

/-- `open`. -/
def State.open_ (s : State) (x : Opening) (file : Str) : Except Fault Opened :=
  if s.null then .ok .ESRCH
  else if !x.mem then .ok .nomem
  else
    let p := dotdot file
    match scan p s.slots 0 none with
    | .error fault => .error fault
    | .ok (_, none) => .ok .ESRCH
    | .ok (len, some mt) =>
        if mt.mEntries = [] then .ok .ESRCH else .ok (tryEach x mt (p.drop len))

end Vsta.Mount
