import Vsta.Basic
import Vsta.Hash

/-!
# The file descriptor layer of `lib/fdl.c`

A descriptor below `NFD` is an index of an array, one from there on a key of a hash that is made
with the first of them. Both hold pointers to `struct port`s, which count the descriptors that share
them.

`__port` looks at the sign of a descriptor nowhere, so a negative one reads in front of the array
(`Stop.bounds`). A `struct port` that is used after it was freed is `Stop.freed`.
-/

set_option autoImplicit false

namespace Vsta.Fdl

/-- # FD's directly mapped to ports. -/
abbrev NFD : ℕ := 32

/-- An `int`. -/
abbrev CInt := BitVec 32

/-- Why a call does not return. -/
inductive Stop where
  | bounds | freed | abort
  deriving DecidableEq, Repr

/-- What is kept of a `struct port`: its connection, how many FD's map to it, and the byte offset in
the file. -/
structure Port where
  pPort : CInt
  pRefs : ℕ
  pPos : ULong
  deriving DecidableEq, Repr

/-- The table and the ports that were not freed; how many were ever allocated, and the calls of
`p_close`. -/
structure State where
  fdmap : ℕ → Option ℕ
  fdhash : Option (Hash ℕ)
  fdnext : CInt
  ports : ℕ → Option Port
  made : ℕ
  closed : List ℕ

/-- What a call finds: memory for a port, for the hash and for a node of it, what is in the memory
of the port's offset, whether the port is of the null type, and what `p_close` returns. -/
structure Outcome where
  port : Bool
  hash : Bool
  node : Bool
  garbage : ULong
  null : Bool
  closeErr : CInt
  deriving DecidableEq, Repr

/-- Memory for everything. -/
def memory : Outcome := ⟨true, true, true, 0, false, 0⟩

/-- What a call returns, and the error it sets. -/
inductive Error where
  | EBADF | ENOMEM
  deriving DecidableEq, Repr

structure Reply where
  value : CInt
  error : Option Error
  deriving DecidableEq, Repr

/-- A call. -/
inductive Call where
  | open_ (newfile : CInt)
  | dup (fd : CInt)
  | dup2 (oldfd newfd : CInt)
  | close (fd : CInt)
  deriving DecidableEq, Repr

/-- `__do_open`: the null device keeps the offset that is there. -/
def doOpen (null : Bool) (port : Port) : Port := if null then port else { port with pPos := 0 }

/-- For advancing fdnext. -/
def INC (v : CInt) : CInt := if (v + 1).toInt ≤ 0 then NFD else v + 1

/-- The loop of `allocfd` over the high values. -/
def scan (used : Hash ℕ) : ℕ → CInt → CInt
  | 0, v => v
  | fuel + 1, v => if (used.lookup v).isSome then scan used fuel (INC v) else v

namespace State

/-- `__port`. -/
def port (s : State) (fd : CInt) : Except Stop (Option ℕ) :=
  if fd.toInt < NFD then
    if fd.toInt < 0 then .error .bounds else .ok (s.fdmap fd.toNat)
  else .ok (s.fdhash.bind fun hash => hash.lookup fd)

/-- `setfd`. -/
def setfd (s : State) (x : Outcome) (fd : CInt) (p : ℕ) : Except Stop State :=
  if fd.toInt < 0 then .error .abort
  else if NFD ≤ fd.toInt then
    if s.fdhash.isNone && !x.hash then .error .abort
    else
      let hash := s.fdhash.getD []
      .ok { s with fdhash := some (if x.node then hash.insert fd p else hash) }
  else .ok { s with fdmap := Function.update s.fdmap fd.toNat (some p) }

/-- The high value that `allocfd` finds. One of the values it looks at is free, since there are more
of them than nodes. -/
def highfd (s : State) : CInt :=
  match s.fdhash with
  | none => s.fdnext
  | some hash => scan hash (hash.length + 1) s.fdnext

/-- `allocfd`. -/
def allocfd (s : State) : CInt × State :=
  match (List.range NFD).find? fun x => (s.fdmap x).isNone with
  | some x => (BitVec.ofNat 32 x, s)
  | none => (s.highfd, { s with fdnext := INC s.highfd })

/-- A `struct port` is changed, or freed. -/
def setPort (s : State) (p : ℕ) (port : Option Port) : State :=
  { s with ports := Function.update s.ports p port }

/-- A reference to a port is added. -/
def addRef (s : State) (p : ℕ) : Except Stop State :=
  match s.ports p with
  | none => .error .freed
  | some port => .ok (s.setPort p (some { port with pRefs := port.pRefs + 1 }))

/-- `__fd_alloc`. -/
def fdAlloc (s : State) (x : Outcome) (portnum : CInt) : Except Stop (State × CInt) :=
  if !x.port then .ok (s, 0)
  else do
    let p := s.made
    let (fd, s) := s.allocfd
    let s ← s.setfd x fd p
    return ({ s.setPort p (some (doOpen x.null ⟨portnum, 1, x.garbage⟩)) with made := p + 1 }, fd)

/-- `fdalloc` of `lib/open.c`. -/
def open_ (s : State) (x : Outcome) (newfile : CInt) : Except Stop (State × Reply) := do
  let (s, fd) ← s.fdAlloc x newfile
  return (s, if fd.toInt < 0 then ⟨-1, some .ENOMEM⟩ else ⟨fd, none⟩)

/-- `dup`. -/
def dup (s : State) (x : Outcome) (fd : CInt) : Except Stop (State × Reply) := do
  match ← s.port fd with
  | none => return (s, ⟨-1, some .EBADF⟩)
  | some p =>
      let (fdnew, s) := s.allocfd
      let s ← s.setfd x fdnew p
      let s ← s.addRef p
      return (s, ⟨fdnew, none⟩)

/-- `_fdclose`. -/
def fdclose (s : State) (fd : CInt) : State :=
  if fd.toInt < NFD then { s with fdmap := Function.update s.fdmap fd.toNat none }
  else { s with fdhash := s.fdhash.map fun hash => hash.delete fd }

/-- The part of `close` behind the lookup. -/
def release (s : State) (x : Outcome) (fd : CInt) (p : ℕ) : Except Stop (State × Reply) :=
  let s := s.fdclose fd
  match s.ports p with
  | none => .error .freed
  | some port =>
      if 0 < port.pRefs - 1 then
        .ok (s.setPort p (some { port with pRefs := port.pRefs - 1 }), ⟨0, none⟩)
      else .ok ({ s.setPort p none with closed := p :: s.closed }, ⟨x.closeErr, none⟩)

/-- `close`. -/
def close (s : State) (x : Outcome) (fd : CInt) : Except Stop (State × Reply) := do
  match ← s.port fd with
  | none => return (s, ⟨-1, some .EBADF⟩)
  | some p => s.release x fd p

/-- `dup2`: close destination if open. -/
def closeDest (s : State) (x : Outcome) (newfd : CInt) : Except Stop State := do
  match ← s.port newfd with
  | none => return s
  | some _ => return (← s.close x newfd).1

/-- `dup2`. -/
def dup2 (s : State) (x : Outcome) (oldfd newfd : CInt) : Except Stop (State × Reply) :=
  if oldfd = newfd then .ok (s, ⟨0, none⟩)
  else do
    match ← s.port oldfd with
    | none => return (s, ⟨-1, some .EBADF⟩)
    | some p =>
        let s ← s.closeDest x newfd
        let s ← s.setfd x newfd p
        let s ← s.addRef p
        return (s, ⟨0, none⟩)

/-- What a call does. -/
def exec (s : State) (x : Outcome) : Call → Except Stop (State × Reply)
  | .open_ newfile => s.open_ x newfile
  | .dup fd => s.dup x fd
  | .dup2 oldfd newfd => s.dup2 x oldfd newfd
  | .close fd => s.close x fd

end State

/-- No descriptor is open. -/
def start : State := ⟨fun _ => none, none, NFD, fun _ => none, 0, []⟩

/-- A node takes 16 bytes of an address space of 2^32. -/
def Legal (s : State) (x : Outcome) : Prop :=
  x.node = true → ∀ hash, s.fdhash = some hash → hash.length < 2 ^ 28

/-- One call. -/
def Step (s : State) (label : Outcome × Call) (t : State) : Prop :=
  Legal s label.1 ∧ ∃ r, s.exec label.1 label.2 = .ok (t, r)

end Vsta.Fdl
