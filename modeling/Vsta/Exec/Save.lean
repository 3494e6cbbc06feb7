import Vsta.Fdl.Table
import Vsta.Library.Packing

/-!
# What a process takes along through `exec`

`execv` (`lib/mach/exec.c`) puts the file descriptors (`lib/fdl.c`), the mount table
(`lib/mount.c`), the current directory (`lib/open.c`) and the signals (`lib/signal.c`) one behind
the other into memory that the new program keeps, and `__start` (`lib/start.c`) takes them out
again. Each part has a function for its size, one that saves it and one that restores it.

Memory is there for what is restored: otherwise the new program aborts. An access behind the saved
bytes is a `Reader` that fails.
-/

set_option autoImplicit false

namespace Vsta.Exec

open Packing Fdl

/-! ## File descriptors -/

/-- `struct save_fdl`. -/
structure SaveFdl where
  sFd : CInt
  sPort : CInt
  sPos : ULong
  deriving DecidableEq, Repr

/-- The mask of the hash, which has `NFD` chains. -/
abbrev fdmask : ULong := 31

/-- What is saved of a descriptor (`addfdl`). -/
def addfdl (s : State) (fd : CInt) (p : ℕ) : Option SaveFdl :=
  (s.ports p).map fun port => ⟨fd, port.pPort, port.pPos⟩

/-- The descriptors of the array that are in use. -/
def lowFds (s : State) : List (CInt × ℕ) :=
  (List.range NFD).filterMap fun x => (s.fdmap x).map fun p => (BitVec.ofNat 32 x, p)

/-- The descriptors in the order in which they are saved. -/
def allFds (s : State) : List (CInt × ℕ) := lowFds s ++ (s.fdhash.getD []).foreach fdmask

/-- `__fdl_size`. -/
def fdlSize (s : State) : ℕ := 4 + (allFds s).length * 12

/-- The bytes of a `struct save_fdl`. -/
def SaveFdl.bytes (e : SaveFdl) : List UChar := word e.sFd ++ (word e.sPort ++ word e.sPos)

/-- `__fdl_save`. -/
def fdlSave (s : State) (len : ℕ) : List UChar :=
  word (BitVec.ofNat 32 len) ++
    ((allFds s).filterMap fun node => addfdl s node.1 node.2).flatMap SaveFdl.bytes

/-- A `struct save_fdl` is read. -/
def readFdl : Reader UChar SaveFdl := do
  let sFd ← readWord
  let sPort ← readWord
  let sPos ← readWord
  return ⟨sFd, sPort, sPos⟩

/-- The inner loop of `__fdl_restore`: the duplicates of a port are mapped to it and marked. -/
def attachDups (p : ℕ) (sPort : CInt) : List SaveFdl → State → Except Stop (List SaveFdl × State)
  | [], s => .ok ([], s)
  | e :: rest, s =>
      if e.sPort = sPort then do
        let s ← s.setfd memory e.sFd p
        let s ← s.addRef p
        let (rest, s) ← attachDups p sPort rest s
        return ({ e with sFd := -1 } :: rest, s)
      else do
        let (rest, s) ← attachDups p sPort rest s
        return (e :: rest, s)

/-- A port is opened after its descriptors were mapped to it. -/
def reopen (null : CInt → Bool) (p : ℕ) (s : State) : State :=
  s.setPort p ((s.ports p).map fun port => doOpen (null port.pPort) port)

/-- The outer loop of `__fdl_restore`, which goes over the records that are left. -/
def attach (null : CInt → Bool) : ℕ → List SaveFdl → State → Except Stop State
  | 0, _, s => .ok s
  | _ + 1, [], s => .ok s
  | fuel + 1, e :: rest, s =>
      if e.sFd = -1 then attach null fuel rest s
      else do
        let p := s.made
        let s := { s.setPort p (some ⟨e.sPort, 1, e.sPos⟩) with made := p + 1 }
        let s ← s.setfd memory e.sFd p
        let (rest, s) ← attachDups p e.sPort rest s
        attach null fuel rest (reopen null p s)

/-- `__fdl_restore`. -/
def fdlRestore (null : CInt → Bool) : Reader UChar State := do
  let len ← readWord
  let saved ← many readFdl ((len.toNat - 4 + 11) / 12)
  ofOption (attach null saved.length saved start).toOption

/-! ## The mount table -/

/-- A `struct mnttab`, with the ports of its `m_entries`. -/
structure MntTab where
  mName : List UChar
  mLen : CInt
  mEntries : List CInt
  deriving DecidableEq, Repr

/-- `__mount_size`. -/
def mountSize (mnttab : List MntTab) : ℕ :=
  4 + (mnttab.map fun mt => mt.mName.length + 1 + 4 + mt.mEntries.length * 4).sum

/-- What `__mount_save` writes of a slot. -/
def MntTab.bytes (mt : MntTab) : List UChar :=
  mt.mName ++ [0] ++ (word (BitVec.ofNat 32 mt.mEntries.length) ++ mt.mEntries.flatMap word)

/-- `__mount_save`. -/
def mountSave (mnttab : List MntTab) : List UChar :=
  word (BitVec.ofNat 32 mnttab.length) ++ mnttab.flatMap MntTab.bytes

/-- A slot is read: its name and its ports. -/
def readMnttab : Reader UChar (List UChar × List CInt) := do
  let mName ← untilByte 0
  let l ← readWord
  let mEntries ← many readWord l.toNat
  return (mName, mEntries)

/-- `__mount_restore`. The length of a name is what is in the memory that the table gets. -/
def mountRestore (garbage : ℕ → CInt) : Reader UChar (List MntTab) := do
  let len ← readWord
  let slots ← many readMnttab len.toNat
  return slots.mapIdx fun x slot => ⟨slot.1, garbage x, slot.2⟩

/-! ## The current directory -/

/-- `strlen`. -/
def strlen (p : List UChar) : ℕ := (p.takeWhile (· ≠ 0)).length

/-- `__cwd_size`. -/
def cwdSize (cwd : List UChar) : ℕ := strlen cwd + 2

/-- `__cwd_save`. -/
def cwdSave (cwd : List UChar) : List UChar :=
  BitVec.ofNat 8 (strlen cwd + 1) :: (cwd.takeWhile (· ≠ 0) ++ [0])

/-- `__cwd_restore`. -/
def cwdRestore : Reader UChar (List UChar) := do
  let len ← next
  take len.toNat

/-! ## Signals -/

/-- Number of signals. -/
abbrev NSIG : ℕ := 32

/-- What is done on a signal: one of the default handlers, or a function of the program. -/
inductive Handler where
  | sigexit | sigcore | sigstop | sigignore
  | user (f : ℕ)
  deriving DecidableEq, Repr

/-- `sig_default` of the table of signals. -/
def sigDefault (sig : ℕ) : Handler :=
  [.sigcore, .sigexit, .sigexit, .sigcore, .sigcore, .sigcore, .sigcore, .sigcore, .sigcore,
    .sigexit, .sigexit, .sigcore, .sigexit, .sigexit, .sigexit, .sigexit, .sigignore, .sigignore,
    .sigcore, .sigcore, .sigcore, .sigcore, .sigcore, .sigignore, .sigcore, .sigcore, .sigexit,
    .sigexit, .sigignore, .sigignore, .sigignore, .sigcore].getD sig .sigcore

/-- `sig_current` of the table of signals, `signal_mask` and `pending_signals`. -/
structure Signals where
  sigCurrent : ℕ → Handler
  signalMask : Uint
  pendingSignals : Uint

abbrev BL_IGN : UChar := 97
abbrev NOTBL_IGN : UChar := 98
abbrev BL_DFL : UChar := 99
abbrev NOTBL_DFL : UChar := 100
abbrev BL_IGN_PENDING : UChar := 101
abbrev BL_DFL_PENDING : UChar := 102

/-- `sigismember`. -/
def sigismember (set : Uint) (signo : ℕ) : Bool := set.getLsbD signo

/-- `sigaddset`. -/
def sigaddset (set : Uint) (signo : ℕ) : Uint := set ||| ((1 : Uint) <<< signo)

/-- `encode_sig`. -/
def encodeSig (s : Signals) (sig : ℕ) : UChar :=
  let blocked := sigismember s.signalMask sig
  let pending := sigismember s.pendingSignals sig
  if s.sigCurrent sig = .sigignore then
    if blocked then if pending then BL_IGN else BL_IGN_PENDING else NOTBL_IGN
  else
    if blocked then if pending then BL_DFL else BL_DFL_PENDING else NOTBL_DFL

/-- `decode_sig`. -/
def decodeSig (sig : ℕ) (c : UChar) (s : Signals) : Signals :=
  let s := if c = BL_IGN_PENDING ∨ c = BL_DFL_PENDING then
    { s with pendingSignals := sigaddset s.pendingSignals sig } else s
  let s := if c = BL_IGN_PENDING ∨ c = BL_DFL_PENDING ∨ c = BL_IGN ∨ c = BL_DFL then
    { s with signalMask := sigaddset s.signalMask sig } else s
  let handler := if c = BL_IGN_PENDING ∨ c = BL_IGN ∨ c = NOTBL_IGN then .sigignore
    else sigDefault sig
  { s with sigCurrent := Function.update s.sigCurrent sig handler }

/-- `__signal_size`. -/
def signalSize : ℕ := NSIG

/-- `__signal_save`. -/
def signalSave (s : Signals) : List UChar := (List.range NSIG).map (encodeSig s)

/-- `siginit`. -/
def siginit : Signals := ⟨sigDefault, 0, 0⟩

/-- `__signal_restore`. -/
def signalRestore : Reader UChar Signals := fun p =>
  match p with
  | [] => none
  | first :: _ =>
      if first = 0 then some (siginit, p)
      else (do
        let codes ← take NSIG
        return codes.zipIdx.foldl (fun s code => decodeSig code.2 code.1 s) siginit :
          Reader UChar Signals) p

/-! ## All of it -/

/-- What of a process goes through `exec`. `cwd` is the memory at `__cwd`. -/
structure Process where
  fdl : State
  mnttab : List MntTab
  cwd : List UChar
  signals : Signals

/-- What the new program finds: which ports are null devices, and what is in the memory for its
mount table. -/
structure Found where
  null : CInt → Bool
  garbage : ℕ → CInt

/-- What `execv` writes behind the arguments. -/
def saveAll (p : Process) : List UChar :=
  fdlSave p.fdl (fdlSize p.fdl) ++ (mountSave p.mnttab ++ (cwdSave p.cwd ++ signalSave p.signals))

/-- What `__start` does behind the arguments. -/
def restoreAll (x : Found) : Reader UChar Process := do
  let fdl ← fdlRestore x.null
  let mnttab ← mountRestore x.garbage
  let cwd ← cwdRestore
  let signals ← signalRestore
  return ⟨fdl, mnttab, cwd, signals⟩

end Vsta.Exec
