import Vsta.Basic
import Mathlib.Data.Finset.Basic
import Mathlib.Data.Fintype.Basic
import Mathlib.Data.List.FinRange

/-!
# The signal calls of the library

`lib/signal.c` maps events to signals. What it keeps is the mask, the pending set and the action of
each signal. A handler is code of the process: while it runs it may make any call, and events may
arrive, so that what the library was about when it called the handler is kept in frames.

An input is a call that the code makes which runs now, an event, the return of the handler that runs
now, or the end of one sleep of `sigsuspend`. With each step come the observations that say what the
code sees of it. A process runs in one thread. The threads that send `SIGCHLD` and `SIGALRM` are
left out, as their signals come as events.
-/

set_option autoImplicit false

namespace Vsta.Signal

abbrev NSIG : ℕ := 32

abbrev Signo := Fin NSIG

/-- `sigset_t`: the bits of a word. -/
abbrev Sigset := Finset Signo

inductive SigFlag where
  | NO_BLOCK | NO_IGNORE | NO_CHANGE | NOT_SUP
  deriving DecidableEq

inductive SigError where
  | EINVAL | EFAULT | ENOSYS
  deriving DecidableEq

/-- The functions that are called for signals. -/
inductive Voidfun where
  | null | sigexit | sigcore | sigignore
  | func (f : ℕ)
  deriving DecidableEq

/-- `sigexit` and `sigcore` raise `SIGKILL`, and a call through a null pointer faults. -/
def Voidfun.deadly : Voidfun → Bool
  | .null | .sigexit | .sigcore => true
  | .sigignore | .func _ => false

abbrev EventName := List Char

def EKILL : EventName := ['k', 'i', 'l', 'l']

/-- The constant part of a `struct signal`. -/
structure Known where
  sigEvent : EventName
  sigDefault : Voidfun
  sigFlags : List SigFlag := []

def Known.unsupp : Known :=
  ⟨['u', 'n', 's', 'u', 'p', 'p'], .sigcore, [.NO_BLOCK, .NO_CHANGE, .NOT_SUP]⟩

/-- `signals`. -/
def signals : Vector Known NSIG := #v[
  .unsupp,
  { sigEvent := ['h', 'u', 'p'], sigDefault := .sigexit },
  { sigEvent := ['i', 'n', 't', 'r'], sigDefault := .sigexit },
  { sigEvent := ['q', 'u', 'i', 't'], sigDefault := .sigcore },
  { sigEvent := ['i', 'n', 's', 't', 'r'], sigDefault := .sigcore },
  { sigEvent := ['t', 'r', 'a', 'p'], sigDefault := .sigcore },
  { sigEvent := ['a', 'b', 'o', 'r', 't'], sigDefault := .sigcore },
  .unsupp,
  { sigEvent := ['m', 'a', 't', 'h'], sigDefault := .sigcore },
  { sigEvent := EKILL, sigDefault := .sigexit, sigFlags := [.NO_BLOCK, .NO_CHANGE, .NO_IGNORE] },
  { sigEvent := ['u', 's', 'r', '1'], sigDefault := .sigexit },
  { sigEvent := ['f', 'a', 'u', 'l', 't'], sigDefault := .sigcore },
  { sigEvent := ['u', 's', 'r', '2'], sigDefault := .sigexit },
  { sigEvent := ['p', 'i', 'p', 'e'], sigDefault := .sigexit },
  { sigEvent := ['a', 'l', 'a', 'r', 'm'], sigDefault := .sigexit },
  { sigEvent := ['t', 'e', 'r', 'm'], sigDefault := .sigexit },
  { sigEvent := ['s', 't', 'k', 'f', 'l', 't'], sigDefault := .sigignore },
  { sigEvent := ['c', 'h', 'i', 'l', 'd'], sigDefault := .sigignore },
  .unsupp, .unsupp, .unsupp, .unsupp, .unsupp,
  { sigEvent := ['I', 'O'], sigDefault := .sigignore },
  { sigEvent := ['x', 'c', 'p', 'u'], sigDefault := .sigcore },
  { sigEvent := ['x', 'f', 's', 'z'], sigDefault := .sigcore },
  { sigEvent := ['v', 't', 'a', 'l', 'r', 'm'], sigDefault := .sigexit },
  { sigEvent := ['p', 'r', 'o', 'f'], sigDefault := .sigexit },
  { sigEvent := ['w', 'i', 'n', 'c', 'h'], sigDefault := .sigignore },
  { sigEvent := ['l', 'o', 's', 't'], sigDefault := .sigignore },
  { sigEvent := ['p', 'w', 'r'], sigDefault := .sigignore },
  { sigEvent := ['b', 'u', 's'], sigDefault := .sigcore }]

abbrev SIGKILL : Signo := 9

def Signo.flags (n : Signo) : List SigFlag := (signals.get n).sigFlags

/-- The first signal of an event. -/
def signalOf (event : EventName) : Option Signo :=
  (List.finRange NSIG).find? fun n => (signals.get n).sigEvent = event

/-- The signals marked `NO_BLOCK`. -/
def unblockable : Sigset := Finset.univ.filter fun n => .NO_BLOCK ∈ n.flags

/-- A number of a caller that is a signal. -/
def signo? (sig : ℤ) : Option Signo :=
  if h : 0 ≤ sig ∧ sig < NSIG then some ⟨sig.toNat, by omega⟩ else none

/-! ## The state -/

/-- The variable part of a `struct signal`. -/
structure Action where
  sigCurrent : Voidfun
  sigCurrentMask : Sigset

inductive SaHandler where
  | SIG_DFL | SIG_IGN
  | func (f : ℕ)

/-- `struct sigaction`. -/
structure Sigaction where
  saHandler : SaHandler
  saMask : Sigset

/-- What called a handler: `raise`, the kernel's event, or a loop over the pending signals that has
the given ones left to look at. -/
inductive Caller where
  | raise | event
  | loop (rest : List Signo)

def Caller.rest : Caller → List Signo
  | .raise | .event => []
  | .loop rest => rest

/-- Where a `sigsuspend` is: in its own loop over the signals of a set, in the call that sets the
mask, asleep, or in the call that sets the mask again. -/
inductive Phase where
  | passing (set : Sigset)
  | setting | waiting | restoring

/-- A handler that runs, with `save_set`, or a `sigsuspend` with the mask it was called with. -/
inductive Frame where
  | handler (n : Signo) (body : Voidfun) (save : Sigset) (caller : Caller)
  | suspended (old : Sigset) (phase : Phase)

structure State where
  initDone : Bool
  signalMask : Sigset
  pendingSignals : Sigset
  sigWakeup : Bool
  actions : Signo → Action
  frames : List Frame
  ended : Bool

/-- The variables as the process gets them. -/
def State.zero : State := ⟨false, ∅, ∅, false, fun _ => ⟨.null, ∅⟩, [], false⟩

/-- What is seen of a step: a signal raised under a mask, the start of a handler under a mask with
its `sa_mask`, late when it was pending, its end with the mask that is left, the start and the end
of a `sigsuspend` with the mask, what is written for the caller, and a return. -/
inductive Obs where
  | raised (n : Signo) (mask : Sigset)
  | begins (n : Signo) (mask saMask : Sigset) (late : Bool)
  | ends (n : Signo) (mask : Sigset)
  | suspends (mask : Sigset)
  | resumes (mask : Sigset)
  | oset (mask : Sigset)
  | oact (act : Sigaction)
  | returned (r : Except SigError ℤ)

abbrev Result := State × List Obs

/-! ## The functions -/

variable (s : State)

/-- `siginit`. -/
def siginit : State :=
  if s.initDone then s
  else { s with
    initDone := true, signalMask := ∅, pendingSignals := ∅,
    actions := fun n => ⟨(signals.get n).sigDefault, ∅⟩ }

/-- The call of the function of a signal, with the mask that holds meanwhile. -/
def call (n : Signo) (caller : Caller) (late : Bool) : Result :=
  let action := s.actions n
  ({ s with
      signalMask := insert n (s.signalMask ∪ action.sigCurrentMask),
      frames := .handler n action.sigCurrent s.signalMask caller :: s.frames,
      ended := action.sigCurrent.deadly },
    [.begins n s.signalMask action.sigCurrentMask late])

/-- What the caller of `signal_event_handler` sees when it returns. -/
def Caller.back : Caller → List Obs
  | .raise => [.returned (.ok 1)]
  | .event | .loop _ => []

/-- `signal_event_handler`. -/
def signalEventHandler (event : EventName) (caller : Caller) : Result :=
  match signalOf event with
  | none => (s, caller.back)
  | some n =>
    if .NOT_SUP ∈ n.flags then (s, caller.back)
    else if n ∈ s.signalMask then
      ({ s with pendingSignals := insert n s.pendingSignals },
        .raised n s.signalMask :: caller.back)
    else
      let (s', obs) := call s n caller false
      (s', .raised n s.signalMask :: obs)

/-- The test of the loops: the one of `sigsuspend` takes the signals of its set, the one of
`sigprocmask` those that the mask does not have. -/
def selects (n : Signo) : Bool :=
  decide (n ∈ s.pendingSignals) &&
    match s.frames with
    | .suspended _ (.passing set) :: _ => decide (n ∈ set)
    | _ => decide (n ∉ s.signalMask)

/-- What comes after a loop over the pending signals. -/
def done : Result :=
  match s.frames with
  | .suspended _ (.passing _) :: fs =>
    ({ s with frames := fs }, [.resumes s.signalMask, .returned (.ok 1)])
  | .suspended old .setting :: fs =>
    ({ s with frames := .suspended old .waiting :: fs, sigWakeup := false }, [])
  | .suspended _ .restoring :: fs =>
    ({ s with frames := fs }, [.resumes s.signalMask, .returned (.ok 0)])
  | _ => (s, [.returned (.ok 1)])

/-- The loop over the pending signals. -/
def deliver : List Signo → Result
  | [] => done s
  | n :: rest =>
    if selects s n then
      call { s with pendingSignals := s.pendingSignals.erase n } n (.loop rest) true
    else deliver rest

abbrev SIG_BLOCK : ℤ := 1
abbrev SIG_UNBLOCK : ℤ := 2
abbrev SIG_SETMASK : ℤ := 3

/-- The mask after the switch of `sigprocmask`. -/
def newMask (mask : Sigset) (how : ℤ) : Option Sigset → Option Sigset
  | none => some mask
  | some nset =>
    let set := nset \ unblockable
    if how = SIG_BLOCK then some (mask ∪ set)
    else if how = SIG_UNBLOCK then some (mask \ set)
    else if how = SIG_SETMASK then some set
    else none

/-- `sigprocmask`. -/
def sigprocmask (how : ℤ) (nset : Option Sigset) : Result :=
  let s := siginit s
  match newMask s.signalMask how nset with
  | some mask => deliver { s with signalMask := mask } (List.finRange NSIG)
  | none => (s, [.returned (.error .EINVAL)])

/-- `map_handler`. -/
def mapHandler (n : Signo) (h : Voidfun) : SaHandler :=
  if h = (signals.get n).sigDefault then .SIG_DFL
  else match h with
    | .sigignore => .SIG_IGN
    | .func f => .func f
    | _ => .SIG_DFL

/-- `sigaction`. -/
def sigaction (sig : ℤ) (act : Option Sigaction) : Result :=
  match signo? sig with
  | none => (s, [.returned (.error .EINVAL)])
  | some n =>
    if .NOT_SUP ∈ n.flags then (s, [.returned (.error .ENOSYS)])
    else
      let s := siginit s
      let oact : Obs :=
        .oact ⟨mapHandler n (s.actions n).sigCurrent, (s.actions n).sigCurrentMask⟩
      match act with
      | none => (s, [oact, .returned (.ok 0)])
      | some act =>
        if .NO_CHANGE ∈ n.flags then (s, [oact, .returned (.error .EINVAL)])
        else
          let set (h : Voidfun) : Result :=
            ({ s with actions := Function.update s.actions n ⟨h, act.saMask⟩ },
              [oact, .returned (.ok 0)])
          match act.saHandler with
          | .SIG_IGN =>
            if .NO_IGNORE ∈ n.flags then (s, [oact, .returned (.error .EINVAL)])
            else set .sigignore
          | .SIG_DFL => set (signals.get n).sigDefault
          | .func f => set (.func f)

/-- `sigpending`: whether the set has no pending signal. -/
def sigpending (set : Sigset) : Bool := s.pendingSignals ∩ set = ∅

/-- `sigsuspend`. -/
def sigsuspend (set : Sigset) : Result :=
  let oldSet := s.signalMask \ set
  let (s', obs) :=
    if sigpending s oldSet then
      deliver { s with frames := .suspended s.signalMask (.passing oldSet) :: s.frames }
        (List.finRange NSIG)
    else
      sigprocmask { s with frames := .suspended s.signalMask .setting :: s.frames }
        SIG_SETMASK (some set)
  (s', .suspends s.signalMask :: obs)

/-- `raise`. -/
def raise (signo : ℤ) : Result :=
  match signo? signo with
  | none => (s, [.returned (.error .EINVAL)])
  | some n =>
    if .NOT_SUP ∈ n.flags then (s, [.returned (.error .EINVAL)])
    else if n = SIGKILL then ({ s with ended := true }, [])
    else signalEventHandler s (signals.get n).sigEvent .raise

/-- The calls. -/
inductive Call where
  | raise (signo : ℤ)
  | sigaction (sig : ℤ) (act : Option Sigaction)
  | sigprocmask (how : ℤ) (nset : Option Sigset)
  | sigpending (set : Option Sigset)
  | sigsuspend (set : Option Sigset)
  | pause

def called : Call → Result
  | .raise signo => raise s signo
  | .sigaction sig act => sigaction s sig act
  | .sigprocmask how nset =>
    let (s', obs) := sigprocmask s how nset
    (s', .oset (siginit s).signalMask :: obs)
  | .sigpending none | .sigsuspend none => (s, [.returned (.error .EFAULT)])
  | .sigpending (some set) => (s, [.returned (.ok (sigpending s set).toNat)])
  | .sigsuspend (some set) => sigsuspend s set
  | .pause => sigsuspend s s.signalMask

/-- An event from the kernel. `kill`, an event that no handler was set for, and any event before
`siginit`, end the process. -/
def event (name : EventName) : Result :=
  if name = EKILL ∨ s.initDone = false ∨ signalOf name = none then ({ s with ended := true }, [])
  else signalEventHandler s name .event

/-- The handler of a frame returns. -/
def ret (n : Signo) (save : Sigset) (caller : Caller) (fs : List Frame) : Result :=
  let s := { s with signalMask := save, frames := fs }
  let (s', obs) : Result := match caller with
    | .raise | .event => ({ s with sigWakeup := true }, caller.back)
    | .loop rest => deliver s rest
  (s', .ends n save :: obs)

/-- One sleep of a `sigsuspend` is over. -/
def wake (old : Sigset) (fs : List Frame) : Result :=
  if s.sigWakeup then
    sigprocmask { s with frames := .suspended old .restoring :: fs } SIG_SETMASK (some old)
  else (s, [])

/-! ## Steps -/

inductive Input where
  | call (c : Call)
  | event (name : EventName)
  | ret
  | wake

/-- The program runs, or a handler that it set. -/
def State.userRuns : Bool :=
  match s.frames with
  | [] | .handler _ (.func _) _ _ :: _ => true
  | _ => false

def State.asleep : Bool :=
  match s.frames with
  | .suspended _ .waiting :: _ => true
  | _ => false

/-- A step, if the input can come now. -/
def step (i : Input) : Option Result :=
  if s.ended then none
  else match i with
    | .call c => if s.userRuns then some (called s c) else none
    | .event name => if s.userRuns || s.asleep then some (event s name) else none
    | .ret =>
      match s.frames with
      | .handler n _ save caller :: fs => some (ret s n save caller fs)
      | _ => none
    | .wake =>
      match s.frames with
      | .suspended old .waiting :: fs => some (wake s old fs)
      | _ => none

/-! ## The start of a process -/

/-- `decode_sig`, with the letters of `encode_sig`. -/
def decodeSig (n : Signo) (c : Char) : State :=
  let ignored (s : State) : State :=
    { s with actions := Function.update s.actions n { s.actions n with sigCurrent := .sigignore } }
  let default (s : State) : State :=
    { s with
      actions := Function.update s.actions n
        { s.actions n with sigCurrent := (signals.get n).sigDefault } }
  let blocked (s : State) : State := { s with signalMask := insert n s.signalMask }
  let pending (s : State) : State := { s with pendingSignals := insert n s.pendingSignals }
  match c with
  | 'e' => ignored (blocked (pending s))
  | 'a' => ignored (blocked s)
  | 'b' => ignored s
  | 'f' => default (blocked (pending s))
  | 'c' => default (blocked s)
  | _ => default s

/-- `__signal_restore`. -/
def signalRestore : Option (Signo → Char) → State
  | none => siginit s
  | some p =>
    if p 0 = '\x00' then siginit s
    else (List.finRange NSIG).foldl (fun s n => decodeSig s n (p n)) (siginit s)

/-- A boot server, or a process without arguments, gets its variables as they are. Others restore
what was saved. -/
inductive Start where
  | bare
  | restored (p : Option (Signo → Char))

def State.start : Start → State
  | .bare => .zero
  | .restored p => signalRestore .zero p

end Vsta.Signal
