import Vsta.Tmpfs.Contents
import Vsta.Srv.Heap

/-!
# The names of the memory filesystem

`srv/tmpfs/open.c`: the files are in one list, and a client opens one by its name. A file that is
removed while clients have it open is marked, and freed when the last of them closes it.

A `struct openfile` is found by its address; the list is the table of them, the oldest first. What a
client does with the file it has open is the model of one file (`Tmpfs.State`). The memory that
`blk_trunc` gives back is enough for the hash it asks for next.
-/

set_option autoImplicit false

namespace Vsta.Tmpfs.Directory

open Vstafs

/-- `struct openfile`, with what is in the file. -/
structure Node where
  oName : List UChar
  file : Openfile
  oRefs : ℕ
  oDeleted : Bool

/-- `struct file`, with the address of the file that is open. -/
structure File where
  fFile : Option ULong
  fPos : ℕ
  fPerm : ULong
  deriving DecidableEq, Repr

/-- The files, the clients, and what was allocated and freed. -/
structure State where
  nodes : Hash Node
  filehash : Hash File
  made : List ULong
  freed : List ULong

/-- What a request finds: memory for a client, its place in the hash, a file and its parts; and what
a request on one file finds. -/
structure Outcome where
  client : Bool
  slot : Bool
  node : Option ULong
  parts : Bool
  file : Tmpfs.Outcome

/-- A request of a client. What it asks of the file it has open is a request of client 0 there. -/
inductive Action where
  | connect (h : Handle)
  | dup (h mArg : Handle)
  | open_ (h : Handle) (name : List UChar) (mArg : ULong)
  | remove (h : Handle) (name : List UChar)
  | access (h : Handle) (a : Tmpfs.Action)
  | disconnect (h : Handle)

/-- An answer: an error, nothing, or that of a request on a file. -/
inductive Reply where
  | ok
  | err (e : FsErr)
  | file (r : Tmpfs.Reply)
  deriving DecidableEq, Repr

/-- The use of a file or a client that is not there. -/
inductive Fault where
  | wild
  deriving DecidableEq, Repr

namespace State

/-- A file that a pointer leads to. -/
def node (s : State) (a : ULong) : Except Fault Node :=
  match s.nodes.lookup a with
  | some n => .ok n
  | none => .error .wild

/-- The client that sent a message. -/
def file (s : State) (h : Handle) : Except Fault File :=
  match s.filehash.lookup h with
  | some f => .ok f
  | none => .error .wild

/-- A file changes. -/
def setNode (s : State) (a : ULong) (change : Node → Node) : State :=
  { s with nodes := s.nodes.modify a change }

/-- A client changes. -/
def setFile (s : State) (h : Handle) (f : File) : State :=
  { s with filehash := s.filehash.modify h fun _ => f }

/-- `dir_lookup`. -/
def dirLookup (s : State) (name : List UChar) : Option (ULong × Node) :=
  s.nodes.reverse.find? fun node => node.2.oName = name

/-- `nuke`, and `freeup`. -/
def nuke (s : State) (a : ULong) : State :=
  { s with nodes := s.nodes.delete a, freed := a :: s.freed }

/-- `tmpfs_open`, with `dir_newfile`. -/
def tmpfsOpen (s : State) (x : Outcome) (h : Handle) (name : List UChar) (mArg : ULong) :
    Except Fault (State × Reply) := do
  let f ← s.file h
  if f.fFile ≠ none then .ok (s, .err .ENOTDIR)
  else if has mArg ACC_DIR then .ok (s, .err .EINVAL)
  else match s.dirLookup name with
    | none =>
        if !has mArg ACC_CREATE then .ok (s, .err .ESRCH)
        else match x.node with
          | none => .ok (s, .err .ENOMEM)
          | some a =>
              if !x.parts then
                .ok ({ s with made := a :: s.made, freed := a :: s.freed }, .err .ENOMEM)
              else
                .ok (({ s with
                  nodes := s.nodes.insert a ⟨name, .truncate, 1, false⟩
                  made := a :: s.made }).setFile h
                    { f with fFile := some a, fPerm := ACC_READ ||| ACC_WRITE ||| ACC_CHMOD }, .ok)
    | some (a, _) =>
        let want := mArg &&& (ACC_READ ||| ACC_WRITE ||| ACC_CHMOD)
        if want &&& x.file.perm ≠ want then .ok (s, .err .EPERM)
        else
          .ok ((s.setNode a fun o => { o with
            file := if has mArg ACC_CREATE then .truncate else o.file
            oRefs := o.oRefs + 1 }).setFile h
              { f with fFile := some a, fPerm := want ||| (x.file.perm &&& ACC_CHMOD) }, .ok)

/-- `tmpfs_close`. -/
def tmpfsClose (s : State) (f : File) : Except Fault State :=
  match f.fFile with
  | none => .ok s
  | some a => do
      let s := s.setNode a fun o => { o with oRefs := o.oRefs - 1 }
      let o ← s.node a
      .ok (if o.oDeleted && o.oRefs = 0 then s.nuke a else s)

/-- `tmpfs_remove`. -/
def tmpfsRemove (s : State) (x : Outcome) (h : Handle) (name : List UChar) :
    Except Fault (State × Reply) := do
  let f ← s.file h
  if f.fFile ≠ none then .ok (s, .err .ENOTDIR)
  else match s.dirLookup name with
    | none => .ok (s, .err .ESRCH)
    | some (a, o) =>
        if x.file.perm &&& (ACC_WRITE ||| ACC_CHMOD) = 0 then .ok (s, .err .EPERM)
        else if 0 < o.oRefs then .ok (s.setNode a fun o => { o with oDeleted := true }, .ok)
        else .ok (s.nuke a, .ok)

/-- A request on what a client has open. -/
def access (s : State) (x : Outcome) (h : Handle) (a : Tmpfs.Action) :
    Except Fault (State × Reply) := do
  let f ← s.file h
  match f.fFile with
  | none =>
      let one : Tmpfs.State := ⟨.truncate, fun _ => ⟨false, f.fPos, f.fPerm⟩⟩
      let (t, r) := one.exec x.file a
      .ok (s.setFile h { f with fPos := (t.client 0).fPos }, .file r)
  | some i => do
      let o ← s.node i
      let one : Tmpfs.State := ⟨o.file, fun _ => ⟨true, f.fPos, f.fPerm⟩⟩
      let (t, r) := one.exec x.file a
      .ok ((s.setNode i fun o => { o with file := t.file }).setFile h
        { f with fPos := (t.client 0).fPos }, .file r)

/-- `new_client`. -/
def newClient (s : State) (x : Outcome) (h : Handle) : State × Reply :=
  if !x.client then (s, .err .strerror)
  else if !x.slot then (s, .err .ENOMEM)
  else ({ s with filehash := s.filehash.insert h ⟨none, 0, ACC_READ ||| ACC_WRITE⟩ }, .ok)

/-- `dup_client`. -/
def dupClient (s : State) (x : Outcome) (h mArg : Handle) : Except Fault (State × Reply) := do
  let f ← s.file h
  if !x.client then .ok (s, .err .strerror)
  else if !x.slot then .ok (s, .err .ENOMEM)
  else
    let s := { s with filehash := s.filehash.insert mArg f }
    match f.fFile with
    | none => .ok (s, .ok)
    | some a => .ok (s.setNode a fun o => { o with oRefs := o.oRefs + 1 }, .ok)

/-- `dead_client`. -/
def deadClient (s : State) (h : Handle) : Except Fault (State × Reply) := do
  let f ← s.file h
  let s := { s with filehash := s.filehash.delete h }
  let s ← s.tmpfsClose f
  .ok (s, .ok)

/-- The switch of `tmpfs_main`. -/
def exec (s : State) (x : Outcome) : Action → Except Fault (State × Reply)
  | .connect h => .ok (s.newClient x h)
  | .dup h mArg => s.dupClient x h mArg
  | .open_ h name mArg => s.tmpfsOpen x h name mArg
  | .remove h name => s.tmpfsRemove x h name
  | .access h a => s.access x h a
  | .disconnect h => s.deadClient h

end State

/-- An empty filesystem. -/
def start : State := ⟨[], [], [], []⟩

/-- A read, a write or a seek. -/
def Plain : Tmpfs.Action → Prop
  | .seek c _ | .read c _ | .absread c _ _ | .write c _ | .abswrite c _ _ => c = 0
  | .open_ _ _ | .dup _ _ => False

/-- What can happen: a connection that is opened is new, another one is known, and `malloc` returns
memory that is not in use. -/
def Legal (s : State) (label : Outcome × Action) : Prop :=
  (∀ a, label.1.node = some a → s.nodes.lookup a = none) ∧
  match label.2 with
  | .connect h => s.filehash.lookup h = none
  | .dup h mArg => s.filehash.lookup h ≠ none ∧ s.filehash.lookup mArg = none
  | .open_ h _ _ => s.filehash.lookup h ≠ none
  | .remove h _ => s.filehash.lookup h ≠ none
  | .access h a => s.filehash.lookup h ≠ none ∧ Plain a
  | .disconnect h => s.filehash.lookup h ≠ none

/-- One request. -/
def Step (s : State) (label : Outcome × Action) (t : State) : Prop :=
  Legal s label ∧ ∃ reply, s.exec label.1 label.2 = .ok (t, reply)

end Vsta.Tmpfs.Directory
