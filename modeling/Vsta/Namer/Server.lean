import Vsta.Srv.Heap
import Vsta.Vstafs.Requests

/-!
# The name server

`srv/namer` keeps a tree of names. A client is positioned at a node and walks down from it; a node
counts its entry in its directory, the nodes under it and the clients at it. A node in use that is
removed is marked, and freed when the last client leaves it.

A node is found by its address. The list of a directory is the nodes that have it as their parent,
the oldest first. What was allocated and freed is kept beside the tree, as history.
-/

set_option autoImplicit false

namespace Vsta.Namer

open Vstafs

abbrev ACC_DIR : ULong := 0x20

/-- The address of the static `rootnode`. -/
abbrev rootnode : ULong := 0x1000

/-- `struct node`. -/
structure Node where
  nName : List UChar
  nInternal : Bool
  nDeleted : Bool
  nRefs : ℕ
  nParent : Option ULong
  deriving DecidableEq, Repr

/-- `struct file`. -/
structure File where
  fNode : ULong
  fMode : ULong
  deriving DecidableEq, Repr

/-- The tree, the clients, and what was allocated and freed. -/
structure State where
  nodes : Hash Node
  filehash : Hash File
  made : List ULong
  freed : List ULong

/-- What a request finds: the permissions on the node it is about, and memory for a client, its
place in the hash, a node and its place in the list. -/
structure Outcome where
  perm : ULong
  client : Bool
  slot : Bool
  node : Option ULong
  entry : Bool

/-- A request of a client. -/
inductive Action where
  | connect (h : Handle) (mArg : ULong)
  | dup (h mArg : Handle)
  | open_ (h : Handle) (name : List UChar) (mArg : ULong)
  | remove (h : Handle) (name : List UChar)
  | disconnect (h : Handle)
  deriving DecidableEq, Repr

/-- An answer. -/
inductive Reply where
  | ok
  | err (e : FsErr)
  deriving DecidableEq, Repr

/-- What ends the server: a failed assertion, or the use of a node that is not there. -/
inductive Fault where
  | assfail | wild
  deriving DecidableEq, Repr

/-- `can_access`, of permissions that were calculated. -/
def canAccess (perm mode : ULong) : Bool :=
  let desired := mode &&& (ACC_WRITE ||| ACC_READ ||| ACC_CHMOD)
  perm &&& desired == desired

namespace State

/-- A node that a pointer leads to. -/
def node (s : State) (a : ULong) : Except Fault Node :=
  match s.nodes.lookup a with
  | some n => .ok n
  | none => .error .wild

/-- The client that sent a message. -/
def file (s : State) (h : Handle) : Except Fault File :=
  match s.filehash.lookup h with
  | some f => .ok f
  | none => .error .wild

/-- `n_refs` of a node changes. -/
def setRefs (s : State) (a : ULong) (change : ℕ → ℕ) : State :=
  { s with nodes := s.nodes.modify a fun n => { n with nRefs := change n.nRefs } }

/-- A client is at a node. -/
def setFile (s : State) (h : Handle) (a mode : ULong) : State :=
  { s with filehash := s.filehash.modify h fun _ => ⟨a, mode⟩ }

/-- The list of a directory. -/
def elems (s : State) (p : ULong) : Hash Node :=
  s.nodes.reverse.filter fun node => node.2.nParent = some p

/-- `lookup`. -/
def lookup (s : State) (p : ULong) (name : List UChar) : Option (ULong × Node) :=
  (s.elems p).find? fun node => node.2.nName = name

/-- `namer_open`. -/
def namerOpen (s : State) (x : Outcome) (h : Handle) (name : List UChar) (mArg : ULong) :
    Except Fault (State × Reply) := do
  let f ← s.file h
  let nparent ← s.node f.fNode
  if !nparent.nInternal then .ok (s, .err .EINVAL)
  else match s.lookup f.fNode name with
    | some (a, _) =>
        if !canAccess x.perm mArg then .ok (s, .err .EPERM)
        else .ok (((s.setRefs f.fNode (· - 1)).setFile h a x.perm).setRefs a (· + 1), .ok)
    | none =>
        if !has mArg ACC_CREATE then .ok (s, .err .ESRCH)
        else if !has f.fMode ACC_WRITE then .ok (s, .err .EPERM)
        else match x.node with
          | none => .ok (s, .err .ENOMEM)
          | some a =>
              if !x.entry then
                .ok ({ s with made := a :: s.made, freed := a :: s.freed }, .err .ENOMEM)
              else
                -- the reference of the client on the parent is now the one of the child
                let n := ⟨name, has mArg ACC_DIR, false, 2, some f.fNode⟩
                .ok (({ s with nodes := s.nodes.insert a n, made := a :: s.made }).setFile h a
                  f.fMode, .ok)

/-- `delete_node`. -/
def deleteNode (s : State) (a : ULong) : Except Fault State := do
  let n ← s.node a
  match n.nParent with
  | none => .error .wild
  | some p =>
      let parent ← s.node p
      if parent.nRefs = 0 then .error .assfail
      else
        let s := s.setRefs p (· - 1)
        .ok { s with nodes := s.nodes.delete a, freed := a :: s.freed }

/-- `namer_remove`. -/
def namerRemove (s : State) (h : Handle) (name : List UChar) :
    Except Fault (State × Reply) := do
  let f ← s.file h
  let n ← s.node f.fNode
  if !n.nInternal then .ok (s, .err .EINVAL)
  else if !has f.fMode ACC_WRITE then .ok (s, .err .EPERM)
  else match s.lookup f.fNode name with
    | none => .ok (s, .err .ESRCH)
    | some (a, n2) =>
        if 1 < n2.nRefs then
          .ok ({ s with nodes := s.nodes.modify a fun n => { n with nDeleted := true } }, .ok)
        else if n2.nRefs = 1 ∧ 2 < n.nRefs then do
          let s ← s.deleteNode a
          .ok (s, .ok)
        else .error .assfail

/-- `new_client`. -/
def newClient (s : State) (x : Outcome) (h : Handle) (mArg : ULong) : State × Reply :=
  if !x.client then (s, .err .strerror)
  else if !canAccess x.perm mArg then (s, .err .EPERM)
  else if !x.slot then (s, .err .ENOMEM)
  else (({ s with filehash := s.filehash.insert h ⟨rootnode, x.perm⟩ }).setRefs rootnode (· + 1),
    .ok)

/-- `dup_client`. -/
def dupClient (s : State) (x : Outcome) (h mArg : Handle) : Except Fault (State × Reply) := do
  let f ← s.file h
  if !x.client then .ok (s, .err .strerror)
  else if !x.slot then .ok (s, .err .ENOMEM)
  else .ok (({ s with filehash := s.filehash.insert mArg f }).setRefs f.fNode (· + 1), .ok)

/-- `dead_client`. -/
def deadClient (s : State) (h : Handle) : Except Fault (State × Reply) := do
  let f ← s.file h
  let s := { s with filehash := s.filehash.delete h }
  let s := s.setRefs f.fNode (· - 1)
  let n ← s.node f.fNode
  if n.nRefs < 2 ∧ n.nDeleted then do
    let s ← s.deleteNode f.fNode
    .ok (s, .ok)
  else .ok (s, .ok)

/-- The switch of `namer_main`. -/
def exec (s : State) (x : Outcome) : Action → Except Fault (State × Reply)
  | .connect h mArg => .ok (s.newClient x h mArg)
  | .dup h mArg => s.dupClient x h mArg
  | .open_ h name mArg => s.namerOpen x h name mArg
  | .remove h name => s.namerRemove h name
  | .disconnect h => s.deadClient h

end State

/-- The tree at the start. -/
def start : State := ⟨[(rootnode, ⟨[0x2F], true, false, 1, none⟩)], [], [rootnode], []⟩

/-- What can happen: a connection that is opened is new, another one is known, and `malloc` returns
memory that is not in use. -/
def Legal (s : State) (label : Outcome × Action) : Prop :=
  (∀ a, label.1.node = some a → s.nodes.lookup a = none) ∧
  match label.2 with
  | .connect h _ => s.filehash.lookup h = none
  | .dup h mArg => s.filehash.lookup h ≠ none ∧ s.filehash.lookup mArg = none
  | .open_ h _ _ => s.filehash.lookup h ≠ none
  | .remove h _ => s.filehash.lookup h ≠ none
  | .disconnect h => s.filehash.lookup h ≠ none

/-- One request. -/
def Step (s : State) (label : Outcome × Action) (t : State) : Prop :=
  Legal s label ∧ ∃ reply, s.exec label.1 label.2 = .ok (t, reply)

end Vsta.Namer
