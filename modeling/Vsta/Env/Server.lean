import Vsta.Srv.Heap
import Vsta.Vstafs.Requests

/-!
# The environment server

`srv/env` keeps a tree of names with strings. A client is at a node, and its group may have a home,
a node in no list that is found under the name `#`. A client that forks starts a group of its own,
with a copy of the home whose strings are shared.

Nodes and strings are found by their addresses. The list of a directory is the nodes with a place in
a list whose parent it is, the oldest first. A group is a number; those of its members are linked in
the code. What was allocated and freed, and how many nodes were made before a node, is history.
Permissions are what a request finds.
-/

set_option autoImplicit false

namespace Vsta.Env

open Vstafs

abbrev ACC_DIR : ULong := 0x20
abbrev NAMESZ : ℕ := 16

/-- The address of the static `rootnode`. -/
abbrev rootnode : ULong := 0x1000

/-- The name of the home: `#`. -/
abbrev homeName : List UChar := [0x23]

/-- `struct string`, with the memory at `s_val`. -/
structure Str where
  sRefs : ℕ
  sVal : List UChar
  deriving DecidableEq, Repr

/-- `struct node`; `n_list` says whether it has a place in the list of its parent. -/
structure Node where
  nName : List UChar
  nInternal : Bool
  nVal : Option ULong
  nRefs : ℕ
  nList : Bool
  nUp : Option ULong
  born : ℕ
  deriving DecidableEq, Repr

/-- `struct file`. -/
structure File where
  fNode : Option ULong
  fHome : Option ULong
  fPos : ULong
  fMode : ULong
  group : ℕ
  deriving DecidableEq, Repr

/-- The nodes, the strings, the clients, the number of groups so far, and what was allocated and
freed of the nodes and of the strings. -/
structure State where
  nodes : Hash Node
  strings : Hash Str
  filehash : Hash File
  groups : ℕ
  made : List ULong
  freed : List ULong
  vmade : List ULong
  vfreed : List ULong

/-- What a request finds: the permissions on the node it is about; memory for a client and its place
in the hash; for a node, a string and what is in the string's memory, and a place in a list; for the
copy of a home and of what is in it, and whether there is a place for a copy. -/
structure Outcome where
  perm : ULong
  client : Bool
  slot : Bool
  node : Option ULong
  str : Option ULong
  sval : Option UChar
  entry : Bool
  clone : Option ULong
  copies : List (Option ULong)
  copyEntry : ULong → Bool

/-- A request of a client. -/
inductive Action where
  | connect (h : Handle) (mArg : ULong)
  | dup (h mArg : Handle)
  | open_ (h : Handle) (name : List UChar) (mArg : ULong)
  | remove (h : Handle) (name : List UChar)
  | fork (h : Handle)
  | disconnect (h : Handle)
  deriving DecidableEq, Repr

/-- An answer. -/
inductive Reply where
  | ok
  | err (e : FsErr)
  deriving DecidableEq, Repr

/-- What ends the server: a failed assertion, the use of what is not there, or a chain of nodes that
does not end; and what cannot happen, that `malloc` returns memory in use (`taken`). -/
inductive Fault where
  | assfail | wild | endless | taken
  deriving DecidableEq, Repr

/-- The test of `access`, of permissions that were calculated. -/
def canAccess (perm mode : ULong) : Bool :=
  let desired := mode &&& (ACC_WRITE ||| ACC_READ ||| ACC_CHMOD)
  perm &&& desired == desired

/-- One less, of an unsigned count. -/
def decr (refs : ℕ) : ℕ := if refs = 0 then 2 ^ 32 - 1 else refs - 1

namespace State

/-- A node that a pointer leads to. -/
def node (s : State) (a : ULong) : Except Fault Node :=
  match s.nodes.lookup a with
  | some n => .ok n
  | none => .error .wild

/-- The node at the end of a pointer. -/
def deep (p : Option ULong) : Except Fault ULong :=
  match p with
  | some a => .ok a
  | none => .error .wild

/-- The client that sent a message. -/
def file (s : State) (h : Handle) : Except Fault File :=
  match s.filehash.lookup h with
  | some f => .ok f
  | none => .error .wild

/-- A node changes. -/
def setNode (s : State) (a : ULong) (change : Node → Node) : State :=
  { s with nodes := s.nodes.modify a change }

/-- A client changes. -/
def setFile (s : State) (h : Handle) (f : File) : State :=
  { s with filehash := s.filehash.modify h fun _ => f }

/-- The list of a directory. -/
def elems (s : State) (p : ULong) : Hash Node :=
  s.nodes.reverse.filter fun node => node.2.nList && node.2.nUp = some p

/-! ## Strings -/

/-- `ref_val`. -/
def refVal (s : State) : Option ULong → Except Fault State
  | none => .ok s
  | some v =>
      match s.strings.lookup v with
      | none => .error .wild
      | some _ => .ok { s with strings := s.strings.modify v fun t => { t with sRefs := t.sRefs + 1 } }

/-- `deref_val`. -/
def derefVal (s : State) : Option ULong → Except Fault State
  | none => .ok s
  | some v =>
      match s.strings.lookup v with
      | none => .error .wild
      | some t =>
          if decr t.sRefs = 0 then
            .ok { s with strings := s.strings.delete v, vfreed := v :: s.vfreed }
          else
            .ok { s with
              strings := s.strings.modify v fun t => { t with sRefs := decr t.sRefs } }

/-- `alloc_val` of an empty string: a byte that the code does not fill. -/
def allocVal (s : State) (x : Outcome) : Except Fault (State × Option ULong) :=
  match x.str with
  | none => .ok (s, none)
  | some v =>
      if (s.strings.lookup v).isSome then .error .taken
      else match x.sval with
        | none => .ok ({ s with vmade := v :: s.vmade, vfreed := v :: s.vfreed }, none)
        | some byte => .ok ({ s with
            strings := s.strings.insert v ⟨1, [byte]⟩
            vmade := v :: s.vmade }, some v)

/-! ## Nodes -/

/-- `ref_node`. -/
def refNode (s : State) : Option ULong → Except Fault State
  | none => .ok s
  | some a => do
      let n ← s.node a
      .ok (s.setNode a fun m => { m with nRefs := n.nRefs + 1 })

/-- `deref_node`, along a chain of parents of some length. -/
def derefAlong : ℕ → State → Option ULong → Except Fault State
  | _, s, none => .ok s
  | 0, _, some _ => .error .endless
  | fuel + 1, s, some a => do
      let n ← s.node a
      if 0 < decr n.nRefs then .ok (s.setNode a fun m => { m with nRefs := decr n.nRefs })
      else if a = rootnode || !(s.elems a).isEmpty then .error .assfail
      else
        let s := { s with nodes := s.nodes.delete a, freed := a :: s.freed }
        let s ← s.derefVal n.nVal
        derefAlong fuel s n.nUp

/-- `deref_node`: a chain has no more nodes than were made. -/
def derefNode (s : State) (p : Option ULong) : Except Fault State :=
  derefAlong (s.made.length + 1) s p

/-- `remove_node`, down a tree of some depth. -/
def removeDown : ℕ → State → ULong → Except Fault State
  | 0, _, _ => .error .endless
  | fuel + 1, s, a => do
      let n ← s.node a
      let s ← if n.nInternal then
          (s.elems a).foldlM (fun s child => removeDown fuel s child.1) s
        else .ok s
      let s ← s.derefVal n.nVal
      .ok { s with nodes := s.nodes.delete a, freed := a :: s.freed }

/-- `remove_node`. -/
def removeNode (s : State) : Option ULong → Except Fault State
  | none => .ok s
  | some a => removeDown (s.made.length + 1) s a

/-- `alloc_node`. -/
def allocNode (s : State) (x : Outcome) (f : File) (isdir : Bool) :
    Except Fault (State × Option ULong) :=
  match x.node with
  | none => .ok (s, none)
  | some a => do
      let (s, v) ← if isdir then .ok (s, none) else s.allocVal x
      let s ← s.refNode f.fNode
      .ok ({ s with
        nodes := s.nodes.insert a ⟨[], isdir, v, 0, false, f.fNode, s.made.length⟩
        made := a :: s.made }, some a)

/-- The loop of `clone_node` over a list, with memory for the copies. -/
def copyElems (s : State) (x : Outcome) (a : ULong) :
    Hash Node → List (Option ULong) → Except Fault State
  | [], _ => .ok s
  | (_, n2) :: rest, copies =>
      if n2.nInternal then s.copyElems x a rest copies
      else match copies with
        | [] => .ok s
        | none :: copies => s.copyElems x a rest copies
        | some b :: copies => do
            let s ← s.refVal n2.nVal
            -- without a place the copy is freed and then written to
            if !x.copyEntry b then .error .wild
            else
              let s ← s.refNode (some a)
              let s := { s with
                nodes := s.nodes.insert b
                  { n2 with nRefs := 1, nList := true, nUp := some a, born := s.made.length }
                made := b :: s.made }
              s.copyElems x a rest copies

/-- `clone_node`; a node is entered here when what it refers to has been counted. -/
def cloneNode (s : State) (x : Outcome) (old : ULong) : Except Fault (State × Option ULong) :=
  match x.clone with
  | none => .ok (s, none)
  | some a => do
      let nold ← s.node old
      let s ← s.refNode nold.nUp
      let s ← s.refVal nold.nVal
      let s := { s with
        nodes := s.nodes.insert a
          { nold with nRefs := 1, nList := false, born := s.made.length }
        made := a :: s.made }
      let s ← s.copyElems x a (s.elems old) x.copies
      .ok (s, some a)

/-- `lookup`, along a chain of parents of some length. -/
def lookupAlong (s : State) (name : List UChar) (searchup : Bool) :
    ℕ → Option ULong → Except Fault (Option ULong)
  | _, none => .ok none
  | 0, some _ => .error .endless
  | fuel + 1, some a => do
      let n ← s.node a
      match (s.elems a).find? fun node => node.2.nName = name with
      | some (b, _) => .ok (some b)
      | none => if searchup then s.lookupAlong name searchup fuel n.nUp else .ok none

/-- `lookup`. -/
def lookup (s : State) (p : Option ULong) (name : List UChar) (searchup : Bool) :
    Except Fault (Option ULong) :=
  s.lookupAlong name searchup (s.made.length + 1) p

/-! ## Requests -/

/-- The handles of a group. -/
def members (s : State) (group : ℕ) : List Handle :=
  (s.filehash.filter fun client => client.2.group = group).map Prod.fst

/-- A client gives up a pointer to a node and takes another one; `bare` is the client between, and
`done` after that. -/
def swap (s : State) (h : Handle) (bare : File) (old n : Option ULong) (done : File) :
    Except Fault State := do
  let s ← (s.setFile h bare).derefNode old
  let s ← s.refNode n
  .ok (s.setFile h done)

/-- The loop of `env_open` over a group that gets a home. -/
def setHome (s : State) (n : Option ULong) : List Handle → Except Fault State
  | [] => .ok s
  | h :: rest => do
      let f ← s.file h
      let s ← s.swap h { f with fHome := none } f.fHome n { f with fHome := n }
      s.setHome n rest

/-- A client moves from one node to another. -/
def move (s : State) (h : Handle) (n : Option ULong) (change : File → File) :
    Except Fault State := do
  let f ← s.file h
  s.swap h { f with fNode := none } f.fNode n (change { f with fNode := n })

/-- The part of `env_open` for a node that was found. -/
def openOld (s : State) (x : Outcome) (h : Handle) (a : ULong) (mArg : ULong) :
    Except Fault (State × Reply) := do
  let n ← s.node a
  if !canAccess x.perm mArg then .ok (s, .err .EPERM)
  else
    let s ← if has mArg ACC_CREATE && !n.nInternal then do
        let s ← (s.setNode a fun n => { n with nVal := none }).derefVal n.nVal
        let (s, v) ← s.allocVal x
        .ok (s.setNode a fun n => { n with nVal := v })
      else .ok s
    let s ← s.move h (some a) fun f => { f with fPos := 0, fMode := x.perm }
    .ok (s, .ok)

/-- The part of `env_open` that makes a node under a name. -/
def openNew (s : State) (x : Outcome) (h : Handle) (f : File) (name : List UChar) (mArg : ULong) :
    Except Fault (State × Reply) := do
  let (s, n) ← s.allocNode x f (has mArg ACC_DIR)
  let a ← deep n
  let s := s.setNode a fun n => { n with nName := name }
  let s ← s.refNode n
  if !x.entry then do
    let s ← s.derefNode n
    let s ← s.derefNode f.fNode
    .ok (s, .err .ENOMEM)
  else
    let s := s.setNode a fun n => { n with nList := true }
    let s ← s.move h n id
    .ok (s, .ok)

/-- The part of `env_open` that makes a home. -/
def openHome (s : State) (x : Outcome) (h : Handle) (f : File) (mArg : ULong) :
    Except Fault (State × Reply) := do
  let (s, n) ← s.allocNode x f (has mArg ACC_DIR)
  let s ← s.setHome n (s.members f.group)
  let s ← s.move h n id
  .ok (s, .ok)

/-- `env_open`. -/
def envOpen (s : State) (x : Outcome) (h : Handle) (name : List UChar) (mArg : ULong) :
    Except Fault (State × Reply) := do
  let f ← s.file h
  let nold ← s.node (← deep f.fNode)
  if !nold.nInternal || NAMESZ ≤ name.length then .ok (s, .err .EINVAL)
  else
    let creating := has mArg ACC_CREATE
    let n ← if name = homeName then .ok f.fHome else s.lookup f.fNode name (!creating)
    match n with
    | some a => s.openOld x h a mArg
    | none =>
        if !creating then .ok (s, .err .ESRCH)
        else if !has f.fMode ACC_WRITE then .ok (s, .err .EPERM)
        else if name = homeName then s.openHome x h f mArg
        else s.openNew x h f name mArg

/-- `env_remove`. -/
def envRemove (s : State) (h : Handle) (name : List UChar) : Except Fault (State × Reply) := do
  let f ← s.file h
  let n ← s.node (← deep f.fNode)
  if !n.nInternal then .ok (s, .err .EINVAL)
  else if !has f.fMode ACC_WRITE then .ok (s, .err .EPERM)
  else match ← s.lookup f.fNode name false with
    | none => .ok (s, .err .ESRCH)
    | some b => do
        let n2 ← s.node b
        if 1 < n2.nRefs then .ok (s, .err .EBUSY)
        else if n2.nRefs = 1 ∧ 2 < n.nRefs then do
          let s ← s.derefNode (some b)
          .ok (s, .ok)
        else .error .assfail

/-- `env_fork`. -/
def envFork (s : State) (x : Outcome) (h : Handle) : Except Fault (State × Reply) := do
  let f ← s.file h
  let own := { f with group := s.groups }
  let s := { s.setFile h own with groups := s.groups + 1 }
  let (s, home) ← match f.fHome with
    | none => .ok (s, none)
    | some old => do
        let (s, n) ← s.cloneNode x old
        let s := s.setFile h { own with fHome := n }
        let s ← s.derefNode (some old)
        .ok (s, n)
  if f.fNode = f.fHome then do
    let s ← s.move h (home.or (some rootnode)) id
    .ok (s, .ok)
  else .ok (s, .ok)

/-- `new_client`. -/
def newClient (s : State) (x : Outcome) (h : Handle) (mArg : ULong) :
    Except Fault (State × Reply) :=
  if !x.client then .ok (s, .err .strerror)
  else if !canAccess x.perm mArg then .ok (s, .err .EPERM)
  else if !x.slot then .ok (s, .err .ENOMEM)
  else do
    let s ← s.refNode (some rootnode)
    .ok ({ s with
      filehash := s.filehash.insert h ⟨some rootnode, none, 0, x.perm, s.groups⟩
      groups := s.groups + 1 }, .ok)

/-- `dup_client`. -/
def dupClient (s : State) (x : Outcome) (h mArg : Handle) : Except Fault (State × Reply) := do
  let f ← s.file h
  if !x.client then .ok (s, .err .strerror)
  else do
    let s ← s.refNode f.fNode
    let s ← s.refNode f.fHome
    if !x.slot then do
      let s ← s.derefNode f.fHome
      let s ← s.derefNode f.fNode
      .ok (s, .err .ENOMEM)
    else .ok ({ s with filehash := s.filehash.insert mArg f }, .ok)

/-- `dead_client`. -/
def deadClient (s : State) (h : Handle) : Except Fault (State × Reply) := do
  let f ← s.file h
  let s := { s with filehash := s.filehash.delete h }
  let s ← s.derefNode f.fNode
  let s ← if (s.members f.group).isEmpty then s.removeNode f.fHome else s.derefNode f.fHome
  .ok (s, .ok)

/-- The switch of `env_main`. -/
def exec (s : State) (x : Outcome) : Action → Except Fault (State × Reply)
  | .connect h mArg => s.newClient x h mArg
  | .dup h mArg => s.dupClient x h mArg
  | .open_ h name mArg => s.envOpen x h name mArg
  | .remove h name => s.envRemove h name
  | .fork h => s.envFork x h
  | .disconnect h => s.deadClient h

end State

/-- The root alone, with the reference it always has. -/
def start : State :=
  ⟨[(rootnode, ⟨[0x2F], true, none, 1, false, none, 0⟩)], [], [], 0, [rootnode], [], [], []⟩

/-- The addresses that a request gets for nodes. -/
def Outcome.news (x : Outcome) : List ULong :=
  x.node.toList ++ x.clone.toList ++ x.copies.flatMap Option.toList

/-- Memory in use was handed out for a string. -/
def taken {α : Type} : Except Fault α → Bool
  | .error .taken => true
  | _ => false

/-- What can happen: `malloc` returns memory that is not in use, each time another; a connection
that is opened is new, and another one is known. -/
def Legal (s : State) (label : Outcome × Action) : Prop :=
  (∀ a ∈ label.1.news, s.nodes.lookup a = none) ∧ label.1.news.Nodup ∧
  taken (s.exec label.1 label.2) = false ∧
  match label.2 with
  | .connect h _ => s.filehash.lookup h = none
  | .dup h mArg => s.filehash.lookup h ≠ none ∧ s.filehash.lookup mArg = none
  | .open_ h _ _ => s.filehash.lookup h ≠ none
  | .remove h _ => s.filehash.lookup h ≠ none
  | .fork h => s.filehash.lookup h ≠ none
  | .disconnect h => s.filehash.lookup h ≠ none

/-- One request. -/
def Step (s : State) (label : Outcome × Action) (t : State) : Prop :=
  Legal s label ∧ ∃ reply, s.exec label.1 label.2 = .ok (t, reply)

end Vsta.Env
