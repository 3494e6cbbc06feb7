import Vsta.Library.Allocations
import Vsta.ResourceMap.Refinement
import Vsta.Vstafs.Requests

/-!
# Swap space

The swap server (`srv/swap`) keeps the free blocks of its devices in a resource map, and the kernel
asks it for blocks (`os/kern/vm_swap.c`). Both give out blocks from 1 on before there is anything to
take them from: the server before its first device, and the kernel before it has a server.

A failed `ASSERT` stops the server or the kernel, and the step has no result. A thread of the kernel
that is given nothing sleeps, and when it wakes up it asks again.
-/

set_option autoImplicit false

namespace Vsta.Swap

open Extents ResourceMap
open Vstafs (has ACC_WRITE)

/-- `NMAPELEM`. -/
abbrev NMAPELEM : Uint := 200

/-- Bytes of a `struct swapadd`. -/
abbrev SWAPADD : ℕ := 40

/-- `struct swapmap`, without the port. -/
structure Swapmap where
  sBlock : ULong
  sLen : ULong
  sOff : ULong
  deriving DecidableEq, Repr

/-- A request of a client, with the block numbers in `m_arg` and `m_arg1`, or `s_len` and `s_off` of
a `struct swapadd` and the bytes of the message. -/
inductive Request where
  | swapAdd (len : ℕ) (sLen sOff : ULong)
  | swapAlloc (blocks : ULong)
  | swapFree (block blocks : ULong)
  deriving DecidableEq, Repr

/-- What the server finds: whether the path opens, the pages of the device, and memory for a longer
table. -/
structure Outcome where
  path : Bool
  size : ULong
  mem : Bool
  deriving DecidableEq, Repr

/-- An answer: `m_arg`, or an error. -/
inductive Reply where
  | ok (mArg : ULong)
  | EPERM
  | EINVAL
  deriving DecidableEq, Repr

/-! ## The server -/

/-- The server: the devices, `smap` with `lost_elems`, and the counters. -/
structure Server where
  swapmap : List Swapmap
  store : Store
  totalSwap : ULong
  freeSwap : ULong
  swapPending : ULong
  deriving DecidableEq, Repr

namespace Server

/-- `swapinit`. -/
def init : Server := ⟨[], Store.start NMAPELEM, 0, 0, 0⟩

/-- The first block of the next device. -/
def low (s : Server) : ULong :=
  match s.swapmap.getLast? with
  | none => 1
  | some c => c.sBlock + c.sLen + 1

/-- `swapadd`. -/
def swapadd (s : Server) (x : Outcome) (len off : ULong) : Option Server :=
  if s.swapmap = [] ∧ ¬s.swapPending < len then none
  else if !x.mem then none
  else
    some { s with
      swapmap := s.swapmap ++ [⟨s.low, len, off⟩]
      store := if s.swapPending ≠ 0 then
          s.store.exec (.free (s.low + s.swapPending) (len - s.swapPending))
        else s.store.exec (.free s.low len)
      swapPending := 0
      freeSwap := s.freeSwap + len
      totalSwap := s.totalSwap + len }

/-- `swap_add`. A length that is given is not used. -/
def swapAdd (s : Server) (x : Outcome) (perms : ULong) (nseg len : ℕ) (sLen sOff : ULong) :
    Option (Server × List Reply) :=
  if !has perms ACC_WRITE then some (s, [.EPERM])
  else if nseg ≠ 1 ∨ len < SWAPADD then some (s, [.EINVAL])
  else if !x.path then some (s, [.EINVAL])
  else
    let slen := if sLen = 0 then x.size - sOff else 0
    (s.swapadd x slen sOff).map fun added => (added, [.ok 0])

/-- `swap_alloc`. -/
def swapAlloc (s : Server) (perms blocks : ULong) : Server × List Reply :=
  if !has perms ACC_WRITE then (s, [.EPERM])
  else if s.swapmap = [] then
    ({ s with swapPending := s.swapPending + blocks }, [.ok (s.swapPending + 1)])
  else
    let blkno := (rmapAlloc s.store.rmap blocks).1
    let s := { s with store := s.store.exec (.alloc blocks) }
    if blkno = 0 then (s, [.ok 0])
    else ({ s with freeSwap := s.freeSwap - blocks }, [.ok blkno])

/-- `swap_free`. It goes on after the error. -/
def swapFree (s : Server) (perms block blocks : ULong) : Server × List Reply :=
  let error := if !has perms ACC_WRITE then [Reply.EPERM] else []
  ({ s with
      freeSwap := s.freeSwap + blocks
      store := s.store.exec (.free block blocks) }, error ++ [.ok 0])

/-- One round of `swap_main`. -/
def handle (s : Server) (x : Outcome) (perms : ULong) (nseg : ℕ) :
    Request → Option (Server × List Reply)
  | request =>
      if 1 < nseg then some (s, [.EINVAL])
      else match request with
        | .swapAdd len sLen sOff => s.swapAdd x perms nseg len sLen sOff
        | .swapAlloc blocks => some (s.swapAlloc perms blocks)
        | .swapFree block blocks => some (s.swapFree perms block blocks)

end Server

/-! ## The kernel -/

/-- The server, what the kernel keeps (the permissions of its connection are `swapdev`), and the
blocks that are allocated. The last is history. -/
structure State where
  server : Server
  swapdev : Option ULong
  swapPending : ULong
  swapLeaked : ULong
  held : List (Extent ℕ)
  deriving DecidableEq

/-- The blocks of a request. -/
def blocksOf (block blocks : ULong) : Extent ℕ := ⟨block.toNat, block.toNat + blocks.toNat⟩

/-- Blocks are allocated. -/
def give (held : List (Extent ℕ)) (block blocks : ULong) : List (Extent ℕ) :=
  if blocks = 0 then held else blocksOf block blocks :: held

/-- What the kernel and the clients of the server do. -/
inductive Action where
  | client (perms : ULong) (nseg : ℕ) (request : Request)
  | setSwapdev (perms : ULong)
  | allocSwap (pages : ULong)
  | freeSwap (block pages : ULong)
  deriving DecidableEq, Repr

namespace State

/-- Nothing is configured. -/
def start : State := ⟨Server.init, none, 0, 0, []⟩

/-- What an answered request makes of the allocated blocks. -/
def record (held : List (Extent ℕ)) (request : Request) (replies : List Reply) :
    List (Extent ℕ) :=
  match request, replies.getLast? with
  | .swapAlloc blocks, some (.ok mArg) => if mArg = 0 then held else give held mArg blocks
  | .swapFree block blocks, some (.ok _) => punch (blocksOf block blocks) held
  | _, _ => held

/-- A request of a client. -/
def client (s : State) (x : Outcome) (perms : ULong) (nseg : ℕ) (request : Request) :
    Option (State × List Reply) :=
  (s.server.handle x perms nseg request).map fun (server, replies) =>
    ({ s with server, held := record s.held request replies }, replies)

/-- `set_swapdev`. -/
def setSwapdev (s : State) (perms : ULong) : State :=
  if s.swapdev.isSome then s else { s with swapdev := some perms }

/-- A round of the loop of `alloc_swap`. -/
def request (s : State) (perms pages : ULong) : Option State :=
  match s.server.swapAlloc perms pages with
  | (server, [.ok mArg]) =>
      if 0 < mArg.toInt then some { s with server, held := give s.held mArg pages }
      else some { s with server }
  | _ => none

/-- The pending blocks are asked for when there is a server. The flag says that the thread goes
on. -/
def settle (s : State) (perms : ULong) : Option (State × Bool) :=
  if s.swapPending = 0 then some (s, true)
  else match s.server.swapAlloc perms s.swapPending with
    | (server, [.ok mArg]) =>
        if 0 < mArg.toInt then
          if mArg = 1 then some ({ s with server, swapPending := 0 }, true) else none
        else some ({ s with server, swapPending := 0 }, false)
    | _ => none

/-- `alloc_swap`. -/
def allocSwap (s : State) (pages : ULong) : Option State :=
  match s.swapdev with
  | none => some { s with
      swapPending := s.swapPending + pages
      held := give s.held (s.swapPending + 1) pages }
  | some perms => (s.settle perms).bind fun (settled, goes) =>
      if goes then settled.request perms pages else some settled

/-- `free_swap`. -/
def freeSwap (s : State) (block pages : ULong) : Option State :=
  match s.swapdev with
  | none => some { s with swapLeaked := s.swapLeaked + pages }
  | some perms =>
      match s.server.swapFree perms block pages with
      | (server, [.ok _]) =>
          some { s with server, held := punch (blocksOf block pages) s.held }
      | _ => none

/-- The state an action leaves, and the answers to a client. -/
def exec (s : State) (x : Outcome) : Action → Option (State × List Reply)
  | .client perms nseg request => s.client x perms nseg request
  | .setSwapdev perms => some (s.setSwapdev perms, [])
  | .allocSwap pages => (s.allocSwap pages).map fun t => (t, [])
  | .freeSwap block pages => (s.freeSwap block pages).map fun t => (t, [])

/-- What is freed is part of what was allocated. -/
def Holds (s : State) (block blocks : ULong) : Prop :=
  blocks ≠ 0 ∧ ∃ e ∈ s.held, (blocksOf block blocks).Within e

instance (s : State) (block blocks : ULong) : Decidable (s.Holds block blocks) :=
  inferInstanceAs (Decidable (_ ∧ ∃ e ∈ s.held, _))

/-- What the kernel and clients may ask for. -/
def Legal (s : State) : Action → Prop
  | .client _ _ (.swapFree block blocks) => s.Holds block blocks
  | .freeSwap block pages => s.Holds block pages
  | _ => True

instance (s : State) (action : Action) : Decidable (s.Legal action) := by
  unfold Legal
  split <;> infer_instance

end State

/-- One step. -/
def step (s : State) (label : Outcome × Action) : Option State :=
  if s.Legal label.2 then (s.exec label.1 label.2).map Prod.fst else none

abbrev Step : State → Outcome × Action → State → Prop := fun s label t => step s label = some t

end Vsta.Swap
