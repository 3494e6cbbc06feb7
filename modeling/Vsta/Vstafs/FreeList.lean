import Vsta.Vstafs.Layout

/-!
# The free list of vstafs

`alloc.c`: the list of free extents is kept in sectors of the disk, `NALLOC` extents a sector, and
all of them are in core as a chain of nodes. An extent goes to the node it belongs to; when that
node is full the whole list is compressed, which moves extents between neighbours, makes a node out
of a free sector and drops nodes that run empty.

A chain is the list of its nodes, so `fr_next` is the next of the list; the link `f_next` that
goes to the disk is a field. Of the array `f_free` a node keeps the `f_nfree` extents in use, and
`slot0`, what the first slot holds when there are none: the code looks at it. Every function says
which sectors it writes. `debug` tells whether the server is built with `DEBUG`; a function without
a result is one whose assertion fails, or which copies beyond memory.
-/

set_option autoImplicit false

namespace Vsta.Vstafs.FreeList

open Bytes (Alloc SECSZ sectors)

/-- Extents of a sector of the list. -/
abbrev NALLOC : ℕ := (SECSZ - 2 * 4) / 8

/-- The first sector of the list. -/
abbrev FREE_SEC : ℕ := 2

/-- What a sector of the list holds on the disk. -/
structure Image where
  fNext : ℕ
  fFree : List Alloc
  deriving DecidableEq, Repr

/-- `struct freelist`: a node of the chain. -/
structure Node where
  frThis : ℕ
  fNext : ℕ
  fFree : List Alloc
  slot0 : Alloc
  deriving DecidableEq, Repr

/-- `f_nfree`. -/
def Node.fNfree (f : Node) : ℕ := f.fFree.length

/-- The image of a node. -/
def Node.image (f : Node) : Image := ⟨f.fNext, f.fFree⟩

/-- A sector is written, with the chain in core at that time. -/
structure Write where
  chain : List Node
  sec : ℕ
  image : Image
  deriving DecidableEq, Repr

/-- A node is written as it is. -/
def writeSec (chain : List Node) (f : Node) : Write := ⟨chain, f.frThis, f.image⟩

/-! ## Taking sectors -/

/-- `alloc_chunk`, for the extents of a node: first fit. -/
def allocChunk (nblk : ℕ) : List Alloc → Option (ℕ × List Alloc)
  | [] => none
  | a :: rest =>
      if nblk ≤ a.aLen then
        some (a.aStart, if a.aLen - nblk = 0 then rest
          else ⟨a.aStart + nblk, a.aLen - nblk⟩ :: rest)
      else (allocChunk nblk rest).map fun (d, rest) => (d, a :: rest)

/-- The node after `alloc_chunk`. A last extent that is used up stays in its slot, empty. -/
def Node.allocChunk (f : Node) (nblk : ℕ) : Option (ℕ × Node) :=
  (FreeList.allocChunk nblk f.fFree).map fun (d, free) =>
    (d, { f with fFree := free, slot0 := ⟨d, 0⟩ })

/-- What an allocation leaves: the sector it returns, or how many, the chain and what is written. -/
structure Taken where
  ret : ℕ
  chain : List Node
  writes : List Write

/-- A node in front of the chain. -/
def Taken.cons (f : Node) (t : Taken) : Taken :=
  { t with
    chain := f :: t.chain
    writes := t.writes.map fun w => { w with chain := f :: w.chain } }

/-- `alloc_block`: the first node that has enough. -/
def allocBlock (nblk : ℕ) : List Node → Taken
  | [] => ⟨0, [], []⟩
  | f :: rest =>
      match f.allocChunk nblk with
      | some (d, f) => ⟨d, f :: rest, [writeSec (f :: rest) f]⟩
      | none => (allocBlock nblk rest).cons f

/-- `take_chunk`, for the extent that starts at `d`: the front of it, or all. -/
def takeChunk (d nsec : ℕ) : List Alloc → Option (ℕ × List Alloc)
  | [] => none
  | a :: rest =>
      if d = a.aStart then
        let nsec := min nsec a.aLen
        some (nsec, if nsec = a.aLen then rest
          else ⟨a.aStart + nsec, a.aLen - nsec⟩ :: rest)
      else (takeChunk d nsec rest).map fun (got, rest) => (got, a :: rest)

/-- `take_block`: the node whose extents are around `d`. A last extent that is used up stays in its
slot as it was. -/
def takeBlock (d nsec : ℕ) : List Node → Taken
  | [] => ⟨0, [], []⟩
  | f :: rest =>
      match f.fFree, f.fFree.getLast? with
      | first :: _, some last =>
          if d < first.aStart then ⟨0, f :: rest, []⟩
          else if last.aStart + last.aLen ≤ d then (takeBlock d nsec rest).cons f
          else match takeChunk d nsec f.fFree with
            | some (got, free) =>
                let f := { f with fFree := free, slot0 := first }
                ⟨got, f :: rest, [writeSec (f :: rest) f]⟩
            | none => ⟨0, f :: rest, []⟩
      | _, _ => (takeBlock d nsec rest).cons f

/-! ## Compressing -/

/-- What `free_chunk` does with an extent. -/
inductive Chunk where
  | done (free : List Alloc)
  | full
  deriving DecidableEq, Repr

/-- An extent more in front. -/
def Chunk.cons (a : Alloc) : Chunk → Chunk
  | .done free => .done (a :: free)
  | .full => .full

/-- `free_chunk`, for the extents of a node from some slot on; `room` when the node is not full. -/
def freeChunk (room : Bool) (d nblk : ℕ) : List Alloc → Option Chunk
  | [] => some (if room then .done [⟨d, nblk⟩] else .full)
  | a :: rest =>
      -- free_chunk: freeing free block
      if a.aStart < d ∧ d < a.aStart + a.aLen then none
      else if a.aStart = d + nblk then some (.done (⟨d, a.aLen + nblk⟩ :: rest))
      else if a.aStart + a.aLen = d then
        match rest with
        | [] => some (.done [⟨a.aStart, a.aLen + nblk⟩])
        | b :: rest =>
            if b.aStart = d + nblk then
              some (.done (⟨a.aStart, a.aLen + nblk + b.aLen⟩ :: rest))
            else some (.done (⟨a.aStart, a.aLen + nblk⟩ :: b :: rest))
      else if d < a.aStart then
        some (if room then .done (⟨d, nblk⟩ :: a :: rest) else .full)
      else (freeChunk room d nblk rest).map (Chunk.cons a)

/-- What `move_forward` leaves: the node, the chain behind it, and whether extents met at a border
between two nodes. -/
structure Moved where
  from_ : Node
  rest : List Node
  border : Bool

/-- The last extent of a node ends where the first of the next starts. -/
def meets (ffrom fto : List Alloc) : Bool :=
  match ffrom.getLast?, fto with
  | some afrom, ato :: _ => afrom.aStart + afrom.aLen == ato.aStart
  | _, _ => false

/-- Where extents meet, the first of the next node takes over the start of the last one. Its length
is left as it is. -/
def takeStart (ffrom : List Alloc) : List Alloc → List Alloc
  | ato :: rest => ⟨(ffrom.getLast?.map Alloc.aStart).getD 0, ato.aLen⟩ :: rest
  | [] => []

/-- `move_forward`: the last `cnt` extents of `from_` go to the node behind it, one less where the
last of them and the first there meet. -/
def moveForward (debug : Bool) (from_ : Node) : List Node → ℕ → Option Moved
  | [], cnt =>
      if debug ∧ from_.fNfree ≤ cnt then none
      else match from_.allocChunk 1 with
        | none => none
        | some (d, f) =>
            let keep := f.fNfree - cnt
            some ⟨{ f with fNext := d, fFree := f.fFree.take keep },
              [⟨d, 0, f.fFree.drop keep, ⟨0, 0⟩⟩], false⟩
  | to_ :: rest, cnt =>
      if debug ∧ (from_.fNfree ≤ cnt ∨ NALLOC < to_.fNfree + cnt) then none
      else
        let border := meets from_.fFree to_.fFree
        let ffrom := if border then from_.fFree.dropLast else from_.fFree
        let to_ := if border then { to_ with fFree := takeStart from_.fFree to_.fFree } else to_
        let cnt := if border then cnt - 1 else cnt
        let pushed :=
          if NALLOC < cnt + to_.fNfree then
            moveForward debug to_ rest (to_.fNfree + cnt - NALLOC)
          else some ⟨to_, rest, false⟩
        let keep := ffrom.length - cnt
        pushed.map fun m =>
          ⟨{ from_ with fFree := ffrom.take keep },
            { m.from_ with fFree := ffrom.drop keep ++ m.from_.fFree } :: m.rest,
            border || m.border⟩

/-- `move_back`: the first `cnt` extents of `from_` go to the node before it, and the first joins
the last there where they meet. When `from_` has none left the code looks at its first slot all the
same, and then takes one from a count of zero. -/
def moveBack (debug : Bool) (to_ from_ : Node) (cnt : ℕ) : Option (Node × Node) :=
  let afrom := from_.fFree.headD from_.slot0
  match to_.fFree.getLast? with
  | some ato =>
      if ato.aStart + ato.aLen = afrom.aStart then
        if from_.fNfree = 0 then none
        else
          let joined := to_.fFree.dropLast ++ [⟨ato.aStart, ato.aLen + afrom.aLen⟩]
          let left := from_.fFree.tail
          if debug ∧ left.length < cnt - 1 then none
          else some ({ to_ with fFree := joined ++ left.take (cnt - 1) },
            { from_ with fFree := left.drop (cnt - 1) })
      else if debug ∧ from_.fNfree < cnt then none
      else some ({ to_ with fFree := to_.fFree ++ from_.fFree.take cnt },
        { from_ with fFree := from_.fFree.drop cnt })
  | none =>
      if debug ∧ from_.fNfree < cnt then none
      else some ({ to_ with fFree := from_.fFree.take cnt },
        { from_ with fFree := from_.fFree.drop cnt })

/-- What a node pulls back: the node, the chain behind it, and the sectors of the nodes that
ran empty. -/
structure Pulled where
  node : Node
  rest : List Node
  removed : List ℕ

/-- The inner loop of `compress_freelist`: a node short of half pulls from the next. A node that
runs empty is taken out of the chain; its sector stays in `f_next`. -/
def pullBack (debug : Bool) : ℕ → Node → List Node → Option Pulled
  | 0, _, _ => none
  | _ + 1, f, [] => some ⟨f, [], []⟩
  | k + 1, f, f2 :: rest =>
      if f.fNfree < NALLOC / 2 then
        match moveBack debug f f2 (min f2.fNfree (NALLOC / 2 - f.fNfree)) with
        | none => none
        | some (f, f2) =>
            if f2.fNfree = 0 then
              (pullBack debug k f rest).map fun p => { p with removed := f2.frThis :: p.removed }
            else pullBack debug k f (f2 :: rest)
      else some ⟨f, f2 :: rest, []⟩

/-- What `compress_freelist` leaves in core. -/
structure Compressed where
  chain : List Node
  removed : List ℕ
  border : Bool

/-- The loop of `compress_freelist` over the chain. -/
def compressChain (debug : Bool) : ℕ → List Node → Option Compressed
  | 0, _ => none
  | _ + 1, [] => some ⟨[], [], false⟩
  | k + 1, f :: rest =>
      if NALLOC / 2 < f.fNfree then
        match moveForward debug f rest (f.fNfree - NALLOC / 2) with
        | none => none
        | some m => (compressChain debug k m.rest).map fun c =>
            ⟨m.from_ :: c.chain, c.removed, m.border || c.border⟩
      else
        match pullBack debug k f rest with
        | none => none
        | some p => (compressChain debug k p.rest).map fun c =>
            ⟨p.node :: c.chain, p.removed ++ c.removed, c.border⟩

/-- `write_freelist` from some node on: each node is written with the link 0 first, and then the
node before it with its own. -/
def writeFreelist (chain : List Node) : Option Node → List Node → List Write
  | _, [] => []
  | prev, f :: rest =>
      ⟨chain, f.frThis, { f.image with fNext := 0 }⟩ ::
        ((prev.map (writeSec chain)).toList ++ writeFreelist chain (some f) rest)

/-! ## Giving sectors back -/

/-- The scan of `free_block` for the node an extent belongs to: `i` is the node at hand, `ff` the
one that trails. -/
def seek (d : ℕ) : List Node → ℕ → ℕ → ℕ
  | [], _, ff => ff
  | f :: rest, i, ff =>
      match f.fFree, f.fFree.getLast? with
      | first :: _, some last =>
          if d < first.aStart then ff
          else if d < last.aStart then i
          else seek d rest (i + 1) i
      | _, _ => seek d rest (i + 1) i

/-- What `free_block` leaves: the sectors that are lost because there is no memory to queue them,
the sectors of nodes that ran empty, whether extents met at a border, and what is written. -/
structure Freed where
  chain : List Node
  lost : List ℕ
  removed : List ℕ
  border : Bool
  writes : List Write

/-- `free_block` from `retry` on, with the sectors `free_pend` queued. `kept` tells which sectors
`queue_free` finds memory for. -/
def freeLoop (debug : Bool) (kept : ℕ → ℕ → Bool) :
    ℕ → List Node → List ℕ → ℕ → ℕ → Option Freed
  | 0, _, _, _, _ => none
  | k + 1, chain, pend, d, nblk =>
      let i := seek d chain 0 0
      match chain[i]? with
      | none => none
      | some f =>
          match freeChunk (f.fNfree < NALLOC) d nblk f.fFree with
          | none => none
          | some .full =>
              match compressChain debug k chain with
              | none => none
              | some c =>
                  -- compress_freelist: last block w. next ptr
                  if debug ∧ (c.chain.getLast?.map Node.fNext).getD 0 ≠ 0 then none
                  else
                    let pend := pend ++ c.removed.filter (kept k)
                    (freeLoop debug kept k c.chain pend d nblk).map fun r =>
                      ⟨r.chain, c.removed.filter (fun sec => !kept k sec) ++ r.lost,
                        c.removed ++ r.removed, c.border || r.border,
                        writeFreelist c.chain none c.chain ++ r.writes⟩
          | some (.done free) =>
              let f := { f with fFree := free }
              let chain := chain.set i f
              let flushed := if debug then [writeSec chain f] else []
              match pend.getLast? with
              | none => some ⟨chain, [], [], false, flushed⟩
              | some d =>
                  (freeLoop debug kept k chain pend.dropLast d 1).map fun r =>
                    { r with writes := flushed ++ r.writes }

/-- `free_block`, with nothing pending. -/
def freeBlock (debug : Bool) (kept : ℕ → ℕ → Bool) (k : ℕ) (chain : List Node) (d nblk : ℕ) :
    Option Freed :=
  if debug ∧ nblk = 0 then none else freeLoop debug kept k chain [] d nblk

/-! ## Loading the list -/

/-- `init_block` from some sector on, for up to `k` nodes: the sectors it reads and their images.
There is none where a sector does not hold an image of this code. -/
def initBlock (disk : ℕ → Option Image) : ℕ → ℕ → Option (List (ℕ × Image))
  | 0, _ => none
  | k + 1, sec =>
      if sec = 0 then some []
      else match disk sec with
        | none => none
        | some image => (initBlock disk k image.fNext).map fun rest => (sec, image) :: rest

/-! ## Runs -/

/-- The free list with those who use it: the chain in core, the sectors callers hold, those that
are lost, and the images of the list on the disk. -/
structure Store where
  chain : List Node
  held : Multiset ℕ
  lost : Multiset ℕ
  disk : ℕ → Option Image

/-- Calls of the free list. `k` bounds the rounds of the loops of `free_block`. -/
inductive Call where
  | alloc (nblk : ℕ)
  | take (d nsec : ℕ)
  | free (d nblk : ℕ) (kept : ℕ → ℕ → Bool) (k : ℕ)

/-- The disk after a write. -/
def Write.apply (w : Write) (disk : ℕ → Option Image) : ℕ → Option Image :=
  fun sec => if sec = w.sec then some w.image else disk sec

/-- The disk after writes in their order. -/
def applyAll (writes : List Write) (disk : ℕ → Option Image) : ℕ → Option Image :=
  writes.foldl (fun disk w => w.apply disk) disk

/-- What a call leaves. -/
structure Result where
  store : Store
  ret : ℕ
  removed : List ℕ
  border : Bool
  writes : List Write

/-- The store after an allocation. The sectors are the caller's, who may write anything there. -/
def Store.taken (s : Store) (d nblk : ℕ) (t : Taken) : Result :=
  { store :=
      { s with
        chain := t.chain
        held := s.held + (⟨d, nblk⟩ : Alloc).run
        disk := fun sec =>
          if sec ∈ (⟨d, nblk⟩ : Alloc).run then none else applyAll t.writes s.disk sec }
    ret := t.ret, removed := [], border := false, writes := t.writes }

/-- A call is made. Only sectors that were handed out are freed, and never none. -/
def Store.call (debug : Bool) (s : Store) : Call → Option Result
  | .alloc nblk =>
      let t := allocBlock nblk s.chain
      some (s.taken t.ret (if t.ret = 0 then 0 else nblk) t)
  | .take d nsec =>
      let t := takeBlock d nsec s.chain
      some (s.taken d t.ret t)
  | .free d nblk kept k =>
      if 0 < nblk ∧ ((⟨d, nblk⟩ : Alloc).run : Multiset ℕ) ≤ s.held then
        (freeBlock debug kept k s.chain d nblk).map fun r =>
          { store :=
              { chain := r.chain
                held := s.held - (⟨d, nblk⟩ : Alloc).run
                lost := s.lost + r.lost
                disk := applyAll r.writes s.disk }
            ret := 0, removed := r.removed, border := r.border, writes := r.writes }
      else none

/-- The sectors that callers hold while a call is made. -/
def Store.heldDuring (s : Store) : Call → Multiset ℕ
  | .alloc _ => s.held
  | .take _ _ => s.held
  | .free d nblk _ _ => s.held - (⟨d, nblk⟩ : Alloc).run

/-- One call and the state it leaves. -/
def Store.Step (debug : Bool) (s : Store) (call : Call) (s' : Store) : Prop :=
  ∃ r, s.call debug call = some r ∧ r.store = s'

/-- Calls one after the other, each with a result that is `ok`. -/
def Store.calls (debug : Bool) (ok : Result → Bool) (s : Store) : List Call → Option Store
  | [] => some s
  | call :: rest =>
      (s.call debug call).bind fun r => if ok r then r.store.calls debug ok rest else none

/-- The list that `mkfs` writes for a disk of `nsec` sectors, as `init_block` loads it. -/
def mkfs (nsec : ℕ) : Store :=
  let free : List Alloc := [⟨FREE_SEC + 1, nsec - (FREE_SEC + 1)⟩]
  { chain := [⟨FREE_SEC, 0, free, ⟨0, 0⟩⟩]
    held := 0
    lost := 0
    disk := fun sec => if sec = FREE_SEC then some ⟨0, free⟩ else none }

end Vsta.Vstafs.FreeList
