import Vsta.Basic
import Vsta.Library.Threaded

/-!
# The user heap

`malloc` takes small blocks from buckets of powers of two, that are filled from runs of pages, and
maps memory of its own for each larger one. A chunk of pages begins with a page that describes it,
with a `ushort` for each of the others: the bucket, or the pages and `MAX_BUCKET`, of the block
that begins there.

NULL is 0, and a NULL that is used as a pointer is `none`. `core` is what `mmap` answers in a call,
which has it called once at most.
-/

set_option autoImplicit false

namespace Vsta.Malloc

open Threaded

/-- Bytes in a page. -/
def NBPG : ℕ := 4096

/-- Smallest storage allocation size. -/
def MINPG : ℕ := 16

/-- Largest storage allocation size. -/
def MAXPG : ℕ := 256

/-- At least 16 bytes allocated. -/
def MIN_BUCKET : ℕ := 4

/-- Up to 32k chunks. -/
def MAX_BUCKET : ℕ := 15

/-- Bytes of so many pages. -/
def ptob (pgs : ℕ) : ℕ := wrap (pgs * NBPG)

/-- Pages of so many bytes, rounded down. -/
def btop (bytes : ℕ) : ℕ := bytes / NBPG

/-- Pages of so many bytes, rounded up. -/
def btorp (bytes : ℕ) : ℕ := wrap (bytes + (NBPG - 1)) / NBPG

/-- `struct chunk`, which is a page before `cVaddr`. -/
structure Chunk where
  cVaddr : ℕ
  cLen : ℕ
  cPerpage : ℕ → ℕ

/-- The memory, the chunks, `b_mem` of each bucket, and what `alloc_pages` keeps. -/
structure Heap where
  mem : Mem
  chunks : List Chunk
  bMem : ℕ → ℕ
  freemem : ℕ
  freepgs : ℕ
  allocsz : ℕ

/-- `b_size`, as `init_malloc` sets it. -/
def bSize (bucket : ℕ) : ℕ := 2 ^ bucket

/-- `alloc_core`. What is cleared behind the header is new memory, and clear. -/
def Heap.allocCore (h : Heap) (newmem pgs : ℕ) : Heap × ℕ :=
  if newmem = 0 then (h, 0)
  else
    ({ h with
        mem := clear h.mem newmem (ptob (pgs + 1))
        chunks := ⟨newmem + NBPG, pgs, fun _ => 0⟩ :: h.chunks }, newmem + NBPG)

/-- `free_core`. A block is a page behind the chunk that is made for it. -/
def Heap.freeCore (h : Heap) (mem : ℕ) : Option Heap :=
  if h.chunks.any (fun c => c.cVaddr = mem) then
    some { h with chunks := h.chunks.eraseP fun c => c.cVaddr = mem }
  else none

/-- The first pages of the pool. -/
def Heap.takePages (h : Heap) (pgs : ℕ) : Heap × ℕ :=
  ({ h with freemem := h.freemem + ptob pgs, freepgs := h.freepgs - pgs }, h.freemem)

/-- `alloc_pages`. No bucket needs more pages than there are at the `retry`. -/
def Heap.allocPages (h : Heap) (core pgs : ℕ) : Heap × ℕ :=
  if pgs ≤ h.freepgs then h.takePages pgs
  else
    let (h, freemem) := h.allocCore core h.allocsz
    let h := { h with freemem := freemem }
    if freemem = 0 then (h, 0)
    else
      { h with
        freepgs := h.allocsz
        allocsz := if h.allocsz < MAXPG then 2 * h.allocsz else h.allocsz }.takePages pgs

/-- Whether the memory of a chunk has the address. -/
def Chunk.Holds (c : Chunk) (mem : ℕ) : Prop :=
  c.cVaddr ≤ mem ∧ mem < c.cVaddr + ptob c.cLen

instance (c : Chunk) (mem : ℕ) : Decidable (c.Holds mem) :=
  inferInstanceAs (Decidable (_ ∧ _))

/-- `find_chunk`. -/
def findChunk (chunks : List Chunk) (mem : ℕ) : Option Chunk :=
  chunks.find? fun c => c.Holds mem

/-- `c_perpage[idx] = size`. -/
def Chunk.put (c : Chunk) (idx size : ℕ) : Chunk :=
  { c with cPerpage := fun i => if i = idx then size % 2 ^ 16 else c.cPerpage i }

/-- `set_size`. The chunk that is found is the one at its address. -/
def Heap.setSize (h : Heap) (mem size : ℕ) : Option Heap :=
  (findChunk h.chunks mem).map fun c =>
    { h with
      chunks := h.chunks.map fun d =>
        if d.cVaddr = c.cVaddr then d.put (btop (mem - c.cVaddr)) size else d }

/-- `get_size`. -/
def Heap.getSize (h : Heap) (mem : ℕ) : Option ℕ :=
  (findChunk h.chunks mem).map fun c => c.cPerpage (btop (mem - c.cVaddr))

/-- An element put in front of its bucket. -/
def Heap.push (h : Heap) (bucket mem : ℕ) : Heap :=
  { h with
    mem := store h.mem mem (h.bMem bucket)
    bMem := fun b => if b = bucket then mem else h.bMem b }

/-- The loop that parcels memory out: `n` more elements from `p` on. -/
def Heap.parcel (h : Heap) (bucket : ℕ) : ℕ → ℕ → Heap
  | 0, _ => h
  | n + 1, p => (h.push bucket p).parcel bucket n (p + bSize bucket)

/-- Memory added to a bucket. -/
def Heap.fill (h : Heap) (core bucket : ℕ) : Option Heap :=
  let pgs := btorp (bSize bucket)
  let (h, p) := h.allocPages core pgs
  (h.setSize p bucket).map fun h => h.parcel bucket (ptob pgs / bSize bucket) p

/-- The highest bit, from `bucket` down. -/
def highest (size : ℕ) : ℕ → ℕ
  | 0 => 0
  | bucket + 1 => if size.testBit (bucket + 1) then bucket + 1 else highest size bucket

/-- The bucket for a size. -/
def bucketOf (size : ℕ) : ℕ :=
  if size < 2 ^ MIN_BUCKET then MIN_BUCKET
  else
    let bucket := highest size MAX_BUCKET
    if size % 2 ^ bucket = 0 then bucket else bucket + 1

/-- `malloc`. -/
def Heap.malloc (h : Heap) (core size : ℕ) : Option (Heap × ℕ) :=
  if 2 ^ MAX_BUCKET < size then
    let pgs := btorp size
    let (h, mem) := h.allocCore core pgs
    (h.setSize mem (pgs + MAX_BUCKET)).map fun h => (h, mem)
  else
    let bucket := bucketOf size
    (if h.bMem bucket = 0 then h.fill core bucket else some h).map fun h =>
      let f := h.bMem bucket
      ({ h with bMem := fun b => if b = bucket then load h.mem f else h.bMem b }, f)

/-- `free`. -/
def Heap.free (h : Heap) (mem : ℕ) : Option Heap :=
  if mem = 0 then some h
  else
    (h.getSize mem).bind fun sz =>
      if MAX_BUCKET < sz then h.freeCore mem else some (h.push sz mem)

/-- The bytes that a recorded size stands for. -/
def roomOf (sz : ℕ) : ℕ := if sz ≤ MAX_BUCKET then 2 ^ sz else ptob (sz - MAX_BUCKET)

/-- Whether `realloc` leaves a block of `oldsize` bytes where it is. -/
def Stays (oldsize newsize : ℕ) : Prop :=
  newsize ≤ oldsize ∧ ¬ (2 ^ MAX_BUCKET < oldsize ∧ newsize ≤ oldsize / 2)

instance (oldsize newsize : ℕ) : Decidable (Stays oldsize newsize) :=
  inferInstanceAs (Decidable (_ ∧ _))

/-- `realloc`. -/
def Heap.realloc (h : Heap) (core mem newsize : ℕ) : Option (Heap × ℕ) :=
  if mem = 0 then h.malloc core newsize
  else
    (h.getSize mem).bind fun sz =>
      let oldsize := roomOf sz
      if Stays oldsize newsize then some (h, mem)
      else
        (h.malloc core newsize).bind fun (h, newmem) =>
          if newmem = 0 then some (h, 0)
          else
            ({ h with
                mem := copy h.mem mem newmem (if oldsize < newsize then oldsize else newsize)
                }.free mem).map fun h => (h, newmem)

/-- Before the first call. -/
def fresh : Heap := ⟨fun _ => 0, [], fun _ => 0, 0, 0, MINPG⟩

end Vsta.Malloc
