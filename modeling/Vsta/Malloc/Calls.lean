import Vsta.Malloc.Heap

/-!
# A program and its heap

The calls of a program, with the blocks that it has between them. `Proper` is what the kernel
answers and what a program may do, `Meets` and `Sound` what is wanted of a call and of the state
between two of them, and `Works` when it is so.
-/

set_option autoImplicit false

namespace Vsta.Malloc

open Threaded

/-! ## Runs of calls -/

/-- A block that is handed out, with the size that is recorded for it: the bucket, or the pages and
`MAX_BUCKET`. -/
structure Block where
  addr : ℕ
  cls : ℕ
  deriving DecidableEq, Repr

/-- The bytes of a block. -/
def Block.len (b : Block) : ℕ := roomOf b.cls

/-- Where a block ends. -/
def Block.stop (b : Block) : ℕ := b.addr + b.len

/-- Whether a block has the byte at `x`. -/
def Block.Has (b : Block) (x : ℕ) : Prop := b.addr ≤ x ∧ x < b.stop

/-- Blocks that share no byte. -/
def Block.Apart (b c : Block) : Prop := b.stop ≤ c.addr ∨ c.stop ≤ b.addr

/-- What `malloc` records for a block of this size. -/
def classOf (size : ℕ) : ℕ :=
  if 2 ^ MAX_BUCKET < size then btorp size + MAX_BUCKET else bucketOf size

/-- The heap, and the blocks that the program has. -/
structure State where
  heap : Heap
  live : List Block

/-- What a program does: calls with the answer of `mmap`, and writes. -/
inductive Call where
  | malloc (core size : ℕ)
  | free (mem : ℕ)
  | realloc (core mem newsize : ℕ)
  | write (a : ℕ) (byte : UChar)
  deriving DecidableEq, Repr

/-- The blocks other than the one at `mem`. -/
def others (live : List Block) (mem : ℕ) : List Block := live.filter fun b => b.addr ≠ mem

/-- The blocks of the program after a call. -/
def State.step (s : State) : Call → Option State
  | .malloc core size =>
      (s.heap.malloc core size).map fun (h, p) =>
        ⟨h, if p = 0 then s.live else ⟨p, classOf size⟩ :: s.live⟩
  | .free mem => (s.heap.free mem).map fun h => ⟨h, others s.live mem⟩
  | .realloc core mem newsize =>
      (s.heap.realloc core mem newsize).map fun (h, p) =>
        ⟨h, if p = 0 ∨ p = mem then s.live else ⟨p, classOf newsize⟩ :: others s.live mem⟩
  | .write a byte => some ⟨{ s.heap with mem := Function.update s.heap.mem a byte }, s.live⟩

/-- The pages that `malloc` asks of the kernel for this size, if it does. -/
def Heap.asks (h : Heap) (size : ℕ) : Option ℕ :=
  if 2 ^ MAX_BUCKET < size then some (btorp size + 1)
  else if h.bMem (bucketOf size) = 0 ∧ h.freepgs < btorp (bSize (bucketOf size)) then
    some (h.allocsz + 1)
  else none

/-- Where the memory of a chunk ends. -/
def Chunk.stop (c : Chunk) : ℕ := c.cVaddr + c.cLen * NBPG

/-- What `mmap` answers: NULL, or whole pages of the address space that no chunk has. -/
def Heap.Maps (h : Heap) (core size : ℕ) : Prop :=
  core ≠ 0 → ∀ pgs ∈ h.asks size,
    NBPG ∣ core ∧ core + ptob pgs < 2 ^ 32 ∧
      ∀ c ∈ h.chunks, c.stop ≤ core ∨ core + ptob pgs + NBPG ≤ c.cVaddr

/-- What the kernel answers and what a program may do: give back and write to what it has. -/
def Proper (s : State) : Call → Prop
  | .malloc core size => size < 2 ^ 32 ∧ s.heap.Maps core size
  | .free mem => mem = 0 ∨ ∃ b ∈ s.live, b.addr = mem
  | .realloc core mem newsize =>
      newsize < 2 ^ 32 ∧ s.heap.Maps core newsize ∧ (mem = 0 ∨ ∃ b ∈ s.live, b.addr = mem)
  | .write a _ => ∃ b ∈ s.live, b.Has a

/-- The kernel grants what is asked of it, and the pages with the one before them are no more than
an address has room for. -/
def Heap.Granted (h : Heap) (core size : ℕ) : Prop :=
  size ≤ 2 ^ 32 - 2 * NBPG ∧ (h.asks size ≠ none → core ≠ 0)

/-- What the header has of the recorded size. -/
def Block.kept (b : Block) : ℕ := b.cls % 2 ^ 16

/-- Each request for memory is granted, a large block that is freed has a header of a large one, and
one that is resized is not larger than its header says, or is to be no larger than that. -/
def Works (s : State) : Call → Prop
  | .malloc core size => s.heap.Granted core size
  | .free mem => ∀ b ∈ s.live, b.addr = mem → MAX_BUCKET < b.cls → MAX_BUCKET < b.kept
  | .realloc core mem newsize =>
      (mem = 0 → s.heap.Granted core newsize) ∧
        ∀ b ∈ s.live, b.addr = mem →
          (b.kept = b.cls ∨ newsize ≤ roomOf b.kept) ∧
            (Stays (roomOf b.kept) newsize ∨ s.heap.Granted core newsize)
  | .write _ _ => True

/-- The bytes of these blocks are what they were. -/
def Unchanged (h h' : Heap) (blocks : List Block) : Prop :=
  ∀ b ∈ blocks, ∀ x, b.Has x → h'.mem x = h.mem x

/-- NULL, or `size` bytes of a chunk, none of them of the other blocks. -/
def Serves (h : Heap) (p size : ℕ) (blocks : List Block) : Prop :=
  p = 0 ∨ (∃ c ∈ h.chunks, c.cVaddr ≤ p ∧ p + size ≤ c.stop) ∧
    ∀ b ∈ blocks, p + size ≤ b.addr ∨ b.stop ≤ p

/-- A block is back at the head of its bucket, or its chunk with all of its pages is gone, and
nothing else is. -/
def Returns (h h' : Heap) (b : Block) : Prop :=
  if b.cls ≤ MAX_BUCKET then
    h'.chunks = h.chunks ∧ h'.bMem b.cls = b.addr ∧ load h'.mem b.addr = h.bMem b.cls ∧
      ∀ c ≠ b.cls, h'.bMem c = h.bMem c
  else
    h'.bMem = h.bMem ∧ ∃ before c behind, h.chunks = before ++ c :: behind ∧
      h'.chunks = before ++ behind ∧ c.cVaddr = b.addr ∧ c.stop = b.stop

/-- What is wanted of a call. -/
def Meets (s : State) : Call → Prop
  | .malloc core size => ∃ h p, s.heap.malloc core size = some (h, p) ∧
      Serves h p size s.live ∧ Unchanged s.heap h s.live
  | .free mem => ∃ h, s.heap.free mem = some h ∧ Unchanged s.heap h (others s.live mem) ∧
      ∀ b ∈ s.live, b.addr = mem → Returns s.heap h b
  | .realloc core mem newsize => ∃ h p, s.heap.realloc core mem newsize = some (h, p) ∧
      Serves h p newsize (others s.live mem) ∧ Unchanged s.heap h (others s.live mem) ∧
      ∀ b ∈ s.live, b.addr = mem →
        ∀ i < min b.len newsize, h.mem ((if p = 0 then mem else p) + i) = s.heap.mem (mem + i)
  | .write _ _ => True

/-- The blocks are apart, and each free list has elements of its own size in memory that no block
and no other element has. -/
def Sound (s : State) : Prop :=
  s.live.Pairwise Block.Apart ∧
    ∃ avail : ℕ → List ℕ, ∀ b ≤ MAX_BUCKET, Linked s.heap.mem (s.heap.bMem b) (avail b) ∧
      ((avail b).map (Block.mk · b)).Pairwise Block.Apart ∧
      ∀ a ∈ avail b, (∃ c ∈ s.heap.chunks, c.cVaddr ≤ a ∧ (Block.mk a b).stop ≤ c.stop) ∧
        (∀ c ∈ s.live, (Block.mk a b).Apart c) ∧
        ∀ b' ≤ MAX_BUCKET, b' ≠ b → ∀ a' ∈ avail b', (Block.mk a b).Apart ⟨a', b'⟩

/-- A program that has not called yet. -/
def start : State := ⟨fresh, []⟩

end Vsta.Malloc
