import Mathlib.Data.BitVec
import Mathlib.Data.List.Basic
import Mathlib.Tactic.Common

/-!
# Values packed in a stream of bytes

A `Reader` takes bytes from the front of a stream and gives a value. It `Reads` a value from bytes
if it gives it whatever comes behind them, and leaves that alone. Readers that read their parts one
behind the other read the whole (`Reads.bind`, `Reads.many`), so a decoder is proved part by part in
the order of the encoder.
-/

set_option autoImplicit false

namespace Packing

/-- Bytes are taken from the front of a stream, unless there are too few. -/
abbrev Reader (β : Type) := StateT (List β) Option

variable {β α γ : Type}

/-- The next byte. -/
def next : Reader β β
  | [] => none
  | b :: rest => some (b, rest)

/-- A number of bytes. -/
def take (n : ℕ) : Reader β (List β) := fun stream =>
  if n ≤ stream.length then some (stream.take n, stream.drop n) else none

/-- A computation that takes no bytes. -/
def ofOption (result : Option α) : Reader β α := fun stream => result.map fun value => (value, stream)

/-- The same reader a number of times. -/
def many (read : Reader β α) : ℕ → Reader β (List α)
  | 0 => pure []
  | n + 1 => do
      let first ← read
      let others ← many read n
      return first :: others

/-- The bytes before a terminator, which is taken too. -/
def untilByte [DecidableEq β] (stop : β) : Reader β (List β)
  | [] => none
  | b :: rest =>
      if b = stop then some ([], rest)
      else (untilByte stop rest).map fun read => (b :: read.1, read.2)

/-- A word of 32 bits, the low byte first. -/
def word (w : BitVec 32) : List (BitVec 8) :=
  [BitVec.ofNat 8 w.toNat, BitVec.ofNat 8 (w.toNat / 2 ^ 8), BitVec.ofNat 8 (w.toNat / 2 ^ 16),
    BitVec.ofNat 8 (w.toNat / 2 ^ 24)]

/-- A word is taken. -/
def readWord : Reader (BitVec 8) (BitVec 32) := do
  let a ← next
  let b ← next
  let c ← next
  let d ← next
  return BitVec.ofNat 32 (a.toNat + b.toNat * 2 ^ 8 + c.toNat * 2 ^ 16 + d.toNat * 2 ^ 24)

/-- The value is read from the bytes, whatever comes behind them. -/
def Reads (read : Reader β α) (bytes : List β) (value : α) : Prop :=
  ∀ rest, read (bytes ++ rest) = some (value, rest)

theorem Reads.pure (value : α) : Reads (pure value : Reader β α) [] value := fun _ => rfl

/-- One reader after the other. -/
theorem Reads.bind {read : Reader β α} {then_ : α → Reader β γ} {bytes more : List β} {value : α}
    {last : γ} (first : Reads read bytes value) (second : Reads (then_ value) more last) :
    Reads (read >>= then_) (bytes ++ more) last := fun rest => by
  have here := first (more ++ rest)
  rw [← List.append_assoc] at here
  change (read (bytes ++ more ++ rest)).bind (fun read => then_ read.1 read.2) = _
  rw [here]
  exact second rest

/-- The last part of a reader. -/
theorem Reads.last {read : Reader β α} {then_ : α → Reader β γ} {bytes : List β} {value : α}
    {result : γ} (reads : Reads read bytes value) (done : Reads (then_ value) [] result) :
    Reads (read >>= then_) bytes result := by
  rw [← List.append_nil bytes]
  exact reads.bind done

/-- A run of items, each read as `image` says. -/
theorem Reads.many_map {read : Reader β α} {write : γ → List β} {image : γ → α} (items : List γ)
    (each : ∀ item ∈ items, Reads read (write item) (image item)) :
    Reads (many read items.length) (items.flatMap write) (items.map image) := by
  induction items with
  | nil => exact Reads.pure []
  | cons item items ih =>
      have first := each item List.mem_cons_self
      have others := ih fun other member => each other (List.mem_cons_of_mem _ member)
      rw [List.flatMap_cons]
      exact first.bind (others.last (Reads.pure _))

/-- A run of items. -/
theorem Reads.many {read : Reader β α} {write : α → List β} (items : List α)
    (each : ∀ item ∈ items, Reads read (write item) item) :
    Reads (many read items.length) (items.flatMap write) items := by
  have all := @Reads.many_map _ _ _ read write (fun item => item) items each
  rwa [List.map_id'] at all

theorem reads_ofOption {result : Option α} {value : α} (is : result = some value) :
    Reads (ofOption result : Reader β α) [] value := fun rest => by
  rw [ofOption, is]
  rfl

theorem reads_next (b : β) : Reads next [b] b := fun _ => rfl

theorem reads_take (bytes : List β) : Reads (take bytes.length) bytes bytes := fun rest => by
  simp [take]

theorem reads_untilByte [DecidableEq β] {stop : β} {bytes : List β} (inside : stop ∉ bytes) :
    Reads (untilByte stop) (bytes ++ [stop]) bytes := by
  intro rest
  induction bytes with
  | nil => simp [untilByte]
  | cons b bytes ih =>
      have here : b ≠ stop := fun same => inside (same ▸ List.mem_cons_self)
      have there : stop ∉ bytes := fun member => inside (List.mem_cons_of_mem _ member)
      rw [List.cons_append, List.cons_append, untilByte, if_neg here, ih there]
      rfl

theorem reads_word (w : BitVec 32) : Reads readWord (word w) w := by
  intro rest
  have whole : BitVec.ofNat 32 ((BitVec.ofNat 8 w.toNat).toNat +
      (BitVec.ofNat 8 (w.toNat / 2 ^ 8)).toNat * 2 ^ 8 +
      (BitVec.ofNat 8 (w.toNat / 2 ^ 16)).toNat * 2 ^ 16 +
      (BitVec.ofNat 8 (w.toNat / 2 ^ 24)).toNat * 2 ^ 24) = w := by
    apply BitVec.eq_of_toNat_eq
    have := w.isLt
    simp only [BitVec.toNat_ofNat]
    omega
  change some (BitVec.ofNat 32 _, rest) = some (w, rest)
  rw [whole]

theorem length_word (w : BitVec 32) : (word w).length = 4 := rfl

end Packing
