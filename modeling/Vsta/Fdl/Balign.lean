import Vsta.Basic
import Vsta.Library.Splice
import Mathlib.Data.Nat.Bitwise
import Mathlib.Tactic.NormNum

/-!
# Unaligned input and output over a server of blocks

`balign_io` of `lib/fdl.c` does a read or a write that is not aligned with whole blocks. It asks the
server for a block at a time, and copies between the block and the buffer of its caller; for a write
it reads a block that is only partly to be written, and writes it back.

The number of bytes that are done starts as minus the offset in the first block, and is compared
with the unsigned byte count. The contents of the device and of the buffers are only moved, so that
a run is right for all contents exactly when it is right for symbols that stand for them
(`meets_iff_symbols`). A buffer is in the user's half of the address space, so that its length is
less than `2 ^ 31`.
-/

set_option autoImplicit false

namespace Vsta.Balign

open Splice

/-- A call: the block size of the server, the position of the file, and the byte count. -/
structure Call where
  blockSize : ℕ
  pos : ℕ
  nbyte : ℕ
  power : ∃ k ≤ 30, blockSize = 2 ^ k
  fits : nbyte < 2 ^ 31

/-- The replies of a server to the messages it is sent: how many bytes of a block it moved, or an
error. -/
structure Server (call : Call) where
  reply : ℕ → ℤ
  most : ∀ k, reply k ≤ call.blockSize

/-- The state of a call: the device, the buffer of the caller and the block buffer, the variables,
and the number of messages that were sent. -/
structure Io (α : Type) where
  dev : ℕ → α
  buf : ℕ → α
  abuf : ℕ → α
  count : ℤ
  apos : ℕ
  bufSt : ℕ
  x : ℤ
  sent : ℕ

/-- What a call leaves. -/
structure Outcome (α : Type) where
  result : ℤ
  pos : ℕ
  dev : ℕ → α
  buf : ℕ → α

/-! ## The functions -/

/-- An `int` in a comparison with a `uint`. -/
def unsigned (count : ℤ) : ℕ := (count % 2 ^ 32).toNat

/-- `pos & ~(size - 1)`: the bits that are cleared are taken off. -/
def alignDown (pos size : ℕ) : ℕ := pos - (pos &&& (size - 1))

section Loop

variable {α : Type} (call : Call) (server : Server call)

/-- `FS_ABSREAD` of a block. -/
def absRead (s : Io α) : Io α :=
  { s with
    x := server.reply s.sent
    abuf := splice s.dev s.apos s.abuf 0 (server.reply s.sent).toNat
    sent := s.sent + 1 }

/-- `FS_ABSWRITE` of a block. -/
def absWrite (s : Io α) : Io α :=
  { s with
    x := server.reply s.sent
    dev := splice s.abuf 0 s.dev s.apos (server.reply s.sent).toNat
    sent := s.sent + 1 }

/-- `if (count > nbyte) count = nbyte`. -/
def capped (count : ℤ) : ℤ := if unsigned count > call.nbyte then call.nbyte else count

/-- `offs`: where in the buffer of the caller a block belongs. -/
def offs (s : Io α) : ℕ := if s.count ≥ 0 then s.count.toNat else 0

/-- On to the next block. -/
def onward (s : Io α) : Io α := { s with bufSt := 0, apos := s.apos + call.blockSize }

/-- A block is read. -/
def readBlock (s : Io α) : Io α :=
  let t := absRead call server s
  if t.x < 0 then t
  else
    let count := capped call (s.count + t.x)
    if count < 0 then { t with count := count, x := -1 }
    else
      onward call
        { t with
          count := count
          buf := splice t.abuf s.bufSt s.buf (offs s) (count.toNat - offs s) }

/-- The data of the caller is copied into a block, and it is written. `offs` and `count` are where
the data starts and ends in the buffer of the caller. -/
def storeBlock (offs : ℕ) (count : ℤ) (s : Io α) : Io α :=
  let t := absWrite call server
    { s with
      count := count
      abuf := splice s.buf offs s.abuf s.bufSt (count.toNat - offs) }
  if t.x < 0 then t else onward call t

/-- A block is written. -/
def writeBlock (s : Io α) : Io α :=
  if s.count < 0 ∨ unsigned (s.count + call.blockSize) > call.nbyte then
    let t := absRead call server s
    if t.x < 0 then t
    else
      let count := capped call (s.count + t.x)
      if count < 0 then { t with count := count, x := -1 }
      else storeBlock call server (offs s) count t
  else storeBlock call server (offs s) (s.count + call.blockSize) s

/-- One pass of the loop. -/
def block (doRead : Bool) (s : Io α) : Io α :=
  if doRead then readBlock call server s else writeBlock call server s

/-- The loop. -/
def loop (doRead : Bool) : ℕ → Io α → Option (Io α)
  | 0, _ => none
  | fuel + 1, s =>
      let s := block call server doRead s
      if unsigned s.count < call.nbyte ∧ s.x > 0 then loop doRead fuel s else some s

/-- Where a call starts. -/
def start (dev buf junk : ℕ → α) : Io α where
  dev := dev
  buf := buf
  abuf := junk
  count := (alignDown call.pos call.blockSize : ℤ) - call.pos
  apos := alignDown call.pos call.blockSize
  bufSt := call.pos - alignDown call.pos call.blockSize
  x := 0
  sent := 0

/-- What is done behind the loop. -/
def finish (s : Io α) : Outcome α :=
  let count := if s.count < 0 then 0 else s.count
  { result := if count > 0 then count else s.x
    pos := call.pos + count.toNat
    dev := s.dev
    buf := s.buf }

/-- `balign_io`. Without memory for a block the result is what `x` happens to be. -/
def balignIo (doRead : Bool) (memory : Option ℤ) (fuel : ℕ) (dev buf junk : ℕ → α) :
    Option (Outcome α) :=
  match memory with
  | some x => some { result := x, pos := call.pos, dev := dev, buf := buf }
  | none => (loop call server doRead fuel (start call dev buf junk)).map (finish call)

/-- `do_io`, when the server is sent `nbyte` bytes at once first. Its answer is a count or an error,
or there is none when it was `EBALIGN`. -/
def doIo (doRead : Bool) (answer : Option ℤ) (memory : Option ℤ) (fuel : ℕ)
    (dev buf junk : ℕ → α) : Option (Outcome α) :=
  match answer with
  | some x => some { result := x, pos := call.pos + x.toNat, dev := dev, buf := buf }
  | none => balignIo call server doRead memory fuel dev buf junk

end Loop

/-! ## What it is for -/

/-- **A read returns exactly the bytes of the device, a write changes exactly the bytes it was
given, and the position is moved by as many.** -/
structure Right {α : Type} (call : Call) (doRead : Bool) (dev buf : ℕ → α) (o : Outcome α) :
    Prop where
  few : o.result ≤ call.nbyte
  moved : o.pos = call.pos + o.result.toNat
  got : doRead = true → ∀ i < o.result.toNat, o.buf i = dev (call.pos + i)
  kept : ∀ q, o.dev q = if doRead = false ∧ call.pos ≤ q ∧ q < call.pos + o.result.toNat then
    buf (q - call.pos) else dev q

/-- **A call comes to an end, and does what it is for.** -/
def Meets {α : Type} (call : Call) (server : Server call) (doRead : Bool) (memory : Option ℤ)
    (dev buf junk : ℕ → α) : Prop :=
  ∃ fuel o, balignIo call server doRead memory fuel dev buf junk = some o ∧
    Right call doRead dev buf o

/-! ## Symbols -/

/-- What a byte was at the start. -/
inductive Sym where
  | dev (q : ℕ)
  | buf (i : ℕ)
  | junk (i : ℕ)
  deriving DecidableEq

/-- The contents that symbols stand for. -/
def Sym.value {α : Type} (dev buf junk : ℕ → α) : Sym → α
  | .dev q => dev q
  | .buf i => buf i
  | .junk i => junk i

/-- The contents are changed. -/
def Io.map {α β : Type} (h : α → β) (s : Io α) : Io β :=
  { s with dev := h ∘ s.dev, buf := h ∘ s.buf, abuf := h ∘ s.abuf }

variable {α β : Type} {call : Call} {server : Server call} {doRead : Bool}

theorem absRead_map (h : α → β) (s : Io α) :
    absRead call server (s.map h) = (absRead call server s).map h := by
  simp only [absRead, Io.map, splice_map]

theorem readBlock_map (h : α → β) (s : Io α) :
    readBlock call server (s.map h) = (readBlock call server s).map h := by
  rw [readBlock, readBlock, absRead_map, apply_ite (Io.map h), apply_ite (Io.map h)]
  refine if_congr Iff.rfl rfl (if_congr Iff.rfl rfl ?_)
  have same : offs (s.map h) = offs s := rfl
  rw [same]
  simp only [onward, Io.map, splice_map]

theorem storeBlock_map (h : α → β) (offs : ℕ) (count : ℤ) (s : Io α) :
    storeBlock call server offs count (s.map h) = (storeBlock call server offs count s).map h := by
  rw [storeBlock, storeBlock, apply_ite (Io.map h)]
  refine if_congr Iff.rfl ?_ ?_ <;> simp only [absWrite, onward, Io.map, splice_map]

theorem writeBlock_map (h : α → β) (s : Io α) :
    writeBlock call server (s.map h) = (writeBlock call server s).map h := by
  rw [writeBlock, writeBlock, absRead_map, apply_ite (Io.map h), apply_ite (Io.map h),
    apply_ite (Io.map h)]
  exact if_congr Iff.rfl (if_congr Iff.rfl rfl (if_congr Iff.rfl rfl (storeBlock_map h _ _ _)))
    (storeBlock_map h _ _ s)

theorem block_map (h : α → β) (s : Io α) :
    block call server doRead (s.map h) = (block call server doRead s).map h := by
  cases doRead with
  | true => exact readBlock_map h s
  | false => exact writeBlock_map h s

variable (call server doRead) in
theorem loop_map (h : α → β) (fuel : ℕ) (s : Io α) :
    loop call server doRead fuel (s.map h) =
      (loop call server doRead fuel s).map (Io.map h) := by
  induction fuel generalizing s with
  | zero => rfl
  | succ fuel ih =>
      rw [loop, loop, block_map, apply_ite (Option.map (Io.map h))]
      exact if_congr Iff.rfl (ih _) rfl

/-- The outcome of a loop does not depend on the fuel. -/
theorem loop_agree {fuel fuel' : ℕ} {s a b : Io α}
    (one : loop call server doRead fuel s = some a)
    (two : loop call server doRead fuel' s = some b) : a = b := by
  induction fuel generalizing fuel' s with
  | zero => simp [loop] at one
  | succ fuel ih =>
      cases fuel' with
      | zero => simp [loop] at two
      | succ fuel' =>
          rw [loop] at one two
          split_ifs at one two
          · exact ih one two
          · exact (Option.some.inj one).symm.trans (Option.some.inj two)

/-! ## The end of a call -/

theorem finish_pos (e : Io α) : (finish call e).pos = call.pos + e.count.toNat := by
  simp only [finish]
  split_ifs <;> omega

/-- The result is what was counted, where that is something or the last reply was none. -/
theorem finish_result (call : Call) {e : Io α} (ends : 0 < e.count ∨ e.x ≤ 0) :
    (finish call e).result.toNat = e.count.toNat ∧ (finish call e).result ≤ max e.count 0 := by
  simp only [finish]
  split_ifs <;> omega

variable (call server doRead)

/-- A call on symbols. -/
def symbols : Io Sym := start call .dev .buf .junk

theorem start_map (dev buf junk : ℕ → α) :
    start call dev buf junk = (symbols call).map (Sym.value dev buf junk) := rfl

/-- **A call is right for all contents exactly when it is right for symbols.** -/
theorem meets_iff_symbols :
    (∀ dev buf junk : ℕ → UChar, Meets call server doRead none dev buf junk) ↔
      Meets call server doRead none Sym.dev Sym.buf Sym.junk := by
  constructor
  · intro meets
    have run : ∀ dev buf junk : ℕ → UChar, ∃ s, (∃ fuel,
        loop call server doRead fuel (symbols call) = some s) ∧
        Right call doRead dev buf (finish call (s.map (Sym.value dev buf junk))) := by
      intro dev buf junk
      obtain ⟨fuel, o, done, right⟩ := meets dev buf junk
      rw [balignIo, start_map, loop_map, Option.map_map] at done
      obtain ⟨s, ends, rfl⟩ := Option.map_eq_some_iff.mp done
      exact ⟨s, ⟨fuel, ends⟩, right⟩
    obtain ⟨s, ⟨fuel, ends⟩, right⟩ := run (fun _ => 0) (fun _ => 0) fun _ => 0
    have same : ∀ dev buf junk : ℕ → UChar,
        Right call doRead dev buf (finish call (s.map (Sym.value dev buf junk))) := by
      intro dev buf junk
      obtain ⟨s', ⟨fuel', ends'⟩, right'⟩ := run dev buf junk
      rwa [loop_agree ends ends']
    have apart : ∀ a b : Sym, (∀ dev buf junk : ℕ → UChar,
        Sym.value dev buf junk a = Sym.value dev buf junk b) → a = b := by
      intro a b all
      by_contra differ
      have bit : ∀ c : Sym, Sym.value (fun q => if Sym.dev q = a then 1 else (0 : UChar))
          (fun i => if Sym.buf i = a then 1 else 0) (fun i => if Sym.junk i = a then 1 else 0) c =
            if c = a then 1 else 0 := by
        intro c
        cases c <;> rfl
      have here := all (fun q => if Sym.dev q = a then 1 else (0 : UChar))
        (fun i => if Sym.buf i = a then 1 else 0) fun i => if Sym.junk i = a then 1 else 0
      rw [bit a, bit b, if_pos rfl, if_neg (Ne.symm differ)] at here
      exact absurd here (by decide)
    refine ⟨fuel, finish call s, congrArg (Option.map (finish call)) ends, right.few, right.moved,
      fun reading i inside => apart _ _ fun dev buf junk =>
        (same dev buf junk).got reading i inside, fun q => apart _ _ fun dev buf junk => ?_⟩
    refine ((same dev buf junk).kept q).trans ?_
    have result : (finish call (s.map (Sym.value dev buf junk))).result = (finish call s).result :=
      rfl
    rw [result]
    split_ifs <;> rfl
  · rintro ⟨fuel, o, done, right⟩ dev buf junk
    obtain ⟨s, ends, rfl⟩ := Option.map_eq_some_iff.mp done
    refine ⟨fuel, finish call (s.map (Sym.value dev buf junk)), ?_, right.few, right.moved,
      fun reading i inside => congrArg (Sym.value dev buf junk) (right.got reading i inside),
      fun q => ?_⟩
    · have mapped := loop_map call server doRead (Sym.value dev buf junk) fuel (symbols call)
      rw [show loop call server doRead fuel (symbols call) = some s from ends] at mapped
      exact congrArg (Option.map (finish call)) mapped
    · refine (congrArg (Sym.value dev buf junk) (right.kept q)).trans ?_
      have result : (finish call (s.map (Sym.value dev buf junk))).result =
          (finish call s).result := rfl
      rw [result]
      split_ifs <;> rfl

end Vsta.Balign
