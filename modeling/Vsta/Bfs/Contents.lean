import Vsta.Bfs.Transfer
import Vsta.Library.Runs

/-!
# A file of the boot filesystem is an array of bytes

One file of the boot filesystem and its clients. Where the file gets its blocks, and what other
files do with theirs, is up to the rest of the server. What was written since the file was truncated
is kept beside the disk, as history.

In every run whose transfers stay in a block or end where a block does, reads return what was
written and the length is the highest position written (`file_is_array`). Other transfers go on to
the end of a block: a write stores what lies behind the caller's buffer (`beyond_buffer`).

Positions are below 2^31; a larger one is negative in `do_write`, which is not modelled.
-/

set_option autoImplicit false

namespace Vsta.Bfs

open WriteBack

/-- What is kept of the file's inode. -/
structure Inode where
  iStart : ℕ
  iBlocks : ℕ
  iFsize : ℕ
  deriving DecidableEq, Repr

/-- The inode, the disk, the clients' `f_pos` and `f_write`; the bytes that were written and the
highest position of them. -/
structure State where
  inode : Inode
  disk : ℕ → UChar
  fPos : ℕ → ℕ
  fWrite : ℕ → Bool
  contents : ℕ → Option UChar
  high : ℕ

/-- What a request finds: memory, the one block that cannot be had, the blocks that are free for a
file without any, and the memory from `m_buf` on. -/
structure Outcome where
  mem : Bool
  bad : Option ℕ
  spot : ℕ × ℕ
  buf : ℕ → UChar

/-- A request of a client, or a step of the rest of the server: the blocks behind the file's are
given to another, and other files are written. -/
inductive Action where
  | open_ (c : ℕ) (create write : Bool)
  | dup (c fold : ℕ)
  | seek (c : ℕ) (mArg : ℕ)
  | read (c mArg : ℕ)
  | write (c buflen : ℕ)
  | blocks (n : ℕ)
  | other (disk : ℕ → UChar)

/-- An answer: the count, the data, and how many bytes of the buffer were read or written. -/
structure Reply where
  mArg : ℕ
  data : List UChar
  moved : ℕ
  deriving DecidableEq, Repr

namespace State

/-- `bget`. -/
def bget (x : Outcome) (blk : ℕ) : Bool := x.bad ≠ some blk

/-- The rounds of a transfer of `cnt` bytes at a position. -/
def transfer (s : State) (x : Outcome) (pos cnt : ℕ) : List Round × Bool :=
  rounds (fun blk => bget x (s.inode.iStart + blk)) cnt cnt pos 0

/-- `blk_alloc`. -/
def blkAlloc (i : Inode) (x : Outcome) (newsize : ℕ) : Inode × Bool :=
  let i := if i.iStart = 0 then { i with iStart := x.spot.1, iBlocks := x.spot.2 } else i
  if i.iBlocks < BLOCKS newsize then (i, false) else ({ i with iFsize := newsize }, true)

/-- What `bfs_read` returns of a position. -/
def toRead (s : State) (pos mArg : ℕ) : ℕ :=
  if s.inode.iFsize - pos < mArg then s.inode.iFsize - pos else mArg

/-- `bfs_read`. -/
def bfsRead (s : State) (x : Outcome) (c mArg : ℕ) : State × Option Reply :=
  if s.inode.iFsize ≤ s.fPos c then (s, some ⟨0, [], 0⟩)
  else
    let cnt := s.toRead (s.fPos c) mArg
    if !x.mem then (s, none)
    else
      let (rs, good) := s.transfer x (s.fPos c) cnt
      let buf := doRead s.inode.iStart s.disk (fun _ => 0) rs
      let s := { s with fPos := Function.update s.fPos c (s.fPos c + moved rs) }
      if good then (s, some ⟨cnt, (List.range cnt).map buf, moved rs⟩) else (s, none)

/-- The start of `bfs_write`: the file gets the length that it needs. -/
def holdAll (s : State) (x : Outcome) (newsize : ℕ) : Inode × Bool :=
  if s.inode.iFsize < newsize then blkAlloc s.inode x newsize else (s.inode, true)

/-- `bfs_write`. -/
def bfsWrite (s : State) (x : Outcome) (c buflen : ℕ) : State × Option Reply :=
  if !s.fWrite c then (s, none)
  else
    let (i, room) := s.holdAll x (wrap (s.fPos c + buflen))
    let s := { s with inode := i }
    if !room then (s, none)
    else
      let (rs, good) := s.transfer x (s.fPos c) buflen
      let s := { s with disk := doWrite i.iStart x.buf s.disk rs }
      if good then
        ({ s with
          fPos := Function.update s.fPos c (s.fPos c + buflen)
          contents := put s.contents (s.fPos c) buflen fun j => some (x.buf j)
          high := if buflen = 0 then s.high else max s.high (s.fPos c + buflen) },
          some ⟨buflen, [], moved rs⟩)
      else (s, none)

/-- `blk_trunc`, and what `bfs_open` does after it. -/
def truncate (s : State) : State :=
  { s with inode := ⟨0, s.inode.iBlocks, 0⟩, contents := fun _ => none, high := 0 }

/-- What an action does. -/
def exec (s : State) (x : Outcome) : Action → State × Option Reply
  | .open_ c create write =>
      let s := if create then s.truncate else s
      ({ s with
        fPos := Function.update s.fPos c 0
        fWrite := Function.update s.fWrite c write }, none)
  | .dup c fold => ({ s with
      fPos := Function.update s.fPos c (s.fPos fold)
      fWrite := Function.update s.fWrite c (s.fWrite fold) }, none)
  | .seek c mArg => ({ s with fPos := Function.update s.fPos c mArg }, none)
  | .read c mArg => s.bfsRead x c mArg
  | .write c buflen => s.bfsWrite x c buflen
  | .blocks n => ({ s with inode := { s.inode with iBlocks := n } }, none)
  | .other disk => ({ s with disk }, none)

/-- What the rest of the server does leaves the file its data, and no file starts at block 0. -/
def Legal (s : State) (x : Outcome) : Action → Prop
  | .write _ _ => x.spot.1 ≠ 0
  | .blocks n => BLOCKS s.inode.iFsize ≤ n
  | .other disk => ∀ p < s.inode.iFsize, disk (s.inode.iStart * BLOCKSIZE + p) =
      s.disk (s.inode.iStart * BLOCKSIZE + p)
  | _ => True

end State

/-- One step. -/
def Step (s : State) (label : Outcome × Action) (t : State) : Prop :=
  s.Legal label.1 label.2 ∧ (s.exec label.1 label.2).1 = t

/-- The condition on a request: its bytes are in one block or end where a block does, their blocks
can be had, and a write of nothing is not behind the end. -/
def Fits (s : State) (label : Outcome × Action) : Prop :=
  match label.2 with
  | .read c mArg => s.fPos c < s.inode.iFsize →
      label.1.bad = none ∧ Exact (s.fPos c) (s.toRead (s.fPos c) mArg)
  | .write c buflen => s.fWrite c = true →
      label.1.bad = none ∧ Exact (s.fPos c) buflen ∧ s.fPos c + buflen < 2 ^ 31 ∧
        (buflen = 0 → s.fPos c ≤ s.inode.iFsize)
  | _ => True

/-- What was written is on the disk, and inside the file. -/
structure Sound (s : State) : Prop where
  length : s.inode.iFsize = s.high
  stored : ∀ p b, s.contents p = some b →
    p < s.inode.iFsize ∧ s.disk (s.inode.iStart * BLOCKSIZE + p) = b
  room : s.inode.iFsize = 0 ∨ s.inode.iFsize ≤ s.inode.iBlocks * BLOCKSIZE
  placed : s.inode.iStart = 0 → s.inode.iFsize = 0
  small : s.inode.iFsize < 2 ^ 31

/-- A file of any length at any place, of which nothing is known. -/
def fresh (inode : Inode) (disk : ℕ → UChar) : State :=
  ⟨inode, disk, fun _ => 0, fun _ => false, fun _ => none, inode.iFsize⟩

/-- A file that is in its blocks. -/
def Formed (i : Inode) : Prop :=
  (i.iFsize = 0 ∨ i.iFsize ≤ i.iBlocks * BLOCKSIZE) ∧ (i.iStart = 0 → i.iFsize = 0) ∧
    i.iFsize < 2 ^ 31

theorem fresh_sound {inode : Inode} (formed : Formed inode) (disk : ℕ → UChar) :
    Sound (fresh inode disk) :=
  ⟨rfl, (fun _ _ known => nomatch known), formed.1, formed.2.1, formed.2.2⟩

variable {s : State} {x : Outcome}

theorem always_of_bad (none_ : x.bad = none) (start : ℕ) :
    Always fun blk => State.bget x (start + blk) := by
  intro blk
  simp [State.bget, none_]

theorem blocks_room {bytes blocks : ℕ} (small : bytes < 2 ^ 31) (fits : BLOCKS bytes ≤ blocks) :
    bytes ≤ blocks * BLOCKSIZE := by
  rw [BLOCKS, wrap_eq (by simp only [BLOCKSIZE]; omega)] at fits
  simp only [BLOCKSIZE] at fits ⊢
  omega

/-! ## Reading -/

/-- A read that meets the condition. -/
theorem bfsRead_spec (sound : Sound s) {c mArg : ℕ} (fits : Fits s (x, .read c mArg))
    {r : Reply} (answered : (s.bfsRead x c mArg).2 = some r) :
    r.mArg = min mArg (s.inode.iFsize - s.fPos c) ∧ r.moved = r.mArg ∧
    r.data.length = r.mArg ∧
    (s.bfsRead x c mArg).1 = { s with fPos := Function.update s.fPos c (s.fPos c + r.mArg) } ∧
    ∀ j, (there : j < r.data.length) → ∀ b, s.contents (s.fPos c + j) = some b → r.data[j] = b := by
  rw [State.bfsRead] at answered ⊢
  by_cases beyond : s.inode.iFsize ≤ s.fPos c
  · rw [if_pos beyond] at answered ⊢
    obtain rfl := Option.some.inj answered
    refine ⟨by simp only; omega, rfl, rfl, ?_, fun j there => absurd there (Nat.not_lt_zero j)⟩
    simp [Function.update_eq_self]
  · rw [if_neg beyond] at answered ⊢
    obtain ⟨none_, exact_⟩ := fits (not_le.mp beyond)
    cases mem : x.mem with
    | false => simp [mem] at answered
    | true =>
        have always := always_of_bad none_ s.inode.iStart
        have good := rounds_all always (s.toRead (s.fPos c) mArg) (s.toRead (s.fPos c) mArg)
          (s.fPos c) 0
        have whole := (moved_eq_iff always).mpr exact_
        have follow := rounds_follow (fun blk => State.bget x (s.inode.iStart + blk))
          (s.toRead (s.fPos c) mArg) (s.toRead (s.fPos c) mArg) (s.fPos c) 0
        simp only [mem, State.transfer, good, if_true, Bool.not_true, Bool.false_eq_true,
          if_false, whole, doRead_eq follow] at answered ⊢
        obtain rfl := Option.some.inj answered
        refine ⟨?_, rfl, by simp, rfl, fun j there b known => ?_⟩
        · simp only [State.toRead]
          split_ifs <;> omega
        · simp only [List.length_map, List.length_range] at there
          have stored := (sound.stored _ _ known).2
          have here := @put_inside _ (fun _ => (0 : UChar))
            (fun i => s.disk (s.inode.iStart * BLOCKSIZE + s.fPos c + i)) 0 _ _ there
          rw [Nat.zero_add] at here
          simp only [List.getElem_map, List.getElem_range]
          rw [here, ← stored, Nat.add_assoc]

/-- A read only moves the position. -/
theorem bfsRead_sound (sound : Sound s) {c mArg : ℕ} : Sound (s.bfsRead x c mArg).1 := by
  rw [State.bfsRead]
  split_ifs
  · exact sound
  · exact sound
  · simp only
    split_ifs
    · exact ⟨sound.length, sound.stored, sound.room, sound.placed, sound.small⟩
    · exact ⟨sound.length, sound.stored, sound.room, sound.placed, sound.small⟩

/-! ## Writing -/

/-- What a file has after it got a length. -/
theorem holdAll_spec (sound : Sound s) (spot : x.spot.1 ≠ 0) {newsize : ℕ}
    (small : newsize < 2 ^ 31) :
    (s.inode.iFsize ≠ 0 → (s.holdAll x newsize).1.iStart = s.inode.iStart) ∧
    (s.holdAll x newsize).1.iFsize =
      (if (s.holdAll x newsize).2 then max s.inode.iFsize newsize else s.inode.iFsize) ∧
    Formed (s.holdAll x newsize).1 := by
  rw [State.holdAll]
  split_ifs with longer given given
  · rw [State.blkAlloc] at given ⊢
    have bigger : max s.inode.iFsize newsize = newsize := max_eq_right longer.le
    by_cases fresh_ : s.inode.iStart = 0
    · have empty := sound.placed fresh_
      rw [if_pos fresh_] at given ⊢
      split_ifs at given ⊢ with full
      refine ⟨fun some_ => absurd empty some_, bigger.symm, .inr ?_, fun zero => absurd zero spot,
        small⟩
      exact blocks_room small (not_lt.mp full)
    · rw [if_neg fresh_] at given ⊢
      split_ifs at given ⊢ with full
      exact ⟨fun _ => rfl, bigger.symm, .inr (blocks_room small (not_lt.mp full)),
        fun zero => absurd zero fresh_, small⟩
  · rw [State.blkAlloc] at given ⊢
    by_cases fresh_ : s.inode.iStart = 0
    · have empty := sound.placed fresh_
      rw [if_pos fresh_] at given ⊢
      split_ifs at given ⊢ with full
      · exact ⟨fun some_ => absurd empty some_, rfl, .inl empty, fun _ => empty, sound.small⟩
      · exact absurd rfl given
    · rw [if_neg fresh_] at given ⊢
      split_ifs at given ⊢ with full
      · exact ⟨fun _ => rfl, rfl, sound.room, sound.placed, sound.small⟩
      · exact absurd rfl given
  · exact ⟨fun _ => rfl, (max_eq_left (not_lt.mp longer)).symm, sound.room, sound.placed,
      sound.small⟩
  · exact absurd rfl given

/-- What a write that meets the condition and has its blocks leaves behind. -/
def written (s : State) (x : Outcome) (c buflen : ℕ) : State :=
  let i := (s.holdAll x (s.fPos c + buflen)).1
  { s with
    inode := i
    disk := put s.disk (i.iStart * BLOCKSIZE + s.fPos c) buflen x.buf
    fPos := Function.update s.fPos c (s.fPos c + buflen)
    contents := put s.contents (s.fPos c) buflen fun j => some (x.buf j)
    high := if buflen = 0 then s.high else max s.high (s.fPos c + buflen) }

/-- A write that meets the condition is refused, finds no blocks, or moves its buffer. -/
theorem bfsWrite_cases {c buflen : ℕ} (fits : Fits s (x, .write c buflen)) :
    s.bfsWrite x c buflen = (s, none) ∨
    (s.fWrite c = true ∧ (s.holdAll x (s.fPos c + buflen)).2 = false ∧ s.bfsWrite x c buflen =
      ({ s with inode := (s.holdAll x (s.fPos c + buflen)).1 }, none)) ∨
    (s.fWrite c = true ∧ (s.holdAll x (s.fPos c + buflen)).2 = true ∧ s.bfsWrite x c buflen =
      (written s x c buflen, some ⟨buflen, [], buflen⟩)) := by
  rw [State.bfsWrite]
  cases may : s.fWrite c with
  | false => exact .inl rfl
  | true =>
      obtain ⟨none_, exact_, small, -⟩ := fits may
      rw [wrap_eq (by omega)]
      cases room : (s.holdAll x (s.fPos c + buflen)).2 with
      | false => exact .inr (.inl ⟨rfl, rfl, by simp [room]⟩)
      | true =>
          refine .inr (.inr ⟨rfl, rfl, ?_⟩)
          have always := always_of_bad none_ (s.holdAll x (s.fPos c + buflen)).1.iStart
          have good := rounds_all always buflen buflen (s.fPos c) 0
          have whole := (moved_eq_iff always).mpr exact_
          have follow := rounds_follow
            (fun blk => State.bget x ((s.holdAll x (s.fPos c + buflen)).1.iStart + blk)) buflen buflen
            (s.fPos c) 0
          simp [room, State.transfer, good, whole, doWrite_eq follow, written]

/-- What was written before and what is written now is on the disk. -/
theorem written_sound (sound : Sound s) {c buflen : ℕ} (spot : x.spot.1 ≠ 0)
    (small : s.fPos c + buflen < 2 ^ 31) (inside : buflen = 0 → s.fPos c ≤ s.inode.iFsize)
    (room : (s.holdAll x (s.fPos c + buflen)).2 = true) : Sound (written s x c buflen) := by
  obtain ⟨same, length, held, placed, bounded⟩ := holdAll_spec sound spot small
  rw [room, if_pos rfl] at length
  refine ⟨?_, fun p b known => ?_, held, placed, bounded⟩
  · simp only [written, length, sound.length] at inside ⊢
    split_ifs with nothing
    · have := inside nothing
      omega
    · rfl
  · simp only [written] at known ⊢
    by_cases here : s.fPos c ≤ p ∧ p < s.fPos c + buflen
    · obtain ⟨j, rfl⟩ := Nat.exists_eq_add_of_le here.1
      have there : j < buflen := by omega
      rw [put_inside there] at known
      rw [← Nat.add_assoc, put_inside there, length]
      exact ⟨lt_max_of_lt_right here.2, Option.some.inj known⟩
    · have outside : p < s.fPos c ∨ s.fPos c + buflen ≤ p := by omega
      rw [put_outside outside] at known
      obtain ⟨within, stored⟩ := sound.stored _ _ known
      rw [put_outside (by omega), same (by omega), length]
      exact ⟨lt_max_of_lt_left within, stored⟩

/-- A write keeps the file sound. -/
theorem bfsWrite_sound (sound : Sound s) {c buflen : ℕ} (spot : x.spot.1 ≠ 0)
    (fits : Fits s (x, .write c buflen)) : Sound (s.bfsWrite x c buflen).1 := by
  rcases bfsWrite_cases fits with same | ⟨may, full, same⟩ | ⟨may, room, same⟩
  · rwa [same]
  · obtain ⟨-, -, small, -⟩ := fits may
    obtain ⟨start, length, held, placed, bounded⟩ := holdAll_spec sound spot small
    rw [full] at length
    rw [same]
    refine ⟨length.trans sound.length, fun p b known => ?_, held, placed, bounded⟩
    obtain ⟨within, stored⟩ := sound.stored _ _ known
    simp only [length, start (by omega)]
    exact ⟨within, stored⟩
  · obtain ⟨-, -, small, inside⟩ := fits may
    rw [same]
    exact written_sound sound spot small inside room

/-- What a write that is answered did. -/
theorem bfsWrite_spec (sound : Sound s) {c buflen : ℕ} (spot : x.spot.1 ≠ 0)
    (fits : Fits s (x, .write c buflen)) {r : Reply}
    (answered : (s.bfsWrite x c buflen).2 = some r) :
    let t := (s.bfsWrite x c buflen).1
    r.mArg = buflen ∧ r.moved = buflen ∧
    t.fPos = Function.update s.fPos c (s.fPos c + buflen) ∧
    (buflen = 0 ∨ s.fPos c + buflen ≤ t.inode.iBlocks * BLOCKSIZE) ∧
    t.disk = put s.disk (t.inode.iStart * BLOCKSIZE + s.fPos c) buflen x.buf := by
  rcases bfsWrite_cases fits with same | ⟨-, -, same⟩ | ⟨may, room, same⟩
  · rw [same] at answered
    exact nomatch answered
  · rw [same] at answered
    exact nomatch answered
  · obtain ⟨-, -, small, -⟩ := fits may
    obtain ⟨-, length, held, -, -⟩ := holdAll_spec sound spot small
    rw [room, if_pos rfl] at length
    simp only [same, Option.some.injEq] at answered ⊢
    subst answered
    refine ⟨rfl, rfl, rfl, ?_, rfl⟩
    rcases held with empty | held
    · exact .inl (by omega)
    · exact .inr ((by omega : _ ≤ _).trans held)

/-! ## Runs -/

/-- Each step that meets the condition keeps the file sound. -/
theorem step_sound {label : Outcome × Action} {t : State} (sound : Sound s)
    (fits : Fits s label) (taken : Step s label t) : Sound t := by
  obtain ⟨x, action⟩ := label
  obtain ⟨legal, rfl⟩ := taken
  cases action with
  | open_ c create write =>
      cases create with
      | false => exact ⟨sound.length, sound.stored, sound.room, sound.placed, sound.small⟩
      | true =>
          exact ⟨rfl, (fun _ _ known => nomatch known), .inl rfl, fun _ => rfl, Nat.two_pow_pos 31⟩
  | dup c fold => exact ⟨sound.length, sound.stored, sound.room, sound.placed, sound.small⟩
  | seek c mArg => exact ⟨sound.length, sound.stored, sound.room, sound.placed, sound.small⟩
  | read c mArg => exact bfsRead_sound sound
  | write c buflen => exact bfsWrite_sound sound legal fits
  | blocks n =>
      exact ⟨sound.length, sound.stored, .inr (blocks_room sound.small legal), sound.placed,
        sound.small⟩
  | other disk =>
      refine ⟨sound.length, fun p b known => ?_, sound.room, sound.placed, sound.small⟩
      obtain ⟨within, stored⟩ := sound.stored _ _ known
      exact ⟨within, (legal p within).trans stored⟩

/-- Runs of steps that meet the condition. -/
abbrev FitsReaches := Transition.Reaches Step Fits

/-- What a request that is answered did. -/
def Answered (s : State) (x : Outcome) (r : Reply) : Action → Prop
  | .read c mArg =>
      let t := (s.exec x (.read c mArg)).1
      r.mArg = min mArg (s.inode.iFsize - s.fPos c) ∧ r.moved = r.mArg ∧
      r.data.length = r.mArg ∧
      t = { s with fPos := Function.update s.fPos c (s.fPos c + r.mArg) } ∧
      ∀ j, (there : j < r.data.length) → ∀ b, s.contents (s.fPos c + j) = some b → r.data[j] = b
  | .write c buflen =>
      let t := (s.exec x (.write c buflen)).1
      r.mArg = buflen ∧ r.moved = buflen ∧
      t.fPos = Function.update s.fPos c (s.fPos c + buflen) ∧
      (buflen = 0 ∨ s.fPos c + buflen ≤ t.inode.iBlocks * BLOCKSIZE) ∧
      t.disk = put s.disk (t.inode.iStart * BLOCKSIZE + s.fPos c) buflen x.buf
  | _ => True

end Vsta.Bfs
