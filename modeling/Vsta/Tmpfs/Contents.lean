import Vsta.Tmpfs.File
import Vsta.Library.Runs
import Vsta.Vstafs.Requests

/-!
# A file of the memory filesystem is an array of bytes

One file of the memory filesystem and its clients. Where other files get their memory is up to the
rest of the server. What was reported as written since the file was truncated is kept beside the
blocks, as history.

In every run of requests that meet `Fits` the file is that array, with zeroes where nothing was
written, and its length is the highest position written (`file_is_sparse_array`). Others are a
segment for which memory runs out behind its first block, whose start is written and not reported,
and an empty one behind the end, which makes the file longer (`not_reported`).
-/

set_option autoImplicit false

namespace Vsta.Tmpfs

open Vstafs WriteBack

abbrev ACC_DIR : ULong := 0x20

/-- `struct openfile`: the blocks and `o_len`. The bytes that were reported as written, zeroes
elsewhere, and the highest position of them are history. -/
structure Openfile where
  oBlocks : Blocks
  oLen : ℕ
  contents : ℕ → UChar
  high : ℕ

/-- `struct file`, of a client that has the file open or is in the directory. -/
structure File where
  fFile : Bool
  fPos : ℕ
  fPerm : ULong

/-- The file, and its clients. -/
structure State where
  file : Openfile
  client : ℕ → File

/-- What a request finds: memory for each block, for a buffer that a read needs, the permissions on
the file, and the position in the directory that a read of it gets to. -/
structure Outcome where
  mem : ℕ → Bool
  tmpbuf : Bool
  perm : ULong
  pos : ULong

/-- A request of a client. -/
inductive Action where
  | open_ (c : ℕ) (mArg : ULong)
  | dup (c fold : ℕ)
  | seek (c : ℕ) (mArg : ULong)
  | read (c : ℕ) (mArg : ULong)
  | absread (c : ℕ) (mArg mArg1 : ULong)
  | write (c : ℕ) (mSeg : List (List UChar))
  | abswrite (c : ℕ) (mArg1 : ULong) (mSeg : List (List UChar))

/-- An answer: an error, nothing, a count, or a count and the data. -/
inductive Reply where
  | err | plain | names
  | count (mArg : ℕ)
  | data (mArg : ℕ) (mSeg : List (List UChar))
  deriving DecidableEq, Repr

namespace Openfile

/-- `blk_trunc`. -/
def truncate : Openfile := ⟨fun _ => none, 0, fun _ => 0, 0⟩

/-- A round of the loop of `tmpfs_write`, and whether the segment was written. -/
def writeSeg (o : Openfile) (mem : ℕ → Bool) (pos : ℕ) (seg : List UChar) : Openfile × Bool :=
  let (blocks, good) := doWrite mem (fun j => seg.getD j 0) seg.length seg.length o.oBlocks pos 0
  if good then
    let end_ := wrap (pos + seg.length)
    ({ oBlocks := blocks
       oLen := if o.oLen < end_ then end_ else o.oLen
       contents := put o.contents pos seg.length fun j => seg.getD j 0
       high := if seg = [] then o.high else max o.high (pos + seg.length) }, true)
  else ({ o with oBlocks := blocks }, false)

/-- The loop of `tmpfs_write`: the position, the count and the error it ends with. -/
def writeSegs (mem : ℕ → Bool) : List (List UChar) → Openfile → ℕ → ℕ → Openfile × ℕ × ℕ × Bool
  | [], o, pos, cnt => (o, pos, cnt, false)
  | seg :: rest, o, pos, cnt =>
      let (o, good) := o.writeSeg mem pos seg
      if good then
        writeSegs mem rest o (wrap (pos + seg.length)) (wrap (cnt + seg.length))
      else (o, pos, cnt, true)

end Openfile

namespace State

/-- The `struct file` of a client changes. -/
def setClient (s : State) (c : ℕ) (f : File) : State :=
  { s with client := Function.update s.client c f }

/-- `tmpfs_open` of a file that is there. -/
def tmpfsOpen (s : State) (x : Outcome) (c : ℕ) (mArg : ULong) : State × Reply :=
  let f := s.client c
  if f.fFile then (s, .err)
  else if has mArg ACC_DIR then (s, .err)
  else
    let want := mArg &&& (ACC_READ ||| ACC_WRITE ||| ACC_CHMOD)
    if want &&& x.perm ≠ want then (s, .err)
    else
      let s := if has mArg ACC_CREATE then { s with file := .truncate } else s
      (s.setClient c { f with fFile := true, fPerm := want ||| (x.perm &&& ACC_CHMOD) }, .plain)

/-- `tmpfs_write`. -/
def tmpfsWrite (s : State) (x : Outcome) (c : ℕ) (mSeg : List (List UChar)) : State × Reply :=
  let f := s.client c
  if !f.fFile || !has f.fPerm ACC_WRITE then (s, .err)
  else
    let (o, pos, cnt, err) := Openfile.writeSegs x.mem mSeg s.file f.fPos 0
    let s := { s with file := o }.setClient c { f with fPos := pos }
    if cnt = 0 && err then (s, .err) else (s, .count cnt)

/-- What `tmpfs_read` can return at most of a position. -/
def toRead (s : State) (pos : ℕ) (mArg : ULong) : ℕ :=
  if s.file.oLen - pos < mArg.toNat then s.file.oLen - pos else mArg.toNat

/-- The segments of a read: as many as a message has, and the rest of the data behind the last of
them. -/
def segments (b : Blocks) (tmpbuf : Bool) (lim pos : ℕ) : List (List UChar) × ℕ :=
  let first := gather b lim MSGSEGS pos 0
  if first.2 < lim then
    if tmpbuf then
      let rest := gather b lim (lim - first.2) (wrap (pos + first.2)) first.2
      (first.1.dropLast ++ [first.1.getLast?.getD [] ++ rest.1.flatten], rest.2)
    else first
  else first

/-- `tmpfs_read`; `tmpfs_readdir` for the directory. -/
def tmpfsRead (s : State) (x : Outcome) (c : ℕ) (mArg : ULong) : State × Reply :=
  let f := s.client c
  if !f.fFile then (s.setClient c { f with fPos := x.pos.toNat }, .names)
  else if !has f.fPerm ACC_READ then (s, .err)
  else if s.file.oLen ≤ f.fPos then (s, .data 0 [])
  else
    let (mSeg, cnt) := segments s.file.oBlocks x.tmpbuf (s.toRead f.fPos mArg) f.fPos
    (s.setClient c { f with fPos := wrap (f.fPos + cnt) }, .data cnt mSeg)

/-- `tmpfs_seek`. -/
def tmpfsSeek (s : State) (c : ℕ) (mArg : ULong) : State × Reply :=
  if mArg.slt 0 then (s, .err)
  else (s.setClient c { s.client c with fPos := mArg.toNat }, .plain)

/-- The switch of `tmpfs_main`. -/
def exec (s : State) (x : Outcome) : Action → State × Reply
  | .open_ c mArg => s.tmpfsOpen x c mArg
  | .dup c fold => (s.setClient c (s.client fold), .plain)
  | .seek c mArg => s.tmpfsSeek c mArg
  | .read c mArg => s.tmpfsRead x c mArg
  | .absread c mArg mArg1 =>
      if mArg1.slt 0 then (s, .err)
      else (s.setClient c { s.client c with fPos := mArg1.toNat }).tmpfsRead x c mArg
  | .write c mSeg => s.tmpfsWrite x c mSeg
  | .abswrite c mArg1 mSeg =>
      if mArg1.slt 0 then (s, .err)
      else (s.setClient c { s.client c with fPos := mArg1.toNat }).tmpfsWrite x c mSeg

end State

/-- A new file, and clients in the directory. -/
def start : State := ⟨.truncate, fun _ => ⟨false, 0, ACC_READ ||| ACC_WRITE⟩⟩

/-- One request. -/
def Step (s : State) (label : Outcome × Action) (t : State) : Prop :=
  (s.exec label.1 label.2).1 = t

/-! ## The condition -/

/-- Segments that are written at a position stay below 2^32, and each finds all its blocks or not
even the first. The loop ends at the first that does not. -/
def Whole (b : Blocks) (mem : ℕ → Bool) : List (List UChar) → ℕ → Prop
  | [], _ => True
  | seg :: rest, pos => pos + seg.length < 2 ^ 32 ∧
      ((∀ j < seg.length, b.Has mem (blknum (pos + j))) ∧ Whole b mem rest (pos + seg.length) ∨
        seg ≠ [] ∧ ¬b.Has mem (blknum pos))

/-- The condition on a write at a position: an empty segment does not come first behind the end, and
memory does not run out behind the first block of a segment. -/
def FitsWrite (s : State) (x : Outcome) (c : ℕ) (mSeg : List (List UChar)) (pos : ℕ) : Prop :=
  (s.client c).fFile = true → has (s.client c).fPerm ACC_WRITE = true →
    (mSeg.head? = some [] → pos ≤ s.file.oLen) ∧ Whole s.file.oBlocks x.mem mSeg pos

/-- The condition on a read at a position: a buffer that can be had leaves room for a block in the
numbers. -/
def FitsRead (s : State) (x : Outcome) (mArg : ULong) (pos : ℕ) : Prop :=
  x.tmpbuf = true → s.toRead pos mArg + BLOCKSIZE ≤ 2 ^ 32

/-- The condition on a request. -/
def Fits (s : State) (label : Outcome × Action) : Prop :=
  match label.2 with
  | .read c mArg => FitsRead s label.1 mArg (s.client c).fPos
  | .absread _ mArg mArg1 => FitsRead s label.1 mArg mArg1.toNat
  | .write c mSeg => FitsWrite s label.1 c mSeg (s.client c).fPos
  | .abswrite c mArg1 mSeg => FitsWrite s label.1 c mSeg mArg1.toNat
  | _ => True

/-- The blocks are what was written. -/
structure Openfile.Sound (o : Openfile) : Prop where
  length : o.oLen = o.high
  bytes : o.oBlocks.byte = o.contents
  beyond : ∀ p, o.high ≤ p → o.contents p = 0
  small : o.oLen < 2 ^ 32

/-- And positions are numbers of the machine. -/
structure Sound (s : State) : Prop where
  file : s.file.Sound
  near : ∀ c, (s.client c).fPos < 2 ^ 32

variable {o : Openfile} {s : State} {x : Outcome} {c pos : ℕ}

theorem truncate_sound : Openfile.truncate.Sound :=
  ⟨rfl, funext fun _ => rfl, fun _ _ => rfl, by decide⟩

/-! ## Writing -/

/-- The file after data was written at a position. -/
structure Wrote (o : Openfile) (pos : ℕ) (data : List UChar) (o' : Openfile) : Prop where
  contents : o'.contents = put o.contents pos data.length fun j => data.getD j 0
  high : o'.high = if data = [] then o.high else max o.high (pos + data.length)

theorem wrote_nothing : Wrote o pos [] o := ⟨by rw [List.length_nil, put_zero], by rw [if_pos rfl]⟩

/-- Data, and more behind it. -/
theorem Wrote.append {o' o'' : Openfile} {data more : List UChar} (first : Wrote o pos data o')
    (second : Wrote o' (pos + data.length) more o'') : Wrote o pos (data ++ more) o'' := by
  refine ⟨?_, ?_⟩
  · rw [second.contents, first.contents, List.length_append, ← put_append]
    congr 1
    · exact put_congr fun i less => by
        rw [List.getD_eq_getElem?_getD, List.getD_eq_getElem?_getD, List.getElem?_append_left less]
    · funext i
      rw [List.getD_eq_getElem?_getD, List.getD_eq_getElem?_getD,
        List.getElem?_append_right (Nat.le_add_right _ _), Nat.add_sub_cancel_left]
  · rw [second.high, first.high, List.length_append]
    by_cases none_ : data = []
    · simp [none_]
    · by_cases none' : more = []
      · simp [none_, none']
      · simp only [none_, none', List.append_eq_nil_iff, false_and, if_false]
        omega

/-- **A segment that finds all its blocks is written; one that does not find the first changes
nothing.** -/
theorem writeSeg_spec (sound : o.Sound) {mem : ℕ → Bool} {seg : List UChar}
    (small : pos + seg.length < 2 ^ 32) (behind : seg = [] → pos ≤ o.oLen) :
    ((∀ j < seg.length, o.oBlocks.Has mem (blknum (pos + j))) → ∃ o',
      o.writeSeg mem pos seg = (o', true) ∧ o'.Sound ∧ Wrote o pos seg o' ∧
      (∀ blk, o'.oBlocks.Has mem blk ↔ o.oBlocks.Has mem blk) ∧ (seg ≠ [] → pos + seg.length ≤ o'.oLen) ∧
      o.oLen ≤ o'.oLen) ∧
    (seg ≠ [] → ¬o.oBlocks.Has mem (blknum pos) → o.writeSeg mem pos seg = (o, false)) := by
  constructor
  · intro has
    obtain ⟨b, wrote, bytes, same⟩ := doWrite_spec o.oBlocks (fun j => seg.getD j 0)
      (Nat.le_add_left seg.length 0) small has
    have length : (if o.oLen < pos + seg.length then pos + seg.length else o.oLen) =
        if seg = [] then o.high else max o.high (pos + seg.length) := by
      rw [← sound.length]
      by_cases none_ : seg = []
      · have inside := behind none_
        simp only [none_, List.length_nil, if_true]
        split_ifs <;> omega
      · rw [if_neg none_]
        split_ifs <;> omega
    rw [Openfile.writeSeg]
    simp only [wrote, if_true, wrap_eq small, length]
    refine ⟨_, rfl, ⟨rfl, ?_, fun p above => ?_, ?_⟩, ⟨rfl, rfl⟩, same, fun some_ => ?_, ?_⟩
    · simp only [bytes, Nat.zero_add, Nat.sub_zero, sound.bytes]
    · have above : o.high ≤ p ∧ pos + seg.length ≤ p ∨ seg = [] ∧ o.high ≤ p := by
        simp only at above
        split_ifs at above with none_
        · exact .inr ⟨none_, above⟩
        · exact .inl ⟨by omega, by omega⟩
      rcases above with ⟨above, outside⟩ | ⟨none_, above⟩
      · simp only [put_outside (.inr outside), sound.beyond p above]
      · simp only [none_, List.length_nil, put_zero, sound.beyond p above]
    · have below := sound.small
      rw [sound.length] at below
      simp only
      split_ifs <;> omega
    · simp only [if_neg some_]
      omega
    · have old := sound.length
      simp only
      split_ifs <;> omega
  · intro some_ not_
    have more : 0 < seg.length := List.length_pos_iff.mpr some_
    rw [Openfile.writeSeg, doWrite_nothing more more.ne' not_]
    rfl

/-- Whether the segments find their blocks depends on which there are, and can be had. -/
theorem whole_congr {b b' : Blocks} {mem : ℕ → Bool} (same : ∀ blk, b.Has mem blk ↔ b'.Has mem blk)
    {mSeg : List (List UChar)} : Whole b mem mSeg pos ↔ Whole b' mem mSeg pos := by
  induction mSeg generalizing pos with
  | nil => exact Iff.rfl
  | cons seg rest ih => simp only [Whole, same, ih]

/-- **The loop of `tmpfs_write` writes the segments up to one for which there is no memory.** -/
theorem writeSegs_spec {mem : ℕ → Bool} {mSeg : List (List UChar)} {cnt : ℕ} (sound : o.Sound)
    (whole : Whole o.oBlocks mem mSeg pos) (behind : mSeg.head? = some [] → pos ≤ o.oLen)
    (near : pos < 2 ^ 32) (small : cnt ≤ pos) :
    ∃ o' k err, Openfile.writeSegs mem mSeg o pos cnt =
        (o', pos + (mSeg.take k).flatten.length, cnt + (mSeg.take k).flatten.length, err) ∧
      o'.Sound ∧ Wrote o pos (mSeg.take k).flatten o' ∧
      pos + (mSeg.take k).flatten.length < 2 ^ 32 ∧ (err = false → mSeg.length ≤ k) := by
  induction mSeg generalizing o pos cnt with
  | nil => exact ⟨o, 0, false, rfl, sound, wrote_nothing, near, fun _ => le_rfl⟩
  | cons seg rest ih =>
      obtain ⟨below, ⟨found, later⟩ | ⟨some_, none_⟩⟩ := whole
      · have inside : seg = [] → pos ≤ o.oLen := fun empty => behind (by rw [empty]; rfl)
        obtain ⟨o', good, sound', wrote, same, reaches, longer⟩ :=
          (writeSeg_spec sound below inside).1 found
        have next : rest.head? = some [] → pos + seg.length ≤ o'.oLen := by
          intro _
          by_cases empty : seg = []
          · rw [empty, List.length_nil, Nat.add_zero]
            exact (inside empty).trans longer
          · exact reaches empty
        obtain ⟨o'', k, err, wrote', sound'', wroteRest, below', all⟩ := ih sound'
          ((whole_congr same).mpr later) next below (Nat.add_le_add_right small seg.length)
        refine ⟨o'', k + 1, err, ?_, sound'', ?_, ?_, fun ended => Nat.succ_le_succ (all ended)⟩
        · rw [Openfile.writeSegs]
          simp only [good, if_true]
          rw [wrap_eq below, wrap_eq (by omega), wrote']
          simp only [List.take_succ_cons, List.flatten_cons, List.length_append, Nat.add_assoc]
        · exact wrote.append wroteRest
        · rw [List.take_succ_cons, List.flatten_cons, List.length_append, ← Nat.add_assoc]
          exact below'
      · have nothing := (writeSeg_spec sound below fun empty => absurd empty some_).2 some_ none_
        refine ⟨o, 0, true, ?_, sound, wrote_nothing, near, nofun⟩
        rw [Openfile.writeSegs]
        simp only [nothing]
        rfl

/-! ## Reading -/

/-- **The segments of a read are the bytes of the file from the position on**, all that were asked
for if there is memory for them. -/
theorem segments_spec (b : Blocks) {tmpbuf : Bool} {lim : ℕ} (near : pos + lim < 2 ^ 32)
    (room : tmpbuf = true → lim + BLOCKSIZE ≤ 2 ^ 32) :
    (State.segments b tmpbuf lim pos).2 ≤ lim ∧ (tmpbuf = true → (State.segments b tmpbuf lim pos).2 = lim) ∧
      (0 < lim → 0 < (State.segments b tmpbuf lim pos).2) ∧
      (State.segments b tmpbuf lim pos).1.flatten =
        (List.range (State.segments b tmpbuf lim pos).2).map fun j => b.byte (pos + j) := by
  have few : 0 + MSGSEGS * BLOCKSIZE < 2 ^ 32 := by decide
  obtain ⟨-, most, -, progress, bytes⟩ := gather_spec b (.inr few) near (Nat.zero_le lim)
  have progress : 0 < lim → 0 < (gather b lim MSGSEGS pos 0).2 := fun some_ =>
    progress some_ (by decide)
  simp only [State.segments]
  generalize gather b lim MSGSEGS pos 0 = first at most progress bytes
  rw [Nat.sub_zero] at bytes
  by_cases more : first.2 < lim
  · rw [if_pos more]
    by_cases buffer : tmpbuf = true
    · rw [if_pos buffer]
      rw [wrap_eq (by omega)]
      have near' : pos + first.2 + (lim - first.2) < 2 ^ 32 := by omega
      have spec := @gather_spec b lim (lim - first.2) _ _ (.inl (room buffer)) near' more.le
      generalize gather b lim (lim - first.2) (pos + first.2) first.2 = rest at *
      obtain ⟨behind, most', all, -, bytes'⟩ := spec
      have all := all le_rfl
      refine ⟨most', fun _ => all, fun some_ => by simp only; omega, ?_⟩
      have last : first.1.dropLast.flatten ++ first.1.getLast?.getD [] = first.1.flatten := by
        rcases List.eq_nil_or_concat first.1 with none_ | ⟨front, end_, ends⟩
        · rw [none_]
          rfl
        · rw [ends, List.concat_eq_append]
          simp
      have split_ : rest.2 = first.2 + (rest.2 - first.2) := by omega
      simp only [List.flatten_append, List.flatten_singleton]
      rw [← List.append_assoc, last, bytes, bytes', split_, List.range_add, List.map_append,
        List.map_map, Nat.add_sub_cancel_left]
      simp only [Function.comp_def, Nat.add_assoc]
    · rw [if_neg buffer]
      exact ⟨most, fun had => absurd had buffer, progress, bytes⟩
  · rw [if_neg more]
    exact ⟨most, fun _ => by omega, progress, bytes⟩

/-! ## Requests -/

/-- What a read has to answer: the bytes of the file from the position on, up to the end of it. -/
structure ReadBack (o : Openfile) (x : Outcome) (pos mArg cnt : ℕ) (mSeg : List (List UChar)) :
    Prop where
  bytes : mSeg.flatten = (List.range cnt).map fun j => o.contents (pos + j)
  most : cnt ≤ min mArg (o.high - pos)
  all : x.tmpbuf = true → cnt = min mArg (o.high - pos)
  progress : 0 < min mArg (o.high - pos) → 0 < cnt

/-- The client, the position and how much a request reads. -/
def State.reads (s : State) : Action → Option (ℕ × ℕ × ℕ)
  | .read c mArg => some (c, (s.client c).fPos, mArg.toNat)
  | .absread c mArg mArg1 => some (c, mArg1.toNat, mArg.toNat)
  | _ => none

/-- The client, the position and the data that a request writes. -/
def State.writes (s : State) : Action → Option (ℕ × ℕ × List (List UChar))
  | .write c mSeg => some (c, (s.client c).fPos, mSeg)
  | .abswrite c mArg1 mSeg => some (c, mArg1.toNat, mSeg)
  | _ => none

/-- What an answer says: a count is of a read that was right, or of the data that is now in the
file; an error leaves the contents; and nothing else changes them but an open that truncates. -/
def Served (s : State) (x : Outcome) (a : Action) (t : State) : Reply → Prop
  | .data cnt mSeg => t.file = s.file ∧ ∃ c pos mArg, s.reads a = some (c, pos, mArg) ∧
      (t.client c).fPos = pos + cnt ∧ ReadBack s.file x pos mArg cnt mSeg
  | .count cnt => ∃ c pos mSeg k, s.writes a = some (c, pos, mSeg) ∧
      cnt = (mSeg.take k).flatten.length ∧ (t.client c).fPos = pos + cnt ∧
      Wrote s.file pos (mSeg.take k).flatten t.file
  | .plain => t.file = match a with
      | .open_ _ mArg => if has mArg ACC_CREATE then .truncate else s.file
      | _ => s.file
  | .err | .names => t.file.contents = s.file.contents ∧ t.file.high = s.file.high

@[simp] theorem setClient_file (f : File) : (s.setClient c f).file = s.file := rfl

@[simp] theorem setClient_client (f : File) : (s.setClient c f).client c = f :=
  Function.update_self ..

/-- A client moves to a position. -/
theorem Sound.setClient (sound : Sound s) {f : File} (near : f.fPos < 2 ^ 32) :
    Sound (s.setClient c f) where
  file := sound.file
  near c' := by
    simp only [State.setClient, Function.update_apply]
    split_ifs
    · exact near
    · exact sound.near c'

theorem toRead_eq (mArg : ULong) : s.toRead pos mArg = min mArg.toNat (s.file.oLen - pos) := by
  rw [State.toRead]
  split_ifs <;> omega

/-- **`tmpfs_read` reads back what was written.** -/
theorem tmpfsRead_spec (sound : Sound s) (c : ℕ) (mArg : ULong)
    (fits : FitsRead s x mArg (s.client c).fPos) :
    Sound (s.tmpfsRead x c mArg).1 ∧ (s.tmpfsRead x c mArg).1.file = s.file ∧
      ((s.tmpfsRead x c mArg).2 = .err ∨ (s.tmpfsRead x c mArg).2 = .names ∨
        ∃ cnt mSeg, (s.tmpfsRead x c mArg).2 = .data cnt mSeg ∧
          ((s.tmpfsRead x c mArg).1.client c).fPos = (s.client c).fPos + cnt ∧
          ReadBack s.file x (s.client c).fPos mArg.toNat cnt mSeg) := by
  have near := sound.near c
  have small := sound.file.small
  rw [State.tmpfsRead]
  by_cases directory : (!(s.client c).fFile) = true
  · rw [if_pos directory]
    exact ⟨sound.setClient x.pos.isLt, rfl, .inr (.inl rfl)⟩
  · rw [if_neg directory]
    by_cases access : (!has (s.client c).fPerm ACC_READ) = true
    · rw [if_pos access]
      exact ⟨sound, rfl, .inl rfl⟩
    · rw [if_neg access]
      by_cases eof : s.file.oLen ≤ (s.client c).fPos
      · rw [if_pos eof]
        have nothing : s.file.high - (s.client c).fPos = 0 := by
          rw [← sound.file.length]
          omega
        refine ⟨sound, rfl, .inr (.inr ⟨0, [], rfl, rfl, rfl, Nat.zero_le _, fun _ => ?_, ?_⟩)⟩
        · rw [nothing, Nat.min_zero]
        · rw [nothing, Nat.min_zero]
          exact id
      · rw [if_neg eof]
        rw [FitsRead] at fits
        simp only [toRead_eq] at fits ⊢
        have inside : (s.client c).fPos + min mArg.toNat (s.file.oLen - (s.client c).fPos) <
            2 ^ 32 := by omega
        obtain ⟨most, all, progress, bytes⟩ := segments_spec s.file.oBlocks inside fits
        generalize State.segments s.file.oBlocks x.tmpbuf
          (min mArg.toNat (s.file.oLen - (s.client c).fPos)) (s.client c).fPos = got at *
        have next : wrap ((s.client c).fPos + got.2) = (s.client c).fPos + got.2 :=
          wrap_eq (by omega)
        simp only [next]
        refine ⟨sound.setClient (by simp only; omega), rfl,
          .inr (.inr ⟨got.2, got.1, rfl, by rw [setClient_client], ?_⟩)⟩
        rw [sound.file.length] at most all progress
        rw [sound.file.bytes] at bytes
        exact ⟨bytes, most, all, progress⟩

/-- **`tmpfs_write` writes what it reports**, and nothing when it answers an error. -/
theorem tmpfsWrite_spec (sound : Sound s) (c : ℕ) (mSeg : List (List UChar))
    (fits : FitsWrite s x c mSeg (s.client c).fPos) :
    Sound (s.tmpfsWrite x c mSeg).1 ∧
      ((s.tmpfsWrite x c mSeg).2 = .err ∧
          (s.tmpfsWrite x c mSeg).1.file.contents = s.file.contents ∧
          (s.tmpfsWrite x c mSeg).1.file.high = s.file.high ∨
        ∃ cnt k, (s.tmpfsWrite x c mSeg).2 = .count cnt ∧ cnt = (mSeg.take k).flatten.length ∧
          ((s.tmpfsWrite x c mSeg).1.client c).fPos = (s.client c).fPos + cnt ∧
          Wrote s.file (s.client c).fPos (mSeg.take k).flatten (s.tmpfsWrite x c mSeg).1.file) := by
  rw [State.tmpfsWrite]
  by_cases refused : (!(s.client c).fFile || !has (s.client c).fPerm ACC_WRITE) = true
  · rw [if_pos refused]
    exact ⟨sound, .inl ⟨rfl, rfl, rfl⟩⟩
  · rw [if_neg refused]
    obtain ⟨file, access⟩ : (s.client c).fFile = true ∧
        has (s.client c).fPerm ACC_WRITE = true := by
      simpa using refused
    obtain ⟨behind, whole⟩ := fits file access
    obtain ⟨o, k, err, wrote, sound', contents, below, -⟩ := writeSegs_spec sound.file whole behind
      (sound.near c) (Nat.zero_le _)
    simp only [wrote, Nat.zero_add]
    have sound' : Sound (({ s with file := o } : State).setClient c
        { s.client c with fPos := (s.client c).fPos + (mSeg.take k).flatten.length }) :=
      Sound.setClient (s := { s with file := o }) ⟨sound', sound.near⟩ below
    by_cases nothing : ((mSeg.take k).flatten.length = 0 && err) = true
    · rw [if_pos nothing]
      refine ⟨sound', .inl ⟨rfl, ?_⟩⟩
      obtain ⟨none_, -⟩ : (mSeg.take k).flatten.length = 0 ∧ err = true := by
        simpa using nothing
      rw [List.length_eq_zero_iff] at none_
      rw [none_] at contents
      exact ⟨by rw [setClient_file, contents.contents, List.length_nil, put_zero],
        by rw [setClient_file, contents.high, if_pos rfl]⟩
    · rw [if_neg nothing]
      exact ⟨sound', .inr ⟨_, k, rfl, rfl, by rw [setClient_client], contents⟩⟩

/-- A client whose position was set, as the absolute requests do. -/
theorem Sound.setPosition (sound : Sound s) (mArg1 : ULong) :
    Sound (s.setClient c { s.client c with fPos := mArg1.toNat }) :=
  sound.setClient mArg1.isLt

/-- **A request that meets the condition is served as the file of bytes would.** -/
theorem exec_spec (sound : Sound s) {a : Action} (fits : Fits s (x, a)) :
    Sound (s.exec x a).1 ∧ Served s x a (s.exec x a).1 (s.exec x a).2 := by
  cases a with
  | open_ c mArg =>
      simp only [State.exec, State.tmpfsOpen]
      split_ifs with file directory denied truncate
      · exact ⟨sound, rfl, rfl⟩
      · exact ⟨sound, rfl, rfl⟩
      · exact ⟨sound, rfl, rfl⟩
      · refine ⟨Sound.setClient (s := { s with file := .truncate }) ⟨truncate_sound, sound.near⟩
          (sound.near c), ?_⟩
        simp only [Served, if_pos truncate, setClient_file]
      · refine ⟨sound.setClient (sound.near c), ?_⟩
        simp only [Served, if_neg truncate, setClient_file]
  | dup c fold => exact ⟨sound.setClient (sound.near fold), rfl⟩
  | seek c mArg =>
      simp only [State.exec, State.tmpfsSeek]
      split_ifs
      · exact ⟨sound, rfl, rfl⟩
      · exact ⟨sound.setPosition mArg, rfl⟩
  | read c mArg =>
      obtain ⟨sound', file, answer⟩ := tmpfsRead_spec sound c mArg fits
      refine ⟨sound', ?_⟩
      simp only [State.exec]
      rcases answer with err | names | ⟨cnt, mSeg, data, moved, back⟩
      · simp only [err, file, Served, and_self]
      · simp only [names, file, Served, and_self]
      · rw [data]
        exact ⟨file, c, _, _, rfl, moved, back⟩
  | absread c mArg mArg1 =>
      simp only [State.exec]
      split_ifs
      · exact ⟨sound, rfl, rfl⟩
      · have there := sound.setPosition (c := c) mArg1
        obtain ⟨sound', file, answer⟩ := tmpfsRead_spec there c mArg (x := x)
          (by rw [setClient_client]; exact fits)
        refine ⟨sound', ?_⟩
        rw [setClient_client, setClient_file] at answer
        rw [setClient_file] at file
        rcases answer with err | names | ⟨cnt, mSeg, data, moved, back⟩
        · simp only [err, file, Served, and_self]
        · simp only [names, file, Served, and_self]
        · rw [data]
          exact ⟨file, c, _, _, rfl, moved, back⟩
  | write c mSeg =>
      obtain ⟨sound', answer⟩ := tmpfsWrite_spec sound c mSeg fits
      refine ⟨sound', ?_⟩
      simp only [State.exec]
      rcases answer with ⟨err, same⟩ | ⟨cnt, k, count, length, moved, wrote⟩
      · simp only [err, Served]
        exact same
      · rw [count]
        exact ⟨c, _, mSeg, k, rfl, length, moved, wrote⟩
  | abswrite c mArg1 mSeg =>
      simp only [State.exec]
      split_ifs
      · exact ⟨sound, rfl, rfl⟩
      · have there := sound.setPosition (c := c) mArg1
        obtain ⟨sound', answer⟩ := tmpfsWrite_spec there c mSeg (x := x)
          (by simpa only [Fits, FitsWrite, setClient_client, setClient_file] using fits)
        refine ⟨sound', ?_⟩
        rw [setClient_client, setClient_file] at answer
        rcases answer with ⟨err, same⟩ | ⟨cnt, k, count, length, moved, wrote⟩
        · simp only [err, Served]
          exact same
        · rw [count]
          exact ⟨c, _, mSeg, k, rfl, length, moved, wrote⟩

/-- **In every run of requests that meet `Fits` the file is the array of the bytes that were
reported as written since it was truncated, with zeroes elsewhere, as long as the highest position
written**, and every request is served from that array: a read answers its bytes up to its end, a
write puts the bytes that it reports into it, an error leaves it. -/
theorem file_is_sparse_array (run : Transition.Reaches Step Fits start s) :
    s.file.oLen = s.file.high ∧ (∀ p, s.file.oBlocks.byte p = s.file.contents p) ∧
      (∀ p, s.file.high ≤ p → s.file.contents p = 0) ∧
      ∀ x a, Fits s (x, a) → Served s x a (s.exec x a).1 (s.exec x a).2 := by
  have sound : Sound s := by
    refine run.invariant ⟨truncate_sound, fun _ => Nat.two_pow_pos 32⟩ ?_
    rintro source ⟨x, a⟩ target sound fits rfl
    exact (exec_spec sound fits).1
  exact ⟨sound.file.length, congrFun sound.file.bytes, sound.file.beyond,
    fun x a fits => (exec_spec sound fits).2⟩

/-- A run of one more request. -/
theorem step_run (guard : State → Outcome × Action → Prop) {t : State}
    (run : Transition.Reaches Step guard start t) (label : Outcome × Action)
    (meets : guard t label) : Transition.Reaches Step guard start (t.exec label.1 label.2).1 :=
  run.tail meets rfl

/-- There is memory for the first blocks only. -/
def scarce (blocks : ℕ) : Outcome :=
  ⟨fun blk => decide (blk < blocks), true, ACC_READ ||| ACC_WRITE ||| ACC_CHMOD, 0⟩

/-- Three bytes are written behind a hole, and read back with it. -/
theorem file_is_sparse_array_read : ∃ s, Transition.Reaches Step Fits start s ∧
    s.file.oLen = s.file.high ∧ (∀ p, s.file.oBlocks.byte p = s.file.contents p) ∧
      (∀ p, s.file.high ≤ p → s.file.contents p = 0) ∧
      (∀ x a, Fits s (x, a) → Served s x a (s.exec x a).1 (s.exec x a).2) ∧
      (s.exec (scarce 1) (.absread 0 9 1)).2 = .data 4 [[0, 7, 8, 9]] := by
  have opened := step_run Fits (.refl start)
    (scarce 1, .open_ 0 (ACC_READ ||| ACC_WRITE)) trivial
  have wrote := step_run Fits opened (scarce 1, .abswrite 0 2 [[7, 8, 9]])
    fun _ _ => ⟨by simp, by decide, .inl ⟨by decide, trivial⟩⟩
  obtain ⟨length, bytes, beyond, served⟩ := file_is_sparse_array wrote
  exact ⟨_, wrote, length, bytes, beyond, served, by decide⟩

/-- **A segment for which memory runs out behind its first block is there in part, and is not
reported**; and an empty segment behind the end of the file makes it longer. -/
theorem not_reported : ∃ s x, Transition.Reaches Step Transition.Any start s ∧
    (s.exec x (.write 0 [List.replicate 2049 7])).2 = .err ∧
    (s.exec x (.write 0 [List.replicate 2049 7])).1.file.oBlocks.byte 0 ≠ s.file.oBlocks.byte 0 ∧
    (s.exec x (.abswrite 0 5 [[]])).1.file.oLen ≠ (s.exec x (.abswrite 0 5 [[]])).1.file.high := by
  have opened := step_run Transition.Any (.refl start)
    (scarce 1, .open_ 0 (ACC_READ ||| ACC_WRITE)) trivial
  exact ⟨_, scarce 1, opened, by decide +kernel, by decide +kernel, by decide⟩

end Vsta.Tmpfs
