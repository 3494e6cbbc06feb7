import Vsta.Env.Server
import Vsta.Library.Runs
import Mathlib.Data.List.GetD
import Mathlib.Tactic.SplitIfs

/-!
# What a variable holds

A variable of the environment server has its value in memory that `malloc` gave, up to a null byte.
A write allocates anew, copies the old string, puts the bytes of the message at the client's place
and a null byte at the end. A read answers what stands from the client's place up to a null byte.

Beside the code's own state is what the variable has been given, as the clients were told: nothing
when it is made or emptied, and the bytes of each write that was answered. `values_kept` is about
the runs in which the memory that is never set happens to be right, no write is made in front of
which something behind a null byte would be lost, and no read begins behind the end.

The variable stands in a directory in which clients look for it, and nothing is shared with a fork.
The names are left out.
-/

set_option autoImplicit false

namespace Vsta.EnvValue

open Vstafs Env

abbrev MAX_STRING : ℕ := 1024

/-- The bytes of a string, or what is left of the memory from a pointer on. -/
abbrev Bytes := List UChar

/-- An access outside the memory of the string, or through a null pointer, or a message without a
client. -/
inductive Fault where
  | outside
  | missing
  | stranger
  deriving DecidableEq, Repr

abbrev M := Except Fault

inductive Err where
  | EPERM | E2BIG | ENOMEM | EINVAL | ESRCH | EBUSY | strerror
  deriving DecidableEq, Repr

/-- An answer, for a read with the bytes. -/
inductive Reply where
  | ok
  | data (bytes : Bytes)
  | err (e : Err)
  deriving DecidableEq, Repr

/-- `struct file`, of a client that is at the variable or at its directory. -/
structure File where
  fPos : ℕ
  fMode : ULong
  inside : Bool
  deriving DecidableEq, Repr

/-- The node of the variable, once it was made, with the memory at `n_val->s_val`; and the
clients. -/
structure State where
  node : Option (Option Bytes)
  filehash : Hash File

/-- What a request finds: the permissions on the variable; memory for a client, and its place in the
hash; for a new node, and its place in the list; the memory that `alloc_val` gets, and what is in
it; the memory that `env_write` gets, and what is in it; and how many entries a directory's read
lists. -/
structure Outcome where
  perm : ULong
  client : Bool
  slot : Bool
  node : Bool
  entry : Bool
  sval : Option UChar
  buf : Bool
  fresh : ℕ → UChar
  listed : ℕ

/-- A request of a client. -/
inductive Action where
  | connect (h : Handle) (mArg : ULong)
  | dup (h mArg : Handle)
  | disconnect (h : Handle)
  | open_ (h : Handle) (mArg : ULong)
  | seek (h : Handle) (mArg : ULong)
  | read (h : Handle) (mArg : ULong)
  | write (h : Handle) (data : Bytes)
  | remove (h : Handle)

/-! ## Memory -/

/-- `strlen`. -/
def strlen : Bytes → M ℕ
  | [] => .error .outside
  | c :: s => if c = 0#8 then .ok 0 else do return (← strlen s) + 1

/-- `malloc`. -/
def malloc (fresh : ℕ → UChar) (size : ℕ) : Bytes := (List.range size).map fresh

/-- Bytes that are copied into memory. -/
def put (buf : Bytes) (at_ : ℕ) (bytes : Bytes) : M Bytes :=
  if at_ + bytes.length ≤ buf.length then
    .ok (buf.take at_ ++ bytes ++ buf.drop (at_ + bytes.length))
  else .error .outside

/-- `strcpy`, to the start of a buffer. -/
def strcpy (buf s : Bytes) : M Bytes := do
  let len ← strlen s
  put buf 0 (s.take (len + 1))

/-! ## Requests -/

namespace State

/-- The client of a message. -/
def file (s : State) (h : Handle) : M File :=
  match s.filehash.lookup h with
  | some f => .ok f
  | none => .error .stranger

/-- `n->n_val->s_val`. -/
def sVal (s : State) : M Bytes :=
  match s.node with
  | some (some block) => .ok block
  | _ => .error .missing

def setFile (s : State) (h : Handle) (f : File) : State :=
  { s with filehash := s.filehash.modify h fun _ => f }

/-- `env_seek`. -/
def envSeek (s : State) (h : Handle) (f : File) (mArg : ULong) : State × Reply :=
  if mArg.toInt < 0 then (s, .err .EINVAL)
  else (s.setFile h { f with fPos := mArg.toNat }, .ok)

/-- `env_write`. -/
def envWrite (s : State) (x : Outcome) (h : Handle) (f : File) (data : Bytes) :
    M (State × Reply) :=
  if !f.inside || !has f.fMode ACC_WRITE then .ok (s, .err .EPERM)
  else do
    let block ← s.sVal
    let newlen := f.fPos + data.length + 1
    let oldlen := (← strlen block) + 1
    if MAX_STRING ≤ newlen then return (s, .err .E2BIG)
    let newlen := if newlen < oldlen then oldlen else newlen
    if !x.buf then return (s, .err .ENOMEM)
    let buf ← strcpy (malloc x.fresh newlen) block
    let buf ← put buf f.fPos data
    let buf ← put buf (newlen - 1) [0#8]
    return ({ s with node := some (some buf) }.setFile h
      { f with fPos := f.fPos + data.length }, .ok)

/-- `env_read`. -/
def envRead (s : State) (x : Outcome) (h : Handle) (f : File) (mArg : ULong) :
    M (State × Reply) :=
  if !f.inside then .ok (s.setFile h { f with fPos := f.fPos + x.listed }, .data [])
  else do
    let buf := (← s.sVal).drop f.fPos
    let len ← strlen buf
    let cnt := if len < mArg.toNat then len else mArg.toNat
    if cnt = 0 then return (s, .data [])
    return (s.setFile h { f with fPos := f.fPos + cnt }, .data (buf.take cnt))

/-- The value that `alloc_val` makes for an empty string: memory for the null byte. -/
def allocVal (x : Outcome) : Option Bytes := x.sval.map fun c => [c]

/-- `env_open`. -/
def envOpen (s : State) (x : Outcome) (h : Handle) (f : File) (mArg : ULong) : M (State × Reply) :=
  if f.inside then .ok (s, .err .EINVAL)
  else match s.node with
    | some _ =>
        if !canAccess x.perm mArg then .ok (s, .err .EPERM)
        else
          let s := if has mArg ACC_CREATE then { s with node := some (allocVal x) } else s
          .ok (s.setFile h ⟨0, x.perm, true⟩, .ok)
    | none =>
        if !has mArg ACC_CREATE then .ok (s, .err .ESRCH)
        else if !has f.fMode ACC_WRITE then .ok (s, .err .EPERM)
        else if !x.node then .error .missing
        else if !x.entry then .ok (s, .err .ENOMEM)
        else .ok ({ s with node := some (allocVal x) }.setFile h { f with inside := true }, .ok)

/-- `env_remove`; a node with clients has more references than the one of its list. -/
def envRemove (s : State) (f : File) : State × Reply :=
  if f.inside then (s, .err .EINVAL)
  else if !has f.fMode ACC_WRITE then (s, .err .EPERM)
  else match s.node with
    | none => (s, .err .ESRCH)
    | some _ =>
        if s.filehash.any fun client => client.2.inside then (s, .err .EBUSY)
        else ({ s with node := none }, .ok)

/-- `new_client`. -/
def newClient (s : State) (x : Outcome) (h : Handle) (mArg : ULong) : State × Reply :=
  if !x.client then (s, .err .strerror)
  else if !canAccess x.perm mArg then (s, .err .EPERM)
  else if !x.slot then (s, .err .ENOMEM)
  else ({ s with filehash := s.filehash.insert h ⟨0, x.perm, false⟩ }, .ok)

/-- `dup_client`. -/
def dupClient (s : State) (x : Outcome) (f : File) (mArg : Handle) : State × Reply :=
  if !x.client then (s, .err .strerror)
  else if !x.slot then (s, .err .ENOMEM)
  else ({ s with filehash := s.filehash.insert mArg f }, .ok)

/-- The switch of `env_main`. -/
def exec (s : State) (x : Outcome) : Action → M (State × Reply)
  | .connect h mArg => .ok (s.newClient x h mArg)
  | .dup h mArg => do return s.dupClient x (← s.file h) mArg
  | .disconnect h => do
      let _ ← s.file h
      return ({ s with filehash := s.filehash.delete h }, .ok)
  | .open_ h mArg => do s.envOpen x h (← s.file h) mArg
  | .seek h mArg => do return s.envSeek h (← s.file h) mArg
  | .read h mArg => do s.envRead x h (← s.file h) mArg
  | .write h data => do s.envWrite x h (← s.file h) data
  | .remove h => do return s.envRemove (← s.file h)

end State

/-! ## What was stored -/

/-- The contents after a write at a place: a gap in front of it is zeros. -/
def overlay (contents : Bytes) (pos : ℕ) (data : Bytes) : Bytes :=
  if data = [] then contents
  else contents.take pos ++ List.replicate (pos - contents.length) 0#8 ++ data ++
    contents.drop (pos + data.length)

/-- What stands in front of the first null byte. -/
def text (bytes : Bytes) : Bytes := bytes.takeWhile (· ≠ 0#8)

/-- The server, and what the variable has been given. -/
structure World where
  server : State
  contents : Option Bytes

def World.start : World := ⟨⟨none, []⟩, none⟩

/-- What the variable has been given after an answer. -/
def World.given (w : World) : Action → Reply → Option Bytes
  | .open_ _ mArg, .ok => if has mArg ACC_CREATE then some [] else w.contents
  | .write h data, .ok =>
      (w.server.filehash.lookup h).bind fun f => w.contents.map (overlay · f.fPos data)
  | .remove _, .ok => none
  | _, _ => w.contents

/-- One message after the other. -/
def World.Step (w : World) (turn : Outcome × Action) (w' : World) : Prop :=
  ∃ reply, w.server.exec turn.1 turn.2 = .ok (w'.server, reply) ∧
    w'.contents = w.given turn.2 reply

/-- The memory of a string holds what was stored, with a null byte behind it, and ends in one. -/
structure Holds (block contents : Bytes) : Prop where
  stored : contents ++ [0#8] <+: block
  ended : block.getLast? = some 0#8

/-- There is a string just when there is a variable, and it holds what the variable was given. -/
def World.Kept (w : World) : Prop :=
  match w.server.node, w.contents with
  | none, none => True
  | some (some block), some contents => Holds block contents
  | _, _ => False

/-- A read that is answered with bytes has those that were stored, from the client's place up to a
null byte, no more than were asked for. -/
def World.Answers (w : World) : Action → Reply → Prop
  | .read h mArg, .data bytes => ∀ f contents, w.server.filehash.lookup h = some f →
      f.inside = true → w.contents = some contents →
      bytes = (text (contents.drop f.fPos)).take mArg.toNat
  | _, _ => True

/-! ## The condition -/

/-- A message is from a client, and a new handle is not one of a client. -/
def State.Known (s : State) : Action → Prop
  | .connect h _ => s.filehash.lookup h = none
  | .dup h mArg => s.filehash.lookup h ≠ none ∧ s.filehash.lookup mArg = none
  | .disconnect h | .open_ h _ | .seek h _ | .read h _ | .write h _ | .remove h =>
      s.filehash.lookup h ≠ none

/-- What a write at a place leaves of the contents, in memory of which the bytes in front of the
place and behind the null byte of the old string were never set. Nothing that is to be kept is
behind both that null byte and the write, and the memory that was not set is right. -/
def Keeps (fresh : ℕ → UChar) (len pos size : ℕ) (after : Bytes) : Prop :=
  after.length ≤ max (pos + size) len ∧
    ∀ i, len < i → i < pos → i ≤ after.length → fresh i = after.getD i 0#8

/-- The condition on a message: where it makes an empty value there is memory, and the byte of it is
null; a read is not behind the end, or finds a null byte there or asks for nothing; and a write
leaves what was stored. -/
def World.Fits (w : World) (turn : Outcome × Action) : Prop :=
  w.server.Known turn.2 ∧
  match turn.2 with
  | .open_ h mArg => ∀ f, w.server.filehash.lookup h = some f → f.inside = false →
      has mArg ACC_CREATE = true →
      (w.server.node ≠ none → canAccess turn.1.perm mArg = true → turn.1.sval = some 0#8) ∧
      (w.server.node = none → has f.fMode ACC_WRITE = true → turn.1.node = true ∧
        (turn.1.entry = true → turn.1.sval = some 0#8))
  | .read h mArg => ∀ f block contents, w.server.filehash.lookup h = some f → f.inside = true →
      w.server.node = some (some block) → w.contents = some contents →
      f.fPos ≤ contents.length ∨
        f.fPos < block.length ∧ (mArg = 0 ∨ block[f.fPos]? = some 0#8)
  | .write h data => ∀ f block contents, w.server.filehash.lookup h = some f → f.inside = true →
      w.server.node = some (some block) → w.contents = some contents →
      has f.fMode ACC_WRITE = true → f.fPos + data.length + 1 < MAX_STRING → turn.1.buf = true →
      Keeps turn.1.fresh (text block).length f.fPos data.length (overlay contents f.fPos data)
  | _ => True

/-! ## Strings in memory -/

theorem text_append_null (u v : Bytes) : text (u ++ 0#8 :: v) = text u := by
  induction u with
  | nil => simp [text]
  | cons c u ih =>
      by_cases null : c = 0#8
      · simp [text, null]
      · simpa [text, null] using ih

theorem strlen_append_null (u v : Bytes) : strlen (u ++ 0#8 :: v) = .ok (text u).length := by
  induction u with
  | nil => simp [strlen, text]
  | cons c u ih =>
      by_cases null : c = 0#8
      · simp [strlen, text, null]
      · simp only [List.cons_append, strlen, null, if_false, ih, bind, Except.bind, pure,
          Except.pure]
        simp [text, null]

/-- Memory with a null byte in it is the text, the null byte and what is behind. -/
theorem exists_text {bytes : Bytes} (null : 0#8 ∈ bytes) :
    ∃ rest, bytes = text bytes ++ 0#8 :: rest := by
  induction bytes with
  | nil => exact absurd null List.not_mem_nil
  | cons c s ih =>
      by_cases here : c = 0#8
      · exact ⟨s, by simp [text, here]⟩
      · obtain ⟨rest, is⟩ := ih ((List.mem_cons.mp null).resolve_left (Ne.symm here))
        refine ⟨rest, ?_⟩
        have front : text (c :: s) = c :: text s := by simp [text, here]
        rw [front, List.cons_append, ← is]

theorem strlen_eq {bytes : Bytes} (null : 0#8 ∈ bytes) :
    strlen bytes = .ok (text bytes).length := by
  obtain ⟨rest, is⟩ := exists_text null
  have run := strlen_append_null (text bytes) rest
  rwa [← is, ← text_append_null _ rest, ← is] at run

theorem length_malloc (fresh : ℕ → UChar) (size : ℕ) : (malloc fresh size).length = size := by
  simp [malloc]

theorem getD_malloc (fresh : ℕ → UChar) {size i : ℕ} (inside : i < size) :
    (malloc fresh size).getD i 0#8 = fresh i := by
  simp [malloc, List.getD_eq_getElem?_getD, inside]

theorem put_eq {buf bytes : Bytes} {at_ : ℕ} (inside : at_ + bytes.length ≤ buf.length) :
    put buf at_ bytes = .ok (buf.take at_ ++ bytes ++ buf.drop (at_ + bytes.length)) := by
  rw [put, if_pos inside]

/-- What is in memory after something was copied there. -/
theorem put_spec (buf bytes : Bytes) (at_ : ℕ) (inside : at_ + bytes.length ≤ buf.length) :
    ∃ out, put buf at_ bytes = .ok out ∧ out.length = buf.length ∧
      ∀ i, out.getD i 0#8 =
        if at_ ≤ i ∧ i < at_ + bytes.length then bytes.getD (i - at_) 0#8 else buf.getD i 0#8 := by
  refine ⟨_, put_eq inside, by simp; omega, fun i => ?_⟩
  simp only [List.getD_eq_getElem?_getD]
  have front : (buf.take at_).length = at_ := by simp; omega
  split_ifs with here
  · rw [List.append_assoc, List.getElem?_append_right (by omega), front,
      List.getElem?_append_left (by omega)]
  · rcases Nat.lt_or_ge i at_ with before | behind
    · rw [List.append_assoc, List.getElem?_append_left (by omega),
        List.getElem?_take_of_lt before]
    · rw [List.getElem?_append_right (by simp; omega), List.getElem?_drop]
      congr 2
      simp
      omega

/-- The bytes of the contents after a write. -/
theorem getD_overlay (contents : Bytes) (pos : ℕ) (data : Bytes) (i : ℕ) :
    (overlay contents pos data).getD i 0#8 =
      if pos ≤ i ∧ i < pos + data.length then data.getD (i - pos) 0#8
      else contents.getD i 0#8 := by
  rw [overlay]
  split_ifs with none here here
  · subst none
    simp only [List.length_nil] at here
    omega
  · rfl
  · simp only [List.getD_eq_getElem?_getD]
    have front :
        (contents.take pos ++ List.replicate (pos - contents.length) 0#8).length = pos := by
      simp
      omega
    rw [List.append_assoc, List.getElem?_append_right (by omega), front,
      List.getElem?_append_left (by omega)]
  · have front :
        (contents.take pos ++ List.replicate (pos - contents.length) 0#8).length = pos := by
      simp
      omega
    simp only [List.getD_eq_getElem?_getD]
    rcases Nat.lt_or_ge i pos with before | behind
    · rw [List.append_assoc, List.getElem?_append_left (by omega)]
      rcases Nat.lt_or_ge i contents.length with within | past
      · rw [List.getElem?_append_left (by simp; omega), List.getElem?_take_of_lt before]
      · rw [List.getElem?_append_right (by simp; omega), List.getElem?_eq_none past,
          List.getElem?_replicate]
        split_ifs <;> rfl
    · rw [List.getElem?_append_right (by rw [List.length_append, front]; omega),
        List.length_append, front, List.getElem?_drop]
      congr 2
      omega

theorem length_overlay (contents : Bytes) (pos : ℕ) (data : Bytes) :
    (overlay contents pos data).length =
      if data = [] then contents.length else max contents.length (pos + data.length) := by
  rw [overlay]
  split_ifs with none
  · rfl
  · simp
    omega

/-! ## A string holds what was stored -/

namespace Holds

variable {block contents : Bytes}

/-- The bytes of memory that holds the contents are those of the contents. -/
theorem of_getD (short : contents.length < block.length)
    (same : ∀ i ≤ contents.length, block.getD i 0#8 = contents.getD i 0#8)
    (ended : block.getLast? = some 0#8) : Holds block contents := by
  refine ⟨List.prefix_iff_getElem?.mpr fun i inside => ?_, ended⟩
  rw [List.length_append, List.length_singleton] at inside
  have there : i < block.length := by omega
  have byte := same i (by omega)
  rw [List.getD_eq_getElem _ _ there] at byte
  rw [List.getElem?_eq_getElem there, byte]
  rcases Nat.lt_or_ge i contents.length with before | last
  · rw [List.getD_eq_getElem _ _ before, List.getElem_append_left before]
  · rw [List.getD_eq_default _ _ last, List.getElem_append_right last, List.getElem_singleton]

theorem exists_rest (holds : Holds block contents) : ∃ rest, block = contents ++ 0#8 :: rest := by
  obtain ⟨rest, is⟩ := holds.stored
  exact ⟨rest, by rw [← is, List.append_assoc, List.singleton_append]⟩

theorem length_lt (holds : Holds block contents) : contents.length < block.length := by
  obtain ⟨rest, rfl⟩ := holds.exists_rest
  simp

theorem getD_eq (holds : Holds block contents) {i : ℕ} (le : i ≤ contents.length) :
    block.getD i 0#8 = contents.getD i 0#8 := by
  obtain ⟨rest, rfl⟩ := holds.exists_rest
  simp only [List.getD_eq_getElem?_getD]
  rcases Nat.lt_or_ge i contents.length with before | last
  · rw [List.getElem?_append_left before]
  · obtain rfl := Nat.le_antisymm le last
    simp

/-- What is left of the memory has a null byte. -/
theorem null_mem (holds : Holds block contents) {pos : ℕ} (inside : pos < block.length) :
    0#8 ∈ block.drop pos := by
  have last : (block.drop pos).getLast? = some 0#8 := by
    rw [List.getLast?_drop, if_neg (by omega), holds.ended]
  exact List.mem_of_getLast? last

/-- The text of the memory is that of the contents. -/
theorem text_drop (holds : Holds block contents) {pos : ℕ} (le : pos ≤ contents.length) :
    text (block.drop pos) = text (contents.drop pos) := by
  obtain ⟨rest, rfl⟩ := holds.exists_rest
  rw [List.drop_append_of_le_length le, text_append_null]

theorem text_eq (holds : Holds block contents) : text block = text contents := by
  simpa using holds.text_drop (Nat.zero_le _)

end Holds

theorem text_isPrefix (bytes : Bytes) : text bytes <+: bytes := List.takeWhile_prefix _

/-- A string whose one byte is null holds nothing. -/
theorem holds_empty : Holds [0#8] [] := ⟨List.prefix_rfl, rfl⟩

/-- The text of a string, the null byte behind it, and that it is where the code finds it. -/
theorem Holds.first_null {block contents : Bytes} (holds : Holds block contents) :
    (text block).length ≤ contents.length ∧ block.getD (text block).length 0#8 = 0#8 ∧
      strlen block = .ok (text block).length ∧ (text block).length < block.length := by
  have inside := holds.length_lt
  have null : 0#8 ∈ block := by simpa using holds.null_mem (show 0 < block.length by omega)
  obtain ⟨rest, is⟩ := exists_text null
  have shorter : (text block).length ≤ contents.length := by
    rw [holds.text_eq]
    exact (text_isPrefix _).length_le
  refine ⟨shorter, ?_, strlen_eq null, by omega⟩
  have there := congrArg (fun bytes => bytes.getD (text block).length 0#8) is
  simpa [List.getD_eq_getElem?_getD] using there

/-- **A write stores its bytes at its place** and leaves the others, where it keeps them. -/
theorem Holds.write {block contents data : Bytes} {pos newlen : ℕ} {fresh : ℕ → UChar}
    (holds : Holds block contents)
    (size : newlen = max (pos + data.length + 1) ((text block).length + 1))
    (keeps : Keeps fresh (text block).length pos data.length (overlay contents pos data)) :
    ∃ one two buf, strcpy (malloc fresh newlen) block = .ok one ∧ put one pos data = .ok two ∧
      put two (newlen - 1) [0#8] = .ok buf ∧ Holds buf (overlay contents pos data) := by
  obtain ⟨shorter, null, run, within⟩ := holds.first_null
  have cut : (block.take ((text block).length + 1)).length = (text block).length + 1 := by
    rw [List.length_take]
    omega
  obtain ⟨one, copied, oneSize, oneBytes⟩ := put_spec (malloc fresh newlen)
    (block.take ((text block).length + 1)) 0 (by rw [cut, length_malloc]; omega)
  rw [length_malloc] at oneSize
  obtain ⟨two, filled, twoSize, twoBytes⟩ := put_spec one data pos (by omega)
  obtain ⟨buf, closed, bufSize, bufBytes⟩ := put_spec two [0#8] (newlen - 1)
    (by rw [List.length_singleton]; omega)
  refine ⟨one, two, buf, ?_, filled, closed, ?_⟩
  · simp only [strcpy, run, bind, Except.bind, copied]
  have last : buf.getD (newlen - 1) 0#8 = 0#8 := by
    rw [bufBytes, List.length_singleton, if_pos (by omega), Nat.sub_self]
    rfl
  obtain ⟨fits, right⟩ := keeps
  refine .of_getD (by omega) (fun i le => ?_) ?_
  · rcases Nat.lt_or_ge i (newlen - 1) with before | final
    swap
    · -- the contents end where the last null byte stands
      obtain rfl : i = newlen - 1 := by omega
      rw [last, List.getD_eq_default _ _ (by omega)]
    rw [bufBytes, List.length_singleton, if_neg (by omega), twoBytes]
    split_ifs with here
    · rw [getD_overlay, if_pos here]
    rw [oneBytes, cut, Nat.sub_zero, Nat.zero_add]
    split_ifs with old
    · rw [getD_overlay, if_neg here, ← holds.getD_eq (by omega)]
      simp only [List.getD_eq_getElem?_getD]
      rw [List.getElem?_take_of_lt old.2]
    · rw [getD_malloc fresh (by omega)]
      exact right i (by omega) (by omega) le
  · rw [List.getLast?_eq_getElem?, bufSize, twoSize, oneSize]
    rw [List.getD_eq_getElem _ _ (by omega)] at last
    rw [List.getElem?_eq_getElem (by omega), last]

/-! ## Steps -/

/-- What holds between messages: the variable is kept, and no client is at one that is not there. -/
structure World.Good (w : World) : Prop where
  kept : w.Kept
  away : w.server.node = none → ∀ client ∈ w.server.filehash, client.2.inside = false

/-- A message goes through, and its answer is right. -/
def World.Goes (w : World) (turn : Outcome × Action) : Prop :=
  ∃ s reply, w.server.exec turn.1 turn.2 = .ok (s, reply) ∧
    World.Good ⟨s, w.given turn.2 reply⟩ ∧ w.Answers turn.2 reply

namespace World

variable {w : World} {s : State} {f : File} {h : Handle} {x : Outcome}

theorem start_good : start.Good := ⟨trivial, fun _ client member => absurd member List.not_mem_nil⟩

/-- The node that is there, and the string it has. -/
theorem Good.string (good : w.Good) (there : w.server.node ≠ none) :
    ∃ block contents, w.server.node = some (some block) ∧ w.contents = some contents ∧
      Holds block contents := by
  have kept := good.kept
  rw [Kept] at kept
  split at kept
  · rename_i none_ _
    exact absurd none_ there
  · rename_i block contents is is'
    exact ⟨block, contents, is, is', kept⟩
  · exact kept.elim

/-- The clients of a server whose node and contents are as they were. -/
theorem Good.clients (good : w.Good) {filehash : Hash File}
    (away : w.server.node = none → ∀ client ∈ filehash, client.2.inside = false) :
    Good ⟨{ w.server with filehash := filehash }, w.contents⟩ :=
  ⟨good.kept, away⟩

theorem forall_mem_modify {hash : Hash File} (all : ∀ client ∈ hash, client.2.inside = false)
    (outside : f.inside = false) :
    ∀ client ∈ hash.modify h fun _ => f, client.2.inside = false := by
  intro client member
  obtain ⟨old, inside, rfl⟩ := List.mem_map.mp member
  show (if old.1 = h then f else old.2).inside = false
  split_ifs
  · exact outside
  · exact all old inside

/-- A client moves, and stays at what it is at. -/
theorem Good.setFile (good : w.Good) {g : File}
    (client : w.server.filehash.lookup h = some f) (same : g.inside = f.inside) :
    Good ⟨w.server.setFile h g, w.contents⟩ := by
  refine good.clients fun gone => ?_
  have all := good.away gone
  exact forall_mem_modify all (same.trans (all _ (Hash.mem_of_lookup client)))

/-- A client is at a variable that is there and holds what it was given. -/
theorem Good.arrive {block contents : Bytes} {filehash : Hash File}
    (holds : Holds block contents) : Good ⟨⟨some (some block), filehash⟩, some contents⟩ :=
  ⟨holds, nofun⟩

theorem goes_of {action : Action} {out : State × Reply} (run : w.server.exec x action = .ok out)
    (good : Good ⟨out.1, w.given action out.2⟩) (answers : w.Answers action out.2) :
    w.Goes (x, action) :=
  ⟨out.1, out.2, run, good, answers⟩

theorem file_eq (client : s.filehash.lookup h = some f) : s.file h = .ok f := by
  rw [State.file, client]

theorem Good.goes_connect (good : w.Good) (x : Outcome) (h : Handle) (mArg : ULong) :
    w.Goes (x, .connect h mArg) := by
  have run : w.server.exec x (.connect h mArg) = .ok (w.server.newClient x h mArg) := rfl
  refine goes_of run ?_ trivial
  rw [State.newClient]
  split_ifs
  iterate 3 exact good
  refine good.clients fun gone client member => ?_
  rcases List.mem_cons.mp member with rfl | old
  · rfl
  · exact good.away gone client old

theorem Good.goes_dup (good : w.Good) (x : Outcome) (mArg : Handle)
    (client : w.server.filehash.lookup h = some f) : w.Goes (x, .dup h mArg) := by
  have run : w.server.exec x (.dup h mArg) = .ok (w.server.dupClient x f mArg) := by
    simp only [State.exec, file_eq client, bind, Except.bind, pure, Except.pure]
  refine goes_of run ?_ trivial
  rw [State.dupClient]
  split_ifs
  iterate 2 exact good
  refine good.clients fun gone other member => ?_
  rcases List.mem_cons.mp member with rfl | old
  · exact good.away gone (h, f) (Hash.mem_of_lookup client)
  · exact good.away gone other old

theorem Good.goes_disconnect (good : w.Good) (x : Outcome)
    (client : w.server.filehash.lookup h = some f) : w.Goes (x, .disconnect h) := by
  have run : w.server.exec x (.disconnect h) =
      .ok ({ w.server with filehash := w.server.filehash.delete h }, .ok) := by
    simp only [State.exec, file_eq client, bind, Except.bind, pure, Except.pure]
  refine goes_of run ?_ trivial
  exact good.clients fun gone other member => good.away gone other (List.mem_of_mem_eraseP member)

theorem Good.goes_seek (good : w.Good) (x : Outcome) (mArg : ULong)
    (client : w.server.filehash.lookup h = some f) : w.Goes (x, .seek h mArg) := by
  have run : w.server.exec x (.seek h mArg) = .ok (w.server.envSeek h f mArg) := by
    simp only [State.exec, file_eq client, bind, Except.bind, pure, Except.pure]
  refine goes_of run ?_ trivial
  rw [State.envSeek]
  split_ifs
  · exact good
  · exact good.setFile client rfl

theorem Good.goes_remove (good : w.Good) (x : Outcome)
    (client : w.server.filehash.lookup h = some f) : w.Goes (x, .remove h) := by
  have run : w.server.exec x (.remove h) = .ok (w.server.envRemove f) := by
    simp only [State.exec, file_eq client, bind, Except.bind, pure, Except.pure]
  refine goes_of run ?_ trivial
  rw [State.envRemove]
  split_ifs with inside mode busy
  iterate 2 exact good
  · cases is : w.server.node <;> exact good
  · cases is : w.server.node with
    | none => exact good
    | some string =>
        refine ⟨trivial, fun _ other member => ?_⟩
        by_contra at_
        exact busy (List.any_eq_true.mpr ⟨other, member, by simpa using at_⟩)

theorem Good.goes_open (good : w.Good) (x : Outcome) (mArg : ULong)
    (client : w.server.filehash.lookup h = some f) (fits : w.Fits (x, .open_ h mArg)) :
    w.Goes (x, .open_ h mArg) := by
  have run : w.server.exec x (.open_ h mArg) = w.server.envOpen x h f mArg := by
    simp only [State.exec, file_eq client, bind, Except.bind]
  have condition := fits.2 f client
  rw [State.envOpen] at run
  by_cases inside : f.inside = true
  · rw [if_pos inside] at run
    exact goes_of run good trivial
  rw [if_neg inside] at run
  cases is : w.server.node with
  | none =>
      simp only [is] at run
      by_cases create : has mArg ACC_CREATE = true
      swap
      · rw [if_pos (by simpa using create)] at run
        exact goes_of run good trivial
      by_cases mode : has f.fMode ACC_WRITE = true
      swap
      · rw [if_neg (by simpa using create), if_pos (by simpa using mode)] at run
        exact goes_of run good trivial
      obtain ⟨node, byte⟩ : x.node = true ∧ (x.entry = true → x.sval = some 0#8) :=
        (condition (by simpa using inside) create).2 is mode
      simp only [create, mode, node, Bool.not_true, Bool.false_eq_true, if_false] at run
      by_cases entry : x.entry = true
      · simp only [entry, Bool.not_true, Bool.false_eq_true, if_false] at run
        refine goes_of run ?_ trivial
        simp only [given, create, if_true, State.setFile, State.allocVal, byte entry,
          Option.map_some]
        exact .arrive holds_empty
      · rw [if_pos (by simpa using entry)] at run
        exact goes_of run good trivial
  | some string =>
      simp only [is] at run
      by_cases perm : canAccess x.perm mArg = true
      swap
      · rw [if_pos (by simpa using perm)] at run
        exact goes_of run good trivial
      rw [if_neg (by simpa using perm)] at run
      by_cases create : has mArg ACC_CREATE = true
      · have byte : x.sval = some 0#8 :=
          (condition (by simpa using inside) create).1 (is ▸ nofun) perm
        simp only [create, if_true] at run
        refine goes_of run ?_ trivial
        simp only [given, create, if_true, State.setFile, State.allocVal, byte, Option.map_some]
        exact .arrive holds_empty
      · simp only [create, Bool.false_eq_true, if_false] at run
        refine goes_of run ?_ trivial
        simp only [given, create, Bool.false_eq_true, if_false]
        exact ⟨good.kept, fun gone => absurd (is.symm.trans gone) (Option.some_ne_none _)⟩

/-- Who is at the variable finds it. -/
theorem Good.there (good : w.Good) (client : w.server.filehash.lookup h = some f)
    (inside : f.inside = true) : w.server.node ≠ none := by
  intro gone
  have away := good.away gone (h, f) (Hash.mem_of_lookup client)
  rw [inside] at away
  exact absurd away (by decide)

theorem Good.goes_read (good : w.Good) (x : Outcome) (mArg : ULong)
    (client : w.server.filehash.lookup h = some f) (fits : w.Fits (x, .read h mArg)) :
    w.Goes (x, .read h mArg) := by
  have run : w.server.exec x (.read h mArg) = w.server.envRead x h f mArg := by
    simp only [State.exec, file_eq client, bind, Except.bind]
  rw [State.envRead] at run
  by_cases inside : f.inside = true
  swap
  · rw [if_pos (by simpa using inside)] at run
    refine goes_of run (good.setFile client rfl) fun g contents same here => ?_
    obtain rfl := Option.some.inj (client.symm.trans same)
    exact absurd here inside
  obtain ⟨block, contents, is, given_, holds⟩ := good.string (good.there client inside)
  have condition := fits.2 f block contents client inside is given_
  have short := holds.length_lt
  have reaches : f.fPos < block.length := by omega
  rw [if_neg (by simpa using inside)] at run
  simp only [State.sVal, is, bind, Except.bind, strlen_eq (holds.null_mem reaches), pure,
    Except.pure] at run
  -- the bytes that are read are those of the text from the client's place on
  have answer : ((text (block.drop f.fPos)).take mArg.toNat) =
      (text (contents.drop f.fPos)).take mArg.toNat := by
    rcases condition with within | ⟨-, rfl | null⟩
    · rw [holds.text_drop within]
    · rfl
    · by_cases within : f.fPos ≤ contents.length
      · rw [holds.text_drop within]
      · obtain ⟨_, byte⟩ := List.getElem?_eq_some_iff.mp null
        have past : contents.drop f.fPos = [] := List.drop_eq_nil_of_le (by omega)
        rw [List.drop_eq_getElem_cons reaches, byte, past]
        simp [text]
  have bytes : (block.drop f.fPos).take (min (text (block.drop f.fPos)).length mArg.toNat) =
      (text (contents.drop f.fPos)).take mArg.toNat := by
    rw [← answer, Nat.min_comm, ← List.take_take,
      ← List.prefix_iff_eq_take.mp (text_isPrefix (block.drop f.fPos))]
  have cnt : (if (text (block.drop f.fPos)).length < mArg.toNat then
      (text (block.drop f.fPos)).length else mArg.toNat) =
      min (text (block.drop f.fPos)).length mArg.toNat := by
    split_ifs <;> omega
  rw [cnt] at run
  by_cases nothing : min (text (block.drop f.fPos)).length mArg.toNat = 0
  · rw [if_pos nothing] at run
    refine goes_of run good fun g stored same here there => ?_
    obtain rfl := Option.some.inj (client.symm.trans same)
    obtain rfl := Option.some.inj (given_.symm.trans there)
    rw [← bytes, nothing, List.take_zero]
  · rw [if_neg nothing] at run
    refine goes_of run (good.setFile client rfl) fun g stored same here there => ?_
    obtain rfl := Option.some.inj (client.symm.trans same)
    obtain rfl := Option.some.inj (given_.symm.trans there)
    exact bytes

theorem Good.goes_write (good : w.Good) (x : Outcome) (data : Bytes)
    (client : w.server.filehash.lookup h = some f) (fits : w.Fits (x, .write h data)) :
    w.Goes (x, .write h data) := by
  have run : w.server.exec x (.write h data) = w.server.envWrite x h f data := by
    simp only [State.exec, file_eq client, bind, Except.bind]
  rw [State.envWrite] at run
  by_cases refused : (!f.inside || !has f.fMode ACC_WRITE) = true
  · rw [if_pos refused] at run
    exact goes_of run good trivial
  rw [if_neg refused] at run
  obtain ⟨inside, mode⟩ : f.inside = true ∧ has f.fMode ACC_WRITE = true := by
    simpa using refused
  obtain ⟨block, contents, is, given_, holds⟩ := good.string (good.there client inside)
  obtain ⟨-, -, length, -⟩ := holds.first_null
  simp only [State.sVal, is, length, bind, Except.bind, pure, Except.pure] at run
  by_cases big : MAX_STRING ≤ f.fPos + data.length + 1
  · rw [if_pos big] at run
    exact goes_of run good trivial
  rw [if_neg big] at run
  by_cases memory : x.buf = true
  swap
  · rw [if_pos (by simpa using memory)] at run
    exact goes_of run good trivial
  rw [if_neg (by simpa using memory)] at run
  have keeps := fits.2 f block contents client inside is given_ mode (by omega) memory
  have size : (if f.fPos + data.length + 1 < (text block).length + 1 then (text block).length + 1
      else f.fPos + data.length + 1) =
      max (f.fPos + data.length + 1) ((text block).length + 1) := by
    split_ifs <;> omega
  obtain ⟨one, two, buf, copied, filled, closed, after⟩ := holds.write size keeps
  simp only [copied, filled, closed] at run
  refine goes_of run ?_ trivial
  simp only [given, client, Option.bind_some, given_, Option.map_some, State.setFile]
  exact .arrive after

/-- A message that meets the condition goes through. -/
theorem Good.goes (good : w.Good) (turn : Outcome × Action) (fits : w.Fits turn) :
    w.Goes turn := by
  obtain ⟨x, action⟩ := turn
  have known := fits.1
  cases action with
  | connect h mArg => exact good.goes_connect x h mArg
  | dup h mArg =>
      obtain ⟨f, client⟩ := Option.ne_none_iff_exists'.mp known.1
      exact good.goes_dup x mArg client
  | disconnect h =>
      obtain ⟨f, client⟩ := Option.ne_none_iff_exists'.mp known
      exact good.goes_disconnect x client
  | open_ h mArg =>
      obtain ⟨f, client⟩ := Option.ne_none_iff_exists'.mp known
      exact good.goes_open x mArg client fits
  | seek h mArg =>
      obtain ⟨f, client⟩ := Option.ne_none_iff_exists'.mp known
      exact good.goes_seek x mArg client
  | read h mArg =>
      obtain ⟨f, client⟩ := Option.ne_none_iff_exists'.mp known
      exact good.goes_read x mArg client fits
  | write h data =>
      obtain ⟨f, client⟩ := Option.ne_none_iff_exists'.mp known
      exact good.goes_write x data client fits
  | remove h =>
      obtain ⟨f, client⟩ := Option.ne_none_iff_exists'.mp known
      exact good.goes_remove x client

end World

/-- **A variable holds what it was given.** In every run of messages that meet the condition, its
memory holds the bytes that were stored, with nothing after it is made or emptied and with each
write's bytes at their place; every message goes through; and a read answers what was stored, from
the client's place up to a null byte. -/
theorem values_kept : ∀ w, Transition.Reaches World.Step World.Fits World.start w →
    w.Kept ∧ ∀ turn, w.Fits turn →
      ∃ s reply, w.server.exec turn.1 turn.2 = .ok (s, reply) ∧ w.Answers turn.2 reply := by
  intro w run
  have good : w.Good := by
    refine run.invariant World.start_good fun w turn w' good fits step => ?_
    obtain ⟨reply, taken, given_⟩ := step
    obtain ⟨s, reply', goes, after, -⟩ := good.goes turn fits
    obtain ⟨same, rfl⟩ := Prod.mk.inj (Except.ok.inj (taken.symm.trans goes))
    have is : w' = ⟨s, w.given turn.2 reply⟩ := by
      cases w'
      simp_all
    exact is ▸ after
  refine ⟨good.kept, fun turn fits => ?_⟩
  obtain ⟨s, reply, goes, -, answers⟩ := good.goes turn fits
  exact ⟨s, reply, goes, answers⟩

/-- A request that is granted, with a byte in the memory of an empty value. -/
def granted (byte : UChar) : Outcome := ⟨6, true, true, true, true, some byte, true, fun _ => 0, 0⟩

/-- A client has connected. -/
def connected : World := ⟨⟨none, [(1, ⟨0, 6, false⟩)]⟩, none⟩

/-- It has made the variable, and is at a place in it. -/
def created (byte : UChar) (pos : ℕ) : World :=
  ⟨⟨some (some [byte]), [(1, ⟨pos, 6, true⟩)]⟩, some []⟩

theorem connected_step (byte : UChar) :
    World.Step .start (granted byte, .connect 1 6) connected := by
  have perm : canAccess 6 6 = true := by decide
  refine ⟨.ok, ?_, rfl⟩
  simp only [State.exec, State.newClient, granted, perm]
  rfl

theorem created_step (byte : UChar) :
    World.Step connected (granted byte, .open_ 1 0x16) (created byte 0) := ⟨.ok, rfl, rfl⟩

theorem created_reached (byte : UChar) :
    Transition.Reaches World.Step (fun w turn => w.server.Known turn.2) .start
      (created byte 0) :=
  ((Transition.Reaches.refl World.start).tail
    (show World.start.server.Known (.connect 1 6) from rfl)
    (connected_step byte)).tail
    (show connected.server.Known (.open_ 1 0x16) from Option.some_ne_none _) (created_step byte)

/-- A variable that was just made in memory with a null byte. -/
theorem values_kept_created : (created 0 0).Kept := by
  refine (values_kept (created 0 0) ?_).1
  refine ((Transition.Reaches.refl _).tail ⟨rfl, trivial⟩ (connected_step 0)).tail ?_
    (created_step 0)
  exact ⟨Option.some_ne_none _, fun _ _ _ _ =>
    ⟨fun there => absurd rfl there, fun _ _ => ⟨rfl, fun _ => rfl⟩⟩⟩

/-- **A read beyond the string**, of a variable that was just made: its value is one byte of memory,
into which the null byte was never put. And where the byte happens to be null, of a client that has
put its place behind the end. -/
theorem read_outside :
    (∃ w, Transition.Reaches World.Step (fun w turn => w.server.Known turn.2) .start w ∧
      w.contents = some [] ∧ w.server.exec (granted 65) (.read 1 10) = .error .outside) ∧
    ∃ w, Transition.Reaches World.Step (fun w turn => w.server.Known turn.2) .start w ∧
      w.Kept ∧ w.server.exec (granted 0) (.read 1 10) = .error .outside := by
  refine ⟨⟨created 65 0, created_reached 65, rfl, rfl⟩, created 0 100, ?_, holds_empty, rfl⟩
  have sought : World.Step (created 0 0) (granted 0, .seek 1 100) (created 0 100) := ⟨.ok, rfl, rfl⟩
  exact (created_reached 0).tail
    (show (created 0 0).server.Known (.seek 1 100) from Option.some_ne_none _) sought

end Vsta.EnvValue
