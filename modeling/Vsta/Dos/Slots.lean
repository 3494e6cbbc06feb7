import Vsta.Basic
import Mathlib.Data.List.Basic
import Mathlib.Logic.Function.Basic
import Mathlib.Data.Int.Notation

/-!
# The slots of a DOS directory

A slot is 32 bytes, `struct directory`. When its attributes are `DA_VFAT` it is a part of a long
name, `struct dirVSE`: 13 characters of two bytes each, an id that says where in the name they
belong, and the checksum of the short name that the parts are in front of.

The long name is put together in a buffer on the stack. `unicodeCopy_spec` says when the characters
of a part land in it: the id has to be one of `1` to `VSE_ID_MAX - 1`. The server is built with
`DEBUG`, so that a larger id fails an assertion; the id 0 passes it, and its characters are written
in front of the buffer.
-/

set_option autoImplicit false

namespace Vsta.Vfat

/-- Text, without its terminator. -/
abbrev Text := List UChar

abbrev DA_DIR : UChar := 0x10
abbrev DA_VFAT : UChar := 0x0F
abbrev DN_DEL : UChar := 0xE5
abbrev VSE_NAME_SIZE : ℕ := 13
abbrev VSE_ID_LAST : UChar := 0x40
abbrev VSE_ID_MASK : UChar := 0x1F
abbrev VSE_ID_MAX : ℕ := 20
abbrev VSE_MAX_NAME : ℕ := 256

/-- A slot of a directory. -/
structure Slot where
  bytes : Fin 32 → UChar
  deriving DecidableEq

namespace Slot

variable (d : Slot)

def name : List UChar := [0, 1, 2, 3, 4, 5, 6, 7].map d.bytes
def ext : List UChar := [8, 9, 10].map d.bytes
def attr : UChar := d.bytes 11

/-! The fields of `struct dirVSE` -/

def dvId : UChar := d.bytes 0
def dvSum : UChar := d.bytes 13

/-- The characters of a part, the low byte of each first. -/
def chars (at_ : List (Fin 32)) : List (UChar × UChar) :=
  at_.map fun i => (d.bytes i, d.bytes (i + 1))

def dvName1 : List (UChar × UChar) := d.chars [1, 3, 5, 7, 9]
def dvName2 : List (UChar × UChar) := d.chars [14, 16, 18, 20, 22, 24]
def dvName3 : List (UChar × UChar) := d.chars [28, 30]

/-- No slot behind this one is in use. -/
abbrev Free : Prop := d.bytes 0 = 0

/-- The slot was deleted. -/
abbrev Deleted : Prop := d.bytes 0 = DN_DEL

/-- The slot is a part of a long name. -/
abbrev Part : Prop := d.attr = DA_VFAT

/-- Where in the name a part belongs. -/
def place : ℕ := (d.dvId &&& VSE_ID_MASK).toNat

/-- The part is the last one of its name. -/
abbrev Last : Prop := d.dvId &&& VSE_ID_LAST ≠ 0

end Slot

/-! ## The name buffer -/

/-- The memory around a name buffer, and whether something outside the buffer was written. -/
structure NameBuf where
  bytes : ℤ → UChar
  wild : Bool

namespace NameBuf

variable (b : NameBuf)

/-- `buf[i] = c`. -/
def store (i : ℤ) (c : UChar) : NameBuf :=
  ⟨Function.update b.bytes i c, b.wild || !decide (0 ≤ i ∧ i < VSE_MAX_NAME + 2)⟩

/-- Characters are written one after the other. -/
def write (b : NameBuf) (i : ℤ) : List UChar → NameBuf
  | [] => b
  | c :: cs => (b.store i c).write (i + 1) cs

/-- The string in the buffer. -/
def text : Text :=
  ((List.range (VSE_MAX_NAME + 2)).map fun i : ℕ => b.bytes i).takeWhile (· ≠ 0)

end NameBuf

/-! ## The functions -/

/-- `unicode_char_copy`: the characters that are written, and whether the end was seen. -/
def unicodeCharCopy : List (UChar × UChar) → List UChar × Bool
  | [] => ([], false)
  | (lo, hi) :: rest =>
      if hi ≠ 0 then (95 :: (unicodeCharCopy rest).1, (unicodeCharCopy rest).2)
      else if lo = 0 then ([0], true)
      else (lo :: (unicodeCharCopy rest).1, (unicodeCharCopy rest).2)

/-- `unicode_copy`. There is nothing when its assertion fails. -/
def unicodeCopy (d : Slot) (b : NameBuf) : Option NameBuf :=
  if d.place < VSE_ID_MAX then
    let buf : ℤ := ((d.place : ℤ) - 1) * VSE_NAME_SIZE
    let (part, done) := unicodeCharCopy d.dvName1
    let b := b.write buf part
    if done then some b
    else
      let (part, done) := unicodeCharCopy d.dvName2
      let b := b.write (buf + 5) part
      if done then some b
      else some (b.write (buf + (5 + 6)) (unicodeCharCopy d.dvName3).1)
  else none

/-- `short_checksum`. -/
def shortChecksum (f1 f2 : List UChar) : UChar :=
  (f1 ++ f2).foldl (fun sum c => (if sum &&& 1 ≠ 0 then 0x80 else 0) + (sum >>> 1) + c) 0

/-- `tolower` of `ctype.h`. Its table has the seven-bit characters. -/
def tolower (c : UChar) : UChar := if 65 ≤ c &&& 0x7F ∧ c &&& 0x7F ≤ 90 then c + 32 else c

/-- `toupper` of `ctype.h`. -/
def toupper (c : UChar) : UChar := if 97 ≤ c &&& 0x7F ∧ c &&& 0x7F ≤ 122 then c - 32 else c

/-- `pack_name`. There is nothing when its assertion fails. -/
def packName (d : Slot) : Option Text :=
  let file := (d.name.takeWhile (· ≠ 32)).map tolower
  if d.bytes 8 = 0 then none
  else if d.bytes 8 ≠ 32 then some (file ++ 46 :: (d.ext.takeWhile (· ≠ 32)).map tolower)
  else some file

/-- How `mystrcasecmp` maps a character. -/
def raise (c : UChar) : UChar := if 97 ≤ c ∧ c ≤ 122 then c - 32 else c

/-- `mystrcasecmp`, true for a mismatch. -/
def mystrcasecmp : Text → Text → Bool
  | [], [] => false
  | [], _ :: _ => true
  | _ :: _, [] => true
  | c1 :: s1, c2 :: s2 =>
      if c1 = c2 then mystrcasecmp s1 s2
      else if raise c1 ≠ raise c2 then true
      else mystrcasecmp s1 s2

/-! ## Writing a part -/

variable {b : NameBuf} {i : ℤ} {d : Slot}

theorem NameBuf.write_wild (cs : List UChar) :
    (b.write i cs).wild = false ↔
      b.wild = false ∧ (cs = [] ∨ 0 ≤ i ∧ i + cs.length ≤ VSE_MAX_NAME + 2) := by
  induction cs generalizing b i with
  | nil => simp [NameBuf.write]
  | cons c cs ih =>
      rw [NameBuf.write, ih, NameBuf.store, Bool.or_eq_false_iff, Bool.not_eq_false',
        decide_eq_true_eq, List.length_cons]
      constructor
      · rintro ⟨⟨before, least, most⟩, none_ | ⟨-, room⟩⟩
        · subst none_
          exact ⟨before, .inr ⟨least, by simp only [List.length_nil]; omega⟩⟩
        · exact ⟨before, .inr ⟨least, by omega⟩⟩
      · rintro ⟨before, none_ | ⟨least, room⟩⟩
        · exact absurd none_ (List.cons_ne_nil _ _)
        · refine ⟨⟨before, least, by omega⟩, ?_⟩
          cases cs with
          | nil => exact .inl rfl
          | cons c' cs => exact .inr ⟨by omega, by rw [List.length_cons] at room ⊢; omega⟩

theorem length_unicodeCharCopy (chars : List (UChar × UChar)) :
    (unicodeCharCopy chars).1.length ≤ chars.length := by
  induction chars with
  | nil => exact le_rfl
  | cons c rest ih =>
      obtain ⟨lo, hi⟩ := c
      rw [unicodeCharCopy]
      split_ifs <;> simp only [List.length_cons, List.length_nil] <;> omega

theorem unicodeCharCopy_ne_nil {chars : List (UChar × UChar)} (some_ : chars ≠ []) :
    (unicodeCharCopy chars).1 ≠ [] := by
  obtain ⟨⟨lo, hi⟩, rest, rfl⟩ := List.exists_cons_of_ne_nil some_
  rw [unicodeCharCopy]
  split_ifs <;> exact List.cons_ne_nil _ _

/-- **The characters of a part are in the buffer when its id is in range.** The id 0 is in front of
it, and the assertion fails for an id behind it. -/
theorem unicodeCopy_spec (d : Slot) (b : NameBuf) :
    (VSE_ID_MAX ≤ d.place ∧ unicodeCopy d b = none) ∨
    (d.place < VSE_ID_MAX ∧ ∃ b', unicodeCopy d b = some b' ∧
      (b'.wild = false ↔ b.wild = false ∧ 1 ≤ d.place)) := by
  have most : VSE_ID_MAX = 20 := rfl
  have size : ((VSE_MAX_NAME : ℕ) : ℤ) = 256 := rfl
  have width : ((VSE_NAME_SIZE : ℕ) : ℤ) = 13 := rfl
  by_cases small : d.place < VSE_ID_MAX
  swap
  · exact .inl ⟨by omega, if_neg small⟩
  refine .inr ⟨small, ?_⟩
  have one := length_unicodeCharCopy d.dvName1
  have two := length_unicodeCharCopy d.dvName2
  have three := length_unicodeCharCopy d.dvName3
  have some_ : (unicodeCharCopy d.dvName1).1 ≠ [] :=
    unicodeCharCopy_ne_nil (List.cons_ne_nil _ _)
  rw [show d.dvName1.length = 5 from rfl] at one
  rw [show d.dvName2.length = 6 from rfl] at two
  rw [show d.dvName3.length = 2 from rfl] at three
  rw [unicodeCopy, if_pos small]
  dsimp only
  generalize start : ((d.place : ℤ) - 1) * VSE_NAME_SIZE = buf
  rw [width] at start
  have first : (b.write buf (unicodeCharCopy d.dvName1).1).wild = false ↔
      b.wild = false ∧ 1 ≤ d.place := by
    rw [NameBuf.write_wild]
    refine and_congr_right fun _ => ⟨?_, fun least => .inr ⟨?_, ?_⟩⟩
    · rintro (none_ | ⟨least, -⟩)
      · exact absurd none_ some_
      · omega
    · omega
    · omega
  split_ifs
  · exact ⟨_, rfl, first⟩
  · refine ⟨_, rfl, ?_⟩
    rw [NameBuf.write_wild, first]
    exact ⟨And.left, fun fine => ⟨fine, .inr ⟨by omega, by omega⟩⟩⟩
  · refine ⟨_, rfl, ?_⟩
    rw [NameBuf.write_wild, NameBuf.write_wild, first]
    exact ⟨fun fine => fine.1.1, fun fine =>
      ⟨⟨fine, .inr ⟨by omega, by omega⟩⟩, .inr ⟨by omega, by omega⟩⟩⟩

/-! ## Comparing -/

/-- Strings of different lengths do not match. -/
theorem mystrcasecmp_of_length {s1 s2 : Text} (differ : s1.length ≠ s2.length) :
    mystrcasecmp s1 s2 = true := by
  induction s1 generalizing s2 with
  | nil =>
      cases s2 with
      | nil => exact absurd rfl differ
      | cons c s2 => rfl
  | cons c s1 ih =>
      cases s2 with
      | nil => rfl
      | cons c' s2 =>
          have differ' : s1.length ≠ s2.length := fun same => differ (congrArg (· + 1) same)
          rw [mystrcasecmp]
          split_ifs
          · exact ih differ'
          · rfl
          · exact ih differ'

theorem length_text (b : NameBuf) : b.text.length ≤ VSE_MAX_NAME + 2 :=
  (List.takeWhile_sublist _).length_le.trans_eq (by rw [List.length_map, List.length_range])

end Vsta.Vfat
