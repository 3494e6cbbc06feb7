import Vsta.Basic
import Mathlib.Data.List.TakeDrop
import Mathlib.Data.Int.Basic
import Mathlib.Logic.Function.Basic

/-!
# Buffered streams

A `FILE` of `lib/stdio.c` has one buffer for reading and writing. Clean, it holds what was read and
not yet taken, and the descriptor is ahead by as much; dirty, it holds what is not yet written, and
the descriptor is behind.

The descriptor is that of a file whose server takes every write whole, gives to a read what there is
up to the end, and refuses positions before the start. The buffer is memory, and what is done to a
place outside it is a fault. The flags of the setup and of terminals are left out, as is `allfiles`:
a stream that was opened has its buffer.
-/

set_option autoImplicit false

namespace Vsta.Stdio

abbrev BUFSIZ : ℕ := 4096

abbrev SEEK_SET : ℤ := 0
abbrev SEEK_CUR : ℤ := 1
abbrev SEEK_END : ℤ := 2

abbrev NL : UChar := 10
abbrev CR : UChar := 13

/-! ## The file below -/

/-- The bytes of a file and the position of its descriptor. -/
structure Desc where
  bytes : List UChar
  pos : ℕ

/-- A byte written: behind the end, zeros come before it. -/
def Desc.put (d : Desc) (c : UChar) : Desc where
  bytes :=
    if d.pos < d.bytes.length then d.bytes.set d.pos c
    else d.bytes ++ List.replicate (d.pos - d.bytes.length) 0 ++ [c]
  pos := d.pos + 1

def Desc.write (d : Desc) (cs : List UChar) : Desc := cs.foldl Desc.put d

def Desc.read (d : Desc) (n : ℕ) : List UChar × Desc :=
  let cs := (d.bytes.drop d.pos).take n
  (cs, { d with pos := d.pos + cs.length })

/-- The position that is sought. -/
def Desc.target (d : Desc) (off whence : ℤ) : ℤ :=
  if whence = SEEK_SET then off
  else if whence = SEEK_CUR then d.pos + off
  else if whence = SEEK_END then d.bytes.length + off
  else -1

def Desc.lseek (d : Desc) (off whence : ℤ) : ℤ × Desc :=
  if 0 ≤ d.target off whence then
    (d.target off whence, { d with pos := (d.target off whence).toNat })
  else (-1, d)

/-! ## Streams -/

/-- The flags that do not change. -/
structure Mode where
  read : Bool
  write : Bool
  unbuf : Bool := false
  line : Bool := false

/-- `FILE`, with the file of `f_fd`; `f_pos` is counted from `f_buf`. -/
structure Stream where
  fd : Desc
  mode : Mode
  dirty : Bool
  eof : Bool
  err : Bool
  buf : ℕ → UChar
  pos : ℤ
  cnt : ℤ

/-- A place outside the buffer, or a variable that was not set. -/
inductive Fault where
  | outside | unset

abbrev M := Except Fault

/-- A stream that was opened on a descriptor. -/
def Stream.opened (fd : Desc) (mode : Mode) : Stream :=
  ⟨fd, mode, false, false, false, fun _ => 0, 0, 0⟩

variable (s : Stream)

/-- `fillbuf`, and whether it fails. -/
def fillbuf : Bool × Stream :=
  let s := { s with pos := 0, cnt := 0 }
  if s.eof || s.err then (true, s)
  else
    let (cs, fd) := s.fd.read BUFSIZ
    if cs = [] then (true, { s with fd := fd, eof := true })
    else
      (false, { s with fd := fd, buf := fun i => cs[i]?.getD (s.buf i), cnt := cs.length })

/-- `flushbuf`. -/
def flushbuf : M Stream :=
  if s.cnt = 0 then .ok s
  else if 0 ≤ s.cnt ∧ s.cnt ≤ BUFSIZ then
    .ok { s with
      fd := s.fd.write ((List.range s.cnt.toNat).map s.buf), pos := 0, cnt := 0, dirty := false }
  else .error .outside

/-- `set_read`, and whether it fails. -/
def setRead : M (Bool × Stream) := do
  if s.mode.read = false then return (true, s)
  let s ← if s.dirty then (fun s => { s with dirty := false }) <$> flushbuf s else pure s
  if s.cnt = 0 then return fillbuf s
  return (false, s)

/-- `set_write`, and whether it fails. -/
def setWrite : Bool × Stream :=
  if s.mode.write = false then (true, s)
  else if s.dirty then (false, s)
  else
    let (l, fd) : ℤ × Desc :=
      if s.cnt ≠ 0 then
        let (l, fd) := s.fd.lseek 0 SEEK_CUR
        fd.lseek (l - s.cnt) SEEK_SET
      else (0, s.fd)
    if l = -1 then (true, { s with fd := fd })
    else (false, { s with fd := fd, cnt := 0, pos := 0, dirty := true })

/-- A place of the buffer. -/
def place (i : ℤ) : M ℕ := if 0 ≤ i ∧ i < BUFSIZ then .ok i.toNat else .error .outside

def fgetc : M (Option UChar × Stream) := do
  let (failed, s) ← setRead s
  if failed then return (none, s)
  let i ← place s.pos
  return (some (s.buf i), { s with pos := s.pos + 1, cnt := s.cnt - 1 })

/-- A character is added to the buffer, which is flushed after it if the flags say so. -/
def addChar (c : UChar) : M Stream := do
  let i ← place s.pos
  let s := { s with
    buf := Function.update s.buf i c, pos := s.pos + 1, cnt := s.cnt + 1, dirty := true }
  if s.mode.unbuf || (s.mode.line && c = NL) then flushbuf s else pure s

/-- `fputc`, and whether it fails. -/
def fputc (c : UChar) : M (Bool × Stream) := do
  let (failed, s) := setWrite s
  if failed then return (true, s)
  let s ← if BUFSIZ ≤ s.cnt then flushbuf s else pure s
  let s ← addChar s c
  return (false, s)

/-- `fflush`. -/
def fflush : M Stream := if s.dirty then flushbuf s else pure s

/-- The loop of `fgets`: what it stores, and whether it met the end. -/
def fgetsLoop : ℕ → Stream → M (List UChar × Bool × Stream)
  | 0, s => return ([], false, s)
  | n + 1, s => do
    let (c, s) ← fgetc s
    match c with
    | none => return ([], true, s)
    | some c =>
      if c = CR then fgetsLoop n s
      else if c = NL then return ([c], false, s)
      else
        let (cs, eof, s) ← fgetsLoop n s
        return (c :: cs, eof, s)

/-- `fgets`. The loop does not run for a length of one, and then the last character is tested
though there is none. -/
def fgets (len : ℕ) : M (Option (List UChar) × Stream) := do
  if len ≤ 1 then throw .unset
  let (cs, eof, s) ← fgetsLoop (len - 1) s
  return (if eof then none else some cs, s)

def freadLoop : ℕ → Stream → M (List UChar × Stream)
  | 0, s => return ([], s)
  | n + 1, s => do
    let (c, s) ← fgetc s
    match c with
    | none => return ([], s)
    | some c =>
      let (cs, s) ← freadLoop n s
      return (c :: cs, s)

/-- `fread`: what is stored, and the elements. -/
def fread (size nelem : ℕ) : M (List UChar × ℕ × Stream) := do
  let len := wrap (size * nelem)
  let (cs, s) ← freadLoop len s
  return (cs, if cs.length < len then cs.length / size else nelem, s)

/-- The loop of `fwrite`, with what is left to write, and how much of it was written. -/
def fwriteLoop : List UChar → Stream → M (ℕ × Stream)
  | [], s => return (0, s)
  | c :: cs, s => do
    let (failed, s) ← fputc s c
    if failed then return (0, s)
    let (x, s) ← fwriteLoop cs s
    return (x + 1, s)

/-- `fwrite`. -/
def fwrite (p : ℕ → UChar) (size nelem : ℕ) : M (ℕ × Stream) := do
  let len := wrap (size * nelem)
  let (x, s) ← fwriteLoop ((List.range len).map p) s
  return (if x < len then x / size else nelem, s)

def ungetc (c : Option UChar) : M (Option UChar × Stream) :=
  match c with
  | none => return (none, s)
  | some c =>
    if !s.mode.read || s.pos = 0 || s.dirty || s.err then return (none, s)
    else do
      let i ← place (s.pos - 1)
      return (some c,
        { s with
          eof := false, pos := s.pos - 1, cnt := s.cnt + 1, buf := Function.update s.buf i c })

def ftell : ℤ :=
  let l := (s.fd.lseek 0 SEEK_CUR).1
  if s.dirty then l + s.cnt else l - s.cnt

/-- `fseek`: within the buffer, and elsewhere. -/
def fseek (off whence : ℤ) : M (ℤ × Stream) :=
  if whence = SEEK_CUR ∧ off ≤ s.cnt then
    return (0, { s with cnt := s.cnt - off, pos := s.pos + off })
  else do
    let off := if whence = SEEK_CUR then off - s.cnt else off
    let s ← if s.dirty then flushbuf s else pure { s with pos := 0, cnt := 0 }
    let s := { s with eof := false, err := false }
    let (l, fd) := s.fd.lseek off whence
    return (if 0 ≤ l then 0 else -1, { s with fd := fd })

inductive Call where
  | fgetc
  | fputc (c : UChar)
  | ungetc (c : Option UChar)
  | fread (size nelem : ℕ)
  | fwrite (p : ℕ → UChar) (size nelem : ℕ)
  | fgets (len : ℕ)
  | fseek (off whence : ℤ)
  | ftell
  | fflush

/-- What a call returns: a character, a number, bytes with a count of elements, or a string. -/
inductive Answer where
  | char (c : Option UChar)
  | number (n : ℤ)
  | elements (cs : List UChar) (n : ℕ)
  | text (cs : Option (List UChar))

def Stream.call : Call → M (Answer × Stream)
  | .fgetc => (fun r => (.char r.1, r.2)) <$> fgetc s
  | .fputc c => (fun r => (.number (if r.1 then -1 else 0), r.2)) <$> fputc s c
  | .ungetc c => (fun r => (.char r.1, r.2)) <$> ungetc s c
  | .fread size nelem => (fun r => (.elements r.1 r.2.1, r.2.2)) <$> fread s size nelem
  | .fwrite p size nelem => (fun r => (.number r.1, r.2)) <$> fwrite s p size nelem
  | .fgets len => (fun r => (.text r.1, r.2)) <$> fgets s len
  | .fseek off whence => (fun r => (.number r.1, r.2)) <$> fseek s off whence
  | .ftell => return (.number (ftell s), s)
  | .fflush => (fun s => (.number 0, s)) <$> fflush s

/-! ## The file without a buffer -/

/-- A byte array with a position, and the character that was pushed back there. -/
structure Plain where
  file : Desc
  mode : Mode
  pushed : Option UChar

def Plain.opened (fd : Desc) (mode : Mode) : Plain := ⟨fd, mode, none⟩

namespace Plain

variable (a : Plain)

/-- What can be read from the position on. -/
def rest : List UChar :=
  if a.mode.read then
    match a.pushed with
    | some c => c :: a.file.bytes.drop (a.file.pos + 1)
    | none => a.file.bytes.drop a.file.pos
  else []

def advance (n : ℕ) : Plain :=
  { a with
    file := { a.file with pos := a.file.pos + n }
    pushed := if n = 0 then a.pushed else none }

def get (n : ℕ) : List UChar × Plain := (a.rest.take n, a.advance (a.rest.take n).length)

def put (cs : List UChar) : Plain :=
  if cs = [] then a else { a with file := a.file.write cs, pushed := none }

/-- A line as far as it is among the given bytes. -/
def line : List UChar → List UChar
  | [] => []
  | c :: cs => if c = NL then [c] else c :: line cs

def call : Call → Answer × Plain
  | .fgetc => (.char (a.get 1).1.head?, (a.get 1).2)
  | .fputc c => if a.mode.write then (.number 0, a.put [c]) else (.number (-1), a)
  | .ungetc none => (.char none, a)
  | .ungetc (some c) =>
    if a.mode.read ∧ 0 < a.file.pos then
      (.char (some c),
        { a with file := { a.file with pos := a.file.pos - 1 }, pushed := some c })
    else (.char none, a)
  | .fread size nelem =>
    let (cs, a) := a.get (size * nelem)
    (.elements cs (if cs.length < size * nelem then cs.length / size else nelem), a)
  | .fwrite p size nelem =>
    if size * nelem = 0 then (.number nelem, a)
    else if a.mode.write then
      (.number nelem, a.put ((List.range (size * nelem)).map p))
    else (.number 0, a)
  | .fgets len =>
    let read := line (a.rest.take (len - 1))
    let text := read.filter (· ≠ CR)
    -- the end of the file, with nothing before it
    let none_ := read.length < len - 1 ∧ NL ∉ read ∧ text = []
    (.text (if none_ then none else some text), a.advance read.length)
  | .fseek off whence =>
    let (l, file) := a.file.lseek off whence
    if 0 ≤ l then (.number 0, { a with file := file, pushed := none }) else (.number (-1), a)
  | .ftell => (.number a.file.pos, a)
  | .fflush => (.number 0, a)

end Plain

end Vsta.Stdio
