import Vsta.Stdio.Streams
import Mathlib.Data.List.Basic
import Mathlib.Tactic.SplitIfs

/-!
# Buffered streams against files without a buffer

Clean, a stream holds the next bytes of the plain file; dirty, the plain file is what a flush makes
of the file below. Each call that meets a condition keeps this, and answers as the plain file does
(`stream_right`).

Outside the condition, `fseek` relative to the current position takes what waits to be written for
what waits to be read, and goes in front of the buffer; a seek that fails drops what was read;
`fgets` drops a last line without a newline; `ungetc` refuses the character once the end was met;
and a product of size and elements wraps.
-/

set_option autoImplicit false

namespace Vsta.Stdio

/-! ## What is claimed -/

structure World where
  stream : Stream
  plain : Plain

def World.opened (fd : Desc) (mode : Mode) : World := ⟨.opened fd mode, .opened fd mode⟩

/-- A call answers as on the plain file, and after `fflush` the file is that. -/
def Right (w : World) (c : Call) : Prop :=
  ∃ s, w.stream.call c = .ok ((w.plain.call c).1, s) ∧
    (c = .fflush → s.fd.bytes = (w.plain.call c).2.file.bytes)

/-- The worlds that calls meeting a condition lead to. -/
inductive Reaches (cond : World → Call → Prop) (w₀ : World) : World → Prop
  | start : Reaches cond w₀ w₀
  | step {w : World} {c : Call} {r : Answer} {s : Stream} (reached : Reaches cond w₀ w)
      (met : cond w c) (call : w.stream.call c = .ok (r, s)) :
      Reaches cond w₀ ⟨s, (w.plain.call c).2⟩

/-- A line ends before a length and before the end of the file, or nothing is left but carriage
returns. -/
def Lined (rest : List UChar) (n : ℕ) : Prop :=
  NL ∈ rest.take n ∨ n ≤ rest.length ∨ ∀ c ∈ rest, c = CR

/-- From a place on, the buffer holds what the file has there. -/
def Agrees (s : Stream) (from_ : ℤ) : Prop :=
  ∀ i : ℕ, from_ ≤ i → i < s.pos + s.cnt →
    s.fd.bytes[(s.fd.pos - (s.pos + s.cnt) + i).toNat]? = some (s.buf i)

/-- One character is pushed back, where there is one in front of it in a clean buffer, or where the
plain file refuses it too. Products do not wrap where it makes a difference. A string of `fgets` does not end at the end of the
file. A seek in the buffer goes nowhere when it is dirty, and else stays in it and finds there what
the file has; another relative seek is from a clean buffer; and a seek that fails comes where
nothing is left from a read. -/
def Meets (w : World) : Call → Prop
  | .fgetc | .fputc _ | .ungetc none | .ftell | .fflush => True
  | .ungetc (some _) =>
    w.plain.pushed = none ∧
      (w.stream.dirty = false ∧ 0 < w.stream.pos ∨ w.plain.mode.read = false ∨
        w.plain.file.pos = 0)
  | .fread size nelem =>
    size * nelem < 2 ^ 32 ∨ w.plain.rest.length < wrap (size * nelem)
  | .fwrite _ size nelem =>
    size * nelem < 2 ^ 32 ∨ w.plain.mode.write = false ∧ 0 < wrap (size * nelem)
  | .fgets len => 2 ≤ len ∧ Lined w.plain.rest (len - 1)
  | .fseek off whence =>
    if whence = SEEK_CUR ∧ off ≤ w.stream.cnt then
      if w.stream.dirty then off = 0
      else 0 ≤ w.stream.pos + off ∧ Agrees w.stream (w.stream.pos + off)
    else if whence = SEEK_CUR then w.stream.dirty = false
    else 0 ≤ w.plain.file.target off whence ∨ w.stream.dirty = true ∨ w.stream.cnt = 0

/-! ## The file below -/

namespace Desc

variable {d : Desc}

theorem write_append (d : Desc) (cs cs' : List UChar) :
    d.write (cs ++ cs') = (d.write cs).write cs' := List.foldl_append

theorem pos_write (d : Desc) (cs : List UChar) : (d.write cs).pos = d.pos + cs.length := by
  induction cs generalizing d with
  | nil => rfl
  | cons c cs ih =>
    rw [write, List.foldl_cons, ← write, ih]
    simp only [put, List.length_cons]
    omega

/-- What is written from the end on ends the file. -/
theorem end_put (at_end : d.bytes.length ≤ d.pos) (c : UChar) :
    (d.put c).bytes.length ≤ (d.put c).pos := by
  simp only [put, if_neg (Nat.not_lt.mpr at_end), List.length_append, List.length_replicate,
    List.length_singleton]
  omega

end Desc

/-! ## The plain file -/

namespace Plain

variable {a : Plain}

theorem rest_advance (a : Plain) (n : ℕ) : (a.advance n).rest = a.rest.drop n := by
  cases read : a.mode.read with
  | false => simp [rest, advance, read]
  | true =>
    cases n with
    | zero => rfl
    | succ n =>
      cases pushed : a.pushed with
      | none => simp [rest, advance, read, pushed, List.drop_drop]
      | some c =>
        simp only [rest, advance, read, pushed, if_true, Nat.add_one_ne_zero, if_false,
          List.drop_succ_cons, List.drop_drop]
        congr 1
        omega

theorem advance_zero (a : Plain) : a.advance 0 = a := rfl

theorem advance_advance (a : Plain) (m n : ℕ) : (a.advance m).advance n = a.advance (m + n) := by
  simp only [advance, Nat.add_eq_zero_iff]
  congr 1
  · rw [Nat.add_assoc]
  · split_ifs <;> simp_all

end Plain

/-! ## The relation -/

/-- Nothing waits to be written. Of the buffer, `p` bytes were taken and `c` are left. -/
structure Clean (s : Stream) (a : Plain) (p c : ℕ) : Prop where
  mode : s.mode = a.mode
  dirty : s.dirty = false
  err : s.err = false
  pos : s.pos = p
  cnt : s.cnt = c
  size : p + c ≤ BUFSIZ
  behind : p + c ≤ s.fd.pos
  file : a.file = { s.fd with pos := s.fd.pos - c }
  pushed : c = 0 → a.pushed = none
  unread : a.mode.read = false → p + c = 0
  left : ∀ i < c, a.rest[i]? = some (s.buf (p + i))
  eof : s.eof = true → p = 0 ∧ c = 0 ∧ s.fd.bytes.length ≤ s.fd.pos

/-- `n` bytes wait to be written. -/
structure Dirty (s : Stream) (a : Plain) (n : ℕ) : Prop where
  mode : s.mode = a.mode
  dirty : s.dirty = true
  err : s.err = false
  pos : s.pos = n
  cnt : s.cnt = n
  size : n ≤ BUFSIZ
  file : a.file = s.fd.write ((List.range n).map s.buf)
  pushed : a.pushed = none
  eof : s.eof = true → a.file.bytes.length ≤ a.file.pos

/-- What a stream and a plain file have to do with each other. -/
inductive Rel (s : Stream) (a : Plain) : Prop
  | clean {p c : ℕ} (is : Clean s a p c)
  | dirty {n : ℕ} (is : Dirty s a n)

variable {s : Stream} {a : Plain} {p c n : ℕ}

theorem clean_opened (fd : Desc) (mode : Mode) : Clean (.opened fd mode) (.opened fd mode) 0 0 where
  mode := rfl
  dirty := rfl
  err := rfl
  pos := rfl
  cnt := rfl
  size := Nat.zero_le _
  behind := Nat.zero_le _
  file := rfl
  pushed := fun _ => rfl
  unread := fun _ => rfl
  left := fun _ less => absurd less (Nat.not_lt_zero _)
  eof := fun is => by cases is

/-- A flush leaves the file that the plain one is. -/
theorem Dirty.flush (is : Dirty s a n) : ∃ s', flushbuf s = .ok s' ∧ s'.fd = a.file ∧
    s'.mode = s.mode ∧ (n ≠ 0 → s'.dirty = false) ∧ Clean { s' with dirty := false } a 0 0 := by
  have clean : ∀ s' : Stream, s'.fd = a.file → s'.mode = s.mode → s'.err = s.err →
      s'.eof = s.eof → s'.pos = 0 → s'.cnt = 0 → Clean { s' with dirty := false } a 0 0 := by
    intro s' fd mode err eof pos cnt
    exact {
      mode := mode.trans is.mode
      dirty := rfl
      err := err.trans is.err
      pos := pos
      cnt := cnt
      size := Nat.zero_le _
      behind := Nat.zero_le _
      file := by rw [← fd]; rfl
      pushed := fun _ => is.pushed
      unread := fun _ => rfl
      left := fun _ less => absurd less (Nat.not_lt_zero _)
      eof := fun end_ => ⟨rfl, rfl, by
        have := is.eof (eof.symm.trans end_)
        rwa [← fd] at this⟩ }
  rw [flushbuf, is.cnt]
  by_cases empty : n = 0
  · subst empty
    have fd : s.fd = a.file := is.file.symm
    exact ⟨s, if_pos rfl, fd, rfl, fun none_ => absurd rfl none_,
      clean s fd rfl rfl rfl is.pos is.cnt⟩
  · rw [if_neg (by omega), if_pos ⟨Int.natCast_nonneg n, by exact_mod_cast is.size⟩]
    refine ⟨_, rfl, ?_, rfl, fun _ => rfl, clean _ ?_ rfl rfl rfl rfl rfl⟩ <;>
      simpa using is.file.symm

/-- Where nothing is left in the buffer, the plain file is the one below. -/
theorem Clean.file_eq (is : Clean s a p 0) : a.file = s.fd := by
  rw [is.file, Nat.sub_zero]

theorem Clean.rest_eq (is : Clean s a p 0) (read : a.mode.read = true) :
    a.rest = s.fd.bytes.drop s.fd.pos := by
  rw [Plain.rest, if_pos read, is.pushed rfl, is.file_eq]

/-! ## Reading -/

/-- A clean buffer with nothing left is filled, or the end was met. -/
theorem Clean.fill (is : Clean s a p 0) (read : a.mode.read = true) :
    (∃ s', fillbuf s = (true, s') ∧ a.rest = [] ∧ Clean s' a 0 0) ∨
      ∃ s' c, fillbuf s = (false, s') ∧ 0 < c ∧ Clean s' a 0 c := by
  have rest := is.rest_eq read
  have empty : Clean { s with pos := 0, cnt := 0 } a 0 0 := { is with
    pos := rfl
    cnt := rfl
    size := Nat.zero_le _
    behind := Nat.zero_le _
    unread := fun _ => rfl
    left := fun _ less => absurd less (Nat.not_lt_zero _)
    eof := fun end_ => ⟨rfl, rfl, (is.eof end_).2.2⟩ }
  rw [fillbuf]
  by_cases end_ : s.eof = true
  · left
    have most := (is.eof end_).2.2
    exact ⟨_, by simp [end_], rest.trans (List.drop_eq_nil_of_le most), empty⟩
  · simp only [Bool.not_eq_true] at end_
    simp only [end_, is.err, Bool.or_false, Bool.false_eq_true, if_false, Desc.read]
    by_cases none_ : (s.fd.bytes.drop s.fd.pos).take BUFSIZ = []
    · left
      have nil : s.fd.bytes.drop s.fd.pos = [] := by
        refine (List.take_eq_nil_iff.mp none_).resolve_left (by decide)
      refine ⟨_, if_pos none_, rest.trans nil, { empty with
        err := rfl
        file := by rw [is.file_eq, none_]; rfl
        behind := Nat.zero_le _
        eof := fun _ => ⟨rfl, rfl, ?_⟩ }⟩
      rw [none_]
      exact List.drop_eq_nil_iff.mp nil
    · right
      generalize held : (s.fd.bytes.drop s.fd.pos).take BUFSIZ = cs at none_
      have length : cs.length ≤ BUFSIZ := by
        rw [← held, List.length_take]
        exact Nat.min_le_left _ _
      refine ⟨_, cs.length, if_neg none_, List.length_pos_of_ne_nil none_, { is with
        err := rfl
        pos := rfl
        cnt := rfl
        size := by omega
        behind := by dsimp only; omega
        file := by rw [is.file_eq, Nat.add_sub_cancel]
        pushed := fun _ => is.pushed rfl
        unread := fun unread => absurd (read.symm.trans unread) (by simp)
        left := fun i less => ?_
        eof := fun is' => by cases is' }⟩
      have got : cs[i]? = a.rest[i]? := by
        rw [rest, ← held, List.getElem?_take_of_lt (by omega)]
      rw [← got, Nat.zero_add]
      simp [List.getElem?_eq_getElem less]

/-- `set_read` on a stream that can be read. -/
theorem Rel.setRead (rel : Rel s a) (read : a.mode.read = true) :
    (∃ s', setRead s = .ok (true, s') ∧ a.rest = [] ∧ Clean s' a 0 0) ∨
      ∃ s' p c, setRead s = .ok (false, s') ∧ 0 < c ∧ Clean s' a p c := by
  have fills : ∀ {t : Stream} {p : ℕ}, Clean t a p 0 →
      (∃ s', (Except.ok (fillbuf t) : M _) = .ok (true, s') ∧ a.rest = [] ∧ Clean s' a 0 0) ∨
        ∃ s' p c, (Except.ok (fillbuf t) : M _) = .ok (false, s') ∧ 0 < c ∧ Clean s' a p c := by
    intro t p is
    rcases is.fill read with ⟨s', fill, rest⟩ | ⟨s', c, fill, rest⟩
    · exact .inl ⟨s', congrArg _ fill, rest⟩
    · exact .inr ⟨s', 0, c, congrArg _ fill, rest⟩
  cases rel with
  | clean is =>
    rename_i p c
    rw [Stdio.setRead, if_neg (by simp [is.mode, read])]
    simp only [is.dirty, Bool.false_eq_true, if_false, pure_bind, is.cnt]
    by_cases none_ : c = 0
    · subst none_
      exact fills is
    · rw [if_neg (by omega)]
      exact .inr ⟨s, p, c, rfl, Nat.pos_of_ne_zero none_, is⟩
  | dirty is =>
    obtain ⟨s', flush, -, mode, -, clean⟩ := is.flush
    have run : Stdio.setRead s = .ok (fillbuf { s' with dirty := false }) := by
      rw [Stdio.setRead, if_neg (by simp [is.mode, read])]
      simp only [is.dirty, if_true, flush]
      exact if_pos clean.cnt
    rw [run]
    exact fills clean

theorem fgetc_of_read {s' : Stream} (read : setRead s = .ok (false, s')) {i : ℕ}
    (at_ : s'.pos = i) (inside : i < BUFSIZ) :
    fgetc s = .ok (some (s'.buf i), { s' with pos := s'.pos + 1, cnt := s'.cnt - 1 }) := by
  have place_ : place s'.pos = .ok i := by
    rw [place, at_, if_pos ⟨Int.natCast_nonneg i, by exact_mod_cast inside⟩]
    rfl
  rw [fgetc, read]
  simp only [bind, Except.bind, Bool.false_eq_true, if_false, place_]
  rfl

/-- `fgetc`. -/
theorem Rel.fgetc (rel : Rel s a) :
    ∃ s', fgetc s = .ok (a.rest.head?, s') ∧ Rel s' (a.advance (a.rest.take 1).length) := by
  cases read : a.mode.read with
  | false =>
    have rest : a.rest = [] := by simp [Plain.rest, read]
    have mode : s.mode = a.mode := by cases rel with | clean is | dirty is => exact is.mode
    refine ⟨s, ?_, ?_⟩
    · rw [Stdio.fgetc, Stdio.setRead, if_pos (by rw [mode, read]), rest]
      rfl
    · rw [rest]
      exact rel
  | true =>
    rcases rel.setRead read with ⟨s', run, rest, clean⟩ | ⟨s', p, c, run, some_, clean⟩
    · refine ⟨s', ?_, ?_⟩
      · rw [Stdio.fgetc, run, rest]
        rfl
      · rw [rest]
        exact .clean clean
    · have first := clean.left 0 some_
      have size := clean.size
      have behind := clean.behind
      have rest : (a.rest.take 1).length = 1 := by
        rw [List.length_take]
        have := (List.getElem?_eq_some_iff.mp first).1
        omega
      refine ⟨{ s' with pos := s'.pos + 1, cnt := s'.cnt - 1 }, ?_, ?_⟩
      · rw [fgetc_of_read run clean.pos (by omega), List.head?_eq_getElem?, first]
        rfl
      · rw [rest]
        exact .clean (p := p + 1) (c := c - 1) { clean with
          pos := by dsimp only; rw [clean.pos]; omega
          cnt := by dsimp only; rw [clean.cnt]; omega
          size := by omega
          behind := by dsimp only; omega
          file := by
            simp only [Plain.advance, clean.file]
            congr 1
            omega
          pushed := fun _ => rfl
          unread := fun unread => absurd (read.symm.trans unread) (by simp)
          left := fun i less => by
            have is := clean.left (i + 1) (by omega)
            have same : p + 1 + i = p + (i + 1) := by omega
            rw [Plain.rest_advance, List.getElem?_drop, Nat.add_comm 1 i, is, same]
          eof := fun end_ => absurd (clean.eof end_).2.1 (by omega) }

/-- Several characters are read one by one. -/
theorem Rel.freadLoop (rel : Rel s a) (n : ℕ) :
    ∃ s', freadLoop n s = .ok (a.rest.take n, s') ∧
      Rel s' (a.advance (a.rest.take n).length) := by
  induction n generalizing s a with
  | zero => exact ⟨s, rfl, by simpa [Plain.advance_zero] using rel⟩
  | succ n ih =>
    obtain ⟨s', run, rel'⟩ := rel.fgetc
    rw [Stdio.freadLoop, run]
    cases rest : a.rest with
    | nil =>
      rw [rest] at rel'
      exact ⟨s', rfl, rel'⟩
    | cons c cs =>
      have after : (a.advance 1).rest = cs := by rw [Plain.rest_advance, rest]; rfl
      obtain ⟨s'', run', rel''⟩ := ih (by simpa [rest] using rel')
      rw [after] at run' rel''
      refine ⟨s'', ?_, ?_⟩
      · simp only [bind, Except.bind, List.head?_cons, run']
        rfl
      · rw [Plain.advance_advance, Nat.add_comm] at rel''
        exact rel''

theorem line_other {c : UChar} (cs : List UChar) (other : c ≠ NL) :
    Plain.line (c :: cs) = c :: Plain.line cs := if_neg other

theorem line_end (cs : List UChar) : Plain.line (NL :: cs) = [NL] := if_pos rfl

/-- What `fgets` stores is the line without carriage returns, and the end is met where the line
ends with the file. -/
theorem Rel.fgetsLoop (rel : Rel s a) (n : ℕ) :
    ∃ eof s', fgetsLoop n s = .ok ((Plain.line (a.rest.take n)).filter (· ≠ CR), eof, s') ∧
      (eof = true ↔
        (Plain.line (a.rest.take n)).length < n ∧ NL ∉ Plain.line (a.rest.take n)) ∧
      Rel s' (a.advance (Plain.line (a.rest.take n)).length) := by
  induction n generalizing s a with
  | zero =>
    exact ⟨false, s, rfl, by simp, by simpa [Plain.line, Plain.advance_zero] using rel⟩
  | succ n ih =>
    obtain ⟨s', run, rel'⟩ := rel.fgetc
    rw [Stdio.fgetsLoop, run]
    cases rest : a.rest with
    | nil =>
      rw [rest] at rel'
      exact ⟨true, s', rfl, by simp [Plain.line], rel'⟩
    | cons c cs =>
      have after : (a.advance 1).rest = cs := by rw [Plain.rest_advance, rest]; rfl
      have next : Rel s' (a.advance 1) := by simpa [rest] using rel'
      obtain ⟨eof, s'', run', eof_iff, rel''⟩ := ih next
      rw [after] at run' rel'' eof_iff
      rw [Plain.advance_advance, Nat.add_comm] at rel''
      simp only [bind, Except.bind, List.head?_cons, List.take_succ_cons]
      by_cases nl : c = NL
      · subst nl
        simp only [line_end]
        exact ⟨false, s', rfl, by simp, next⟩
      · simp only [line_other _ nl, List.length_cons]
        refine ⟨eof, s'', ?_, ?_, rel''⟩
        · by_cases cr : c = CR
          · rw [if_pos cr, run', List.filter_cons_of_neg (by simpa using cr)]
          · rw [if_neg cr, if_neg nl, run', List.filter_cons_of_pos (by simpa using cr)]
            rfl
        · rw [eof_iff, List.mem_cons, not_or, Nat.succ_lt_succ_iff]
          exact ⟨fun is => ⟨is.1, Ne.symm nl, is.2⟩, fun is => ⟨is.1, is.2.2⟩⟩

/-! ## Writing -/

/-- A clean stream with nothing left in its buffer is ready to be written. -/
theorem Clean.ready (is : Clean s a 0 0) :
    Dirty { s with dirty := true } { a with pushed := none } 0 where
  mode := is.mode
  dirty := rfl
  err := is.err
  pos := is.pos
  cnt := is.cnt
  size := Nat.zero_le _
  file := is.file_eq
  pushed := rfl
  eof := fun end_ => by
    have most := (is.eof end_).2.2
    rwa [← is.file_eq] at most

/-- What was read and not taken is given up: the descriptor is where the plain file is. -/
theorem Clean.back (is : Clean s a p c) :
    Clean { s with fd := a.file, pos := 0, cnt := 0 } { a with pushed := none } 0 0 where
  mode := is.mode
  dirty := is.dirty
  err := is.err
  pos := rfl
  cnt := rfl
  size := Nat.zero_le _
  behind := Nat.zero_le _
  file := rfl
  pushed := fun _ => rfl
  unread := fun _ => rfl
  left := fun _ less => absurd less (Nat.not_lt_zero _)
  eof := fun end_ => by
    obtain ⟨-, none_, most⟩ := is.eof end_
    subst none_
    rw [is.file_eq]
    exact ⟨rfl, rfl, most⟩

theorem target_cur (d : Desc) (off : ℤ) : d.target off SEEK_CUR = d.pos + off := rfl

theorem lseek_cur (d : Desc) : d.lseek 0 SEEK_CUR = ((d.pos : ℤ), d) := by
  have target : d.target 0 SEEK_CUR = d.pos := (target_cur d 0).trans (Int.add_zero _)
  rw [Desc.lseek, target, if_pos (Int.natCast_nonneg _)]
  rfl

theorem lseek_set (d : Desc) (n : ℕ) : d.lseek n SEEK_SET = ((n : ℤ), { d with pos := n }) := by
  have target : d.target n SEEK_SET = n := rfl
  rw [Desc.lseek, target, if_pos (Int.natCast_nonneg _)]
  rfl

/-- `set_write`. -/
theorem Clean.setWrite (is : Clean s a p c) (write : a.mode.write = true) :
    ∃ s', setWrite s = (false, s') ∧ Dirty s' { a with pushed := none } 0 := by
  have mode : ¬ s.mode.write = false := by rw [is.mode, write]; simp
  have behind := is.behind
  refine ⟨{ s with fd := a.file, pos := 0, cnt := 0, dirty := true }, ?_, is.back.ready⟩
  rw [Stdio.setWrite, if_neg mode, if_neg (by simp [is.dirty]), is.cnt]
  by_cases none_ : c = 0
  · subst none_
    rw [is.file_eq]
    rfl
  · have some_ : (c : ℤ) ≠ 0 := by omega
    have l : (s.fd.pos : ℤ) - c = (s.fd.pos - c : ℕ) := by omega
    simp only [if_pos some_, lseek_cur, l, lseek_set]
    rw [if_neg (by omega), is.file]

/-- A character is put where nothing is in its way. -/
theorem Dirty.put (is : Dirty { s with dirty := true } { a with pushed := none } n)
    (room : n < BUFSIZ) (ch : UChar) :
    Dirty { s with
        buf := Function.update s.buf n ch, pos := s.pos + 1, cnt := s.cnt + 1, dirty := true }
      (a.put [ch]) (n + 1) := by
  have put : a.put [ch] = { a with file := a.file.put ch, pushed := none } := by
    rw [Plain.put, if_neg (List.cons_ne_nil _ _)]
    rfl
  have same : (List.range n).map (Function.update s.buf n ch) = (List.range n).map s.buf := by
    refine List.map_congr_left fun i member => Function.update_of_ne ?_ _ _
    exact (List.mem_range.mp member).ne
  have pos : s.pos = n := is.pos
  have cnt : s.cnt = n := is.cnt
  have file : a.file = s.fd.write ((List.range n).map s.buf) := is.file
  rw [put]
  exact { is with
    pos := by dsimp only; rw [pos]; push_cast; rfl
    cnt := by dsimp only; rw [cnt]; push_cast; rfl
    size := room
    file := by
      dsimp only
      rw [List.range_succ, List.map_append, same, Desc.write_append, ← file]
      simp [Desc.write]
    dirty := rfl
    pushed := rfl
    eof := fun end_ => Desc.end_put (is.eof end_) ch }

/-- A flush of bytes that wait leaves a clean stream. -/
theorem Dirty.flush_rel (is : Dirty s a n) :
    ∃ s', flushbuf s = .ok s' ∧ s'.fd = a.file ∧ s'.mode = s.mode ∧ Rel s' a ∧
      (n ≠ 0 → Clean s' a 0 0) := by
  obtain ⟨s', run, fd, mode, dirty, clean⟩ := is.flush
  have whole : n ≠ 0 → Clean s' a 0 0 := by
    intro some_
    have same : { s' with dirty := false } = s' := by rw [← dirty some_]
    rwa [same] at clean
  refine ⟨s', run, fd, mode, ?_, whole⟩
  by_cases none_ : n = 0
  · subst none_
    have none_ : s.cnt = 0 := is.cnt
    rw [flushbuf, if_pos none_] at run
    cases run
    exact .dirty is
  · exact .clean (whole none_)

theorem Dirty.addChar (is : Dirty { s with dirty := true } { a with pushed := none } n)
    (room : n < BUFSIZ) (ch : UChar) : ∃ s', addChar s ch = .ok s' ∧ Rel s' (a.put [ch]) := by
  have put := is.put room ch
  have pos : s.pos = n := is.pos
  have place_ : place s.pos = .ok n := by
    rw [place, pos, if_pos ⟨Int.natCast_nonneg n, by exact_mod_cast room⟩]
    rfl
  rw [Stdio.addChar, place_]
  simp only [bind, Except.bind]
  split_ifs
  · obtain ⟨s', run, -, -, rel, -⟩ := put.flush_rel
    exact ⟨s', run, rel⟩
  · exact ⟨_, rfl, .dirty put⟩

/-- `fputc`. -/
theorem Rel.fputc (rel : Rel s a) (write : a.mode.write = true) (ch : UChar) :
    ∃ s', fputc s ch = .ok (false, s') ∧ Rel s' (a.put [ch]) := by
  -- after `set_write`
  obtain ⟨t, n, ready, is⟩ : ∃ t n, Stdio.setWrite s = (false, t) ∧
      Dirty t { a with pushed := none } n := by
    cases rel with
    | clean is =>
      obtain ⟨t, ready, is⟩ := is.setWrite write
      exact ⟨t, 0, ready, is⟩
    | dirty is =>
      refine ⟨s, _, ?_, { is with pushed := rfl }⟩
      rw [Stdio.setWrite, if_neg (by rw [is.mode, write]; simp), if_pos is.dirty]
  have on : { t with dirty := true } = t := by rw [← is.dirty]
  rw [Stdio.fputc, ready]
  simp only [Bool.false_eq_true, if_false, is.cnt]
  by_cases full : n = BUFSIZ
  · obtain ⟨t', run, -, -, -, clean⟩ := is.flush_rel
    obtain ⟨s', run', rel'⟩ := (clean (by rw [full]; decide)).ready.addChar (by decide) ch
    refine ⟨s', ?_, rel'⟩
    rw [if_pos (by exact_mod_cast full.ge), run]
    simp only [bind, Except.bind, run']
    rfl
  · have room : n < BUFSIZ := lt_of_le_of_ne is.size full
    obtain ⟨s', run', rel'⟩ := Dirty.addChar (on.symm ▸ is) room ch
    refine ⟨s', ?_, rel'⟩
    rw [if_neg (by exact_mod_cast room.not_ge)]
    simp only [bind, Except.bind, pure, Except.pure, run']

theorem Plain.put_cons (a : Plain) (ch : UChar) (cs : List UChar) :
    (a.put [ch]).put cs = a.put (ch :: cs) := by
  cases cs with
  | nil => rfl
  | cons ch' cs => rfl

theorem Plain.put_mode (a : Plain) (cs : List UChar) : (a.put cs).mode = a.mode := by
  rw [Plain.put]
  split_ifs <;> rfl

theorem Rel.fwriteLoop (rel : Rel s a) (write : a.mode.write = true) (cs : List UChar) :
    ∃ s', fwriteLoop cs s = .ok (cs.length, s') ∧ Rel s' (a.put cs) := by
  induction cs generalizing s a with
  | nil => exact ⟨s, rfl, rel⟩
  | cons ch cs ih =>
    obtain ⟨s', run, rel'⟩ := rel.fputc write ch
    obtain ⟨s'', run', rel''⟩ := ih rel' ((Plain.put_mode a [ch]).symm ▸ write)
    refine ⟨s'', ?_, Plain.put_cons a ch cs ▸ rel''⟩
    rw [Stdio.fwriteLoop, run]
    simp only [bind, Except.bind, Bool.false_eq_true, if_false, run']
    rfl

theorem Rel.mode (rel : Rel s a) : s.mode = a.mode := by
  cases rel with
  | clean is => exact is.mode
  | dirty is => exact is.mode

/-- A stream that cannot be written refuses every character. -/
theorem fputc_refused (write : s.mode.write = false) (ch : UChar) :
    fputc s ch = .ok (true, s) := by
  rw [fputc, setWrite, if_pos write]
  rfl

/-- `fwrite`. -/
theorem Rel.fwrite (rel : Rel s a) {q : ℕ → UChar} {size nelem : ℕ}
    (met : Meets ⟨s, a⟩ (.fwrite q size nelem)) :
    ∃ s', s.call (.fwrite q size nelem) = .ok ((a.call (.fwrite q size nelem)).1, s') ∧
      Rel s' (a.call (.fwrite q size nelem)).2 := by
  -- a stream that cannot be written takes nothing
  have refused : a.mode.write = false → ∀ n, 0 < n →
      Stdio.fwriteLoop ((List.range n).map q) s = .ok (0, s) := by
    intro write n some_
    obtain ⟨m, rfl⟩ := Nat.exists_eq_succ_of_ne_zero some_.ne'
    rw [List.range_succ_eq_map, List.map_cons, Stdio.fwriteLoop,
      fputc_refused (rel.mode ▸ write)]
    rfl
  rw [Stream.call, Stdio.fwrite, Plain.call]
  by_cases none_ : size * nelem = 0
  · rw [if_pos none_, none_]
    exact ⟨s, rfl, rel⟩
  · rw [if_neg none_]
    cases write : a.mode.write with
    | true =>
      have small : size * nelem < 2 ^ 32 :=
        met.resolve_right fun is => absurd (write.symm.trans is.1) (by simp)
      obtain ⟨s', run, rel'⟩ := rel.fwriteLoop write ((List.range (size * nelem)).map q)
      rw [List.length_map, List.length_range] at run
      refine ⟨s', ?_, rel'⟩
      simp only [wrap_eq small, run, bind, Except.bind]
      rw [if_neg (Nat.lt_irrefl _)]
      rfl
    | false =>
      refine ⟨s, ?_, rel⟩
      have some_ : 0 < wrap (size * nelem) := by
        rcases met with small | more
        · rw [wrap_eq small]
          exact Nat.pos_of_ne_zero none_
        · exact more.2
      simp only [refused write _ some_, bind, Except.bind]
      rw [if_pos some_, Nat.zero_div]
      rfl

/-- `fread`. -/
theorem Rel.fread (rel : Rel s a) {size nelem : ℕ} (met : Meets ⟨s, a⟩ (.fread size nelem)) :
    ∃ s', s.call (.fread size nelem) = .ok ((a.call (.fread size nelem)).1, s') ∧
      Rel s' (a.call (.fread size nelem)).2 := by
  obtain ⟨s', run, rel'⟩ := rel.freadLoop (wrap (size * nelem))
  have same : a.rest.take (wrap (size * nelem)) = a.rest.take (size * nelem) ∧
      ((a.rest.take (size * nelem)).length < wrap (size * nelem) ↔
        (a.rest.take (size * nelem)).length < size * nelem) := by
    by_cases small : size * nelem < 2 ^ 32
    · rw [wrap_eq small]
      exact ⟨rfl, Iff.rfl⟩
    · have less : a.rest.length < wrap (size * nelem) := met.resolve_left small
      have le := wrap_le (size * nelem)
      rw [List.take_of_length_le less.le, List.take_of_length_le (less.le.trans le)]
      exact ⟨rfl, iff_of_true less (less.trans_le le)⟩
  rw [same.1] at run rel'
  refine ⟨s', ?_, rel'⟩
  rw [Stream.call, Stdio.fread]
  simp only [run, bind, Except.bind, same.2]
  rfl

/-- Of a line that the end of the file cuts, nothing is stored. -/
theorem Lined.text_nil {rest : List UChar} {n : ℕ} (lined : Lined rest n)
    (short : (Plain.line (rest.take n)).length < n) (none_ : NL ∉ Plain.line (rest.take n)) :
    (Plain.line (rest.take n)).filter (· ≠ CR) = [] := by
  have whole : ∀ cs : List UChar, NL ∉ Plain.line cs → Plain.line cs = cs ∧ NL ∉ cs := by
    intro cs
    induction cs with
    | nil => exact fun _ => ⟨rfl, List.not_mem_nil⟩
    | cons ch cs ih =>
      intro free
      by_cases nl : ch = NL
      · subst nl
        exact absurd (by rw [line_end]; exact List.mem_singleton_self _) free
      · rw [line_other cs nl, List.mem_cons, not_or] at free
        rw [line_other cs nl, (ih free.2).1]
        exact ⟨rfl, List.mem_cons.not.mpr (not_or.mpr ⟨free.1, (ih free.2).2⟩)⟩
  obtain ⟨same, free⟩ := whole _ none_
  rw [same] at short ⊢
  rcases lined with there | more | only
  · exact absurd there free
  · rw [List.length_take, Nat.min_eq_left more] at short
    exact absurd short (Nat.lt_irrefl n)
  · exact List.filter_eq_nil_iff.mpr fun ch member => by
      simp [only ch (List.mem_of_mem_take member)]

/-- `fgets`. -/
theorem Rel.fgets (rel : Rel s a) {len : ℕ} (two : 2 ≤ len) (lined : Lined a.rest (len - 1)) :
    ∃ s', s.call (.fgets len) = .ok ((a.call (.fgets len)).1, s') ∧
      Rel s' (a.call (.fgets len)).2 := by
  obtain ⟨eof, s', run, eof_iff, rel'⟩ := rel.fgetsLoop (len - 1)
  refine ⟨s', ?_, rel'⟩
  rw [Stream.call, Stdio.fgets, if_neg (by omega), Plain.call]
  simp only [run, bind, Except.bind, pure, Except.pure, Functor.map, Except.map]
  by_cases end_ : eof = true
  · obtain ⟨short, none_⟩ := eof_iff.mp end_
    rw [if_pos end_, if_pos ⟨short, none_, lined.text_nil short none_⟩]
  · rw [if_neg end_, if_neg fun is => end_ (eof_iff.mpr ⟨is.1, is.2.1⟩)]

/-! ## Positions -/

/-- `ungetc` of a character, where there is one in front of it in a clean buffer. -/
theorem Clean.ungetc (is : Clean s a p c) (before : 0 < p) (read : a.mode.read = true)
    (none_ : a.pushed = none) (ch : UChar) :
    Clean { s with
        eof := false, pos := s.pos - 1, cnt := s.cnt + 1, buf := Function.update s.buf (p - 1) ch }
      { a with file := { a.file with pos := a.file.pos - 1 }, pushed := some ch }
      (p - 1) (c + 1) := by
  have size := is.size
  have behind := is.behind
  exact {
    mode := is.mode
    dirty := is.dirty
    err := is.err
    pos := by dsimp only; rw [is.pos]; omega
    cnt := by dsimp only; rw [is.cnt]; push_cast; rfl
    size := by omega
    behind := by dsimp only; omega
    file := by
      dsimp only
      rw [is.file]
      congr 1
    pushed := fun zero => absurd zero (Nat.succ_ne_zero c)
    unread := fun unread => absurd (read.symm.trans unread) (by simp)
    left := by
      intro i less
      have ahead : a.file.pos - 1 + 1 = a.file.pos := by
        rw [is.file]
        dsimp only
        omega
      simp only [Plain.rest, read, if_true, ahead]
      cases i with
      | zero => simp
      | succ i =>
        have left := is.left i (by omega)
        have other : p - 1 + (i + 1) ≠ p - 1 := by omega
        have same : p - 1 + (i + 1) = p + i := by omega
        rw [Plain.rest, if_pos read, none_] at left
        rw [List.getElem?_cons_succ, Function.update_of_ne other, same]
        exact left
    eof := fun end_ => by cases end_ }

theorem Rel.ungetc (rel : Rel s a) (ch : UChar) (met : Meets ⟨s, a⟩ (.ungetc (some ch))) :
    ∃ s', s.call (.ungetc (some ch)) = .ok ((a.call (.ungetc (some ch))).1, s') ∧
      Rel s' (a.call (.ungetc (some ch))).2 := by
  have refused : (!s.mode.read || s.pos = 0 || s.dirty || s.err) = true →
      ¬ (a.mode.read = true ∧ 0 < a.file.pos) →
      ∃ s', s.call (.ungetc (some ch)) = .ok ((a.call (.ungetc (some ch))).1, s') ∧
        Rel s' (a.call (.ungetc (some ch))).2 := by
    intro code plain
    refine ⟨s, ?_, ?_⟩
    · rw [Stream.call, Stdio.ungetc, if_pos code, Plain.call, if_neg plain]
      rfl
    · rw [Plain.call, if_neg plain]
      exact rel
  obtain ⟨none_, ⟨clean, before⟩ | unread | start⟩ := met
  · cases rel with
    | dirty is => exact absurd (is.dirty.symm.trans clean) (by simp)
    | clean is =>
      rename_i p c
      have size := is.size
      have behind := is.behind
      have pos : s.pos = p := is.pos
      have before : 0 < p := by
        dsimp only at before
        omega
      cases read : a.mode.read with
      | false => exact refused (by simp [is.mode, read]) (by simp [read])
      | true =>
        have plain : a.mode.read = true ∧ 0 < a.file.pos := by
          refine ⟨read, ?_⟩
          rw [is.file]
          dsimp only
          omega
        have place_ : place (s.pos - 1) = .ok (p - 1) := by
          rw [place, pos, if_pos (by constructor <;> omega)]
          congr 1
          omega
        have code : ¬ (!s.mode.read || s.pos = 0 || s.dirty || s.err) = true := by
          have some_ : p ≠ 0 := by omega
          simp [is.mode, read, pos, some_, is.dirty, is.err]
        have call : a.call (.ungetc (some ch)) = (.char (some ch),
            { a with file := { a.file with pos := a.file.pos - 1 }, pushed := some ch }) :=
          if_pos plain
        rw [call]
        refine ⟨_, ?_, .clean (is.ungetc before read none_ ch)⟩
        rw [Stream.call, Stdio.ungetc, if_neg code, place_]
        rfl
  · exact refused (by rw [rel.mode, unread]; rfl) (by simp [show a.mode.read = false from unread])
  · have start : a.file.pos = 0 := start
    refine refused ?_ (by simp [start])
    cases rel with
    | dirty is => simp [is.dirty]
    | clean is =>
      have behind := is.behind
      have pos := is.pos
      rw [is.file] at start
      dsimp only at start
      have : s.pos = 0 := by omega
      simp [this]

/-- A seek in a clean buffer, where what it goes over is what the file has. -/
theorem Clean.shift (is : Clean s a p c) {off : ℤ} (inside : off ≤ c) (start : 0 ≤ p + off)
    (agrees : Agrees s (p + off)) :
    Clean { s with cnt := s.cnt - off, pos := s.pos + off }
      { a with file := { a.file with pos := (a.file.pos + off).toNat }, pushed := none }
      (p + off).toNat (c - off).toNat := by
  have size := is.size
  have behind := is.behind
  have pos := is.pos
  have cnt := is.cnt
  have at_ : a.file.pos = s.fd.pos - c := by rw [is.file]
  exact {
    mode := is.mode
    dirty := is.dirty
    err := is.err
    pos := by dsimp only; omega
    cnt := by dsimp only; omega
    size := by omega
    behind := by dsimp only; omega
    file := by
      have to_ : (a.file.pos + off).toNat = s.fd.pos - (c - off).toNat := by omega
      dsimp only
      rw [to_, is.file]
    pushed := fun _ => rfl
    unread := fun unread => by
      have := is.unread unread
      omega
    left := by
      intro i less
      cases read : a.mode.read with
      | false =>
        have := is.unread read
        omega
      | true =>
        have there := agrees ((p + off).toNat + i) (by omega) (by omega)
        have same : (s.fd.pos - (s.pos + s.cnt) + ((p + off).toNat + i : ℕ)).toNat =
            (a.file.pos + off).toNat + i := by omega
        rw [same] at there
        rw [Plain.rest, if_pos read]
        dsimp only
        rw [List.getElem?_drop, is.file]
        rw [is.file] at there
        exact there
    eof := fun end_ => by
      obtain ⟨none_, empty, most⟩ := is.eof end_
      exact ⟨by omega, by omega, most⟩ }

/-- Where nothing is left in the buffer, the descriptor may go anywhere. -/
theorem Clean.move (is : Clean { s with dirty := false } a 0 0) (fd : Desc) :
    Rel { s with eof := false, err := false, fd := fd } { a with file := fd, pushed := none } := by
  have clean : Clean { s with dirty := false, eof := false, err := false, fd := fd }
      { a with file := fd, pushed := none } 0 0 :=
    { is with
      dirty := rfl
      err := rfl
      behind := Nat.zero_le _
      file := rfl
      pushed := fun _ => rfl
      left := fun _ less => absurd less (Nat.not_lt_zero _)
      eof := fun end_ => by cases end_ }
  cases dirty : s.dirty with
  | false => exact .clean clean
  | true => exact .dirty clean.ready

theorem target_eq {d d' : Desc} (bytes : d.bytes = d'.bytes) {off whence : ℤ}
    (other : whence ≠ SEEK_CUR) : d.target off whence = d'.target off whence := by
  simp only [Desc.target, if_neg other, bytes]

/-- A seek that succeeds goes where it says, and one that fails stays. -/
theorem Plain.fseek_eq (a : Plain) (off whence : ℤ) : a.call (.fseek off whence) =
    if 0 ≤ a.file.target off whence then
      (.number 0, { a with
        file := { a.file with pos := (a.file.target off whence).toNat }, pushed := none })
    else (.number (-1), a) := by
  rw [Plain.call, Desc.lseek]
  by_cases fine : 0 ≤ a.file.target off whence
  · simp only [if_pos fine]
  · simp only [if_neg fine]
    exact if_neg (by decide)

/-- What `fseek` does when it does not stay in the buffer. -/
theorem fseek_out {off whence : ℤ} (out : ¬ (whence = SEEK_CUR ∧ off ≤ s.cnt)) {t : Stream}
    (clears : (if s.dirty then flushbuf s else pure { s with pos := 0, cnt := 0 }) = .ok t)
    {off' : ℤ} (off_ : off' = if whence = SEEK_CUR then off - s.cnt else off) :
    fseek s off whence = .ok (if 0 ≤ t.fd.target off' whence then 0 else -1,
      { t with eof := false, err := false, fd := (t.fd.lseek off' whence).2 }) := by
  have sought : (if 0 ≤ (t.fd.lseek off' whence).1 then (0 : ℤ) else -1) =
      if 0 ≤ t.fd.target off' whence then 0 else -1 := by
    by_cases fine : 0 ≤ t.fd.target off' whence
    · rw [Desc.lseek, if_pos fine]
    · rw [Desc.lseek, if_neg fine, if_neg fine]
      rfl
  rw [fseek, if_neg out, ← off_, ← sought]
  by_cases dirty : s.dirty = true
  · rw [if_pos dirty] at clears
    simp only [if_pos dirty, clears, bind, Except.bind]
    rfl
  · rw [if_neg dirty] at clears
    cases clears
    simp only [if_neg dirty]
    rfl

/-- Of a clean stream, what is left is forgotten. -/
theorem Clean.forget (is : Clean s a p c) :
    Clean { s with pos := 0, cnt := 0, dirty := false } { a with file := s.fd, pushed := none } 0 0 :=
  { is with
    dirty := rfl
    pos := rfl
    cnt := rfl
    size := Nat.zero_le _
    behind := Nat.zero_le _
    file := rfl
    pushed := fun _ => rfl
    unread := fun _ => rfl
    left := fun _ less => absurd less (Nat.not_lt_zero _)
    eof := fun end_ => ⟨rfl, rfl, (is.eof end_).2.2⟩ }

/-- `fseek`. -/
theorem Rel.fseek (rel : Rel s a) {off whence : ℤ} (met : Meets ⟨s, a⟩ (.fseek off whence)) :
    ∃ s', s.call (.fseek off whence) = .ok ((a.call (.fseek off whence)).1, s') ∧
      Rel s' (a.call (.fseek off whence)).2 := by
  rw [Meets] at met
  by_cases inside : whence = SEEK_CUR ∧ off ≤ s.cnt
  · rw [if_pos inside] at met
    obtain ⟨rfl, inside⟩ := inside
    rw [Stream.call, Stdio.fseek, if_pos ⟨rfl, inside⟩, Plain.fseek_eq]
    cases rel with
    | dirty is =>
      rw [if_pos is.dirty] at met
      subst met
      have target : a.file.target 0 SEEK_CUR = a.file.pos := Int.add_zero _
      rw [target, if_pos (Int.natCast_nonneg _), Int.toNat_natCast]
      refine ⟨_, rfl, .dirty { is with
        pos := ?_
        cnt := ?_
        pushed := rfl }⟩
      · exact (Int.add_zero _).trans is.pos
      · exact (Int.sub_zero _).trans is.cnt
    | clean is =>
      rename_i p c
      have pos := is.pos
      have cnt := is.cnt
      have behind := is.behind
      simp only [is.dirty, Bool.false_eq_true, if_false, pos] at met
      have least : 0 ≤ (a.file.pos : ℤ) + off := by
        rw [is.file]
        dsimp only
        omega
      rw [target_cur, if_pos least]
      exact ⟨_, rfl, .clean (is.shift (by omega) met.1 met.2)⟩
  · rw [if_neg inside] at met
    cases rel with
    | dirty is =>
      obtain ⟨t, run, fd, -, -, clean⟩ := is.flush
      have cur : whence ≠ SEEK_CUR := by
        rintro rfl
        exact absurd (is.dirty.symm.trans (if_pos rfl ▸ met)) (by simp)
      rw [Stream.call, fseek_out inside ((if_pos is.dirty).trans run) (if_neg cur).symm,
        Plain.fseek_eq, fd]
      by_cases fine : 0 ≤ a.file.target off whence
      · simp only [if_pos fine]
        refine ⟨_, rfl, ?_⟩
        rw [Desc.lseek, if_pos fine]
        exact clean.move _
      · simp only [if_neg fine]
        refine ⟨_, rfl, ?_⟩
        rw [Desc.lseek, if_neg fine]
        have same : { a with file := a.file, pushed := none } = a := by rw [← is.pushed]
        exact same ▸ clean.move a.file
    | clean is =>
      rename_i p c
      have behind := is.behind
      have cnt := is.cnt
      have bytes : s.fd.bytes = a.file.bytes := by rw [is.file]
      have moves := @Clean.move { s with pos := 0, cnt := 0 } _ is.forget
      have clears : (if s.dirty then flushbuf s else pure { s with pos := 0, cnt := 0 }) =
          .ok { s with pos := 0, cnt := 0 } := if_neg (by simp [is.dirty])
      by_cases cur : whence = SEEK_CUR
      · subst cur
        have far : ¬ off ≤ s.cnt := fun le => inside ⟨rfl, le⟩
        have at_ : a.file.pos = s.fd.pos - c := by rw [is.file]
        have same : s.fd.target (off - s.cnt) SEEK_CUR = a.file.target off SEEK_CUR := by
          rw [target_cur, target_cur]
          omega
        have fine : 0 ≤ a.file.target off SEEK_CUR := by
          rw [target_cur]
          omega
        rw [Stream.call, fseek_out inside clears (if_pos rfl).symm, Plain.fseek_eq]
        simp only [same, if_pos fine]
        refine ⟨_, rfl, ?_⟩
        rw [Desc.lseek, same, if_pos fine, bytes]
        exact moves _
      · have same : s.fd.target off whence = a.file.target off whence := target_eq bytes cur
        rw [Stream.call, fseek_out inside clears (if_neg cur).symm, Plain.fseek_eq]
        simp only [same]
        by_cases fine : 0 ≤ a.file.target off whence
        · simp only [if_pos fine]
          refine ⟨_, rfl, ?_⟩
          rw [Desc.lseek, same, if_pos fine, bytes]
          exact moves _
        · simp only [if_neg fine]
          refine ⟨_, rfl, ?_⟩
          rw [if_neg cur] at met
          have none_ : s.cnt = 0 :=
            (met.resolve_left fine).resolve_left (by simp [is.dirty])
          obtain rfl : c = 0 := by omega
          rw [Desc.lseek, same, if_neg fine]
          have same : { a with file := s.fd, pushed := none } = a := by
            rw [← is.file_eq, ← is.pushed rfl]
          exact same ▸ moves s.fd

/-- `ftell`. -/
theorem Rel.ftell (rel : Rel s a) : ftell s = a.file.pos := by
  cases rel with
  | clean is =>
    have behind := is.behind
    have at_ : a.file.pos = s.fd.pos - _ := congrArg Desc.pos is.file
    rw [Stdio.ftell, lseek_cur, if_neg (by simp [is.dirty]), is.cnt, at_]
    dsimp only
    omega
  | dirty is =>
    rw [Stdio.ftell, lseek_cur, if_pos is.dirty, is.cnt, is.file, Desc.pos_write,
      List.length_map, List.length_range]
    push_cast
    rfl

/-- `fflush` leaves the bytes of the plain file. -/
theorem Rel.fflush (rel : Rel s a) :
    ∃ s', fflush s = .ok s' ∧ s'.fd.bytes = a.file.bytes ∧ Rel s' a := by
  cases rel with
  | clean is =>
    exact ⟨s, if_neg (by simp [is.dirty]), by rw [is.file], .clean is⟩
  | dirty is =>
    obtain ⟨s', run, fd, -, rel, -⟩ := is.flush_rel
    exact ⟨s', (if_pos is.dirty).trans run, by rw [fd], rel⟩

/-! ## Whole runs -/

/-- **Each call that meets the condition answers as on the plain file, and keeps the relation.** -/
theorem Rel.call (rel : Rel s a) {c : Call} (met : Meets ⟨s, a⟩ c) :
    ∃ s', s.call c = .ok ((a.call c).1, s') ∧ Rel s' (a.call c).2 ∧
      (c = .fflush → s'.fd.bytes = (a.call c).2.file.bytes) := by
  have with_ : (∃ s', s.call c = .ok ((a.call c).1, s') ∧ Rel s' (a.call c).2) → c ≠ .fflush →
      ∃ s', s.call c = .ok ((a.call c).1, s') ∧ Rel s' (a.call c).2 ∧
        (c = .fflush → s'.fd.bytes = (a.call c).2.file.bytes) := by
    rintro ⟨s', run, rel'⟩ other
    exact ⟨s', run, rel', fun is => absurd is other⟩
  cases c with
  | fgetc =>
    refine with_ ?_ (by simp)
    obtain ⟨s', run, rel'⟩ := rel.fgetc
    refine ⟨s', ?_, rel'⟩
    have head : (a.rest.take 1).head? = a.rest.head? := by cases a.rest <;> rfl
    rw [Stream.call, run, Plain.call, Plain.get, head]
    rfl
  | fputc ch =>
    refine with_ ?_ (by simp)
    rw [Stream.call, Plain.call]
    cases write : a.mode.write with
    | true =>
      obtain ⟨s', run, rel'⟩ := rel.fputc write ch
      exact ⟨s', by rw [run]; rfl, rel'⟩
    | false => exact ⟨s, by rw [fputc_refused (rel.mode ▸ write)]; rfl, rel⟩
  | ungetc ch =>
    refine with_ ?_ (by simp)
    cases ch with
    | none => exact ⟨s, rfl, rel⟩
    | some ch => exact rel.ungetc ch met
  | fread size nelem => exact with_ (rel.fread met) (by simp)
  | fwrite q size nelem => exact with_ (rel.fwrite met) (by simp)
  | fgets len => exact with_ (rel.fgets met.1 met.2) (by simp)
  | fseek off whence => exact with_ (rel.fseek met) (by simp)
  | ftell => exact with_ ⟨s, by rw [Stream.call, rel.ftell]; rfl, rel⟩ (by simp)
  | fflush =>
    obtain ⟨s', run, bytes, rel'⟩ := rel.fflush
    exact ⟨s', by rw [Stream.call, run]; rfl, rel', fun _ => bytes⟩

end Vsta.Stdio
