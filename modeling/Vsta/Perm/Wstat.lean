import Vsta.Perm.Permission
import Mathlib.Tactic.SplitIfs
import Mathlib.Data.List.TakeWhile

/-!
# Writing a protection

`do_wstat` of `lib/statsup.c` writes the fields `acc` and `perm` of a protection, for all the
servers. It copies a request into a static buffer, ends it there with a null byte, and takes the
field in front of `=` or the newline, and the value behind `=` up to the newline. `perm_set` of
`lib/permpr.c` gets the numbers of a value.

A pointer into the buffer is what is left of it from there on, so that reading where nothing is left
is reading outside. `robust_iff` says for which requests nothing is read outside the buffer or
through a value that is not there. A request that fills the buffer has to have its newline in front
of the last byte, where the null byte goes; and `acc` has to have a value, for `atoi` and `strchr`
read it without looking.
-/

set_option autoImplicit false

namespace Vsta.Wstat

open Permissions

abbrev MAXSTAT : ℕ := 256

/-- Text, or what is left of the buffer. -/
abbrev Bytes := List UChar

def nl : UChar := 10#8
def eq : UChar := 61#8
def slash : UChar := 47#8

/-- A read or a write outside the buffer, or through a value that is not there. -/
inductive Fault where
  | outside
  | missing
  deriving DecidableEq

abbrev M := Except Fault

/-! ## Strings and numbers -/

/-- `strcmp`, for equality. -/
def streq : Bytes → Bytes → M Bool
  | [], _ => .error .outside
  | c :: _, [] => .ok (c = 0#8)
  | c :: s, k :: key => if c = k then streq s key else .ok false

/-- `strchr`. -/
def strchr (c : UChar) : Bytes → M (Option Bytes)
  | [] => .error .outside
  | c2 :: p => if c2 = c then .ok (some (c2 :: p)) else if c2 = 0#8 then .ok none else strchr c p

/-- `Isspace`. -/
def isspace (c : UChar) : Bool := c ∈ ([32, 9, 10, 11, 13, 12] : Bytes)

/-- Leading white space is passed over. -/
def skipSpace : Bytes → M Bytes
  | [] => .error .outside
  | c :: s => if isspace c then skipSpace s else .ok (c :: s)

/-- A sign. -/
def sign : Bytes → M (Bool × Bytes)
  | [] => .error .outside
  | c :: s => .ok (if c = 45 then (true, s) else if c = 43 then (false, s) else (false, c :: s))

/-- The digits of `strtoul`, to the base 10, and whether there were too many. -/
def digits : Bytes → ULong → Bool → M (ULong × Bool)
  | [], _, _ => .error .outside
  | c :: s, total, overflow =>
      if 48 ≤ c ∧ c ≤ 57 then
        let digit := (c - 48).setWidth 32
        let maxdiv : ULong := 429496729
        digits s (total * 10 + digit)
          (overflow || decide (maxdiv < total ∨ (total = maxdiv ∧ 5 < digit)))
      else .ok (total, overflow)

/-- `strtoul`, to the base 10. -/
def strtoul (s : Bytes) : M ULong := do
  let s ← skipSpace s
  let (minus, s) ← sign s
  let (total, overflow) ← digits s 0 false
  return if overflow then -1 else if minus then -total else total

/-- `atoi`, by `strtol` to the base 10. It stores through a null pointer when it gets one. -/
def atoi : Option Bytes → M ULong
  | none => .error .missing
  | some s => do
      let s ← skipSpace s
      let (minus, s) ← sign s
      let tmp ← strtoul s
      let most : ULong := if minus then 0x80000000 else 0x7FFFFFFF
      return if most < tmp then most else if minus then -tmp else tmp

/-! ## `perm_set` -/

/-- The next slash, or the end of the string. -/
def findSlash : Bytes → M Bytes
  | [] => .error .outside
  | c :: p => if c ≠ 0#8 ∧ c ≠ slash then findSlash p else .ok (c :: p)

/-- `field[nfield] = value`. -/
def store (field : Vector UChar PERMLEN) (nfield : ℕ) (value : UChar) :
    M (Vector UChar PERMLEN) :=
  if inside : nfield < PERMLEN then .ok (field.set nfield value) else .error .outside

/-- The loop of `perm_set`, with so many fields left. -/
def permSetLoop : ℕ → ℕ → Vector UChar PERMLEN → Option Bytes → M (ℕ × Vector UChar PERMLEN)
  | _, nfield, field, none => .ok (nfield, field)
  | _, _, _, some [] => .error .outside
  | 0, nfield, field, some (_ :: _) => .ok (nfield, field)
  | left + 1, nfield, field, some (c :: s) =>
      if c = 0#8 then .ok (nfield, field)
      else do
        let p ← findSlash (c :: s)
        let value ← atoi (some (c :: s))
        let field ← store field nfield (value.setWidth 8)
        permSetLoop left (nfield + 1) field (some (if p.head? = some slash then p.tail else p))

/-- `perm_set`: how many fields there were. -/
def permSet (field : Vector UChar PERMLEN) (val : Option Bytes) :
    M (ℕ × Vector UChar PERMLEN) := do
  let (nfield, field) ← permSetLoop PERMLEN 0 field val
  return (nfield, Vector.ofFn fun x : Fin PERMLEN => if x < nfield then field[x] else 0)

/-! ## `do_wstat` -/

/-- What a request is answered: an error, success, or that the server is to see for itself. -/
inductive Answer where
  | error (why : Errno)
  | done
  | other (field : Bytes) (val : Option Bytes)

/-- A request: whether its sender may change the protection, its number of segments, and its
bytes. -/
structure Request where
  chmod : Bool
  nseg : ℕ
  data : Bytes

/-- How far it is to a character to stop at, or to the end, which is looked at too. -/
def scan (stop : UChar → Bool) : ℕ → Bytes → M ℕ
  | _, [] => .error .outside
  | 0, _ :: _ => .ok 0
  | left + 1, c :: p => if stop c then .ok 0 else (scan stop left p).map (· + 1)

/-- A null byte is put in the buffer. -/
def endAt (buf : Bytes) (p : ℕ) : M Bytes :=
  if p < buf.length then .ok (buf.set p 0#8) else .error .outside

/-- The fields that are written. -/
def setField (buf : Bytes) (val : Option Bytes) : Option Prot → M (Answer × Option Prot)
  | none => .ok (.other buf val, none)
  | some prot => do
      if ← streq buf [97, 99, 99] then
        let default ← atoi val
        let val ← val.elim (.error .missing) (strchr slash)
        let (_, bits) ← permSet prot.protBits (val.map List.tail)
        return (.done, some { prot with protDefault := default.setWidth 8, protBits := bits })
      else if ← streq buf [112, 101, 114, 109] then
        let (len, id) ← permSet prot.protId val
        let prot := { prot with protId := id }
        if len ≠ prot.protLen.toNat then
          let first := min len prot.protLen.toNat
          return (.done, some { prot with
            protBits := Vector.ofFn fun x : Fin PERMLEN => if x < first then prot.protBits[x] else 0
            protLen := .ofNat 8 len })
        else return (.done, some prot)
      else return (.other buf val, some prot)

/-- `do_wstat`, with what is in its buffer from before. -/
def doWstat (old : Vector UChar MAXSTAT) (m : Request) (prot : Option Prot) :
    M (Answer × Option Prot) :=
  if !m.chmod then .ok (.error .EPERM, prot)
  else if m.nseg ≠ 1 ∨ MAXSTAT < m.data.length then .ok (.error .EINVAL, prot)
  else do
    let end_ := m.data.length
    let buf := (m.data ++ old.toList.drop end_).set (MAXSTAT - 1) 0#8
    let p ← scan (fun c => c = nl || c = eq) end_ buf
    if end_ ≤ p then return (.error .EINVAL, prot)
    else if buf[p]? = some eq then
      let buf ← endAt buf p
      let val := p + 1
      let p ← (scan (fun c => c = nl) (end_ - val) (buf.drop val)).map (val + ·)
      if end_ ≤ p then return (.error .EINVAL, prot)
      else
        let buf ← endAt buf p
        setField buf (some (buf.drop val)) prot
    else
      let buf ← endAt buf p
      setField buf none prot

/-! ## What it is for -/

/-- A string, up to its null byte. -/
def cstr (s : Bytes) : Bytes := s.takeWhile (· ≠ 0#8)

/-- The field of a request that has a newline, and its value where it has one. -/
def parse (data : Bytes) : Option (Bytes × Option Bytes) :=
  let d := data.set (MAXSTAT - 1) 0#8
  if nl ∈ d then
    let line := d.takeWhile (· ≠ nl)
    some (cstr (line.takeWhile (· ≠ eq)),
      if eq ∈ line then some (cstr (line.dropWhile (· ≠ eq)).tail) else none)
  else none

/-- The number of components of a value, each with a slash behind it but for the last. -/
def components (t : Bytes) : ℕ := t.count slash + if t.getLast?.all (· = slash) then 0 else 1

/-- A request is looked at: its sender may change the protection, and it fits in the buffer. -/
def Request.Fits (m : Request) : Prop := m.chmod = true ∧ m.nseg = 1 ∧ m.data.length ≤ MAXSTAT

/-- **A request is answered, and nothing is read or written outside.** An error leaves the
protection as it was, and so does a request that is left to the server. A label has as many
components as it was set to, and no more than there is room for. -/
def Robust (old : Vector UChar MAXSTAT) (m : Request) (prot : Option Prot) : Prop :=
  ∃ answer prot', doWstat old m prot = .ok (answer, prot') ∧
    (answer ≠ .done → prot' = prot) ∧
    match prot with
    | none => prot' = none
    | some p => ∃ p', prot' = some p' ∧
        ((∃ v, m.Fits ∧ parse m.data = some ([112, 101, 114, 109], v) ∧
            p'.protLen.toNat = min PERMLEN (components (v.getD []))) ∨
          (¬(m.Fits ∧ ∃ v, parse m.data = some ([112, 101, 114, 109], v)) ∧
            p'.protLen = p.protLen ∧ p'.protId = p.protId))

/-- **When it is robust.** A request that is not refused and fills the buffer has a newline before
the last byte, and `acc` has a value. -/
def Fine (m : Request) (prot : Option Prot) : Prop :=
  m.Fits → (m.data.length = MAXSTAT → nl ∈ m.data.take (MAXSTAT - 1)) ∧
    (prot.isSome → parse m.data ≠ some ([97, 99, 99], none))

/-! ## Reading strings that have an end -/

theorem bind_ok {α β : Type} (a : α) (f : α → M β) : ((.ok a : M α) >>= f) = f a := rfl

theorem bind_error {α β : Type} (why : Fault) (f : α → M β) :
    ((.error why : M α) >>= f) = .error why := rfl

theorem cstr_cons {c : UChar} (some_ : c ≠ 0#8) (s : Bytes) : cstr (c :: s) = c :: cstr s := by
  simp [cstr, some_]

@[simp] theorem cstr_zero (s : Bytes) : cstr (0#8 :: s) = [] := by simp [cstr]

/-- What is behind a null byte does not count. -/
theorem cstr_ended (l s : Bytes) : cstr (l ++ 0#8 :: s) = cstr l := by
  induction l with
  | nil => rfl
  | cons c l ih =>
    by_cases isEnd : c = 0#8
    · simp [isEnd]
    · rw [List.cons_append, cstr_cons isEnd, cstr_cons isEnd, ih]

theorem mem_of_cons {c : UChar} {s : Bytes} (ended : 0#8 ∈ c :: s) (some_ : c ≠ 0#8) : 0#8 ∈ s := by
  cases ended with
  | head => exact absurd rfl some_
  | tail _ behind => exact behind

theorem streq_ok : ∀ s key : Bytes, 0#8 ∈ s → 0#8 ∉ key →
    streq s key = .ok (decide (cstr s = key))
  | [], _, ended, _ => absurd ended List.not_mem_nil
  | c :: s, [], _, _ => by
      by_cases isEnd : c = 0#8
      · simp [streq, isEnd]
      · simp [streq, isEnd, cstr_cons isEnd]
  | c :: s, k :: key, ended, keys => by
      have some_ : k ≠ 0#8 := fun zero => keys (zero ▸ List.mem_cons_self)
      by_cases same : c = k
      · subst same
        have next := streq_ok s key (mem_of_cons ended some_)
          fun inKey => keys (List.mem_cons_of_mem _ inKey)
        simp [streq, next, cstr_cons some_]
      · by_cases isEnd : c = 0#8
        · simp [streq, isEnd, Ne.symm some_]
        · simp [streq, same, cstr_cons isEnd]

theorem strchr_ok : ∀ s : Bytes, 0#8 ∈ s →
    ∃ r, strchr slash s = .ok r ∧ ∀ t ∈ r.map List.tail, 0#8 ∈ t
  | [], ended => absurd ended List.not_mem_nil
  | c :: s, ended => by
      by_cases found : c = slash
      · have behind := mem_of_cons ended (by simp [found, slash])
        exact ⟨some (c :: s), by simp [strchr, found], by simpa using behind⟩
      · by_cases isEnd : c = 0#8
        · exact ⟨none, by simp [strchr, isEnd, slash], by simp⟩
        · obtain ⟨r, is, rest⟩ := strchr_ok s (mem_of_cons ended isEnd)
          exact ⟨r, by simp [strchr, found, isEnd, is], rest⟩

theorem skipSpace_ok : ∀ s : Bytes, 0#8 ∈ s → ∃ t, skipSpace s = .ok t ∧ 0#8 ∈ t
  | [], ended => absurd ended List.not_mem_nil
  | c :: s, ended => by
      by_cases space : isspace c = true
      · have some_ : c ≠ 0#8 := fun zero => by simp [zero, isspace] at space
        obtain ⟨t, is, rest⟩ := skipSpace_ok s (mem_of_cons ended some_)
        exact ⟨t, by simp [skipSpace, space, is], rest⟩
      · exact ⟨c :: s, by simp [skipSpace, space], ended⟩

theorem sign_ok (s : Bytes) (ended : 0#8 ∈ s) : ∃ minus t, sign s = .ok (minus, t) ∧ 0#8 ∈ t := by
  cases s with
  | nil => exact absurd ended List.not_mem_nil
  | cons c s =>
    rw [sign]
    split_ifs with isMinus isPlus
    · exact ⟨_, _, rfl, mem_of_cons ended (by simp [isMinus])⟩
    · exact ⟨_, _, rfl, mem_of_cons ended (by simp [isPlus])⟩
    · exact ⟨_, _, rfl, ended⟩

theorem digits_ok : ∀ (s : Bytes) (total : ULong) (overflow : Bool), 0#8 ∈ s →
    ∃ r, digits s total overflow = .ok r
  | [], _, _, ended => absurd ended List.not_mem_nil
  | c :: s, total, overflow, ended => by
      rw [digits]
      split_ifs with digit
      · exact digits_ok s _ _ (mem_of_cons ended fun zero => absurd digit.1 (by simp [zero]))
      · exact ⟨_, rfl⟩

theorem strtoul_ok (s : Bytes) (ended : 0#8 ∈ s) : ∃ v, strtoul s = .ok v := by
  obtain ⟨t, skipped, more⟩ := skipSpace_ok s ended
  obtain ⟨minus, u, signed, rest⟩ := sign_ok t more
  obtain ⟨r, read⟩ := digits_ok u 0 false rest
  exact ⟨_, by simp only [strtoul, skipped, signed, read, bind_ok]; rfl⟩

theorem atoi_ok (s : Bytes) (ended : 0#8 ∈ s) : ∃ v, atoi (some s) = .ok v := by
  obtain ⟨t, skipped, more⟩ := skipSpace_ok s ended
  obtain ⟨minus, u, signed, rest⟩ := sign_ok t more
  obtain ⟨v, read⟩ := strtoul_ok u rest
  exact ⟨_, by simp only [atoi, skipped, signed, read, bind_ok]; rfl⟩

/-! ## Components -/

/-- A value with no slash is one component, unless it is empty. -/
theorem components_last {a : Bytes} (some_ : a ≠ []) (none_ : slash ∉ a) : components a = 1 := by
  have last : a.getLast? = some (a.getLast some_) := List.getLast?_eq_some_getLast some_
  have other : a.getLast some_ ≠ slash := fun same => none_ (same ▸ List.getLast_mem some_)
  simp [components, List.count_eq_zero.mpr none_, last, other]

/-- A component, and those behind its slash. -/
theorem components_next {a : Bytes} (none_ : slash ∉ a) (t : Bytes) :
    components (a ++ slash :: t) = components t + 1 := by
  have count : (a ++ slash :: t).count slash = t.count slash + 1 := by
    simp [List.count_eq_zero.mpr none_]
  have last : (a ++ slash :: t).getLast?.all (· = slash) = t.getLast?.all (· = slash) := by
    cases t with
    | nil => simp
    | cons c t => simp [List.getLast?_cons]
  simp only [components, count, last]
  omega

/-- What is in front of the next slash, and whether there is one. -/
theorem findSlash_ok : ∀ s : Bytes, 0#8 ∈ s → ∃ p, findSlash s = .ok p ∧ 0#8 ∈ p ∧
    ∃ a, slash ∉ a ∧ ((p.head? = some slash ∧ cstr s = a ++ slash :: cstr p.tail) ∨
      (p.head? = some 0#8 ∧ cstr s = a))
  | [], ended => absurd ended List.not_mem_nil
  | c :: s, ended => by
      by_cases more : c ≠ 0#8 ∧ c ≠ slash
      · obtain ⟨p, is, rest, a, none_, shape⟩ := findSlash_ok s (mem_of_cons ended more.1)
        refine ⟨p, by rw [findSlash, if_pos more, is], rest, c :: a, ?_, ?_⟩
        · exact fun isIn => (List.mem_cons.mp isIn).elim (fun same => more.2 same.symm) none_
        · rw [cstr_cons more.1]
          rcases shape with ⟨head, text⟩ | ⟨head, text⟩
          · exact .inl ⟨head, by rw [text, List.cons_append]⟩
          · exact .inr ⟨head, by rw [text]⟩
      · refine ⟨c :: s, by rw [findSlash, if_neg more], ended, [], List.not_mem_nil, ?_⟩
        by_cases isEnd : c = 0#8
        · exact .inr (by simp [isEnd])
        · have isSlash : c = slash := by
            by_contra other
            exact more ⟨isEnd, other⟩
          exact .inl ⟨by simp [isSlash], by rw [cstr_cons isEnd, isSlash]; rfl⟩

/-- **`perm_set` reads as many numbers as its value has components, and there is room for.** -/
theorem permSetLoop_ok : ∀ (left nfield : ℕ) (field : Vector UChar PERMLEN) (s : Bytes), 0#8 ∈ s →
    nfield + left = PERMLEN →
    ∃ field', permSetLoop left nfield field (some s)
      = .ok (nfield + min left (components (cstr s)), field')
  | _, _, _, [], ended, _ => absurd ended List.not_mem_nil
  | 0, nfield, field, c :: s, _, _ => ⟨field, by simp [permSetLoop]⟩
  | left + 1, nfield, field, c :: s, ended, room => by
      rw [permSetLoop]
      split_ifs with isEnd
      · exact ⟨field, by simp [isEnd, components]⟩
      · obtain ⟨p, found, rest, a, none_, shape⟩ := findSlash_ok (c :: s) ended
        obtain ⟨value, number⟩ := atoi_ok (c :: s) ended
        have inside : nfield < PERMLEN := by omega
        simp only [found, number, bind_ok, store, dif_pos inside]
        rcases shape with ⟨head, text⟩ | ⟨head, text⟩
        · have ended' : 0#8 ∈ p.tail := by
            cases p with
            | nil => simp at head
            | cons c' p =>
              simp only [List.head?_cons, Option.some.injEq] at head
              exact mem_of_cons rest (by simp [head, slash])
          rw [if_pos head]
          obtain ⟨field', is⟩ := permSetLoop_ok left (nfield + 1) (field.set nfield
            (value.setWidth 8)) p.tail ended' (by omega)
          refine ⟨field', is.trans ?_⟩
          rw [text, components_next none_]
          congr 2
          omega
        · have isZero : p.head? ≠ some slash := by simp [head, slash]
          rw [if_neg isZero]
          obtain ⟨field', is⟩ := permSetLoop_ok left (nfield + 1) (field.set nfield
            (value.setWidth 8)) p rest (by omega)
          have stop : cstr p = [] := by
            cases p with
            | nil => simp at head
            | cons c' p => simp_all
          have text' : a ≠ [] := by
            rw [← text, cstr_cons isEnd]
            exact List.cons_ne_nil _ _
          refine ⟨field', is.trans ?_⟩
          rw [stop, text, components_last text' none_]
          simp [components]

theorem permSet_ok (field : Vector UChar PERMLEN) (s : Bytes) (ended : 0#8 ∈ s) :
    ∃ field', permSet field (some s) = .ok (min PERMLEN (components (cstr s)), field') := by
  obtain ⟨field', is⟩ := permSetLoop_ok PERMLEN 0 field s ended (Nat.zero_add _)
  exact ⟨_, by rw [permSet, is, Nat.zero_add]; rfl⟩

theorem permSet_none (field : Vector UChar PERMLEN) :
    ∃ field', permSet field none = .ok (0, field') := ⟨_, rfl⟩

/-! ## The buffer -/

/-- A scan ends at the first character it stops at. -/
theorem scan_stop {stop : UChar → Bool} {c : UChar} (stops : stop c = true) (r : Bytes) :
    ∀ (l : Bytes) (left : ℕ), (∀ x ∈ l, stop x = false) → l.length ≤ left →
      scan stop left (l ++ c :: r) = .ok l.length
  | [], left, _, _ => by cases left <;> simp [scan, stops]
  | x :: l, 0, _, room => by simp at room
  | x :: l, left + 1, others, room => by
      rw [List.cons_append, scan, others x List.mem_cons_self, if_neg Bool.false_ne_true,
        scan_stop stops r l left (fun y isIn => others y (List.mem_cons_of_mem _ isIn))
          (Nat.le_of_succ_le_succ room)]
      rfl

/-- A scan that stops nowhere looks at what is behind the end. -/
theorem scan_end {stop : UChar → Bool} (r : Bytes) :
    ∀ l : Bytes, (∀ x ∈ l, stop x = false) →
      scan stop l.length (l ++ r) = if r = [] then .error .outside else .ok l.length
  | [], _ => by cases r <;> simp [scan]
  | x :: l, others => by
      rw [List.cons_append, List.length_cons, scan, others x List.mem_cons_self,
        if_neg Bool.false_ne_true, scan_end r l fun y isIn => others y (List.mem_cons_of_mem _ isIn)]
      split_ifs <;> rfl

theorem endAt_mid (l r : Bytes) (c : UChar) :
    endAt (l ++ c :: r) l.length = .ok (l ++ 0#8 :: r) := by
  have inside : l.length < (l ++ c :: r).length := by simp
  rw [endAt, if_pos inside, List.set_append_right _ _ le_rfl, Nat.sub_self, List.set_cons_zero]

/-- Text up to a character that is not in front of it. -/
theorem takeWhile_mid {stop : UChar} {l : Bytes} (others : stop ∉ l) (r : Bytes) :
    (l ++ stop :: r).takeWhile (· ≠ stop) = l := by
  rw [List.takeWhile_append_of_pos fun x isIn => by
    simpa using fun same : x = stop => others (same ▸ isIn)]
  simp

theorem dropWhile_mid {stop : UChar} {l : Bytes} (others : stop ∉ l) (r : Bytes) :
    (l ++ stop :: r).dropWhile (· ≠ stop) = stop :: r := by
  rw [List.dropWhile_append_of_pos fun x isIn => by
    simpa using fun same : x = stop => others (same ▸ isIn)]
  simp

/-- A request in the buffer, with what is behind it. -/
theorem buffer_eq (old : Vector UChar MAXSTAT) {data : Bytes} (room : data.length ≤ MAXSTAT) :
    ∃ rest, (data ++ old.toList.drop data.length).set (MAXSTAT - 1) 0#8
        = data.set (MAXSTAT - 1) 0#8 ++ rest ∧ (rest = [] ↔ data.length = MAXSTAT) := by
  by_cases full : data.length = MAXSTAT
  · refine ⟨[], ?_, by simp [full]⟩
    rw [List.drop_eq_nil_of_le (by simp [full]), List.append_nil, List.append_nil]
  · refine ⟨(old.toList.drop data.length).set (MAXSTAT - 1 - data.length) 0#8, ?_, ?_⟩
    · have same : data.set (MAXSTAT - 1) 0#8 = data := List.set_eq_of_length_le (by omega)
      rw [same, List.set_append_right _ _ (by omega)]
    · refine ⟨fun empty => ?_, fun same => absurd same full⟩
      have length := congrArg List.length empty
      simp only [List.length_set, List.length_drop, Vector.length_toList, List.length_nil] at length
      omega

/-- The buffer a request is looked at in. -/
abbrev buffer (old : Vector UChar MAXSTAT) (data : Bytes) : Bytes :=
  (data ++ old.toList.drop data.length).set (MAXSTAT - 1) 0#8

theorem doWstat_fits (old : Vector UChar MAXSTAT) {m : Request} (prot : Option Prot)
    (fits : m.Fits) :
    doWstat old m prot = (do
      let p ← scan (fun c => c = nl || c = eq) m.data.length (buffer old m.data)
      if m.data.length ≤ p then return (.error .EINVAL, prot)
      else if (buffer old m.data)[p]? = some eq then
        let buf ← endAt (buffer old m.data) p
        let val := p + 1
        let p ← (scan (fun c => c = nl) (m.data.length - val) (buf.drop val)).map (val + ·)
        if m.data.length ≤ p then return (.error .EINVAL, prot)
        else
          let buf ← endAt buf p
          setField buf (some (buf.drop val)) prot
      else
        let buf ← endAt (buffer old m.data) p
        setField buf none prot) := by
  obtain ⟨mayChmod, oneSeg, room⟩ := fits
  have accepted : ¬(m.nseg ≠ 1 ∨ MAXSTAT < m.data.length) := by omega
  simp only [doWstat, mayChmod, Bool.not_true, Bool.false_eq_true, if_false, if_neg accepted]

/-- A field with a value. -/
theorem doWstat_value (old : Vector UChar MAXSTAT) {m : Request} (prot : Option Prot)
    (fits : m.Fits) {l s : Bytes} (shape : buffer old m.data = l ++ eq :: s)
    (noStop : ∀ x ∈ l, (decide (x = nl) || decide (x = eq)) = false)
    (inside : l.length < m.data.length) :
    doWstat old m prot = (do
      let p ← (scan (fun c => c = nl) (m.data.length - (l.length + 1)) s).map (l.length + 1 + ·)
      if m.data.length ≤ p then return (.error .EINVAL, prot)
      else
        let buf ← endAt (l ++ 0#8 :: s) p
        setField buf (some (buf.drop (l.length + 1))) prot) := by
  have first : scan (fun c => c = nl || c = eq) m.data.length (l ++ eq :: s) = .ok l.length :=
    scan_stop (by simp) s l _ noStop (Nat.le_of_lt inside)
  have here : (l ++ eq :: s)[l.length]? = some eq := by simp
  have behind : (l ++ 0#8 :: s).drop (l.length + 1) = s := by simp
  rw [doWstat_fits old prot fits, shape, first, bind_ok, if_neg (Nat.not_le.mpr inside), if_pos here,
    endAt_mid, bind_ok]
  simp only [behind]

/-- A field without a value. -/
theorem doWstat_field (old : Vector UChar MAXSTAT) {m : Request} (prot : Option Prot)
    (fits : m.Fits) {l s : Bytes} (shape : buffer old m.data = l ++ nl :: s)
    (noStop : ∀ x ∈ l, (decide (x = nl) || decide (x = eq)) = false)
    (inside : l.length < m.data.length) :
    doWstat old m prot = setField (l ++ 0#8 :: s) none prot := by
  have first : scan (fun c => c = nl || c = eq) m.data.length (l ++ nl :: s) = .ok l.length :=
    scan_stop (by simp) s l _ noStop (Nat.le_of_lt inside)
  have here : (l ++ nl :: s)[l.length]? ≠ some eq := by simp [nl, eq]
  rw [doWstat_fits old prot fits, shape, first, bind_ok, if_neg (Nat.not_le.mpr inside), if_neg here,
    endAt_mid, bind_ok]

/-- Neither of the two characters is in some text. -/
theorem noStop_of {l : Bytes} (noNl : nl ∉ l) (noEq : eq ∉ l) :
    ∀ x ∈ l, (decide (x = nl) || decide (x = eq)) = false := by
  intro x isIn
  have notNl : x ≠ nl := fun same => noNl (same ▸ isIn)
  have notEq : x ≠ eq := fun same => noEq (same ▸ isIn)
  simp [notNl, notEq]

theorem noNl_of {l : Bytes} (noNl : nl ∉ l) : ∀ x ∈ l, decide (x = nl) = false := by
  intro x isIn
  have notNl : x ≠ nl := fun same => noNl (same ▸ isIn)
  simp [notNl]

/-- A request with no newline is refused, once what is behind it has been looked at. -/
theorem doWstat_none (old : Vector UChar MAXSTAT) {m : Request} (prot : Option Prot)
    (fits : m.Fits) (noLine : nl ∉ m.data.set (MAXSTAT - 1) 0#8) :
    doWstat old m prot
      = if m.data.length = MAXSTAT then .error .outside else .ok (.error .EINVAL, prot) := by
  obtain ⟨rest, shape, full⟩ := buffer_eq old fits.2.2
  have length : (m.data.set (MAXSTAT - 1) 0#8).length = m.data.length := List.length_set
  generalize m.data.set (MAXSTAT - 1) 0#8 = d at shape noLine length
  by_cases some_ : eq ∈ d
  · obtain ⟨l, r, rfl, others⟩ := List.eq_append_cons_of_mem some_
    have noNl : nl ∉ l ∧ nl ∉ r := by
      simp only [List.mem_append, List.mem_cons, not_or] at noLine
      exact ⟨noLine.1, noLine.2.2⟩
    have size : m.data.length = l.length + 1 + r.length := by
      rw [← length, List.length_append, List.length_cons]
      omega
    have shape' : buffer old m.data = l ++ eq :: (r ++ rest) := by
      rw [buffer, shape, List.append_assoc, List.cons_append]
    have left : m.data.length - (l.length + 1) = r.length := by omega
    rw [doWstat_value old prot fits shape' (noStop_of noNl.1 others) (by omega), left,
      scan_end rest r (noNl_of noNl.2)]
    split_ifs with none_ full' full'
    · rfl
    · exact absurd (full.mp none_) full'
    · exact absurd (full.mpr full') none_
    · exact if_pos (by rw [size])
  · rw [doWstat_fits old prot fits, buffer, shape, ← length, scan_end rest d
      (noStop_of noLine some_), length]
    split_ifs with none_ full' full'
    · rfl
    · exact absurd (full.mp none_) full'
    · exact absurd (full.mpr full') none_
    · exact if_pos le_rfl

/-- A request with a newline has its field looked at, and its value where it has one. -/
theorem doWstat_line (old : Vector UChar MAXSTAT) {m : Request} (prot : Option Prot)
    (fits : m.Fits) {field : Bytes} {val : Option Bytes} (parsed : parse m.data = some (field, val)) :
    ∃ buf v, doWstat old m prot = setField buf v prot ∧ 0#8 ∈ buf ∧ cstr buf = field ∧
      v.map cstr = val ∧ ∀ s ∈ v, 0#8 ∈ s := by
  obtain ⟨rest, shape, -⟩ := buffer_eq old fits.2.2
  have length : (m.data.set (MAXSTAT - 1) 0#8).length = m.data.length := List.length_set
  rw [parse] at parsed
  generalize m.data.set (MAXSTAT - 1) 0#8 = d at shape parsed length
  have line : nl ∈ d := by
    by_contra none_
    simp [none_] at parsed
  obtain ⟨l, r, rfl, noNl⟩ := List.eq_append_cons_of_mem line
  simp only [if_pos line, takeWhile_mid noNl, Option.some.injEq, Prod.mk.injEq] at parsed
  obtain ⟨rfl, rfl⟩ := parsed
  have size : m.data.length = l.length + 1 + r.length := by
    rw [← length, List.length_append, List.length_cons]
    omega
  by_cases some_ : eq ∈ l
  · obtain ⟨l, t, rfl, noEq⟩ := List.eq_append_cons_of_mem some_
    have noNl : nl ∉ l ∧ nl ∉ t := by
      simp only [List.mem_append, List.mem_cons, not_or] at noNl
      exact ⟨noNl.1, noNl.2.2⟩
    have shape' : buffer old m.data = l ++ eq :: (t ++ nl :: (r ++ rest)) := by
      rw [buffer, shape]
      simp
    have size' : m.data.length = l.length + 1 + t.length + 1 + r.length := by
      rw [size, List.length_append, List.length_cons]
      omega
    have second : scan (fun c => c = nl) (m.data.length - (l.length + 1)) (t ++ nl :: (r ++ rest))
        = .ok t.length :=
      scan_stop (by simp) _ t _ (noNl_of noNl.2) (by omega)
    have ends : endAt (l ++ 0#8 :: (t ++ nl :: (r ++ rest))) (l.length + 1 + t.length)
        = .ok (l ++ 0#8 :: (t ++ 0#8 :: (r ++ rest))) := by
      have mid := endAt_mid (l ++ 0#8 :: t) (r ++ rest) nl
      simp only [List.length_append, List.length_cons, List.append_assoc, List.cons_append] at mid
      rw [← mid]
      congr 1
      omega
    have behind : (l ++ 0#8 :: (t ++ 0#8 :: (r ++ rest))).drop (l.length + 1)
        = t ++ 0#8 :: (r ++ rest) := by simp
    have notEnd : ¬m.data.length ≤ l.length + 1 + t.length := by omega
    refine ⟨l ++ 0#8 :: (t ++ 0#8 :: (r ++ rest)), some (t ++ 0#8 :: (r ++ rest)), ?_, ?_, ?_, ?_,
      ?_⟩
    · rw [doWstat_value old prot fits shape' (noStop_of noNl.1 noEq) (by omega), second, Except.map,
        bind_ok, if_neg notEnd, ends, bind_ok, behind]
    · simp
    · rw [cstr_ended, takeWhile_mid noEq]
    · rw [if_pos some_, dropWhile_mid noEq, Option.map_some, cstr_ended, List.tail_cons]
    · simp
  · have noStop := noStop_of noNl some_
    have shape' : buffer old m.data = l ++ nl :: (r ++ rest) := by
      rw [buffer, shape, List.append_assoc, List.cons_append]
    refine ⟨_, _, doWstat_field old prot fits shape' noStop (by omega), by simp, ?_, ?_, by simp⟩
    · rw [cstr_ended, List.takeWhile_eq_self_iff.mpr]
      intro x isIn
      simpa using fun same : x = eq => some_ (same ▸ isIn)
    · rw [if_neg some_, Option.map_none]

/-! ## When it is robust -/

/-- The fields it writes, in a string that has an end. -/
theorem setField_ok {buf : Bytes} {v : Option Bytes} (ended : 0#8 ∈ buf) (prot : Prot) :
    setField buf v (some prot) =
      if cstr buf = [97, 99, 99] then do
        let default ← atoi v
        let val ← v.elim (.error .missing) (strchr slash)
        let (_, bits) ← permSet prot.protBits (val.map List.tail)
        return (.done, some { prot with protDefault := default.setWidth 8, protBits := bits })
      else if cstr buf = [112, 101, 114, 109] then do
        let (len, id) ← permSet prot.protId v
        let prot := { prot with protId := id }
        if len ≠ prot.protLen.toNat then
          let first := min len prot.protLen.toNat
          return (.done, some { prot with
            protBits := Vector.ofFn fun x : Fin PERMLEN => if x < first then prot.protBits[x] else 0
            protLen := .ofNat 8 len })
        else return (.done, some prot)
      else return (.other buf v, some prot) := by
  rw [setField, streq_ok buf _ ended (by decide), bind_ok]
  by_cases acc : cstr buf = [97, 99, 99]
  · simp only [acc, decide_true, if_true]
  · rw [if_neg acc, decide_eq_false acc, if_neg Bool.false_ne_true,
      streq_ok buf _ ended (by decide), bind_ok]
    by_cases perm : cstr buf = [112, 101, 114, 109]
    · simp only [perm, decide_true, if_true]
    · rw [if_neg perm, decide_eq_false perm, if_neg Bool.false_ne_true]

/-- A field written into a protection. -/
theorem setField_robust {buf : Bytes} {v : Option Bytes} (ended : 0#8 ∈ buf)
    (ends : ∀ s ∈ v, 0#8 ∈ s) (prot : Prot) (value : cstr buf = [97, 99, 99] → v ≠ none) :
    ∃ answer prot', setField buf v (some prot) = .ok (answer, some prot') ∧
      (answer ≠ .done → prot' = prot) ∧
      (cstr buf = [112, 101, 114, 109] →
        prot'.protLen.toNat = min PERMLEN (components ((v.map cstr).getD []))) ∧
      (cstr buf ≠ [112, 101, 114, 109] →
        prot'.protLen = prot.protLen ∧ prot'.protId = prot.protId) := by
  rw [setField_ok ended]
  by_cases acc : cstr buf = [97, 99, 99]
  · rw [if_pos acc]
    cases v with
    | none => exact absurd rfl (value acc)
    | some s =>
      obtain ⟨default, number⟩ := atoi_ok s (ends s rfl)
      obtain ⟨r, found, rest⟩ := strchr_ok s (ends s rfl)
      obtain ⟨n, bits, set⟩ : ∃ n bits, permSet prot.protBits (r.map List.tail) = .ok (n, bits) := by
        cases r with
        | none => exact ⟨_, permSet_none _⟩
        | some t => exact ⟨_, permSet_ok _ _ (rest _ rfl)⟩
      simp only [number, Option.elim_some, found, set, bind_ok]
      refine ⟨_, _, rfl, fun other => absurd rfl other, fun same => ?_, fun _ => ⟨rfl, rfl⟩⟩
      rw [acc] at same
      exact absurd same (by decide)
  · rw [if_neg acc]
    by_cases perm : cstr buf = [112, 101, 114, 109]
    · rw [if_pos perm]
      obtain ⟨id, set⟩ : ∃ id, permSet prot.protId v
          = .ok (min PERMLEN (components ((v.map cstr).getD [])), id) := by
        cases v with
        | none => exact permSet_none _
        | some s => exact permSet_ok _ _ (ends s rfl)
      rw [set, bind_ok]
      dsimp only
      split_ifs with other
      · refine ⟨_, _, rfl, fun other => absurd rfl other, fun _ => ?_, fun no => absurd perm no⟩
        have small : min PERMLEN (components ((v.map cstr).getD [])) < 2 ^ 8 :=
          lt_of_le_of_lt (Nat.min_le_left _ _) (by decide)
        exact Nat.mod_eq_of_lt small
      · exact ⟨_, _, rfl, fun other => absurd rfl other, fun _ => (not_not.mp other).symm,
          fun no => absurd perm no⟩
    · rw [if_neg perm]
      exact ⟨_, _, rfl, fun _ => rfl, fun same => absurd same perm, fun _ => ⟨rfl, rfl⟩⟩

/-- A newline is in front of the last byte, or the request does not fill the buffer. -/
theorem parse_isSome {data : Bytes} (room : data.length ≤ MAXSTAT) :
    nl ∈ data.set (MAXSTAT - 1) 0#8 ↔
      (data.length = MAXSTAT ∧ nl ∈ data.take (MAXSTAT - 1)) ∨
        (data.length < MAXSTAT ∧ nl ∈ data) := by
  rcases Nat.lt_or_eq_of_le room with short | full
  · rw [List.set_eq_of_length_le (by omega)]
    simp [short, Nat.ne_of_lt short]
  · have split : data.set (MAXSTAT - 1) 0#8 = data.take (MAXSTAT - 1) ++ [0#8] := by
      have inside : MAXSTAT - 1 < data.length := by
        rw [full]
        decide
      have behind : data.drop (MAXSTAT - 1 + 1) = [] := List.drop_eq_nil_of_le (by omega)
      rw [List.set_eq_take_append_cons_drop, if_pos inside, behind]
    rw [split]
    simp [full, nl]

theorem parse_eq_none {data : Bytes} : parse data = none ↔ nl ∉ data.set (MAXSTAT - 1) 0#8 := by
  by_cases line : nl ∈ data.set (MAXSTAT - 1) 0#8
  · have some_ : parse data = some _ := if_pos line
    rw [some_]
    exact ⟨fun none_ => absurd none_ (Option.some_ne_none _), fun none_ => absurd line none_⟩
  · exact ⟨fun _ => line, fun _ => if_neg line⟩

/-- What does not look at a request is answered, and changes nothing. -/
theorem robust_of_refused (old : Vector UChar MAXSTAT) {m : Request} (prot : Option Prot)
    (refused : ¬m.Fits) : Robust old m prot := by
  have answered : ∃ why, doWstat old m prot = .ok (.error why, prot) := by
    rw [doWstat]
    split_ifs with noChmod bad
    · exact ⟨_, rfl⟩
    · exact ⟨_, rfl⟩
    · refine absurd ⟨?_, ?_, ?_⟩ refused
      · simpa using noChmod
      · by_contra other
        exact bad (.inl other)
      · by_contra long
        exact bad (.inr (not_le.mp long))
  obtain ⟨why, is⟩ := answered
  refine ⟨_, _, is, fun _ => rfl, ?_⟩
  cases prot with
  | none => rfl
  | some p => exact ⟨p, rfl, .inr ⟨fun looked => refused looked.1, rfl, rfl⟩⟩

/-- **Writing a protection is robust just for the requests that are fine.** -/
theorem robust_iff (old : Vector UChar MAXSTAT) (m : Request) (prot : Option Prot) :
    Robust old m prot ↔ Fine m prot := by
  by_cases fits : m.Fits
  · have room := fits.2.2
    cases parsed : parse m.data with
    | none =>
      have noLine := parse_eq_none.mp parsed
      have result := doWstat_none old prot fits noLine
      rw [parse_isSome room] at noLine
      by_cases full : m.data.length = MAXSTAT
      · rw [if_pos full] at result
        refine ⟨fun ⟨_, _, is, _⟩ => ?_, fun fine => ?_⟩
        · rw [result] at is
          cases is
        · exact absurd (.inl ⟨full, (fine fits).1 full⟩) noLine
      · rw [if_neg full] at result
        refine ⟨fun _ _ => ⟨fun same => absurd same full, fun _ other => ?_⟩, fun _ => ?_⟩
        · rw [parsed] at other
          cases other
        · refine ⟨_, _, result, fun _ => rfl, ?_⟩
          cases prot with
          | none => rfl
          | some p =>
            refine ⟨p, rfl, .inr ⟨fun ⟨_, v, is⟩ => ?_, rfl, rfl⟩⟩
            rw [parsed] at is
            cases is
    | some r =>
      obtain ⟨field, val⟩ := r
      have line : nl ∈ m.data.set (MAXSTAT - 1) 0#8 := by
        by_contra none_
        rw [parse_eq_none.mpr none_] at parsed
        cases parsed
      rw [parse_isSome room] at line
      have lineIn : m.data.length = MAXSTAT → nl ∈ m.data.take (MAXSTAT - 1) := by
        intro full
        rcases line with ⟨-, isIn⟩ | ⟨short, -⟩
        · exact isIn
        · omega
      obtain ⟨buf, v, is, ended, rfl, rfl, ends⟩ := doWstat_line old prot fits parsed
      cases prot with
      | none =>
        refine ⟨fun _ _ => ⟨lineIn, fun some_ => absurd some_ (by simp)⟩, fun _ => ?_⟩
        exact ⟨_, _, is, fun _ => rfl, rfl⟩
      | some p =>
        constructor
        · rintro ⟨answer, prot', done, -⟩ -
          refine ⟨lineIn, fun _ missing => ?_⟩
          rw [parsed] at missing
          simp only [Option.some.injEq, Prod.mk.injEq, Option.map_eq_none_iff] at missing
          rw [is, setField_ok ended, if_pos missing.1, missing.2] at done
          cases done
        · intro fine
          have value : cstr buf = [97, 99, 99] → v ≠ none := by
            rintro acc rfl
            exact (fine fits).2 rfl (by rw [parsed, acc, Option.map_none])
          obtain ⟨answer, prot', done, kept, changed, same⟩ := setField_robust ended ends p value
          refine ⟨answer, some prot', is.trans done, fun other => by rw [kept other], prot', rfl, ?_⟩
          by_cases perm : cstr buf = [112, 101, 114, 109]
          · exact .inl ⟨_, fits, by rw [parsed, perm], changed perm⟩
          · refine .inr ⟨fun ⟨_, v', is'⟩ => perm ?_, same perm⟩
            rw [parsed] at is'
            simp only [Option.some.injEq, Prod.mk.injEq] at is'
            exact is'.1
  · exact ⟨fun _ looked => absurd looked fits, fun _ => robust_of_refused old prot fits⟩

/-- `acc` with no value: `atoi` gets a null pointer. -/
theorem acc_without_value :
    ¬Robust (.replicate MAXSTAT 0) ⟨true, 1, [97, 99, 99, 10]⟩
      (some ⟨0, 0, .replicate PERMLEN 0, .replicate PERMLEN 0⟩) := by
  rintro ⟨answer, prot', is, -⟩
  have fits : (⟨true, 1, [97, 99, 99, 10]⟩ : Request).Fits := ⟨rfl, rfl, by decide⟩
  have parsed : parse [97, 99, 99, 10] = some ([97, 99, 99], none) := by decide
  obtain ⟨buf, v, ran, ended, field, val, -⟩ := doWstat_line (.replicate MAXSTAT 0)
    (some ⟨0, 0, .replicate PERMLEN 0, .replicate PERMLEN 0⟩) fits parsed
  rw [ran, setField_ok ended, if_pos field, Option.map_eq_none_iff.mp val] at is
  cases is

end Vsta.Wstat
