import Vsta.Dos.NameSearch
import Mathlib.Data.Nat.Digits.Lemmas

/-!
# A short name for a long one

`unique_filename` of `dir.c` takes up to eight characters in front of the first dot of a file name,
and up to three behind the last one. When that leaves something out it puts a number behind the
base, and looks in the directory for an entry with that name.

The counter and the result of the search are the same variable: from the entry in slot `i` the next
number is `i + 1`. So the numbers follow the slots of the directory (`Leads`), and when they lead
back to a number that was tried there is no end. `unique_iff` says exactly when a legal name is made
that no entry carries: the characters that stay are printable seven-bit characters, with no space in
front; the slots lead to a free name, where there is a number; and the name is free, where there is
none, since nothing looks.
-/

set_option autoImplicit false

namespace Vsta.Vfat

abbrev dot : UChar := 46
abbrev space : UChar := 32
abbrev tilde : UChar := 126

/-- The characters that are not in a short name. -/
def illegal : Text := [59, 43, 61, 91, 93, 39, 44, 34, 42, 92, 60, 62, 47, 63, 58, 124]

/-- A string, without its terminator. -/
abbrev CString := { s : Text // 0 ∉ s }

/-- A directory: its clusters, each full of slots. The root of a FAT12 or FAT16 volume is one
block. -/
structure Dir where
  cldirs : ℕ
  clusters : List (List Slot)
  full : ∀ c ∈ clusters, c.length = cldirs

/-- What becomes of the naming: more fuel is needed, the number does not fit in its buffer, or there
is a name. -/
inductive Naming where
  | again
  | wild
  | named (f1 f2 : Text)
  deriving DecidableEq

/-! ## The search -/

/-- `dir_search` for a short name, from a cluster on. -/
def dirSearch (cldirs : ℕ) (f1 f2 : Text) : List (List Slot) → ℕ → Option ℕ
  | [], _ => none
  | d :: rest, cluster =>
      match searchShort f1 f2 d 0 with
      | .slot x => some (x + cldirs * cluster)
      | _ => dirSearch cldirs f1 f2 rest (cluster + 1)

/-- `node_search` for a short name. -/
def nodeSearch (n : Dir) (f1 f2 : Text) : Option ℕ := dirSearch n.cldirs f1 f2 n.clusters 0

/-! ## `unique_filename` -/

/-- An illegal character is mapped to `_`. -/
def plain (c : UChar) : UChar := if c ∈ illegal then 95 else c

/-- A character is brought across. -/
def bring (c : UChar) : UChar := toupper (plain c)

/-- Text in front of spaces. -/
def pad (len : ℕ) (s : Text) : Text := s ++ List.replicate (len - s.length) space

/-- `strrchr`: what is behind the last such character. -/
def strrchr (s : Text) (c : UChar) : Option Text :=
  if c ∈ s then some (s.reverse.takeWhile (· ≠ c)).reverse else none

/-- Assemble the base, from the character at `x` on. -/
def baseLoop (file : Text) : ℕ → ℕ → Text → Bool → Text × ℕ × Bool
  | 0, x, p, num => (p, x, num)
  | left + 1, x, p, num =>
      match file[x]? with
      | none => (p, x, num)
      | some c =>
          if plain c = dot then
            if x = 0 then baseLoop file left (x + 1) p true
            else (p, x, num || decide (dot ∈ file.drop (x + 1)))
          else baseLoop file left (x + 1) (p ++ [bring c]) num

/-- `sprintf(mod, "~%d", x)`. -/
def mod (x : ℕ) : Text := tilde :: ((Nat.digits 10 x).reverse.map fun k => BitVec.ofNat 8 (48 + k))

/-- A number is put behind the base, or over its end. -/
def tack (baselen : ℕ) (mod f1 : Text) : Text :=
  let at_ := if baselen + mod.length > 8 then 8 - mod.length else baselen
  f1.take at_ ++ mod ++ f1.drop (at_ + mod.length)

/-- Bump the number until there is an unused one. -/
def numberLoop (n : Dir) (f2 : Text) (baselen : ℕ) : ℕ → ℕ → Text → Naming
  | 0, _, _ => .again
  | fuel + 1, x, f1 =>
      if (mod x).length > 8 then .wild
      else
        match nodeSearch n (tack baselen (mod x) f1) f2 with
        | none => .named (tack baselen (mod x) f1) f2
        | some x' => numberLoop n f2 baselen fuel (x' + 1) (tack baselen (mod x) f1)

/-- `unique_filename`. -/
def uniqueFilename (n : Dir) (file : CString) (fuel : ℕ) : Naming :=
  let (p, x, num) := baseLoop file 8 0 [] false
  let num := num || (p.length == 8 && (file.val[x]?).any (· ≠ dot))
  let (f2, num) :=
    match strrchr (if file.val.head? = some dot then file.val.drop 1 else file) dot with
    | some q => (pad 3 ((q.take 3).map bring), num || decide (3 < q.length))
    | none => (pad 3 [], num)
  if !num then .named (pad 8 p) f2 else numberLoop n f2 p.length fuel 1 (pad 8 p)

/-! ## What it is for -/

/-- A character of a short name. -/
def ShortChar (c : UChar) : Prop :=
  0x20 ≤ c ∧ c < 0x80 ∧ c ∉ illegal ∧ c ≠ dot ∧ ¬(97 ≤ c ∧ c ≤ 122)
  deriving Decidable

/-- A legal 8.3 name: of allowed characters, in upper case, and not empty. -/
structure Legal (f1 f2 : Text) : Prop where
  base : f1.length = 8
  ext : f2.length = 3
  chars : ∀ c ∈ f1 ++ f2, ShortChar c
  some_ : f1.head? ≠ some space

/-- An entry of a directory carries a name. -/
def Carried (n : Dir) (f1 f2 : Text) : Prop :=
  ∃ d ∈ n.clusters, ∃ e ∈ d.takeWhile (¬·.Free), ¬e.Part ∧ f1 = e.name ∧ f2 = e.ext

/-- **A legal name is made that no entry carries.** -/
def Made (n : Dir) (file : CString) : Prop :=
  ∃ fuel f1 f2, uniqueFilename n file fuel = .named f1 f2 ∧ Legal f1 f2 ∧ ¬Carried n f1 f2

/-! ## When it is -/

/-- The characters in front of the first dot, up to eight with a dot at the start. -/
def stem (file : Text) : Text :=
  if file.head? = some dot then ((file.drop 1).take 7).takeWhile (· ≠ dot)
  else (file.take 8).takeWhile (· ≠ dot)

/-- The characters behind the last dot that is not at the start. -/
def extension (file : Text) : Text :=
  (strrchr (if file.head? = some dot then file.drop 1 else file) dot).getD []

/-- Something of a name is left out: a dot at the start, more than one dot, or characters of a base
or an extension that is too long. -/
def LeftOut (file : Text) : Prop :=
  file.head? = some dot ∨ ((stem file).length < 8 ∧ dot ∈ file.drop ((stem file).length + 1)) ∨
    ((stem file).length = 8 ∧ ∃ c, file[8]? = some c ∧ c ≠ dot) ∨ 3 < (extension file).length

/-- The base and the extension of a short name, as they are put in a slot. -/
def base (file : Text) : Text := (stem file).map bring
def shortExt (file : Text) : Text := pad 3 (((extension file).take 3).map bring)

/-- From a number, the slots lead to a name that is free: the slot `i` that has the name of a number
leads to the number `i + 1`. No number gets into the first `kept` characters. -/
inductive Leads (n : Dir) (f2 : Text) (baselen : ℕ) : ℕ → Text → ℕ → Text → Prop where
  | free {x : ℕ} {f1 : Text} : x < 10 ^ 7 → nodeSearch n (tack baselen (mod x) f1) f2 = none →
      Leads n f2 baselen x f1 (8 - (mod x).length) (tack baselen (mod x) f1)
  | next {x i kept : ℕ} {f1 t : Text} : x < 10 ^ 7 →
      nodeSearch n (tack baselen (mod x) f1) f2 = some i →
      Leads n f2 baselen (i + 1) (tack baselen (mod x) f1) kept t →
      Leads n f2 baselen x f1 (min (8 - (mod x).length) kept) t

/-- A printable seven-bit character. -/
def Printable (c : UChar) : Prop := 0x20 ≤ c ∧ c < 0x80
  deriving Decidable

/-- The characters at the start of a name are printable, and the first one is not a space. -/
def Clear (s : Text) : Prop := (∀ c ∈ s, Printable c) ∧ s.head? ≠ some space

/-- A name with a number has a legal form, and the slots lead to it from the number 1. -/
def NumberFine (n : Dir) (file : Text) : Prop :=
  ∃ kept t, Leads n (shortExt file) (base file).length 1 (pad 8 (base file)) kept t ∧
    Clear ((stem file).take kept)

/-- A name without a number has a legal form, and no entry carries it. -/
def PlainFine (n : Dir) (file : Text) : Prop :=
  stem file ≠ [] ∧ Clear (stem file) ∧ ¬Carried n (pad 8 (base file)) (shortExt file)

/-- When the name that is made for a file is legal and free. -/
def Fine (n : Dir) (file : Text) : Prop :=
  (∀ c ∈ (extension file).take 3, Printable c) ∧
    (LeftOut file → NumberFine n file) ∧ (¬LeftOut file → PlainFine n file)

variable {n : Dir} {f1 f2 t name : Text} {file : Text} {x kept baselen : ℕ} {c : UChar}

/-! ## Characters -/

theorem shortChar_bring (c : UChar) (other : c ≠ dot) : ShortChar (bring c) ↔ Printable c := by
  revert c
  decide +kernel

theorem bring_space (c : UChar) : bring c = space ↔ c = space := by
  revert c
  decide +kernel

theorem plain_dot (c : UChar) : plain c = dot ↔ c = dot := by
  revert c
  decide +kernel

theorem shortChar_digit {k : ℕ} (small : k < 10) : ShortChar (BitVec.ofNat 8 (48 + k)) := by
  interval_cases k <;> decide

/-! ## The base -/

/-- The base is assembled up to the first dot. -/
theorem baseLoop_spec (file : Text) (left x : ℕ) (p : Text) (num : Bool)
    (start : x ≠ 0 ∨ file.head? ≠ some dot) :
    baseLoop file left x p num =
      let s := ((file.drop x).take left).takeWhile (· ≠ dot)
      (p ++ s.map bring, x + s.length,
        num || (decide (s.length < left) && decide (dot ∈ file.drop (x + s.length + 1)))) := by
  induction left generalizing x p num with
  | zero => simp [baseLoop]
  | succ left ih =>
      cases here : file[x]? with
      | none =>
          have out : file.drop x = [] :=
            List.drop_eq_nil_iff.mpr (List.getElem?_eq_none_iff.mp here)
          have out' : file.drop (x + 1) = [] := by rw [← List.drop_drop, out, List.drop_nil]
          rw [baseLoop, here, out]
          simp [out']
      | some c =>
          obtain ⟨inside, rfl⟩ := List.getElem?_eq_some_iff.mp here
          rw [baseLoop, here, List.drop_eq_getElem_cons inside, List.take_succ_cons]
          dsimp only
          by_cases mark : file[x] = dot
          · have first : x ≠ 0 := by
              rintro rfl
              refine start.elim (· rfl) fun other => other ?_
              rw [List.head?_eq_getElem?, here, mark]
            rw [if_pos ((plain_dot _).mpr mark), if_neg first,
              List.takeWhile_cons_of_neg (by simp [mark])]
            simp
          · rw [if_neg (fun h => mark ((plain_dot _).mp h)),
              List.takeWhile_cons_of_pos (by simpa using mark),
              ih _ _ _ (.inl (Nat.succ_ne_zero x))]
            generalize ((file.drop (x + 1)).take left).takeWhile (· ≠ dot) = s
            simp only [List.map_cons, List.length_cons, List.append_assoc, List.singleton_append,
              Prod.mk.injEq, true_and]
            refine ⟨by omega, ?_⟩
            congr 2
            · exact decide_eq_decide.mpr (by omega)
            · congr 3
              omega

theorem length_stem : (stem file).length ≤ 8 := by
  rw [stem]
  split_ifs
  · exact (List.takeWhile_sublist _).length_le.trans ((List.length_take_le _ _).trans (by decide))
  · exact (List.takeWhile_sublist _).length_le.trans (List.length_take_le _ _)

theorem takeWhile_ne_dot {s : Text} (member : c ∈ s.takeWhile (· ≠ dot)) : c ≠ dot := by
  have held := List.mem_takeWhile_imp member
  simpa using held

theorem stem_ne_dot (member : c ∈ stem file) : c ≠ dot := by
  rw [stem] at member
  split_ifs at member <;> exact takeWhile_ne_dot member

theorem strrchr_ne_dot {s q : Text} (found : strrchr s dot = some q) (member : c ∈ q) :
    c ≠ dot := by
  rw [strrchr] at found
  split_ifs at found
  obtain rfl := Option.some.inj found
  exact takeWhile_ne_dot (List.mem_reverse.mp member)

theorem extension_ne_dot (member : c ∈ extension file) : c ≠ dot := by
  rw [extension] at member
  cases found : strrchr (if file.head? = some dot then file.drop 1 else file) dot with
  | none =>
      rw [found] at member
      exact absurd member List.not_mem_nil
  | some q =>
      rw [found] at member
      exact strrchr_ne_dot found member

/-- The base of a file name, where the loop leaves it, and whether it has found that something is
left out. -/
theorem baseLoop_stem (file : Text) :
    (baseLoop file 8 0 [] false).1 = base file ∧
    (((baseLoop file 8 0 [] false).2.2 || ((base file).length == 8 &&
        (file[(baseLoop file 8 0 [] false).2.1]?).any (· ≠ dot))) = true ↔
      file.head? = some dot ∨
        ((stem file).length < 8 ∧ dot ∈ file.drop ((stem file).length + 1)) ∨
        ((stem file).length = 8 ∧ ∃ c, file[8]? = some c ∧ c ≠ dot)) := by
  by_cases first : file.head? = some dot
  · obtain ⟨rest, rfl⟩ : ∃ rest, file = dot :: rest := by
      cases file with
      | nil => simp at first
      | cons c rest => exact ⟨rest, by rw [Option.some.inj first]⟩
    have loop := baseLoop_spec (dot :: rest) 7 1 [] true (.inl one_ne_zero)
    have step : baseLoop (dot :: rest) 8 0 [] false = baseLoop (dot :: rest) 7 1 [] true := rfl
    rw [step, loop, base, stem, if_pos first]
    simp
  · have loop := baseLoop_spec file 8 0 [] false (.inr first)
    rw [loop, base, stem, if_neg first]
    simp only [List.drop_zero, List.nil_append, Nat.zero_add, Bool.false_or, List.length_map,
      true_and, first, false_or, Bool.or_eq_true, Bool.and_eq_true, decide_eq_true_eq, beq_iff_eq]
    refine or_congr_right (and_congr_right fun whole => ?_)
    rw [whole]
    cases file[8]? <;> simp

/-- **What is made of a file name.** -/
theorem uniqueFilename_eq (n : Dir) (file : CString) (fuel : ℕ) :
    (LeftOut file → uniqueFilename n file fuel =
      numberLoop n (shortExt file) (base file).length fuel 1 (pad 8 (base file))) ∧
    (¬LeftOut file →
      uniqueFilename n file fuel = .named (pad 8 (base file)) (shortExt file)) := by
  obtain ⟨same, num⟩ := baseLoop_stem file.val
  rw [uniqueFilename]
  generalize baseLoop file.val 8 0 [] false = r at same num
  obtain ⟨p, x, found⟩ := r
  dsimp only at same num ⊢
  subst same
  generalize (found || ((base file.val).length == 8 && (file.val[x]?).any (· ≠ dot))) = some_
    at num ⊢
  have left : LeftOut file.val ↔ some_ = true ∨ 3 < (extension file.val).length := by
    rw [LeftOut, num, or_assoc, or_assoc]
  rw [left, shortExt, extension]
  cases strrchr (if file.val.head? = some dot then file.val.drop 1 else file.val) dot with
  | none =>
      cases some_ with
      | true => exact ⟨fun _ => rfl, fun none_ => absurd (.inl rfl) none_⟩
      | false => exact ⟨fun some_ => absurd some_ (by simp), fun _ => rfl⟩
  | some q =>
      dsimp only [Option.getD_some]
      cases some_ with
      | true => exact ⟨fun _ => rfl, fun none_ => absurd (.inl rfl) none_⟩
      | false =>
          by_cases long : 3 < q.length
          · refine ⟨fun _ => ?_, fun none_ => absurd (.inr long) none_⟩
            simp [long]
          · refine ⟨fun some_ => absurd some_ (by simpa using long), fun _ => ?_⟩
            simp [long]

/-! ## The numbers -/

theorem mod_length (small : x < 10 ^ 7) : (mod x).length ≤ 8 := by
  have few := (Nat.digits_length_le_iff (by decide : 1 < 10) x (k := 7)).mpr small
  rw [mod, List.length_cons, List.length_map, List.length_reverse]
  omega

theorem mod_long (large : ¬x < 10 ^ 7) : (mod x).length > 8 := by
  have few := (Nat.digits_length_le_iff (by decide : 1 < 10) x (k := 7)).not.mpr large
  rw [mod, List.length_cons, List.length_map, List.length_reverse]
  omega

/-- A character of a number, or a space. -/
def Filler (c : UChar) : Prop := c = space ∨ c = tilde ∨ ∃ k < 10, c = BitVec.ofNat 8 (48 + k)

theorem Filler.shortChar (filler : Filler c) : ShortChar c := by
  rcases filler with rfl | rfl | ⟨k, small, rfl⟩
  · decide
  · decide
  · exact shortChar_digit small

theorem mod_filler (member : c ∈ mod x) : Filler c := by
  rcases List.mem_cons.mp member with rfl | member
  · exact .inr (.inl rfl)
  · obtain ⟨k, digit, rfl⟩ := List.mem_map.mp member
    exact .inr (.inr ⟨k, Nat.digits_lt_base (by decide) (List.mem_reverse.mp digit), rfl⟩)

/-- A name whose first `kept` characters no number got into: they are those of the base, and the
others are of numbers, or spaces. -/
structure Shape (b : Text) (kept : ℕ) (t : Text) : Prop where
  size : t.length = 8
  head : ∀ p, p < min b.length kept → t[p]? = b[p]?
  rest : ∀ p c, min b.length kept ≤ p → t[p]? = some c → Filler c
  mark : kept = 0 → t[0]? = some tilde

variable {b : Text}

theorem Shape.pad (few : b.length ≤ 8) : Shape b 8 (pad 8 b) where
  size := by
    rw [Vfat.pad, List.length_append, List.length_replicate]
    omega
  head p inside := List.getElem?_append_left (by omega)
  rest p c behind found := by
    rw [Vfat.pad, List.getElem?_append_right (by omega)] at found
    exact .inl (List.eq_of_mem_replicate (List.mem_of_getElem? found))
  mark zero := absurd zero (by decide)

/-- Where a number is put. -/
theorem tack_eq (m t : Text) (few : b.length ≤ 8) (short : m.length ≤ 8) :
    tack b.length m t = t.take (min b.length (8 - m.length)) ++ m ++
      t.drop (min b.length (8 - m.length) + m.length) := by
  rw [tack]
  split_ifs with long
  · rw [min_eq_right (by omega)]
  · rw [min_eq_left (by omega)]

/-- **A number leaves the characters in front of it.** -/
theorem Shape.tack (shape : Shape b kept t) (few : b.length ≤ 8) (small : x < 10 ^ 7) :
    Shape b (min kept (8 - (mod x).length)) (tack b.length (mod x) t) ∧
      (min b.length (min kept (8 - (mod x).length)) = 0 →
        (Vfat.tack b.length (mod x) t)[0]? = some tilde) := by
  have short := mod_length small
  have some_ : 0 < (mod x).length := Nat.succ_pos _
  have size := shape.size
  rw [tack_eq _ _ few short]
  generalize at_ : min b.length (8 - (mod x).length) = a
  have room : a + (mod x).length ≤ 8 := by omega
  have front : (t.take a).length = a := by rw [List.length_take]; omega
  have before : ∀ p, p < a → (t.take a ++ mod x ++ t.drop (a + (mod x).length))[p]? = t[p]? := by
    intro p inside
    rw [List.append_assoc, List.getElem?_append_left (by omega), List.getElem?_take_of_lt inside]
  have start : a = 0 → (t.take a ++ mod x ++ t.drop (a + (mod x).length))[0]? = some tilde := by
    rintro rfl
    rfl
  have mark : min b.length (min kept (8 - (mod x).length)) = 0 →
      (t.take a ++ mod x ++ t.drop (a + (mod x).length))[0]? = some tilde := by
    intro none_
    by_cases zero : a = 0
    · exact start zero
    · rw [before 0 (by omega)]
      exact shape.mark (by omega)
  refine ⟨⟨?_, fun p inside => ?_, fun p c behind found => ?_, fun zero => mark (by omega)⟩, mark⟩
  · rw [List.length_append, List.length_append, front, List.length_drop]
    omega
  · rw [before p (by omega)]
    exact shape.head p (by omega)
  · by_cases first : p < a
    · rw [before p first] at found
      exact shape.rest p c (by omega) found
    · by_cases number : p < a + (mod x).length
      · rw [List.append_assoc, List.getElem?_append_right (by omega), front,
          List.getElem?_append_left (by omega)] at found
        exact mod_filler (List.mem_of_getElem? found)
      · rw [List.getElem?_append_right (by rw [List.length_append]; omega), List.length_append,
          front, List.getElem?_drop] at found
        have place : a + (mod x).length + (p - (a + (mod x).length)) = p := by omega
        rw [place] at found
        exact shape.rest p c (by omega) found

/-- Along the slots. -/
theorem Leads.shape (few : b.length ≤ 8) {first : ℕ} (leads : Leads n f2 b.length x f1 kept t)
    (shape : Shape b first f1) :
    Shape b (min first kept) t ∧ (min b.length (min first kept) = 0 → t[0]? = some tilde) ∧
      nodeSearch n t f2 = none := by
  induction leads generalizing first with
  | free small none_ => exact ⟨(shape.tack few small).1, (shape.tack few small).2, none_⟩
  | next small found _ ih =>
      have after := ih (shape.tack few small).1
      rwa [min_assoc] at after

theorem Leads.loop (leads : Leads n f2 baselen x f1 kept t) :
    ∃ fuel, numberLoop n f2 baselen fuel x f1 = .named t f2 := by
  induction leads with
  | free small none_ =>
      refine ⟨1, ?_⟩
      rw [numberLoop, if_neg (by have := mod_length small; omega), none_]
  | next small found _ ih =>
      obtain ⟨fuel, done⟩ := ih
      refine ⟨fuel + 1, ?_⟩
      rw [numberLoop, if_neg (by have := mod_length small; omega), found]
      exact done

/-- **The loop finds a name when the slots lead to one.** -/
theorem leads_of_loop {fuel : ℕ} {f2' : Text}
    (done : numberLoop n f2 baselen fuel x f1 = .named t f2') :
    f2' = f2 ∧ ∃ kept, Leads n f2 baselen x f1 kept t := by
  induction fuel generalizing x f1 with
  | zero => simp [numberLoop] at done
  | succ fuel ih =>
      rw [numberLoop] at done
      by_cases small : x < 10 ^ 7
      · rw [if_neg (by have := mod_length small; omega)] at done
        cases found : nodeSearch n (tack baselen (mod x) f1) f2 with
        | none =>
            rw [found] at done
            obtain ⟨rfl, rfl⟩ := Naming.named.inj done
            exact ⟨rfl, _, .free small found⟩
        | some i =>
            rw [found] at done
            obtain ⟨same, kept, leads⟩ := ih done
            exact ⟨same, _, .next small found leads⟩
      · rw [if_pos (mod_long small)] at done
        exact absurd done (by simp)

/-! ## The search -/

theorem searchShort_absent {d : List Slot} {at_ : ℕ}
    (none_ : ∀ y, searchShort f1 f2 d at_ ≠ .slot y) :
    ∀ e ∈ d.takeWhile (¬·.Free), ¬(f1 = e.name ∧ f2 = e.ext) := by
  induction d generalizing at_ with
  | nil => simp
  | cons e rest ih =>
      intro e' member same
      by_cases free : e.Free
      · have stops : decide (¬e.Free) = false := decide_eq_false (not_not.mpr free)
        rw [List.takeWhile_cons, stops] at member
        exact absurd member List.not_mem_nil
      · have goes : decide (¬e.Free) = true := decide_eq_true free
        rw [List.takeWhile_cons, goes, if_pos rfl] at member
        have here := none_
        rw [searchShort, if_neg free] at here
        rcases List.mem_cons.mp member with rfl | member
        · rw [if_pos same] at here
          exact here at_ rfl
        · split_ifs at here with mine
          · exact here at_ rfl
          · exact ih here e' member same

/-- A name that is not found is not carried. -/
theorem not_carried (none_ : nodeSearch n f1 f2 = none) : ¬Carried n f1 f2 := by
  rw [nodeSearch] at none_
  rintro ⟨d, member, e, inside, -, same⟩
  generalize 0 = cluster at none_
  revert member none_
  generalize n.clusters = all
  intro member none_
  induction all generalizing cluster with
  | nil => simp at member
  | cons first rest ih =>
      rw [dirSearch] at none_
      split at none_
      · exact absurd none_ (by simp)
      · next other =>
          rcases List.mem_cons.mp member with rfl | member
          · exact searchShort_absent other e inside same
          · exact ih (cluster + 1) member none_

/-! ## Legal names -/

theorem base_get (p : ℕ) : (base file)[p]? = ((stem file)[p]?).map bring := List.getElem?_map ..

theorem length_base : (base file).length = (stem file).length := List.length_map ..

/-- The extension is legal when its characters are printable. -/
theorem shortExt_legal :
    (∀ c ∈ shortExt file, ShortChar c) ↔ ∀ c ∈ (extension file).take 3, Printable c := by
  have other : ∀ c ∈ (extension file).take 3, c ≠ dot := fun c member =>
    extension_ne_dot (List.mem_of_mem_take member)
  constructor
  · intro legal c member
    exact (shortChar_bring c (other c member)).mp
      (legal _ (List.mem_append_left _ (List.mem_map_of_mem member)))
  · intro printable c member
    rcases List.mem_append.mp member with member | member
    · obtain ⟨c', member', rfl⟩ := List.mem_map.mp member
      exact (shortChar_bring c' (other c' member')).mpr (printable c' member')
    · rw [List.eq_of_mem_replicate member]
      decide

theorem length_shortExt : (shortExt file).length = 3 := by
  have few : (((extension file).take 3).map bring).length ≤ 3 := by
    rw [List.length_map]
    exact List.length_take_le _ _
  rw [shortExt, pad, List.length_append, List.length_replicate]
  omega

/-- **A name is legal when the characters that stay of its base are clear.** -/
theorem Shape.legal (shape : Shape (base file) kept t)
    (mark : min (base file).length kept = 0 → t[0]? = some tilde) :
    Legal t (shortExt file) ↔
      Clear ((stem file).take kept) ∧ ∀ c ∈ (extension file).take 3, Printable c := by
  have same : ∀ p c, p < kept → (stem file)[p]? = some c → t[p]? = some (bring c) := by
    intro p c inside found
    have here := (List.getElem?_eq_some_iff.mp found).1
    rw [shape.head p (by rw [length_base]; omega), base_get, found]
    rfl
  constructor
  · intro legal
    refine ⟨⟨fun c member => ?_, fun first => ?_⟩, shortExt_legal.mp fun c member =>
      legal.chars c (List.mem_append_right _ member)⟩
    · obtain ⟨p, found⟩ := List.mem_iff_getElem?.mp member
      have inside : p < kept := by
        have := (List.getElem?_eq_some_iff.mp found).1
        rw [List.length_take] at this
        omega
      rw [List.getElem?_take_of_lt inside] at found
      have here := List.mem_of_getElem? (same p c inside found)
      exact (shortChar_bring c (stem_ne_dot (List.mem_of_getElem? found))).mp
        (legal.chars _ (List.mem_append_left _ here))
    · rw [List.head?_eq_getElem?] at first
      have inside : 0 < kept := by
        have := (List.getElem?_eq_some_iff.mp first).1
        rw [List.length_take] at this
        omega
      rw [List.getElem?_take_of_lt inside] at first
      refine legal.some_ ?_
      rw [List.head?_eq_getElem?, same 0 space inside first, (bring_space space).mpr rfl]
  · rintro ⟨⟨printable, first⟩, ext⟩
    refine ⟨shape.size, length_shortExt, fun c member => ?_, fun empty => ?_⟩
    · rcases List.mem_append.mp member with member | member
      · obtain ⟨p, found⟩ := List.mem_iff_getElem?.mp member
        by_cases inside : p < min (base file).length kept
        · rw [shape.head p inside, base_get] at found
          obtain ⟨c', found', rfl⟩ := Option.map_eq_some_iff.mp found
          refine (shortChar_bring c' (stem_ne_dot (List.mem_of_getElem? found'))).mpr
            (printable c' (List.mem_iff_getElem?.mpr ⟨p, ?_⟩))
          rw [List.getElem?_take_of_lt (by omega), found']
        · exact (shape.rest p c (by omega) found).shortChar
      · exact shortExt_legal.mpr ext c member
    · rw [List.head?_eq_getElem?] at empty
      by_cases none_ : min (base file).length kept = 0
      · exact absurd ((mark none_).symm.trans empty) (by decide)
      · rw [shape.head 0 (by omega), base_get] at empty
        obtain ⟨c, found, same'⟩ := Option.map_eq_some_iff.mp empty
        refine first ?_
        rw [List.head?_eq_getElem?, List.getElem?_take_of_lt (by omega), found,
          (bring_space c).mp same']

/-- A name without a number. -/
theorem pad_legal :
    Legal (pad 8 (base file)) (shortExt file) ↔
      (stem file ≠ [] ∧ Clear (stem file)) ∧ ∀ c ∈ (extension file).take 3, Printable c := by
  have few : (base file).length ≤ 8 := length_base ▸ length_stem
  by_cases none_ : stem file = []
  · refine iff_of_false (fun legal => legal.some_ ?_) fun fine => fine.1.1 none_
    rw [base, none_]
    rfl
  · have some_ : min (base file).length 8 = 0 → (pad 8 (base file))[0]? = some tilde := by
      intro zero
      have pos := List.length_pos_of_ne_nil none_
      rw [length_base] at zero
      omega
    rw [(Shape.pad few).legal some_, List.take_of_length_le length_stem]
    simp [none_]

/-- **`unique_filename` makes a legal name that no entry carries exactly when the characters that
stay are clear and the slots lead to a free name.** -/
theorem unique_iff (n : Dir) (file : CString) : Made n file ↔ Fine n file := by
  have few : (base file.val).length ≤ 8 := length_base ▸ length_stem
  by_cases out : LeftOut file.val
  · constructor
    · rintro ⟨fuel, f1, f2, made, legal, -⟩
      rw [(uniqueFilename_eq n file fuel).1 out] at made
      obtain ⟨rfl, kept, leads⟩ := leads_of_loop made
      obtain ⟨shape, mark, -⟩ := leads.shape few (Shape.pad few)
      obtain ⟨clear, ext⟩ := (shape.legal mark).mp legal
      have most : kept ≤ 8 := by
        cases leads <;> omega
      rw [min_eq_right most] at clear
      exact ⟨ext, fun _ => ⟨kept, f1, leads, clear⟩, fun none_ => absurd out none_⟩
    · rintro ⟨ext, number, -⟩
      obtain ⟨kept, t, leads, clear⟩ := number out
      obtain ⟨shape, mark, free⟩ := leads.shape few (Shape.pad few)
      have most : kept ≤ 8 := by
        cases leads <;> omega
      rw [min_eq_right most] at shape mark
      obtain ⟨fuel, made⟩ := leads.loop
      exact ⟨fuel, t, _, ((uniqueFilename_eq n file fuel).1 out).trans made,
        (shape.legal mark).mpr ⟨clear, ext⟩, not_carried free⟩
  · constructor
    · rintro ⟨fuel, f1, f2, made, legal, free⟩
      rw [(uniqueFilename_eq n file fuel).2 out] at made
      obtain ⟨rfl, rfl⟩ := Naming.named.inj made
      obtain ⟨⟨some_, clear⟩, ext⟩ := pad_legal.mp legal
      exact ⟨ext, fun some_ => absurd some_ out, fun _ => ⟨some_, clear, free⟩⟩
    · rintro ⟨ext, -, plain_⟩
      obtain ⟨some_, clear, free⟩ := plain_ out
      exact ⟨0, _, _, (uniqueFilename_eq n file 0).2 out, pad_legal.mpr ⟨⟨some_, clear⟩, ext⟩, free⟩

/-- The entry of a short name. -/
def entry (f1 f2 : Text) : Slot where
  bytes i := (f1 ++ f2).getD i 0

/-- A directory in which the first slot has the name `FOO~1`. -/
def fooDir : Dir where
  cldirs := 1
  clusters := [[entry [70, 79, 79, tilde, 49, space, space, space] [space, space, space]]]
  full c member := by rw [List.mem_singleton.mp member]; rfl

/-- The file `.foo`: the slot of `FOO~1` leads back to the number 1. -/
theorem foo_endless : ¬Made fooDir ⟨[dot, 102, 111, 111], by decide⟩ := by
  have one : mod 1 = [tilde, 49] := by simp [mod]
  have taken : nodeSearch fooDir [70, 79, 79, tilde, 49, space, space, space]
      [space, space, space] = some 0 := by decide
  have first : tack 3 (mod 1) [70, 79, 79, space, space, space, space, space] =
      [70, 79, 79, tilde, 49, space, space, space] := by
    rw [one]
    rfl
  have again : tack 3 (mod 1) [70, 79, 79, tilde, 49, space, space, space] =
      [70, 79, 79, tilde, 49, space, space, space] := by
    rw [one]
    rfl
  have few : ¬(mod 1).length > 8 := by
    rw [one]
    decide
  have loop : ∀ fuel, numberLoop fooDir [space, space, space] 3 fuel 1
      [70, 79, 79, tilde, 49, space, space, space] = .again := by
    intro fuel
    induction fuel with
    | zero => rfl
    | succ fuel ih => rw [numberLoop, if_neg few, again, taken]; exact ih
  rintro ⟨fuel, f1, f2, made, -⟩
  have begin_ : uniqueFilename fooDir ⟨[dot, 102, 111, 111], by decide⟩ fuel =
      numberLoop fooDir [space, space, space] 3 fuel 1
        [70, 79, 79, space, space, space, space, space] := rfl
  rw [begin_] at made
  cases fuel with
  | zero => exact absurd made (by simp [numberLoop])
  | succ fuel =>
      rw [numberLoop, if_neg few, first, taken] at made
      exact absurd ((loop fuel).symm.trans made) (by simp)

end Vsta.Vfat
