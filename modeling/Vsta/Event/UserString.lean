import Vsta.Event.Notify

/-!
# Strings of a user

`get_ustr` of `os/kern/misc.c` fetches a counted string for a system call, and `copyin` does the
copy: it refuses what is not wholly in the user's half, moves long words and then the bytes that
are left over, and stops where the user has no page. Memory of the kernel is addressed from the
buffer, so that the cell at `-1` lies in front of it.

`getUstr_sound` is what the system calls rely on. The length is the user's, and signed: a length
that is negative, or wraps when room for the terminator is added, passes the first test and is
refused by `copyin`.
-/

set_option autoImplicit false

namespace Vsta.Events

/-- `int`. -/
abbrev CInt := BitVec 32

/-- Memory of the kernel, seen from the buffer, and the bytes that were copied into it. -/
structure Kstr where
  bytes : ℤ → UChar
  copied : ℕ

/-- Memory of the user. Where no page can be had there is nothing. -/
abbrev User := ULong → Option UChar

namespace Kstr

/-- A copy of bytes of the user. -/
def store (k : Kstr) (off : ℕ) (new : List UChar) : Kstr where
  bytes i := if (off : ℤ) ≤ i ∧ i < off + new.length then new.getD (i - off).toNat 0 else k.bytes i
  copied := k.copied + new.length

/-- A byte that the kernel sets itself. -/
def set (k : Kstr) (at_ : ℤ) (c : UChar) : Kstr :=
  { k with bytes := Function.update k.bytes at_ c }

/-- The string in the buffer, with a terminator within `n` bytes. -/
def text (k : Kstr) (n : ℕ) : List UChar :=
  ((List.range n).map fun i : ℕ => k.bytes i).takeWhile (· ≠ 0)

end Kstr

/-! ## The copy -/

/-- How `copyin` moves bytes: in long words, and the rest at `___cpalign`. -/
def moves (nbyte : ℕ) : List ℕ :=
  List.replicate (nbyte / 4) 4 ++ (if nbyte / 2 % 2 = 1 then [2] else []) ++
    (if nbyte % 2 = 1 then [1] else [])

/-- Bytes of the user, if they are all there. -/
def fetch (user : User) (uaddr : ULong) (off width : ℕ) : Option (List UChar) :=
  let cells := (List.range width).map fun i => user (uaddr + BitVec.ofNat 32 (off + i))
  if none ∈ cells then none else some (cells.map (·.getD 0))

/-- The moves, up to one that faults. -/
def move (user : User) (uaddr : ULong) : List ℕ → ℕ → Kstr → Bool × Kstr
  | [], _, k => (true, k)
  | width :: rest, off, k =>
      match fetch user uaddr off width with
      | none => (false, k)
      | some new => move user uaddr rest (off + width) (k.store off new)

/-- `copyin`. The user's half starts at `0x80000000`. -/
def copyin (user : User) (uaddr : ULong) (nbyte : Uint) (k : Kstr) : Bool × Kstr :=
  if 2 ^ 32 ≤ uaddr.toNat + 0x80000000 then (false, k)
  else if 0x40000000 ≤ nbyte.toNat then (false, k)
  else if 2 ^ 32 ≤ (uaddr + 0x80000000).toNat + nbyte.toNat then (false, k)
  else move user uaddr (moves nbyte.toNat) 0 k

/-- `get_ustr`. -/
def getUstr (user : User) (klen : CInt) (ustr : ULong) (ulen : CInt) (k : Kstr) :
    Except Errno Unit × Kstr :=
  if klen.slt (ulen + 1) then (.error .EINVAL, k)
  else
    match copyin user ustr ulen k with
    | (false, k) => (.error .EFAULT, k)
    | (true, k) =>
        let k := k.set ulen.toInt 0
        if (k.text (ulen.toNat + 1)).length < 1 then (.error .EINVAL, k) else (.ok (), k)

/-- The text that `notify` hands to `notify2`, if it comes so far. -/
def notify (user : User) (argMsg : ULong) (argMsglen : CInt) (evname : Kstr) :
    Option (List UChar) :=
  match getUstr user (BitVec.ofNat 32 EVLEN) argMsg argMsglen evname with
  | (.error _, _) => none
  | (.ok _, evname) => some (evname.text EVLEN)

/-! ## What is copied -/

variable {user : User} {uaddr : ULong} {k : Kstr}

theorem sum_moves (nbyte : ℕ) : (moves nbyte).sum = nbyte := by
  rw [moves, List.sum_append, List.sum_append, List.sum_replicate_nat]
  split_ifs <;> simp only [List.sum_cons, List.sum_nil] <;> omega

theorem fetch_some {off width : ℕ} {new : List UChar}
    (fetched : fetch user uaddr off width = some new) : new.length = width ∧
      ∀ i < width, user (uaddr + BitVec.ofNat 32 (off + i)) = some (new.getD i 0) := by
  rw [fetch] at fetched
  split_ifs at fetched with missing
  obtain rfl := Option.some.inj fetched
  refine ⟨by simp, fun i inside => ?_⟩
  cases cell : user (uaddr + BitVec.ofNat 32 (off + i)) with
  | none => exact absurd (List.mem_map.mpr ⟨i, List.mem_range.mpr inside, cell⟩) missing
  | some c => simp [inside, cell]

/-- What a copy of `n` bytes may do: it writes the first `n` cells alone, and when it gets to its
end they are the user's. -/
structure Copied (user : User) (uaddr : ULong) (off n : ℕ) (k : Kstr) (r : Bool × Kstr) : Prop where
  outside : ∀ i : ℤ, ¬((off : ℤ) ≤ i ∧ i < off + n) → r.2.bytes i = k.bytes i
  few : r.2.copied ≤ k.copied + n
  whole : r.1 = true → ∀ i < n,
    user (uaddr + BitVec.ofNat 32 (off + i)) = some (r.2.bytes ((off + i : ℕ) : ℤ))

/-- Nothing is copied. -/
theorem Copied.none_ (n : ℕ) : Copied user uaddr 0 n k (false, k) :=
  ⟨fun _ _ => rfl, Nat.le_add_right _ _, nofun⟩

variable (user uaddr) in
/-- **The moves copy their bytes one after the other.** -/
theorem move_copied (widths : List ℕ) (off : ℕ) (k : Kstr) :
    Copied user uaddr off widths.sum k (move user uaddr widths off k) := by
  induction widths generalizing off k with
  | nil => exact ⟨fun _ _ => rfl, le_rfl, fun _ _ none_ => absurd none_ (Nat.not_lt_zero _)⟩
  | cons width rest ih =>
      rw [move, List.sum_cons]
      split
      · exact ⟨fun _ _ => rfl, Nat.le_add_right _ _, nofun⟩
      · next new fetched =>
          obtain ⟨size, cells⟩ := fetch_some fetched
          have after := ih (off + width) (k.store off new)
          refine ⟨fun i out => ?_, ?_, fun done i inside => ?_⟩
          · rw [after.outside i (by omega)]
            exact if_neg (by omega)
          · have here : (k.store off new).copied = k.copied + new.length := rfl
            have few := after.few
            omega
          · by_cases first : i < width
            · rw [after.outside _ (by omega), cells i first]
              simp only [Kstr.store]
              rw [if_pos (by omega)]
              congr 2
              omega
            · have later := after.whole done (i - width) (by omega)
              rwa [Nat.add_assoc, Nat.add_sub_cancel' (not_lt.mp first)] at later

theorem copyin_copied (user : User) (uaddr : ULong) (nbyte : Uint) (k : Kstr) :
    Copied user uaddr 0 nbyte.toNat k (copyin user uaddr nbyte k) := by
  rw [copyin]
  split_ifs
  · exact .none_ _
  · exact .none_ _
  · exact .none_ _
  · have copied := move_copied user uaddr (moves nbyte.toNat) 0 k
    rwa [sum_moves] at copied

/-- A length that is negative is refused. -/
theorem copyin_negative {nbyte : Uint} (negative : 0x40000000 ≤ nbyte.toNat) :
    copyin user uaddr nbyte k = (false, k) := by
  rw [copyin, if_pos negative]
  split_ifs <;> rfl

/-! ## The string -/

/-- The string in the buffer ends at the first terminator. -/
theorem Kstr.text_eq {n m : ℕ} (inside : n < m) (ends : k.bytes n = 0) :
    k.text m = ((List.range n).map fun i : ℕ => k.bytes i).takeWhile (· ≠ 0) := by
  obtain ⟨more, rfl⟩ := Nat.exists_eq_add_of_lt inside
  rw [Kstr.text, Nat.add_assoc, List.range_add, List.map_append, List.range_succ_eq_map,
    List.map_cons, List.map_cons, Nat.add_zero, List.takeWhile_append, ends]
  split_ifs with all
  · rw [List.takeWhile_cons_of_neg (by simp), List.append_nil]
    exact ((List.takeWhile_prefix _).eq_of_length all).symm
  · rfl

/-- The bytes of the user at an address. -/
def Holds (user : User) (ustr : ULong) (string : List UChar) : Prop :=
  ∀ i, (inside : i < string.length) → user (ustr + BitVec.ofNat 32 i) = some string[i]

/-- What a system call may rely on when it has fetched a string into a buffer of `klen` bytes. -/
structure Fetched (user : User) (klen : CInt) (ustr : ULong) (ulen : CInt) (k : Kstr)
    (r : Except Errno Unit × Kstr) : Prop where
  /-- Nothing outside of the buffer changes. -/
  outside : ∀ i : ℤ, ¬(0 ≤ i ∧ i < klen.toInt) → r.2.bytes i = k.bytes i
  /-- There is room for a terminator behind what is copied. -/
  few : r.2.copied ≤ k.copied + (klen.toInt - 1).toNat
  /-- The terminator is in the buffer, and the string of the user in front of it. -/
  whole : r.1 = .ok () → 0 ≤ ulen.toInt ∧ ulen.toInt < klen.toInt ∧ r.2.bytes ulen.toInt = 0 ∧
    ∃ string : List UChar, string.length = ulen.toInt.toNat ∧ Holds user ustr string ∧
      (∀ i, (inside : i < string.length) → r.2.bytes i = string[i]) ∧
      r.2.text klen.toInt.toNat = string.takeWhile (· ≠ 0) ∧ string.takeWhile (· ≠ 0) ≠ []

/-- A call that leaves the memory as it was and fails. -/
theorem Fetched.refused {klen ulen : CInt} {ustr : ULong} {e : Errno} :
    Fetched user klen ustr ulen k (.error e, k) :=
  ⟨fun _ _ => rfl, Nat.le_add_right _ _, nofun⟩

/-- **Fetching a string of a user.** -/
theorem getUstr_fetched (user : User) (klen : CInt) (ustr : ULong) (ulen : CInt) (k : Kstr) :
    Fetched user klen ustr ulen k (getUstr user klen ustr ulen k) := by
  rw [getUstr]
  split_ifs with large
  · exact .refused
  -- A length that the first test lets pass is below the limit, or too large for `copyin`.
  by_cases negative : 0x40000000 ≤ ulen.toNat
  · rw [copyin_negative negative]
    exact .refused
  have small : ulen.toInt = ulen.toNat := by
    rw [BitVec.toInt_eq_toNat_of_lt (by omega)]
  have room : (ulen.toNat : ℤ) < klen.toInt := by
    have next : (ulen + 1).toInt = ulen.toNat + 1 := by
      rw [BitVec.toInt_eq_toNat_of_lt] <;> rw [BitVec.toNat_add_of_lt] <;> simp <;> omega
    have fits : ¬klen.toInt < (ulen + 1).toInt := by
      rwa [← BitVec.slt_iff_toInt_lt]
    omega
  have copied := copyin_copied user ustr ulen k
  generalize copyin user ustr ulen k = r at copied ⊢
  obtain ⟨done, k'⟩ := r
  have outside : ∀ i : ℤ, ¬(0 ≤ i ∧ i < klen.toInt) → k'.bytes i = k.bytes i := by
    intro i out
    refine copied.outside i fun inside => out ⟨inside.1, ?_⟩
    have below : i < 0 + (ulen.toNat : ℤ) := inside.2
    omega
  have few : k'.copied ≤ k.copied + (klen.toInt - 1).toNat := by
    have few : k'.copied ≤ k.copied + ulen.toNat := copied.few
    omega
  have ended : ∀ i : ℤ, ¬(0 ≤ i ∧ i < klen.toInt) →
      (k'.set ulen.toInt 0).bytes i = k.bytes i := by
    intro i out
    have other : i ≠ ulen.toInt := by omega
    exact (Function.update_of_ne other _ _).trans (outside i out)
  cases done with
  | false => exact ⟨outside, few, nofun⟩
  | true =>
      dsimp only
      split_ifs with empty
      · exact ⟨ended, few, nofun⟩
      refine ⟨ended, few, fun _ => ?_⟩
      have terminator : (k'.set ulen.toInt 0).bytes (ulen.toNat : ℤ) = 0 := by
        rw [← small]
        exact Function.update_self ..
      have before : ∀ i < ulen.toNat,
          (k'.set ulen.toInt 0).bytes (i : ℤ) = k'.bytes (i : ℤ) :=
        fun i inside => Function.update_of_ne (by omega) _ _
      have same : (List.range ulen.toNat).map (fun i : ℕ => (k'.set ulen.toInt 0).bytes i) =
          (List.range ulen.toNat).map fun i : ℕ => k'.bytes i :=
        List.map_congr_left fun i inside => before i (List.mem_range.mp inside)
      refine ⟨by omega, by omega, small ▸ terminator,
        (List.range ulen.toNat).map fun i : ℕ => k'.bytes i,
        by rw [List.length_map, List.length_range, small, Int.toNat_natCast], fun i inside => ?_,
        fun i inside => ?_, ?_, ?_⟩
      · rw [List.length_map, List.length_range] at inside
        have there := copied.whole rfl i inside
        simp only [Nat.zero_add] at there
        rw [there, List.getElem_map, List.getElem_range]
      · rw [List.length_map, List.length_range] at inside
        rw [before i inside, List.getElem_map, List.getElem_range]
      · rw [Kstr.text_eq (by omega) terminator, same]
      · rw [Kstr.text_eq (Nat.lt_succ_self _) terminator, same] at empty
        intro none_
        rw [none_] at empty
        exact empty Nat.zero_lt_one

/-- The string that a call of `notify` sends. -/
theorem notify_text {ustr : ULong} {ulen : CInt} {text : List UChar}
    (sent : notify user ustr ulen k = some text) :
    (text ≠ [] ∧ text.length < EVLEN) ∧
      ∃ string : List UChar, string.length = ulen.toInt.toNat ∧ Holds user ustr string ∧
        text = string.takeWhile (· ≠ 0) := by
  have fetched := getUstr_fetched user (BitVec.ofNat 32 EVLEN) ustr ulen k
  rw [notify] at sent
  revert sent fetched
  generalize getUstr user (BitVec.ofNat 32 EVLEN) ustr ulen k = r
  obtain ⟨r, evname⟩ := r
  cases r with
  | error e => exact fun sent => nomatch sent
  | ok _ =>
      intro sent fetched
      obtain ⟨least, room, -, string, size, holds, -, same, some_⟩ := fetched.whole rfl
      have limit : (BitVec.ofNat 32 EVLEN).toInt = 16 := rfl
      rw [limit] at room
      have text_eq : text = string.takeWhile (· ≠ 0) := (Option.some.inj sent).symm.trans same
      refine ⟨⟨text_eq ▸ some_, ?_⟩, string, size, holds, text_eq⟩
      have short := (List.takeWhile_prefix (l := string) fun c : UChar => decide (c ≠ 0)).length_le
      rw [text_eq]
      simp only [EVLEN]
      omega

/-- **A string of a user, and an event.** For every length and every limit the buffer alone
changes, there is room for the terminator, and the call fails or has the string of the user. What
`notify` sends is such a string, and an event. -/
theorem getUstr_sound (user : User) (klen : CInt) (ustr : ULong) (ulen : CInt) (k : Kstr) :
    Fetched user klen ustr ulen k (getUstr user klen ustr ulen k) ∧
      ∀ text, notify user ustr ulen k = some text → (text ≠ [] ∧ text.length < EVLEN) ∧
        ∃ string : List UChar, string.length = ulen.toInt.toNat ∧ Holds user ustr string ∧
          text = string.takeWhile (· ≠ 0) :=
  ⟨getUstr_fetched user klen ustr ulen k, fun _ => notify_text⟩

/-- Three bytes are sent, and none for a length that wraps. -/
example :
    notify (fun _ => some 104#8) 4096#32 3#32 ⟨fun _ => 0, 0⟩ = some [104#8, 104#8, 104#8] ∧
      notify (fun _ => some 104#8) 4096#32 0x7fffffff#32 ⟨fun _ => 0, 0⟩ = none := by
  decide

end Vsta.Events
