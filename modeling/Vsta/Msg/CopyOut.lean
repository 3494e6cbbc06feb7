import Mathlib.Data.List.TakeWhile
import Mathlib.Tactic.SplitIfs
import Vsta.Basic

/-!
# The segments of a message and of its reply

`msg_send` makes segments of the client's buffers unless the message is one that reads,
`msg_receive` overwrites the buffers with where the server sees the segments, `msg_reply` makes
segments of the server's buffers, and `copyoutsegs` copies those to the buffers of the client's
message.

The number of buffers of a message that reads is not looked at by `msg_send`, and `msg_receive`
writes 0 over it, so `copyoutsegs` stops at the end of the reply, at an empty buffer, or behind the
array. `meets_iff` says which messages and replies are safe and have the right bytes copied.
-/

set_option autoImplicit false

namespace Vsta.Scatter

/-- `seg_t`: a buffer. -/
structure Seg where
  sBuf : ULong
  sBuflen : Uint
  deriving DecidableEq, Repr

/-- `struct msg`. -/
structure Msg where
  mOp : ULong
  mArg : ULong
  mSeg : Vector Seg MSGSEGS
  mNseg : ULong
  deriving DecidableEq, Repr

/-- The last of the message types that only the kernel sends. -/
abbrev M_RESVD : ULong := 99#32

/-- Buffer is destination, not source. -/
abbrev M_READ : ULong := 0x80000000#32

/-- Bits used for the message type. -/
abbrev MSG_MASK : ULong := 0xfff#32

/-- How a call fails. `wild` is an access outside the array of segments. -/
inductive Fail where
  | wild | EINVAL | EFAULT
  deriving DecidableEq, Repr

/-- An address space: whether the bytes of a buffer are in one of its views, and the bytes. -/
structure Vas where
  views : Seg → Bool
  bytes : ULong → UChar

namespace Vas

/-- `make_seg` succeeds. -/
def makeSeg (vas : Vas) (s : Seg) : Bool := s.sBuf ≠ 0#32 && s.sBuflen ≠ 0#32 && vas.views s

/-- The bytes of a segment. -/
def contents (vas : Vas) (s : Seg) : List UChar :=
  (List.range s.sBuflen.toNat).map fun i => vas.bytes (s.sBuf + BitVec.ofNat 32 i)

/-- The loop of `m_to_sm` over what is left of the array, with so many segments to make. -/
def makeSegs (vas : Vas) : List Seg → ℕ → Except Fail (List Seg)
  | _, 0 => .ok []
  | [], _ + 1 => .error .wild
  | s :: rest, n + 1 =>
      if vas.makeSeg s then (makeSegs vas rest n).map (s :: ·) else .error .EFAULT

/-- `m_to_sm`. The number of segments has a sign where it is checked, and none in the loop. -/
def mToSm (vas : Vas) (m : Msg) : Except Fail (List Seg) :=
  if (4#32).slt m.mNseg then .error .EINVAL else vas.makeSegs m.mSeg.toList m.mNseg.toNat

end Vas

/-- `msg_send` up to the queue: the segments the server gets. -/
def msgSend (vas : Vas) (m : Msg) : Except Fail (List Seg) :=
  if m.mOp &&& MSG_MASK < M_RESVD then .error .EINVAL
  else if m.mOp &&& M_READ = 0#32 then vas.mToSm m
  else .ok []

/-- The bytes in a page. -/
abbrev NBPG : ULong := 4096#32

/-- Where a segment is seen that is attached at a page: it keeps its offset in the page. -/
def Seg.seenAt (seg : Seg) (page : ULong) : Seg :=
  ⟨page * NBPG + seg.sBuf % NBPG, seg.sBuflen⟩

/-- `sm_to_m` on the client's message: where the server sees the segments. -/
def smToM (sm : List Seg) (page : ℕ → ULong) (m : Msg) : Msg :=
  { m with
    mNseg := BitVec.ofNat 32 sm.length
    mSeg := m.mSeg.mapIdx fun x s => (sm[x]?).elim s fun seg => seg.seenAt (page x) }

/-- The addresses of a buffer. -/
def Seg.addresses (s : Seg) : List ULong :=
  (List.range s.sBuflen.toNat).map fun i => s.sBuf + BitVec.ofNat 32 i

/-- The bytes that are copied, each with its place. `uucopy` of a number of bytes to an address may
fail. -/
abbrev Copied := List (ULong × UChar)

/-- What is left of a reply: the rest of its current segment, the segments behind it, and the index
of `sm_pp`. -/
structure Cursor where
  sm : List UChar
  rest : List (List UChar)
  pp : ℕ

/-- The bytes that are left. -/
def Cursor.left (c : Cursor) : List UChar := c.sm ++ c.rest.flatten

/-- Advance the sysmsg by `cnt` bytes. The next segment is fetched before the number of segments is
looked at; `none` is the end. -/
def Cursor.advance (c : Cursor) (cnt : ℕ) : Except Fail (Option Cursor) :=
  if c.sm.length = cnt then
    if MSGSEGS ≤ c.pp then .error .wild
    else
      match c.rest with
      | [] => .ok none
      | sm :: rest => .ok (some ⟨sm, rest, c.pp + 1⟩)
  else .ok (some { c with sm := c.sm.drop cnt })

theorem Cursor.left_advance {c c' : Cursor} {cnt : ℕ}
    (on : c.advance cnt = .ok (some c')) (inside : cnt ≤ c.sm.length) :
    c'.left = c.left.drop cnt := by
  rw [Cursor.advance] at on
  by_cases ends : c.sm.length = cnt
  · rw [if_pos ends] at on
    split_ifs at on
    cases behind : c.rest with
    | nil =>
        rw [behind] at on
        exact absurd (Except.ok.inj on) nofun
    | cons sm rest =>
        rw [behind] at on
        obtain rfl := Option.some.inj (Except.ok.inj on)
        rw [left, left, behind, ← ends, List.drop_left]
        rfl
  · rw [if_neg ends] at on
    obtain rfl := Option.some.inj (Except.ok.inj on)
    rw [left, left, List.drop_append_of_le_length inside]

/-- The loop of `copyoutsegs`, with what is left of the client's array, and `nm_segs`. -/
def copyLoop (uucopy : ULong → ℕ → Bool) (c : Cursor) (m : List Seg) (nm : ℤ) :
    Except Fail Copied :=
  match m with
  | [] => .error .wild
  | s :: ms =>
      let cnt := min c.sm.length s.sBuflen.toNat
      if _moves : cnt = 0 then .ok []
      else if !uucopy s.sBuf cnt then .error .EFAULT
      else
        let moved := (s.addresses.take cnt).zip c.sm
        match _on : c.advance cnt with
        | .error e => .error e
        | .ok none => .ok moved
        | .ok (some c') =>
            if s.sBuflen.toNat = cnt then
              if nm - 1 = 0 then .ok moved
              else (copyLoop uucopy c' ms (nm - 1)).map (moved ++ ·)
            else
              (copyLoop uucopy c'
                (⟨s.sBuf + BitVec.ofNat 32 cnt, s.sBuflen - BitVec.ofNat 32 cnt⟩ :: ms) nm).map
                  (moved ++ ·)
termination_by c.left.length
decreasing_by
  all_goals
    have fewer := congrArg List.length (c.left_advance _on (Nat.min_le_left _ _))
    rw [List.length_drop] at fewer
    have some_ : 0 < c.left.length := by
      rw [Cursor.left, List.length_append]
      omega
    omega

/-- `copyoutsegs`: the segments of the reply are copied to the buffers of the client's message. -/
def copyoutsegs (uucopy : ULong → ℕ → Bool) (m : Msg) : List (List UChar) → Except Fail Copied
  | [] => .ok []
  | sm :: rest => copyLoop uucopy ⟨sm, rest, 1⟩ m.mSeg.toList m.mNseg.toInt

/-! ## Making segments -/

section MakeSegs

variable {vas : Vas} {m : Msg} {segs : List Seg}

/-- The loop runs over the end of the array when all of it can be made segments of. -/
theorem makeSegs_wild (l : List Seg) (n : ℕ) :
    vas.makeSegs l n = .error .wild ↔ l.length < n ∧ ∀ s ∈ l, vas.makeSeg s = true := by
  induction l generalizing n with
  | nil => cases n <;> simp [Vas.makeSegs]
  | cons s rest ih =>
      cases n with
      | zero => simp [Vas.makeSegs]
      | succ n =>
          rw [Vas.makeSegs, List.forall_mem_cons, List.length_cons, Nat.succ_lt_succ_iff]
          by_cases made : vas.makeSeg s = true
          · rw [if_pos made]
            have same : (vas.makeSegs rest n).map (s :: ·) = .error .wild ↔
                vas.makeSegs rest n = .error .wild := by
              cases vas.makeSegs rest n <;> simp [Except.map]
            rw [same, ih]
            simp [made]
          · rw [if_neg made]
            exact ⟨nofun, fun all => absurd all.2.1 made⟩

theorem makeSegs_zero (l : List Seg) : vas.makeSegs l 0 = .ok segs ↔
    0 ≤ l.length ∧ (∀ s ∈ l.take 0, vas.makeSeg s = true) ∧ segs = l.take 0 := by
  rw [Vas.makeSegs.eq_def]
  constructor
  · intro ok
    exact ⟨Nat.zero_le _, nofun, (Except.ok.inj ok).symm⟩
  · rintro ⟨-, -, rfl⟩
    rfl

/-- As many segments as are asked for, each of which can be made. -/
theorem makeSegs_ok (l : List Seg) (n : ℕ) :
    vas.makeSegs l n = .ok segs ↔
      n ≤ l.length ∧ (∀ s ∈ l.take n, vas.makeSeg s = true) ∧ segs = l.take n := by
  induction l generalizing n segs with
  | nil =>
      cases n with
      | zero => exact makeSegs_zero []
      | succ n => simp [Vas.makeSegs]
  | cons s rest ih =>
      cases n with
      | zero => exact makeSegs_zero _
      | succ n =>
          rw [Vas.makeSegs, List.take_succ_cons, List.forall_mem_cons, List.length_cons,
            Nat.succ_le_succ_iff]
          by_cases made : vas.makeSeg s = true
          · rw [if_pos made]
            constructor
            · intro ok
              cases others : vas.makeSegs rest n with
              | error e =>
                  rw [others] at ok
                  exact absurd ok nofun
              | ok tail =>
                  rw [others] at ok
                  obtain ⟨few, all, rfl⟩ := (ih n).mp others
                  exact ⟨few, ⟨made, all⟩, (Except.ok.inj ok).symm⟩
            · rintro ⟨few, ⟨-, all⟩, rfl⟩
              rw [(ih n).mpr ⟨few, all, rfl⟩]
              rfl
          · rw [if_neg made]
            exact ⟨nofun, fun all => absurd all.2.1.1 made⟩

/-- The number of segments is negative, and all of the array can be made segments of. -/
def Overruns (vas : Vas) (m : Msg) : Prop :=
  m.mNseg.toInt < 0 ∧ ∀ s ∈ m.mSeg.toList, vas.makeSeg s = true

/-- The number of segments is one of 0 to `MSGSEGS`, and so many can be made. -/
def Makes (vas : Vas) (m : Msg) : Prop :=
  0 ≤ m.mNseg.toInt ∧ m.mNseg.toInt ≤ MSGSEGS ∧
    ∀ s ∈ m.mSeg.toList.take m.mNseg.toInt.toNat, vas.makeSeg s = true

/-- The buffers of a message. -/
def Msg.buffers (m : Msg) : List Seg := m.mSeg.toList.take m.mNseg.toInt.toNat

theorem toNat_of_small (small : ¬(4#32).slt m.mNseg = true) :
    m.mNseg.toInt ≤ 4 ∧ (m.mNseg.toInt < 0 ∧ 4 < m.mNseg.toNat ∨
      0 ≤ m.mNseg.toInt ∧ m.mNseg.toNat = m.mNseg.toInt.toNat ∧ m.mNseg.toNat ≤ 4) := by
  have less : ¬(4#32).toInt < m.mNseg.toInt := fun more => small (BitVec.slt_iff_toInt_lt.mpr more)
  have four : (4#32).toInt = 4 := by decide
  have value := BitVec.toInt_eq_toNat_cond m.mNseg
  have below := m.mNseg.isLt
  rw [four] at less
  split_ifs at value with low
  · omega
  · omega

theorem mToSm_wild : vas.mToSm m = .error .wild ↔ Overruns vas m := by
  rw [Vas.mToSm, Overruns]
  by_cases large : (4#32).slt m.mNseg = true
  · rw [if_pos large]
    have more := BitVec.slt_iff_toInt_lt.mp large
    have four : (4#32).toInt = 4 := by decide
    have limit : MSGSEGS = 4 := rfl
    exact ⟨nofun, fun both => by omega⟩
  · rw [if_neg large, makeSegs_wild, Vector.length_toList]
    have limit : MSGSEGS = 4 := rfl
    obtain ⟨-, ⟨negative, many⟩ | ⟨sign, same, few⟩⟩ := toNat_of_small large
    · exact ⟨fun both => ⟨negative, both.2⟩, fun both => ⟨many, both.2⟩⟩
    · exact ⟨fun both => by omega, fun both => by omega⟩

theorem mToSm_ok : vas.mToSm m = .ok segs ↔ Makes vas m ∧ segs = m.buffers := by
  rw [Vas.mToSm, Makes, Msg.buffers]
  by_cases large : (4#32).slt m.mNseg = true
  · rw [if_pos large]
    have more := BitVec.slt_iff_toInt_lt.mp large
    have four : (4#32).toInt = 4 := by decide
    have limit : MSGSEGS = 4 := rfl
    exact ⟨nofun, fun both => by omega⟩
  · rw [if_neg large, makeSegs_ok, Vector.length_toList]
    have limit : MSGSEGS = 4 := rfl
    obtain ⟨most, ⟨negative, many⟩ | ⟨sign, same, few⟩⟩ := toNat_of_small large
    · exact ⟨fun both => by omega, fun both => by omega⟩
    · rw [same]
      exact ⟨fun all => ⟨⟨sign, most, all.2.1⟩, all.2.2⟩, fun all => ⟨by omega, all.1.2.2, all.2⟩⟩

end MakeSegs

/-! ## The copy -/

/-- The addresses a copy that does not look at the number of buffers can reach: those before an
empty buffer. -/
def reach (m : List Seg) : List ULong :=
  (m.takeWhile fun s => s.sBuflen ≠ 0#32).flatMap Seg.addresses

/-- What remains of a buffer when `cnt` bytes are copied to it. -/
def Seg.remaining (s : Seg) (cnt : ℕ) : List Seg :=
  if s.sBuflen.toNat = cnt then []
  else [⟨s.sBuf + BitVec.ofNat 32 cnt, s.sBuflen - BitVec.ofNat 32 cnt⟩]

section Copy

variable {uucopy : ULong → ℕ → Bool} {c c' : Cursor} {s : Seg} {ms : List Seg} {nm : ℤ} {cnt : ℕ}

theorem Seg.length_addresses (s : Seg) : s.addresses.length = s.sBuflen.toNat := by
  simp [Seg.addresses]

/-- The addresses of a buffer are those that were copied to and those that remain. -/
theorem Seg.addresses_remaining (inside : cnt ≤ s.sBuflen.toNat) :
    s.addresses = s.addresses.take cnt ++ (s.remaining cnt).flatMap Seg.addresses := by
  by_cases all : s.sBuflen.toNat = cnt
  · rw [remaining, if_pos all, List.flatMap_nil, List.append_nil, ← all, ← s.length_addresses,
      List.take_length]
  · have small := s.sBuflen.isLt
    have count : (BitVec.ofNat 32 cnt).toNat = cnt := by
      rw [BitVec.toNat_ofNat]
      omega
    have rest : (s.sBuflen - BitVec.ofNat 32 cnt).toNat = s.sBuflen.toNat - cnt := by
      rw [BitVec.toNat_sub_of_le (BitVec.le_def.mpr (by omega)), count]
    have dropped : s.addresses.drop cnt = (s.remaining cnt).flatMap Seg.addresses := by
      rw [remaining, if_neg all, List.flatMap_singleton, addresses, addresses, rest,
        ← List.map_drop, List.range_eq_range', List.range_eq_range', List.drop_range', Nat.zero_add,
        Nat.mul_one, ← Nat.add_zero cnt, ← List.map_add_range', List.map_map]
      refine List.map_congr_left fun i _ => ?_
      simp [BitVec.ofNat_add, BitVec.add_assoc]
    rw [← dropped, List.take_append_drop]

theorem reach_cons (some_ : s.sBuflen ≠ 0#32) : reach (s :: ms) = s.addresses ++ reach ms := by
  simp [reach, some_]

theorem reach_empty (none_ : s.sBuflen = 0#32) : reach (s :: ms) = [] := by
  simp [reach, none_]

theorem remaining_some (inside : cnt ≤ s.sBuflen.toNat) :
    ∀ t ∈ s.remaining cnt, t.sBuflen ≠ 0#32 := by
  intro t member
  rw [Seg.remaining] at member
  split_ifs at member with all
  · cases member
  · obtain rfl := List.mem_singleton.mp member
    intro zero
    have small := s.sBuflen.isLt
    have rest := congrArg BitVec.toNat zero
    rw [BitVec.toNat_sub_of_le (BitVec.le_def.mpr (by rw [BitVec.toNat_ofNat]; omega)),
      BitVec.toNat_ofNat, BitVec.toNat_ofNat] at rest
    omega

/-- What can be reached from a buffer that is not empty, when `cnt` bytes of it are full. -/
theorem reach_remaining (some_ : s.sBuflen ≠ 0#32) (inside : cnt ≤ s.sBuflen.toNat) :
    reach (s :: ms) = s.addresses.take cnt ++ reach (s.remaining cnt ++ ms) := by
  have through : reach (s.remaining cnt ++ ms) =
      (s.remaining cnt).flatMap Seg.addresses ++ reach ms := by
    rw [Seg.remaining]
    split_ifs with all
    · rfl
    · have some' := remaining_some (s := s) inside
      rw [Seg.remaining, if_neg all] at some'
      rw [List.singleton_append, reach_cons (some' _ List.mem_cons_self), List.flatMap_singleton]
  rw [reach_cons some_, through, ← List.append_assoc, ← s.addresses_remaining inside]

variable (uucopy ms) in
/-- One round of the loop, while `nm_segs` is not positive. -/
theorem copyLoop_cons (nonpos : nm ≤ 0) (some_ : s.sBuflen ≠ 0#32) (bytes : c.sm ≠ []) :
    ∃ nm' ≤ 0, ∃ cnt, 0 < cnt ∧ cnt = min c.sm.length s.sBuflen.toNat ∧
      copyLoop uucopy c (s :: ms) nm =
        if uucopy s.sBuf cnt = true then
          match c.advance cnt with
          | .error e => .error e
          | .ok none => .ok ((s.addresses.take cnt).zip c.sm)
          | .ok (some c') => (copyLoop uucopy c' (s.remaining cnt ++ ms) nm').map
              ((s.addresses.take cnt).zip c.sm ++ ·)
        else .error .EFAULT := by
  have len : 0 < s.sBuflen.toNat :=
    Nat.pos_of_ne_zero fun zero => some_ (BitVec.eq_of_toNat_eq zero)
  have long := List.length_pos_iff.mpr bytes
  refine ⟨if s.sBuflen.toNat = min c.sm.length s.sBuflen.toNat then nm - 1 else nm, ?_,
    _, by omega, rfl, ?_⟩
  · split_ifs <;> omega
  · rw [copyLoop, dif_neg (by omega)]
    by_cases fails : uucopy s.sBuf (min c.sm.length s.sBuflen.toNat) = true
    · rw [if_pos fails, if_neg (by simp [fails])]
      split
      · next on => rw [on]
      · next on => rw [on]
      · next on =>
          rw [on, Seg.remaining]
          dsimp only
          split_ifs with all last
          · omega
          · rfl
          · rfl
    · rw [if_neg fails, if_pos (by simpa using fails)]

/-- A cursor over a reply of at most `MSGSEGS` segments, none of them empty. -/
structure Cursor.Inside (c : Cursor) : Prop where
  bytes : c.sm ≠ []
  others : ∀ l ∈ c.rest, l ≠ []
  few : c.pp + c.rest.length ≤ MSGSEGS

/-- The reply ends, or the cursor moves on inside it. -/
theorem Cursor.Inside.advance (within : c.Inside) (inside : cnt ≤ c.sm.length) :
    (c.rest = [] ∧ c.sm.length = cnt ∧
        c.advance cnt = if c.pp + c.rest.length = MSGSEGS then .error .wild else .ok none) ∨
      ∃ c', c.advance cnt = .ok (some c') ∧ c'.Inside ∧
        c'.pp + c'.rest.length = c.pp + c.rest.length := by
  have few := within.few
  rw [Cursor.advance]
  by_cases ends : c.sm.length = cnt
  · rw [if_pos ends]
    cases behind : c.rest with
    | nil =>
        rw [behind] at few
        refine .inl ⟨rfl, ends, ?_⟩
        simp only [List.length_nil, Nat.add_zero] at few ⊢
        have same : MSGSEGS ≤ c.pp ↔ c.pp = MSGSEGS := by omega
        simp only [same]
    | cons sm rest =>
        rw [behind, List.length_cons] at few
        have others := within.others
        rw [behind, List.forall_mem_cons] at others
        rw [if_neg (by omega)]
        refine .inr ⟨_, rfl, ⟨others.1, others.2, by dsimp only; omega⟩, ?_⟩
        rw [List.length_cons]
        dsimp only
        omega
  · rw [if_neg ends]
    refine .inr ⟨_, rfl, ⟨?_, within.others, few⟩, rfl⟩
    intro none_
    have length := congrArg List.length none_
    rw [List.length_drop, List.length_nil] at length
    omega

/-- Only as much of a list is zipped as the other has. -/
theorem zip_front {α β : Type} {l rest : List α} {b : List β} (short : b.length ≤ l.length) :
    (l ++ rest).zip b = l.zip b := by
  rw [List.zip_eq_zip_take_min, @List.zip_eq_zip_take_min _ _ l b, List.length_append,
    Nat.min_eq_right (by omega), Nat.min_eq_right short, List.take_append_of_le_length short]

/-- What the copy of a reply comes to. -/
def outcome (c : Cursor) (m : List Seg) : Except Fail Copied :=
  if c.left.length ≤ (reach m).length then
    if c.pp + c.rest.length = MSGSEGS then .error .wild else .ok ((reach m).zip c.left)
  else if ∀ s ∈ m, s.sBuflen ≠ 0#32 then .error .wild
  else .ok ((reach m).zip c.left)

/-- **The copy, while `nm_segs` is not positive.** It comes to that, unless a `uucopy` fails. -/
theorem copyLoop_spec {m : List Seg} (nonpos : nm ≤ 0) (within : c.Inside) :
    copyLoop uucopy c m nm = outcome c m ∨
      copyLoop uucopy c m nm = .error .EFAULT ∧ ∃ at_ n, uucopy at_ n = false := by
  induction bytes : c.left.length using Nat.strong_induction_on generalizing c m nm with
  | _ n ih =>
      subst bytes
      have long := List.length_pos_iff.mpr within.bytes
      have some_ : 0 < c.left.length := by
        rw [Cursor.left, List.length_append]
        omega
      cases m with
      | nil =>
          have none_ : reach [] = [] := rfl
          left
          rw [copyLoop, outcome, none_, List.length_nil,
            if_neg (Nat.not_le.mpr some_), if_pos nofun]
      | cons s ms =>
          by_cases empty : s.sBuflen = 0#32
          · have stops : min c.sm.length s.sBuflen.toNat = 0 := by
              rw [empty]
              exact Nat.min_zero _
            left
            rw [copyLoop, dif_pos stops, outcome, reach_empty empty, List.length_nil,
              if_neg (Nat.not_le.mpr some_), if_neg fun all => all s List.mem_cons_self empty]
            rfl
          · obtain ⟨nm', nonpos', cnt, pos, least, round⟩ :=
              copyLoop_cons uucopy ms nonpos empty within.bytes
            have inside : cnt ≤ c.sm.length := by omega
            have room : cnt ≤ s.sBuflen.toNat := by omega
            have front : (s.addresses.take cnt).length = cnt := by
              rw [List.length_take, s.length_addresses]
              omega
            rw [round]
            by_cases works : uucopy s.sBuf cnt = true
            swap
            · rw [if_neg works]
              exact .inr ⟨rfl, _, _, by simpa using works⟩
            rw [if_pos works]
            rcases within.advance inside with ⟨last, ends, on⟩ | ⟨c', on, within', index⟩
            · -- the reply ends in this buffer
              have whole : c.left = c.sm := by
                rw [Cursor.left, last, List.flatten_nil, List.append_nil]
              have reached : c.left.length ≤ (reach (s :: ms)).length := by
                rw [whole, reach_cons empty, List.length_append, s.length_addresses]
                omega
              left
              rw [on, outcome, if_pos reached, whole, reach_remaining empty room]
              split_ifs
              · rfl
              · dsimp only
                rw [zip_front (by omega)]
            · -- the rest of the reply goes to the rest of the buffers
              have left := c.left_advance on inside
              have fewer := congrArg List.length left
              rw [List.length_drop] at fewer
              have whole : cnt ≤ c.left.length := by
                rw [Cursor.left, List.length_append]
                omega
              have moved : (s.addresses.take cnt).zip c.sm =
                  (s.addresses.take cnt).zip (c.left.take cnt) := by
                rw [List.zip_eq_zip_take_min, front, Nat.min_eq_left inside, List.take_take,
                  Nat.min_self, Cursor.left, List.take_append_of_le_length inside]
              have copied : (s.addresses.take cnt).zip c.sm ++
                  (reach (s.remaining cnt ++ ms)).zip c'.left = (reach (s :: ms)).zip c.left := by
                rw [moved, left, reach_remaining empty room,
                  ← List.zip_append (by rw [front, List.length_take]; omega),
                  List.take_append_drop]
              have reached : c'.left.length ≤ (reach (s.remaining cnt ++ ms)).length ↔
                  c.left.length ≤ (reach (s :: ms)).length := by
                rw [reach_remaining empty room, List.length_append, front]
                omega
              have full : (∀ t ∈ s.remaining cnt ++ ms, t.sBuflen ≠ 0#32) ↔
                  ∀ t ∈ s :: ms, t.sBuflen ≠ 0#32 := by
                rw [List.forall_mem_append, List.forall_mem_cons]
                exact and_congr_left fun _ =>
                  ⟨fun _ => empty, fun _ => remaining_some room⟩
              rw [on]
              dsimp only
              rcases ih c'.left.length (by omega) nonpos' within' rfl with same | ⟨fails, here⟩
              swap
              · rw [fails]
                exact .inr ⟨rfl, here⟩
              left
              rw [same, outcome, outcome, index]
              simp only [reached, full]
              split_ifs
              · rfl
              · exact congrArg Except.ok copied
              · rfl
              · exact congrArg Except.ok copied

theorem Cursor.advance_error {e : Fail} (on : c.advance cnt = .error e) : e = .wild := by
  rw [Cursor.advance] at on
  split_ifs at on
  · exact (Except.error.inj on).symm
  · split at on <;> exact absurd on nofun

theorem Except.map_wild_or_ok {α : Type} {f : α → α} {r : Except Fail α}
    (total : r = .error .wild ∨ ∃ w, r = .ok w) :
    r.map f = .error .wild ∨ ∃ w, r.map f = .ok w := by
  rcases total with rfl | ⟨w, rfl⟩
  · exact .inl rfl
  · exact .inr ⟨f w, rfl⟩

/-- Without failures of `uucopy` a copy ends, inside the arrays or outside. -/
theorem copyLoop_total (c : Cursor) (m : List Seg) (nm : ℤ) :
    copyLoop (fun _ _ => true) c m nm = .error .wild ∨
      ∃ w, copyLoop (fun _ _ => true) c m nm = .ok w := by
  fun_induction copyLoop (fun _ _ => true) c m nm with
  | case1 c nm => exact .inl rfl
  | case2 c nm s ms cnt none_ => exact .inr ⟨_, rfl⟩
  | case3 c nm s ms cnt some_ fails => exact absurd fails nofun
  | case4 c nm s ms cnt some_ works e on => exact .inl (congrArg _ (Cursor.advance_error on))
  | case5 c nm s ms cnt some_ works moved on => exact .inr ⟨_, rfl⟩
  | case6 c nm s ms cnt some_ works moved c' on all last => exact .inr ⟨_, rfl⟩
  | case7 c nm s ms cnt some_ works moved c' on all last ih => exact Except.map_wild_or_ok ih
  | case8 c nm s ms cnt some_ works moved c' on part ih => exact Except.map_wild_or_ok ih

/-- A copy begins with the first address of the first buffer. -/
theorem copyLoop_head {w : Copied} (some_ : s.sBuflen ≠ 0#32) (bytes : c.sm ≠ [])
    (ok : copyLoop uucopy c (s :: ms) nm = .ok w) : ∃ b w', w = (s.sBuf, b) :: w' := by
  obtain ⟨b, rest, filled⟩ := List.exists_cons_of_ne_nil bytes
  have len : 0 < s.sBuflen.toNat :=
    Nat.pos_of_ne_zero fun zero => some_ (BitVec.eq_of_toNat_eq zero)
  have long := List.length_pos_iff.mpr bytes
  obtain ⟨k, count⟩ : ∃ k, min c.sm.length s.sBuflen.toNat = k + 1 :=
    ⟨_, (Nat.succ_pred_eq_of_pos (by omega)).symm⟩
  obtain ⟨l, length⟩ : ∃ l, s.sBuflen.toNat = l + 1 :=
    ⟨_, (Nat.succ_pred_eq_of_pos len).symm⟩
  have first : ∃ w', (s.addresses.take (k + 1)).zip c.sm = (s.sBuf, b) :: w' := by
    rw [Seg.addresses, length, List.range_succ_eq_map, List.map_cons, List.take_succ_cons, filled,
      List.zip_cons_cons]
    exact ⟨_, congrArg (· :: _) (congrArg (·, b) (BitVec.add_zero _))⟩
  obtain ⟨w', moved⟩ := first
  have onwards : ∀ {r : Except Fail Copied},
      r.map ((s.addresses.take (k + 1)).zip c.sm ++ ·) = .ok w → ∃ b w', w = (s.sBuf, b) :: w' := by
    intro r ok
    cases r with
    | error e => exact absurd ok nofun
    | ok tail =>
        obtain rfl := Except.ok.inj ok
        rw [moved]
        exact ⟨b, _, rfl⟩
  rw [copyLoop, dif_neg (by omega), count] at ok
  by_cases fails : (!uucopy s.sBuf (k + 1)) = true
  · rw [if_pos fails] at ok
    exact absurd ok nofun
  rw [if_neg fails] at ok
  dsimp only at ok
  split at ok
  · exact absurd ok nofun
  · exact ⟨b, w', (Except.ok.inj ok).symm.trans moved⟩
  · split_ifs at ok
    · exact ⟨b, w', (Except.ok.inj ok).symm.trans moved⟩
    · exact onwards ok
    · exact onwards ok

end Copy

/-! ## A message and its reply -/

/-- The type of the message is one that only the kernel sends. -/
def Msg.reserved (m : Msg) : Prop := m.mOp &&& MSG_MASK < M_RESVD

/-- The buffers are for the reply. -/
def Msg.reads (m : Msg) : Prop := m.mOp &&& M_READ ≠ 0#32

section Send

variable {vas : Vas} {m : Msg} {sm : List Seg}

theorem msgSend_wild :
    msgSend vas m = .error .wild ↔ ¬m.reserved ∧ ¬m.reads ∧ Overruns vas m := by
  rw [msgSend, Msg.reserved, Msg.reads, not_not]
  split_ifs with reserved writes
  · exact ⟨nofun, fun all => absurd reserved all.1⟩
  · rw [mToSm_wild]
    exact ⟨fun over_ => ⟨reserved, writes, over_⟩, fun all => all.2.2⟩
  · exact ⟨nofun, fun all => absurd all.2.1 writes⟩

theorem msgSend_ok : msgSend vas m = .ok sm ↔
    ¬m.reserved ∧ (m.reads ∧ sm = [] ∨ ¬m.reads ∧ Makes vas m ∧ sm = m.buffers) := by
  rw [msgSend, Msg.reserved, Msg.reads, not_not]
  split_ifs with reserved writes
  · exact ⟨nofun, fun all => absurd reserved all.1⟩
  · rw [mToSm_ok]
    exact ⟨fun made => ⟨reserved, .inr ⟨writes, made⟩⟩,
      fun all => (all.2.resolve_left fun reads => reads.1 writes).2⟩
  · constructor
    · intro ok
      exact ⟨reserved, .inl ⟨writes, (Except.ok.inj ok).symm⟩⟩
    · rintro ⟨-, ⟨-, rfl⟩ | ⟨is, -⟩⟩
      · rfl
      · exact absurd is writes

end Send

/-- The reply is no error, and has segments: they are copied. -/
def Msg.copies (r : Msg) (segs : List Seg) : Prop := r.mArg ≠ 0xffffffff#32 ∧ segs ≠ []

/-- As much of a reply as there is room for, in order. -/
def expected (m : Msg) (reply : List (List UChar)) : Copied :=
  (m.buffers.flatMap Seg.addresses).zip reply.flatten

/-- What is wanted of a message and a reply to it: no array of segments is overrun, and wherever the
server has seen the segments, a copy that is done is that of the bytes of the reply. -/
def Meets (vas server : Vas) (m r : Msg) : Prop :=
  msgSend vas m ≠ .error .wild ∧
    ∀ sm, msgSend vas m = .ok sm →
      server.mToSm r ≠ .error .wild ∧
        ∀ segs, server.mToSm r = .ok segs → r.copies segs → ∀ page uucopy,
          copyoutsegs uucopy (smToM sm page m) (segs.map server.contents) ≠ .error .wild ∧
            ∀ w, copyoutsegs uucopy (smToM sm page m) (segs.map server.contents) = .ok w →
              w = expected m (segs.map server.contents)

/-- A reply that is shorter than the buffers that can be reached does not use all of the segments, a
longer one meets an empty buffer, and as many bytes of it can be placed as have a place. -/
structure Fits (m : Msg) (reply : List (List UChar)) : Prop where
  short : reply.flatten.length ≤ (reach m.mSeg.toList).length → reply.length ≠ MSGSEGS
  long : (reach m.mSeg.toList).length < reply.flatten.length →
    ∃ s ∈ m.mSeg.toList, s.sBuflen = 0#32
  same : min reply.flatten.length (reach m.mSeg.toList).length =
    min reply.flatten.length (m.buffers.flatMap Seg.addresses).length

/-- The number of segments of a message is not negative, and a reply with segments is to a message
that reads or has no buffers, and fits. -/
def Suits (vas server : Vas) (m r : Msg) : Prop :=
  (m.reserved ∨ m.reads ∨ ¬Overruns vas m) ∧
    (¬m.reserved → m.reads ∨ Makes vas m →
      ¬Overruns server r ∧ (Makes server r → r.copies r.buffers →
        (m.reads ∨ m.buffers = []) ∧ Fits m (r.buffers.map server.contents)))

section Meets

variable {vas server : Vas} {m r : Msg} {sm : List Seg} {reply : List (List UChar)}

/-- Two fronts of one list are zipped alike when as much of them is used. -/
theorem zip_cut {α β : Type} {p q l : List α} {b : List β} (hp : p <+: l) (hq : q <+: l) :
    p.zip b = q.zip b ↔ min b.length p.length = min b.length q.length := by
  constructor
  · intro same
    have length := congrArg List.length same
    rw [List.length_zip, List.length_zip] at length
    omega
  · intro same
    have front : ∀ {p : List α}, p <+: l →
        p.zip b = (l.take (min b.length p.length)).zip (b.take (min b.length p.length)) := by
      rintro p ⟨rest, rfl⟩
      rw [List.zip_eq_zip_take_min, Nat.min_comm p.length,
        List.take_append_of_le_length (Nat.min_le_right _ _)]
    rw [front hp, front hq, same]

theorem reach_cut (l : List Seg) : reach l <+: l.flatMap Seg.addresses := by
  exact (List.takeWhile_prefix _).flatMap _

theorem buffers_cut (m : Msg) :
    m.buffers.flatMap Seg.addresses <+: m.mSeg.toList.flatMap Seg.addresses :=
  (List.take_prefix _ _).flatMap _

/-- The copy of a reply comes to what is wanted exactly when the reply fits. -/
theorem outcome_iff (bytes : List UChar) (rest : List (List UChar)) :
    (outcome ⟨bytes, rest, 1⟩ m.mSeg.toList ≠ .error .wild ∧
        ∀ w, outcome ⟨bytes, rest, 1⟩ m.mSeg.toList = .ok w → w = expected m (bytes :: rest)) ↔
      Fits m (bytes :: rest) := by
  have same := @zip_cut _ _ _ _ _ (bytes :: rest).flatten (reach_cut m.mSeg.toList)
    (buffers_cut m)
  have index : 1 + rest.length = (bytes :: rest).length := Nat.add_comm _ _
  have left : Cursor.left ⟨bytes, rest, 1⟩ = (bytes :: rest).flatten := rfl
  have copied : ∀ {w : Copied}, ((.ok w : Except Fail Copied) ≠ .error .wild ∧
      ∀ w', (.ok w : Except Fail Copied) = .ok w' → w' = expected m (bytes :: rest)) ↔
        w = expected m (bytes :: rest) :=
    ⟨fun both => both.2 _ rfl, fun right => ⟨nofun, fun w' is => Except.ok.inj is ▸ right⟩⟩
  rw [outcome, left]
  by_cases short : (bytes :: rest).flatten.length ≤ (reach m.mSeg.toList).length
  · rw [if_pos short]
    by_cases last : (bytes :: rest).length = MSGSEGS
    · rw [if_pos (index.trans last)]
      exact ⟨fun both => absurd rfl both.1, fun fits => absurd last (fits.short short)⟩
    · rw [if_neg fun is => last (index.symm.trans is), copied, expected, same]
      exact ⟨fun same => ⟨fun _ => last, fun long => absurd short (Nat.not_le.mpr long), same⟩,
        fun fits => fits.same⟩
  · rw [if_neg short]
    by_cases full : ∀ s ∈ m.mSeg.toList, s.sBuflen ≠ 0#32
    · rw [if_pos full]
      refine ⟨fun both => absurd rfl both.1, fun fits => ?_⟩
      obtain ⟨s, member, empty⟩ := fits.long (Nat.not_le.mp short)
      exact absurd empty (full s member)
    · rw [if_neg full, copied, expected, same]
      push Not at full
      exact ⟨fun same => ⟨fun is => absurd is short, fun _ => full, same⟩, fun fits => fits.same⟩

/-- A message without segments keeps its buffers, and loses their number. -/
theorem smToM_nil (page : ℕ → ULong) : smToM [] page m = { m with mNseg := 0#32 } := by
  rw [smToM]
  congr
  ext i h
  simp

theorem contents_ne_nil {vas : Vas} {s : Seg} (made : vas.makeSeg s = true) :
    vas.contents s ≠ [] := by
  intro none_
  have length := congrArg List.length none_
  rw [Vas.contents, List.length_map, List.length_range, List.length_nil] at length
  rw [Vas.makeSeg, Bool.and_eq_true, Bool.and_eq_true] at made
  exact absurd (BitVec.eq_of_toNat_eq length) (by simpa using made.1.2)

variable (m) in
/-- The copy for a message whose segments the server has not got. -/
theorem copyoutsegs_nil (uucopy : ULong → ℕ → Bool) (page : ℕ → ULong) {segs : List Seg}
    (some_ : segs ≠ []) (few : segs.length ≤ MSGSEGS) (made : ∀ s ∈ segs, vas.makeSeg s = true) :
    ∃ bytes rest, segs.map vas.contents = bytes :: rest ∧
      (copyoutsegs uucopy (smToM [] page m) (segs.map vas.contents) =
          outcome ⟨bytes, rest, 1⟩ m.mSeg.toList ∨
        copyoutsegs uucopy (smToM [] page m) (segs.map vas.contents) = .error .EFAULT ∧
          ∃ at_ n, uucopy at_ n = false) := by
  obtain ⟨s, others, rfl⟩ := List.exists_cons_of_ne_nil some_
  rw [List.forall_mem_cons] at made
  refine ⟨_, _, List.map_cons, ?_⟩
  rw [List.map_cons, copyoutsegs, smToM_nil]
  refine copyLoop_spec (le_refl 0) ⟨contents_ne_nil made.1, ?_, ?_⟩
  · intro l member
    obtain ⟨t, inside, rfl⟩ := List.mem_map.mp member
    exact contents_ne_nil (made.2 t inside)
  · rw [List.length_map, Nat.add_comm]
    exact few

/-- At one of two pages a segment is not seen where it is for the client. -/
theorem seenAt_ne (s : Seg) : ∃ page, (s.seenAt page).sBuf ≠ s.sBuf := by
  by_contra all
  push Not at all
  have same := (all 1#32).trans (all 2#32).symm
  exact absurd ((BitVec.add_left_inj _).mp same) (by decide)

theorem smToM_seg {s : Seg} {rest : List Seg} (others : List Seg) (page : ℕ → ULong)
    (first : m.mSeg.toList = s :: rest) :
    ∃ rest', (smToM (s :: others) page m).mSeg.toList = s.seenAt (page 0) :: rest' := by
  rw [smToM, Vector.toList_mapIdx, first, List.mapIdx_cons]
  exact ⟨_, rfl⟩

/-- The copy for a message whose segments the server has seen somewhere else is not the one that is
wanted: it is to the addresses of the server. -/
theorem copyoutsegs_seen {s : Seg} {others : List Seg} {segs : List Seg}
    (buffers : m.buffers = s :: others) (large : s.sBuflen ≠ 0#32) (some_ : segs ≠ [])
    (made : ∀ s ∈ segs, vas.makeSeg s = true) :
    ∃ page uucopy,
      copyoutsegs uucopy (smToM m.buffers page m) (segs.map vas.contents) = .error .wild ∨
        ∃ w, copyoutsegs uucopy (smToM m.buffers page m) (segs.map vas.contents) = .ok w ∧
          w ≠ expected m (segs.map vas.contents) := by
  obtain ⟨page, moved⟩ := seenAt_ne s
  obtain ⟨t, behind, rfl⟩ := List.exists_cons_of_ne_nil some_
  have first : ∃ rest, m.mSeg.toList = s :: rest := by
    rw [Msg.buffers] at buffers
    cases array : m.mSeg.toList with
    | nil =>
        rw [array, List.take_nil] at buffers
        cases buffers
    | cons s' rest =>
        rw [array] at buffers
        cases count : m.mNseg.toInt.toNat with
        | zero =>
            rw [count] at buffers
            cases buffers
        | succ n =>
            rw [count, List.take_succ_cons] at buffers
            exact ⟨rest, congrArg (· :: rest) (List.cons.inj buffers).1⟩
  obtain ⟨rest, first⟩ := first
  obtain ⟨rest', seen⟩ := smToM_seg others (fun _ => page) first
  refine ⟨fun _ => page, fun _ _ => true, ?_⟩
  rw [List.map_cons, copyoutsegs, buffers, seen]
  refine (copyLoop_total _ _ _).imp_right fun ⟨w, ok⟩ => ⟨w, ok, ?_⟩
  obtain ⟨b, w', rfl⟩ := copyLoop_head (s := s.seenAt page) large
    (contents_ne_nil (made t List.mem_cons_self)) ok
  intro same
  obtain ⟨l, length⟩ : ∃ l, s.sBuflen.toNat = l + 1 :=
    ⟨_, (Nat.succ_pred_eq_of_pos
      (Nat.pos_of_ne_zero fun zero => large (BitVec.eq_of_toNat_eq zero))).symm⟩
  have begins : ∃ more, m.buffers.flatMap Seg.addresses = s.sBuf :: more := by
    rw [buffers, List.flatMap_cons, Seg.addresses, length, List.range_succ_eq_map, List.map_cons,
      List.cons_append]
    exact ⟨_, congrArg (· :: _) (BitVec.add_zero _)⟩
  obtain ⟨more, begins⟩ := begins
  rw [expected, begins] at same
  cases bytes : (vas.contents t :: behind.map vas.contents).flatten with
  | nil =>
      rw [bytes, List.zip_nil_right] at same
      cases same
  | cons b' bytes' =>
      rw [bytes, List.zip_cons_cons] at same
      exact moved (congrArg Prod.fst (List.cons.inj same).1)

/-- What is wanted of the copy, for an accepted message and a reply that has segments. -/
theorem copies_iff {segs : List Seg} (sent : msgSend vas m = .ok sm) (some_ : segs ≠ [])
    (few : segs.length ≤ MSGSEGS) (made : ∀ s ∈ segs, server.makeSeg s = true) :
    (∀ page uucopy,
        copyoutsegs uucopy (smToM sm page m) (segs.map server.contents) ≠ .error .wild ∧
          ∀ w, copyoutsegs uucopy (smToM sm page m) (segs.map server.contents) = .ok w →
            w = expected m (segs.map server.contents)) ↔
      (m.reads ∨ m.buffers = []) ∧ Fits m (segs.map server.contents) := by
  obtain ⟨-, is⟩ := msgSend_ok.mp sent
  by_cases none_ : m.reads ∨ m.buffers = []
  · have nothing : sm = [] := by
      rcases is with ⟨-, rfl⟩ | ⟨writes, -, rfl⟩
      · rfl
      · exact none_.resolve_left writes
    subst nothing
    constructor
    · intro all
      obtain ⟨bytes, rest, cut, same | ⟨-, at_, n, fails⟩⟩ := copyoutsegs_nil m
        (fun _ _ => true) (fun _ => 0#32) some_ few made
      · have here := all (fun _ => 0#32) fun _ _ => true
        rw [same, cut, outcome_iff] at here
        exact ⟨none_, cut ▸ here⟩
      · cases fails
    · rintro ⟨-, fits⟩ page uucopy
      obtain ⟨bytes, rest, cut, same | ⟨fails, -⟩⟩ := copyoutsegs_nil m uucopy page some_ few made
      · rw [same, cut]
        exact (outcome_iff bytes rest).mpr (cut ▸ fits)
      · rw [fails]
        exact ⟨nofun, nofun⟩
  · refine ⟨fun all => ?_, fun both => absurd both.1 none_⟩
    obtain ⟨s, others, buffers⟩ := List.exists_cons_of_ne_nil fun is => none_ (.inr is)
    obtain ⟨-, makes, rfl⟩ := is.resolve_left fun reads => none_ (.inl reads.1)
    have large : s.sBuflen ≠ 0#32 := by
      have here := makes.2.2 s (buffers ▸ List.mem_cons_self : s ∈ m.buffers)
      rw [Vas.makeSeg, Bool.and_eq_true, Bool.and_eq_true] at here
      simpa using here.1.2
    obtain ⟨page, uucopy, wild | ⟨w, ok, wrong⟩⟩ := copyoutsegs_seen buffers large some_ made
    · exact absurd wild (all page uucopy).1
    · exact absurd ((all page uucopy).2 w ok) wrong

/-- **The copy of a reply.** No array of segments is overrun and the right bytes are copied exactly
when the numbers of segments are not negative and a reply with segments is to a message that reads
or has no buffers, and fits. -/
theorem meets_iff (vas server : Vas) (m r : Msg) : Meets vas server m r ↔ Suits vas server m r := by
  have inside : msgSend vas m ≠ .error .wild ↔ m.reserved ∨ m.reads ∨ ¬Overruns vas m := by
    rw [Ne, msgSend_wild]
    tauto
  have accepted : (∃ sm, msgSend vas m = .ok sm) ↔ ¬m.reserved ∧ (m.reads ∨ Makes vas m) := by
    simp only [msgSend_ok]
    constructor
    · rintro ⟨sm, free, ⟨reads, -⟩ | ⟨-, makes, -⟩⟩
      · exact ⟨free, .inl reads⟩
      · exact ⟨free, .inr makes⟩
    · rintro ⟨free, taken⟩
      by_cases reads : m.reads
      · exact ⟨[], free, .inl ⟨reads, rfl⟩⟩
      · exact ⟨_, free, .inr ⟨reads, taken.resolve_left reads, rfl⟩⟩
  have few : r.buffers.length ≤ MSGSEGS := by
    rw [Msg.buffers, List.length_take, Vector.length_toList]
    exact Nat.min_le_right _ _
  rw [Meets, Suits, inside]
  refine and_congr_right fun _ => ?_
  constructor
  · intro all free taken
    obtain ⟨sm, sent⟩ := accepted.mpr ⟨free, taken⟩
    obtain ⟨safe, right⟩ := all sm sent
    refine ⟨fun over_ => safe (mToSm_wild.mpr over_), fun makes copies => ?_⟩
    exact (copies_iff sent copies.2 few makes.2.2).mp
      (right r.buffers (mToSm_ok.mpr ⟨makes, rfl⟩) copies)
  · intro suits sm sent
    obtain ⟨free, taken⟩ := accepted.mp ⟨sm, sent⟩
    obtain ⟨safe, fits⟩ := suits free taken
    refine ⟨fun wild => safe (mToSm_wild.mp wild), fun segs made copies => ?_⟩
    obtain ⟨makes, rfl⟩ := mToSm_ok.mp made
    exact (copies_iff sent copies.2 few makes.2.2).mpr (fits makes copies)

/-- An address space with all of the addresses in one view. -/
def Vas.whole : Vas := ⟨fun _ => true, fun at_ => at_.setWidth 8⟩

/-- Six bytes for a buffer of four: two of them are copied to an entry of the array that is behind
the one buffer of the message. -/
theorem past_buffers :
    ¬Meets .whole .whole
      ⟨M_READ ||| 300#32, 0#32,
        #v[⟨0x1000#32, 4#32⟩, ⟨0x2000#32, 8#32⟩, ⟨0#32, 0#32⟩, ⟨0#32, 0#32⟩], 1#32⟩
      ⟨300#32, 6#32, #v[⟨0x5000#32, 6#32⟩, ⟨0#32, 0#32⟩, ⟨0#32, 0#32⟩, ⟨0#32, 0#32⟩], 1#32⟩ := by
  intro meets
  have sent : ∀ mSeg, msgSend .whole ⟨M_READ ||| 300#32, 0#32, mSeg, 1#32⟩ = .ok [] := by
    intro mSeg
    refine msgSend_ok.mpr ⟨?_, .inl ⟨?_, rfl⟩⟩
    · exact (by decide : ¬(M_READ ||| 300#32) &&& MSG_MASK < M_RESVD)
    · exact (by decide : (M_READ ||| 300#32) &&& M_READ ≠ 0#32)
  have all := (meets.2 [] (sent _)).2 [⟨0x5000#32, 6#32⟩] rfl ⟨by decide, List.cons_ne_nil _ _⟩
  have fits := (copies_iff (sent _) (List.cons_ne_nil _ _) (by decide) (by decide)).mp all
  exact absurd fits.2.same (by decide)

end Meets

end Vsta.Scatter
