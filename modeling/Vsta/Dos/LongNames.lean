import Vsta.Dos.Slots
import Mathlib.Data.List.TakeWhile

/-!
# Putting a long name together

`assemble_vfat_name` of `rw.c` gets the first part of a long name and a callback for the slots that
follow. It copies parts into the name buffer while the slots that it gets are parts with the same
checksum; the slot behind them is to be the short name.

`assemble_clean` says when it keeps to its buffer and to the slots that exist: the ids of all the
parts of the run are in range, and the run ends before the slots do, where nothing keeps the
callback from what is behind them. `assemble_assembled` says when there is a name.
-/

set_option autoImplicit false

namespace Vsta.Vfat

/-- What the callback has: no more slots, memory that is no slot, or the next slot. -/
inductive Next where
  | stop
  | beyond
  | slot (d : Slot)

/-- A callback, with the slots that it gets by their positions. Behind the last one it stops when it
is guarded, and reads on when it is not. -/
structure Source where
  nextd : ℕ → Next
  slots : List Slot
  guarded : Bool
  spec : ∀ pos, nextd pos = (slots[pos]?).elim (if guarded then .stop else .beyond) .slot

/-- How `assemble_vfat_name` ends: with a name, without one, at an assertion that fails, or when it
has read memory that is no slot. -/
inductive Ended where
  | assembled
  | failed
  | stopped
  | beyond
  deriving DecidableEq

namespace Source

variable {s : Source} {pos : ℕ} {u : Slot} {rest : List Slot}

theorem nextd_lt (got : s.nextd pos = .slot u) : pos < s.slots.length := by
  rw [s.spec] at got
  by_contra out
  rw [List.getElem?_eq_none (by omega), Option.elim_none] at got
  cases guarded : s.guarded <;> simp [guarded] at got

theorem nextd_end (none_ : s.slots.drop pos = []) :
    s.nextd pos = if s.guarded then .stop else .beyond := by
  rw [s.spec, List.getElem?_eq_none (List.drop_eq_nil_iff.mp none_)]
  rfl

theorem nextd_cons (left : s.slots.drop pos = u :: rest) :
    s.nextd pos = .slot u ∧ s.slots.drop (pos + 1) = rest := by
  constructor
  · have here : s.slots[pos]? = some u := by
      have first := congrArg (·[0]?) left
      simpa using first
    rw [s.spec, here]
    rfl
  · rw [← List.drop_drop, left]
    rfl

end Source

/-! ## The function -/

/-- The ids that were seen, with one more. A shift count is taken modulo 32. -/
def addId (mask : Uint) (id : ℕ) : Uint := mask ||| ((1 : Uint) <<< ((id + 31) % 32))

/-- The loop of `assemble_vfat_name`, from a part on. -/
def assembleLoop (s : Source) (sum : UChar) (d : Slot) (pos endid : ℕ) (mask : Uint)
    (b : NameBuf) : Ended × ℕ × NameBuf :=
  let endid := if d.Last then d.place else endid
  let mask := addId mask d.place
  match unicodeCopy d b with
  | none => (.stopped, pos, b)
  | some b =>
      let b := if d.Last then b.store (d.place * VSE_NAME_SIZE) 0 else b
      match got : s.nextd pos with
      | .stop => (.failed, pos, b)
      | .beyond => (.beyond, pos, b)
      | .slot next =>
          if ¬next.Part then
            if shortChecksum next.name next.ext ≠ sum then (.failed, pos + 1, b)
            else if mask ≠ (1 : Uint) <<< endid - 1 then (.failed, pos + 1, b)
            else (.assembled, pos + 1, b)
          else if next.dvSum ≠ sum then (.failed, pos + 1, b)
          else assembleLoop s sum next (pos + 1) endid mask b
  termination_by s.slots.length - pos
  decreasing_by
    have inside := Source.nextd_lt got
    omega

/-- `assemble_vfat_name`, for the slots from a position on. -/
def assembleVfatName (s : Source) (d : Slot) (pos : ℕ) (b : NameBuf) : Ended × ℕ × NameBuf :=
  assembleLoop s d.dvSum d pos 0 0 b

/-- Positions are not gone back to. -/
theorem assembleLoop_le (s : Source) (sum : UChar) (d : Slot) (pos endid : ℕ) (mask : Uint)
    (b : NameBuf) : pos ≤ (assembleLoop s sum d pos endid mask b).2.1 := by
  fun_induction assembleLoop s sum d pos endid mask b with
  | case8 => omega
  | _ => simp

/-! ## What it is for -/

/-- The parts of a run, behind its first part. -/
def run (sum : UChar) (rest : List Slot) : List Slot :=
  rest.takeWhile fun u => u.Part ∧ u.dvSum = sum

/-- The characters of a part belong in the buffer. -/
def Fits (u : Slot) : Prop := 1 ≤ u.place ∧ u.place < VSE_ID_MAX

/-- A run of parts belongs in the buffer and among the slots. -/
structure Good (guarded : Bool) (v : Slot) (rest : List Slot) : Prop where
  fits : ∀ u ∈ v :: run v.dvSum rest, Fits u
  ends : guarded = false → run v.dvSum rest ≠ rest

/-- The ids of parts. -/
def maskOf (parts : List Slot) (mask : Uint) : Uint :=
  parts.foldl (fun mask u => addId mask u.place) mask

/-- The id of the last part. -/
def endOf (parts : List Slot) (endid : ℕ) : ℕ :=
  parts.foldl (fun endid u => if u.Last then u.place else endid) endid

/-- A run is followed by its short name, which is the one of its checksum. -/
def Named (sum : UChar) (rest : List Slot) : Prop :=
  ∃ short, rest[(run sum rest).length]? = some short ∧ ¬short.Part ∧
    shortChecksum short.name short.ext = sum

/-- A run is whole, and is followed by its short name. -/
def Complete (v : Slot) (rest : List Slot) : Prop :=
  Named v.dvSum rest ∧
    maskOf (v :: run v.dvSum rest) 0 = (1 : Uint) <<< endOf (v :: run v.dvSum rest) 0 - 1

/-- The name buffer alone was written, slots alone were read, and no assertion failed. -/
def Clean (r : Ended × ℕ × NameBuf) : Prop :=
  r.1 ≠ .stopped ∧ r.1 ≠ .beyond ∧ r.2.2.wild = false

variable {s : Source} {sum : UChar} {d u v : Slot} {pos endid : ℕ} {mask : Uint} {b : NameBuf}
  {rest : List Slot}

@[simp] theorem run_nil : run sum [] = [] := rfl

theorem run_cons_of_pos (part : u.Part) (same : u.dvSum = sum) :
    run sum (u :: rest) = u :: run sum rest :=
  List.takeWhile_cons_of_pos (decide_eq_true ⟨part, same⟩)

theorem run_cons_of_not (other : ¬(u.Part ∧ u.dvSum = sum)) : run sum (u :: rest) = [] :=
  List.takeWhile_cons_of_neg (by rwa [decide_eq_true_eq])

theorem named_cons_of_pos (part : u.Part) (same : u.dvSum = sum) :
    Named sum (u :: rest) ↔ Named sum rest := by
  rw [Named, Named, run_cons_of_pos part same, List.length_cons]
  rfl

/-! ## The parts of a run -/

/-- The buffer after a part. -/
def terminated (d : Slot) (b : NameBuf) : NameBuf :=
  if d.Last then b.store (d.place * VSE_NAME_SIZE) 0 else b

theorem terminated_wild (small : d.place < VSE_ID_MAX) :
    (terminated d b).wild = b.wild := by
  have most : VSE_ID_MAX = 20 := rfl
  have size : ((VSE_MAX_NAME : ℕ) : ℤ) = 256 := rfl
  have width : ((VSE_NAME_SIZE : ℕ) : ℤ) = 13 := rfl
  rw [terminated]
  split_ifs
  · have inside : 0 ≤ (d.place : ℤ) * VSE_NAME_SIZE ∧
        (d.place : ℤ) * VSE_NAME_SIZE < VSE_MAX_NAME + 2 := by
      rw [width, size]
      omega
    rw [NameBuf.store, decide_eq_true inside, Bool.not_true, Bool.or_false]
  · rfl

/-- One part. -/
theorem assembleLoop_step (s : Source) (sum : UChar) (d : Slot) (pos endid : ℕ) (mask : Uint)
    (b : NameBuf) :
    (VSE_ID_MAX ≤ d.place ∧
      assembleLoop s sum d pos endid mask b = (.stopped, pos, b)) ∨
    (d.place < VSE_ID_MAX ∧ ∃ b', (b'.wild = false ↔ b.wild = false ∧ Fits d) ∧
      assembleLoop s sum d pos endid mask b =
        match s.nextd pos with
        | .stop => (.failed, pos, b')
        | .beyond => (.beyond, pos, b')
        | .slot next =>
            if ¬next.Part then
              if shortChecksum next.name next.ext ≠ sum then (.failed, pos + 1, b')
              else if addId mask d.place ≠
                  (1 : Uint) <<< (if d.Last then d.place else endid) - 1 then
                (.failed, pos + 1, b')
              else (.assembled, pos + 1, b')
            else if next.dvSum ≠ sum then (.failed, pos + 1, b')
            else assembleLoop s sum next (pos + 1) (if d.Last then d.place else endid)
              (addId mask d.place) b') := by
  rcases unicodeCopy_spec d b with ⟨large, none_⟩ | ⟨small, b', some_, wild⟩
  · refine .inl ⟨large, ?_⟩
    rw [assembleLoop, none_]
  · refine .inr ⟨small, terminated d b', ?_, ?_⟩
    · rw [terminated_wild small, wild, Fits]
      exact ⟨fun fine => ⟨fine.1, fine.2, small⟩, fun fine => ⟨fine.1, fine.2.1⟩⟩
    · rw [assembleLoop, some_]
      dsimp only
      split <;> simp_all [terminated]

/-- **A name is put together in the buffer and from slots, exactly when its run is good.** -/
theorem assembleLoop_clean (left : s.slots.drop pos = rest) :
    Clean (assembleLoop s sum d pos endid mask b) ↔
      b.wild = false ∧ (∀ u ∈ d :: run sum rest, Fits u) ∧
        (s.guarded = false → run sum rest ≠ rest) := by
  induction rest generalizing d pos endid mask b with
  | nil =>
      rcases assembleLoop_step s sum d pos endid mask b with ⟨large, loop⟩ | ⟨small, b', wild, loop⟩
      · rw [loop]
        refine iff_of_false (fun clean => clean.1 rfl) fun fine => ?_
        have fits := fine.2.1 d List.mem_cons_self
        exact absurd fits.2 (by omega)
      · rw [loop, Source.nextd_end left, run_nil]
        cases guarded : s.guarded with
        | true => simpa [Clean] using wild
        | false => exact iff_of_false (fun clean => clean.2.1 rfl) fun fine => fine.2.2 rfl rfl
  | cons u rest ih =>
      rcases assembleLoop_step s sum d pos endid mask b with ⟨large, loop⟩ | ⟨small, b', wild, loop⟩
      · rw [loop]
        refine iff_of_false (fun clean => clean.1 rfl) fun fine => ?_
        have fits := fine.2.1 d List.mem_cons_self
        exact absurd fits.2 (by omega)
      · obtain ⟨next, left'⟩ := Source.nextd_cons left
        rw [loop, next]
        dsimp only
        by_cases part : u.Part
        · by_cases same : u.dvSum = sum
          · rw [if_neg (not_not.mpr part), if_neg (not_not.mpr same), ih left', wild,
              run_cons_of_pos part same, List.forall_mem_cons, List.forall_mem_cons (a := d),
              List.forall_mem_cons]
            simp [and_assoc]
          · rw [if_neg (not_not.mpr part), if_pos same, run_cons_of_not fun both => same both.2]
            simpa [Clean] using wild
        · rw [if_pos part, run_cons_of_not fun both => part both.1]
          split_ifs <;> simpa [Clean] using wild

/-- A run of parts whose characters belong in the buffer has a name when it is whole and followed
by its short name. The position is the one behind that. -/
theorem assembleLoop_assembled (left : s.slots.drop pos = rest)
    (clean : Clean (assembleLoop s sum d pos endid mask b)) :
    (Named sum rest ∧
        maskOf (d :: run sum rest) mask = (1 : Uint) <<< endOf (d :: run sum rest) endid - 1 ∧
        (assembleLoop s sum d pos endid mask b).1 = .assembled ∧
        (assembleLoop s sum d pos endid mask b).2.1 = pos + ((run sum rest).length + 1)) ∨
      (¬(Named sum rest ∧ maskOf (d :: run sum rest) mask =
          (1 : Uint) <<< endOf (d :: run sum rest) endid - 1) ∧
        (assembleLoop s sum d pos endid mask b).1 = .failed) := by
  induction rest generalizing d pos endid mask b with
  | nil =>
      rcases assembleLoop_step s sum d pos endid mask b with ⟨-, loop⟩ | ⟨-, b', -, loop⟩
      · rw [loop] at clean
        exact absurd rfl clean.1
      · rw [loop, Source.nextd_end left] at clean
        rw [loop, Source.nextd_end left]
        have none_ : ¬Named sum [] := by
          rintro ⟨short, found, -⟩
          simp at found
        cases guarded : s.guarded with
        | true => exact .inr ⟨fun both => none_ both.1, rfl⟩
        | false =>
            rw [guarded] at clean
            exact absurd rfl clean.2.1
  | cons u rest ih =>
      rcases assembleLoop_step s sum d pos endid mask b with ⟨-, loop⟩ | ⟨-, b', -, loop⟩
      · rw [loop] at clean
        exact absurd rfl clean.1
      · obtain ⟨next, left'⟩ := Source.nextd_cons left
        rw [loop, next] at clean
        rw [loop, next]
        dsimp only at clean ⊢
        by_cases part : u.Part
        · by_cases same : u.dvSum = sum
          · rw [if_neg (not_not.mpr part), if_neg (not_not.mpr same)] at clean ⊢
            rw [named_cons_of_pos part same, run_cons_of_pos part same, List.length_cons]
            rcases ih left' clean with ⟨named, whole, done, at_⟩ | ⟨broken, failed⟩
            · exact .inl ⟨named, whole, done, at_.trans (by omega)⟩
            · exact .inr ⟨broken, failed⟩
          · rw [if_neg (not_not.mpr part), if_pos same]
            refine .inr ⟨fun both => ?_, rfl⟩
            obtain ⟨short, found, other, -⟩ := both.1
            rw [run_cons_of_not fun both => same both.2] at found
            simp only [List.length_nil, List.getElem?_cons_zero, Option.some.injEq] at found
            exact other (found ▸ part)
        · have alone : run sum (u :: rest) = [] := run_cons_of_not fun both => part both.1
          have named : Named sum (u :: rest) ↔ shortChecksum u.name u.ext = sum := by
            rw [Named, alone]
            constructor
            · rintro ⟨short, found, -, sums⟩
              rwa [Option.some.inj found]
            · exact fun sums => ⟨u, rfl, part, sums⟩
          rw [if_pos part, named, alone]
          by_cases sums : shortChecksum u.name u.ext = sum
          · rw [if_neg (not_not.mpr sums)]
            by_cases whole : addId mask d.place =
                (1 : Uint) <<< (if d.Last then d.place else endid) - 1
            · rw [if_neg (not_not.mpr whole)]
              exact .inl ⟨sums, whole, rfl, rfl⟩
            · rw [if_pos whole]
              exact .inr ⟨fun both => whole both.2, rfl⟩
          · rw [if_pos sums]
            exact .inr ⟨fun both => sums both.1, rfl⟩

/-- **`assemble_vfat_name` keeps to its buffer and to the slots exactly when its run is good.** -/
theorem assemble_clean (s : Source) (v : Slot) (pos : ℕ) (b : NameBuf) :
    Clean (assembleVfatName s v pos b) ↔
      b.wild = false ∧ Good s.guarded v (s.slots.drop pos) := by
  rw [assembleVfatName, assembleLoop_clean rfl]
  exact and_congr_right fun _ =>
    ⟨fun both => ⟨both.1, both.2⟩, fun good => ⟨good.fits, good.ends⟩⟩

/-- **`assemble_vfat_name` has a name exactly when its run is complete.** -/
theorem assemble_assembled (s : Source) (v : Slot) (pos : ℕ) (b : NameBuf)
    (clean : Clean (assembleVfatName s v pos b)) :
    (Complete v (s.slots.drop pos) ∧ (assembleVfatName s v pos b).1 = .assembled ∧
        (assembleVfatName s v pos b).2.1 =
          pos + ((run v.dvSum (s.slots.drop pos)).length + 1)) ∨
      (¬Complete v (s.slots.drop pos) ∧ (assembleVfatName s v pos b).1 = .failed) := by
  rcases assembleLoop_assembled rfl clean with ⟨named, whole, done, at_⟩ | ⟨broken, failed⟩
  · exact .inl ⟨⟨named, whole⟩, done, at_⟩
  · exact .inr ⟨broken, failed⟩

end Vsta.Vfat
