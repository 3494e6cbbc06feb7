import Mathlib.Data.Prod.Lex
import Mathlib.Order.Lattice.Nat
import Vsta.Fsck.Bitmaps

/-!
# Steps of the file system checker

Which steps go wrong (`State.Sane`), and a measure that every other step takes down: the phase, the
blocks that are not marked yet, what is left of the directories on the stack, and the calls on it.
`State.step_fine` puts the steps together.
-/

set_option autoImplicit false

namespace Vsta.Fsck

/-! ## Where it goes wrong -/

namespace State

/-- The previous version that `check_tree` goes on to from a file that passes and has no blocks. -/
def silentPrev (s : State) (sec : ULong) : Option ULong :=
  if s.fsSize - 1#32 < sec then none
  else (s.disk.getSec sec).bind fun fs =>
    if !checkHead sec fs && fs.fsType = FT_FILE && btors fs.fsLen = 0#32 &&
        (fs.fsBlks.all fun a => a.aLen = 0#32 && validBlock s.fsSize a.aStart) &&
        fs.fsPrev ≠ 0#32 && (s.disk.getSec fs.fsPrev).isSome
    then some fs.fsPrev
    else none

/-- There are at most so many previous versions behind a file that have no blocks. -/
def EndsIn (s : State) : ℕ → ULong → Prop
  | 0, sec => s.silentPrev sec = none
  | n + 1, sec => ∀ prev, s.silentPrev sec = some prev → s.EndsIn n prev

/-- How many runs of lost blocks there are, where `run` says that the block before is lost. -/
def lostRuns (s : State) : List ULong → Bool → ℕ
  | [], _ => 0
  | x :: rest, run =>
      if s.maps.freemap x then s.lostRuns rest false
      else if run then s.lostRuns rest true
      else s.lostRuns rest true + 1

/-- The step is none of the five that go wrong: a sector of the free list is in the bitmaps, a bad
entry of it is removed, and a good one ends below 2^32; a file without blocks is not its own
previous version; and the lost blocks fit the superblock. -/
def Sane (s : State) (answer : Bool) : Prop :=
  match s.phase with
  | .freelist next _ => ∀ fr, s.disk.getSec next = some fr → next ≠ 0#32 →
      fr.fNfree ≤ NALLOC → inMap s.fsSize next
  | .entries _ fr x highest _ => x < fr.fNfree.toNat →
      if s.badEntry (fr.fFree x) highest then answer = true
      else (fr.fFree x).aStart.toNat + (fr.fFree x).aLen.toNat < 2 ^ 32
  | .tree sec _ => ∃ n, s.EndsIn n sec
  | .lost => ∀ fs, s.disk.getSec BASE_SEC = some fs → answer = true →
      s.lostRuns s.candidates false ≤ BASE_FREESECS
  | _ => True

/-- What holds in every state: the size is that of a disk, and a sector of the free list has at most
`NALLOC` entries. -/
structure Inv (s : State) : Prop where
  size : s.fsSize.toNat < 2 ^ 23
  few : ∀ next fr x highest modified, s.phase = .entries next fr x highest modified →
    fr.fNfree ≤ NALLOC

/-! ## The measure -/

end State

/-- The entries that are left in the blocks of a directory. -/
def Dir.left (dir : Dir) : ℕ :=
  if dir.blks = [] then 0 else 17 * dir.blks.length + (16 - dir.d)

/-- The entries that are left behind the one a call is for. -/
def Frame.left : Frame → ℕ
  | .prev _ => 0
  | .dir waits => { waits with d := waits.d + 1 }.left

namespace State

/-- The entries that are left on the stack. -/
def stackLeft (stack : List Frame) : ℕ := (stack.map Frame.left).sum

/-- How far it is to the end of a chain of previous versions without blocks. -/
noncomputable def chain (s : State) (sec : ULong) : ℕ := sInf {n | s.EndsIn n sec}

/-- How much there is still to do. -/
noncomputable def measure (s : State) : ℕ × ℕ × ℕ × ℕ :=
  match s.phase with
  | .freelist _ _ => (2, unmarked s.maps.allocmap, 0, 0)
  | .entries _ fr x _ _ => (2, unmarked s.maps.allocmap, fr.fNfree.toNat - x + 1, 0)
  | .tree sec stack => (1, unmarked s.maps.allocmap, stackLeft stack,
      2 * stack.length + 4 * (s.chain sec + 1))
  | .fsdir dir stack => (1, unmarked s.maps.allocmap, stackLeft stack + dir.left,
      2 * stack.length + 1)
  | .ret _ stack => (1, unmarked s.maps.allocmap, stackLeft stack, 2 * stack.length)
  | .lost => (0, 0, 0, 0)

/-- The order in which the measure goes down. -/
def Less : ℕ × ℕ × ℕ × ℕ → ℕ × ℕ × ℕ × ℕ → Prop :=
  Prod.Lex (· < ·) (Prod.Lex (· < ·) (Prod.Lex (· < ·) (· < ·)))

theorem less_wf : WellFounded Less :=
  Nat.lt_wfRel.wf.prod_lex (Nat.lt_wfRel.wf.prod_lex (Nat.lt_wfRel.wf.prod_lex Nat.lt_wfRel.wf))

theorem less_fourth {a b c d d' : ℕ} (less : d' < d) : Less (a, b, c, d') (a, b, c, d) :=
  .right _ (.right _ (.right _ less))

theorem less_third {a b c c' d d' : ℕ} (less : c' < c) : Less (a, b, c', d') (a, b, c, d) :=
  .right _ (.right _ (.left _ _ less))

theorem less_second {a b b' c c' d d' : ℕ} (less : b' < b) : Less (a, b', c', d') (a, b, c, d) :=
  .right _ (.left _ _ less)

theorem less_first {a a' b b' c c' d d' : ℕ} (less : a' < a) :
    Less (a', b', c', d') (a, b, c, d) :=
  .left _ _ less

/-- As many blocks are not marked or fewer, and the rest is less. -/
theorem less_of_le {a b b' c d d' : ℕ} (few : b' ≤ b) (less : d' < d) :
    Less (a, b', c, d') (a, b, c, d) := by
  rcases Nat.lt_or_eq_of_le few with fewer | rfl
  · exact less_second fewer
  · exact less_fourth less

/-- A step is inside the bitmaps and the arrays, and there is less to do behind it. -/
def Fine (m : ℕ × ℕ × ℕ × ℕ) (r : Result) : Prop :=
  r ≠ .wild ∧ ∀ t, r = .next t → t.Inv ∧ Less t.measure m

theorem fine_exit {m : ℕ × ℕ × ℕ × ℕ} : Fine m .exit := ⟨nofun, nofun⟩

theorem fine_next {m : ℕ × ℕ × ℕ × ℕ} {t : State} (inv : t.Inv) (less : Less t.measure m) :
    Fine m (.next t) := by
  refine ⟨nofun, fun t' is => ?_⟩
  obtain rfl := Result.next.inj is
  exact ⟨inv, less⟩

/-! ## The steps -/

section Steps

variable {s : State} {next highest : ULong} {fr : Sector} {x : ℕ} {modified answer res : Bool}
  {sec : ULong} {stack : List Frame} {dir : Dir} {m : ℕ × ℕ × ℕ × ℕ}

/-- One block is marked that was not. -/
theorem unmarked_setbit {fsSize d : ULong} {map map' : Map}
    (clear : getbit fsSize map d 1 = some false) (set : setbit fsSize map d 1 = some map') :
    unmarked map' < unmarked map := by
  have was : map d = false := by
    refine Bool.eq_false_iff.mpr fun marked => ?_
    rw [getbit, if_pos marked] at clear
    split_ifs at clear
    cases clear
  refine unmarked_lt (fun y is => (setbit_some set y).mpr (.inl is)) was ?_
  exact (setbit_some set d).mpr (.inr ⟨0, Nat.one_pos, (BitVec.add_zero d).symm⟩)

theorem freelist_fine (size : s.fsSize.toNat < 2 ^ 23)
    (sane : ∀ fr, s.disk.getSec next = some fr → next ≠ 0#32 → fr.fNfree ≤ NALLOC →
      inMap s.fsSize next) :
    Fine (2, unmarked s.maps.allocmap, 0, 0) (s.freelist next highest) := by
  rw [State.freelist]
  by_cases last : next = 0#32
  · rw [if_pos last]
    exact fine_next ⟨size, nofun⟩ (less_first Nat.one_lt_two)
  rw [if_neg last]
  cases got : s.disk.getSec next with
  | none => exact fine_exit
  | some fr =>
      dsimp only
      by_cases many : NALLOC < fr.fNfree
      · rw [if_pos many]
        exact fine_exit
      rw [if_neg many]
      have few : fr.fNfree ≤ NALLOC := BitVec.not_lt.mp many
      have inside : ∀ i < 1, inMap s.fsSize (next + BitVec.ofNat 32 i) := by
        intro i less
        obtain rfl := Nat.lt_one_iff.mp less
        rw [BitVec.add_zero]
        exact sane fr got last few
      obtain ⟨bit, looked, -⟩ := @getbit_none_of _ _ s.maps.allocmap _ inside
      rw [looked]
      cases bit with
      | true => exact fine_exit
      | false =>
          obtain ⟨allocmap, set⟩ := Option.ne_none_iff_exists'.mp
            fun none_ => (setbit_none s.maps.allocmap).mp none_ inside
          obtain ⟨freemap, setFree⟩ := Option.ne_none_iff_exists'.mp
            fun none_ => (setbit_none s.maps.freemap).mp none_ inside
          rw [set, setFree]
          refine fine_next ⟨size, ?_⟩ (less_second (unmarked_setbit looked set))
          intro _ _ _ _ _ is
          cases is
          exact few

theorem entries_fine (size : s.fsSize.toNat < 2 ^ 23) (few : fr.fNfree ≤ NALLOC)
    (sane : x < fr.fNfree.toNat → if s.badEntry (fr.fFree x) highest then answer = true
      else (fr.fFree x).aStart.toNat + (fr.fFree x).aLen.toNat < 2 ^ 32) :
    Fine (2, unmarked s.maps.allocmap, fr.fNfree.toNat - x + 1, 0)
      (s.entries next fr x highest modified answer) := by
  rw [State.entries]
  by_cases more : x < fr.fNfree.toNat
  swap
  · rw [if_neg more]
    split_ifs
    · cases s.disk.myWriteSec next fr with
      | none => exact fine_exit
      | some disk => exact fine_next ⟨size, nofun⟩ (less_third (Nat.succ_pos _))
    · exact fine_next ⟨size, nofun⟩ (less_third (Nat.succ_pos _))
  have known := sane more
  have slots : fr.fNfree.toNat ≤ NALLOC.toNat := BitVec.le_def.mp few
  rw [if_pos more, if_neg (by omega)]
  dsimp only
  by_cases bad : s.badEntry (fr.fFree x) highest = true
  · rw [if_pos bad] at known ⊢
    rw [if_pos known]
    have fewer : (fr.removeFree x).fNfree.toNat = fr.fNfree.toNat - 1 := by
      have same : (fr.removeFree x).fNfree = fr.fNfree - 1#32 := rfl
      rw [same, BitVec.toNat_sub, BitVec.toNat_ofNat]
      omega
    refine fine_next ⟨size, ?_⟩ (less_third ?_)
    · intro _ _ _ _ _ is
      cases is
      rw [BitVec.le_def, fewer]
      omega
    · rw [fewer]
      omega
  · rw [if_neg bad] at known ⊢
    rw [State.badEntry, Bool.or_eq_true, Bool.or_eq_true, not_or, not_or] at bad
    have ends : validBlock s.fsSize ((fr.fFree x).aStart + (fr.fFree x).aLen) = true := by
      simpa using bad.1.2
    obtain ⟨freemap, set⟩ := Option.ne_none_iff_exists'.mp
      fun none_ => (setbit_none s.maps.freemap).mp none_ (run_inMap ends known)
    rw [set]
    refine fine_next ⟨size, ?_⟩ (less_third ?_)
    · intro _ _ _ _ _ is
      cases is
      exact few
    · omega

theorem nextEntry_fine (size : s.fsSize.toNat < 2 ^ 23) (some_ : dir.blks ≠ []) (few : dir.d < 16) :
    Fine (1, unmarked s.maps.allocmap, stackLeft stack + dir.left, 2 * stack.length + 1)
      (s.nextEntry dir stack) := by
  refine fine_next ⟨size, nofun⟩ (less_third ?_)
  rw [Dir.left, Dir.left, if_neg some_, if_neg some_]
  dsimp only
  omega

/-- The return to a directory goes on with the entry behind. -/
theorem nextEntry_returns (size : s.fsSize.toNat < 2 ^ 23) :
    Fine (1, unmarked s.maps.allocmap, stackLeft (.dir dir :: stack),
      2 * (Frame.dir dir :: stack).length) (s.nextEntry dir stack) := by
  have same : stackLeft (.dir dir :: stack) =
      stackLeft stack + Dir.left { dir with idx := dir.idx + FS_DIRENT, d := dir.d + 1 } := by
    rw [stackLeft, List.map_cons, List.sum_cons, Nat.add_comm]
    rfl
  rw [same]
  refine fine_next ⟨size, nofun⟩ (less_fourth ?_)
  rw [List.length_cons]
  omega

/-- Whether an entry is deleted or not, the next one follows. -/
theorem askDelete_fine {blk : ULong}
    (then_ : ∀ disk, Fine m ({ s with disk := disk }.nextEntry dir stack)) :
    Fine m (s.askDelete dir blk answer stack) := by
  rw [State.askDelete]
  split_ifs
  · cases s.disk.getSec blk with
    | none => exact fine_exit
    | some buf =>
        dsimp only
        cases s.disk.myWriteSec blk (buf.deleteDirent dir.d) with
        | none => exact fine_exit
        | some disk => exact then_ disk
  · exact then_ s.disk

theorem checkFsdir_fine (size : s.fsSize.toNat < 2 ^ 23) :
    Fine (1, unmarked s.maps.allocmap, stackLeft stack + dir.left, 2 * stack.length + 1)
      (s.checkFsdir dir stack answer) := by
  rw [State.checkFsdir]
  cases blocks : dir.blks with
  | nil =>
      dsimp only
      refine fine_next ⟨size, nofun⟩ ?_
      rcases Nat.eq_zero_or_pos dir.left with zero | some_
      · rw [zero]
        exact less_fourth (Nat.lt_succ_self _)
      · exact less_third (Nat.lt_add_of_pos_right some_)
  | cons blk rest =>
      dsimp only
      cases s.disk.getSec blk with
      | none => exact fine_exit
      | some buf =>
          dsimp only
          by_cases entry : dir.d < 16 ∧ dir.idx < dir.fsLen
          · rw [if_pos entry]
            have some_ : dir.blks ≠ [] := by
              rw [blocks]
              exact List.cons_ne_nil _ _
            by_cases skip : buf.fsClstart dir.d = 0#32 ∨ buf.fsName dir.d 0 &&& 0x80#8 ≠ 0#8
            · rw [if_pos skip]
              exact nextEntry_fine size some_ entry.1
            rw [if_neg skip]
            by_cases corrupt : checkDirent buf dir.d = true
            · rw [if_pos corrupt]
              exact askDelete_fine fun disk =>
                @nextEntry_fine { s with disk := disk } _ _ size some_ entry.1
            · rw [if_neg corrupt]
              refine fine_next ⟨size, nofun⟩ (less_third ?_)
              rw [stackLeft, List.map_cons, List.sum_cons, ← stackLeft, Frame.left, Dir.left,
                Dir.left, if_neg some_, if_neg some_]
              dsimp only
              omega
          · rw [if_neg entry]
            refine fine_next ⟨size, nofun⟩ (less_third ?_)
            rw [Dir.left, Dir.left, blocks, if_neg (List.cons_ne_nil _ _), List.length_cons]
            dsimp only
            split_ifs <;> omega

/-- The chain of previous versions does not depend on where `fsck` is. -/
theorem endsIn_phase (maps : Maps) (phase : Phase) (n : ℕ) (sec : ULong) :
    State.EndsIn { s with maps := maps, phase := phase } n sec ↔ s.EndsIn n sec := by
  induction n generalizing sec with
  | zero => rfl
  | succ n ih =>
      rw [State.EndsIn, State.EndsIn]
      exact forall_congr' fun prev => forall_congr' fun _ => ih prev

theorem chain_phase (maps : Maps) (phase : Phase) (sec : ULong) :
    State.chain { s with maps := maps, phase := phase } sec = s.chain sec := by
  rw [State.chain, State.chain]
  simp only [endsIn_phase]

/-- The chain of the previous version is shorter. -/
theorem chain_lt {prev : ULong} (ends : ∃ n, s.EndsIn n sec)
    (silent : s.silentPrev sec = some prev) : s.chain prev < s.chain sec := by
  have least : s.EndsIn (s.chain sec) sec := Nat.sInf_mem ends
  cases length : s.chain sec with
  | zero =>
      rw [length, State.EndsIn, silent] at least
      cases least
  | succ n =>
      rw [length, State.EndsIn] at least
      exact Nat.lt_succ_of_le (Nat.sInf_le (least prev silent))

theorem checkTree_fine (size : s.fsSize.toNat < 2 ^ 23) (sane : ∃ n, s.EndsIn n sec) :
    Fine (1, unmarked s.maps.allocmap, stackLeft stack, 2 * stack.length + 4 * (s.chain sec + 1))
      (s.checkTree sec stack) := by
  have back : 2 * stack.length < 2 * stack.length + 4 * (s.chain sec + 1) := by omega
  rw [State.checkTree]
  by_cases outside : s.fsSize - 1#32 < sec
  · rw [if_pos outside]
    exact fine_next ⟨size, nofun⟩ (less_fourth back)
  rw [if_neg outside]
  cases got : s.disk.getSec sec with
  | none => exact fine_exit
  | some fs =>
      dsimp only
      by_cases head : checkHead sec fs = true
      · rw [if_pos head]
        exact fine_next ⟨size, nofun⟩ (less_fourth back)
      rw [if_neg head]
      obtain ⟨maps, total, on, more, marks⟩ := @checkBlks_spec s.fsSize s.maps 0#32 size fs.fsBlks
      rw [checkFsalloc, on]
      dsimp only [Option.map_some]
      by_cases right : total = some (btors fs.fsLen)
      swap
      · rw [decide_eq_true right]
        exact fine_next ⟨size, nofun⟩ (less_of_le (unmarked_le more) back)
      rw [decide_eq_false (not_not.mpr right)]
      dsimp only
      have silent := (marks _ right).resolve_left
      have few := unmarked_le more
      rw [State.checkContents]
      by_cases file : fs.fsType = FT_FILE
      · rw [if_pos file]
        by_cases first : fs.fsPrev = 0#32
        · rw [if_pos first]
          exact fine_next ⟨size, nofun⟩ (less_of_le few back)
        rw [if_neg first]
        cases before : s.disk.getSec fs.fsPrev with
        | none => exact fine_exit
        | some _ =>
            have left : stackLeft (.prev sec :: stack) = stackLeft stack := by
              rw [stackLeft, List.map_cons, List.sum_cons, Frame.left, Nat.zero_add, ← stackLeft]
            dsimp only
            by_cases marked : unmarked maps.allocmap < unmarked s.maps.allocmap
            · exact fine_next ⟨size, nofun⟩ (less_second marked)
            · -- nothing is marked: the file has no blocks, and its chain gets shorter
              obtain ⟨rfl, length, empty⟩ := silent marked
              have goes : s.silentPrev sec = some fs.fsPrev := by
                rw [State.silentPrev, if_neg outside, got, Option.bind_some, if_pos]
                simp only [Bool.and_eq_true, Bool.not_eq_true', decide_eq_true_iff,
                  List.all_eq_true]
                refine ⟨⟨⟨⟨⟨by simpa using head, file⟩, length⟩, ?_⟩, first⟩, by rw [before]; rfl⟩
                exact fun a member => empty a member
              refine fine_next ⟨size, nofun⟩ ?_
              rw [State.measure]
              dsimp only
              rw [left, chain_phase]
              have shorter := chain_lt sane goes
              refine less_fourth ?_
              rw [List.length_cons]
              omega
      · rw [if_neg file]
        by_cases unaligned : fs.fsLen % FS_DIRENT ≠ 0#32
        · rw [if_pos unaligned]
          exact fine_next ⟨size, nofun⟩ (less_of_le few back)
        rw [if_neg unaligned]
        by_cases marked : unmarked maps.allocmap < unmarked s.maps.allocmap
        · exact fine_next ⟨size, nofun⟩ (less_second marked)
        · obtain ⟨rfl, length, empty⟩ := silent marked
          have nothing : fs.fsBlks.flatMap Alloc.blocks = [] := by
            rw [List.flatMap_eq_nil_iff]
            intro a member
            rw [Alloc.blocks, (empty a member).1, BitVec.add_zero, Nat.sub_self]
            rfl
          refine fine_next ⟨size, nofun⟩ ?_
          rw [State.measure]
          dsimp only
          rw [Dir.left, if_pos nothing]
          refine less_fourth ?_
          omega

theorem returns_fine (size : s.fsSize.toNat < 2 ^ 23) :
    Fine (1, unmarked s.maps.allocmap, stackLeft stack, 2 * stack.length)
      (s.returns res stack answer) := by
  cases stack with
  | nil => exact fine_next ⟨size, nofun⟩ (less_first Nat.one_pos)
  | cons frame stack =>
      cases frame with
      | prev sec =>
          have left : stackLeft (.prev sec :: stack) = stackLeft stack := by
            rw [stackLeft, List.map_cons, List.sum_cons, Frame.left, Nat.zero_add, ← stackLeft]
          have shorter : 2 * stack.length < 2 * (Frame.prev sec :: stack).length := by
            rw [List.length_cons]
            omega
          rw [State.returns, left]
          split_ifs
          · cases s.disk.getSec sec with
            | none => exact fine_exit
            | some fs =>
                dsimp only
                cases s.disk.myWriteSec sec fun word => if word = 0 then 0#32 else fs word with
                | none => exact fine_exit
                | some disk => exact fine_next ⟨size, nofun⟩ (less_fourth shorter)
          · exact fine_next ⟨size, nofun⟩ (less_fourth shorter)
      | dir dir =>
          rw [State.returns]
          cases dir.blks with
          | nil => exact fine_exit
          | cons blk rest =>
              dsimp only
              split_ifs
              · exact askDelete_fine fun disk => @nextEntry_returns { s with disk := disk } _ _ size
              · exact nextEntry_returns size

/-! ## The lost blocks -/

theorem isLost_eq {y : ULong} (inside : inMap s.fsSize y) :
    s.isLost y = some !s.maps.freemap y := by
  rw [State.isLost, getbit, if_pos inside]
  cases s.maps.freemap y <;> rfl

theorem candidates_inMap : ∀ y ∈ s.candidates, inMap s.fsSize y := by
  intro y member
  obtain ⟨i, less, rfl⟩ := List.mem_map.mp member
  have below := s.fsSize.isLt
  rw [List.mem_range] at less
  refine inMap_of_le ?_
  rw [BitVec.toNat_ofNat]
  omega

theorem countLost_some {blocks : List ULong} (inside : ∀ y ∈ blocks, inMap s.fsSize y) :
    ∃ lost, s.countLost blocks = some lost := by
  induction blocks with
  | nil => exact ⟨0, rfl⟩
  | cons y rest ih =>
      rw [List.forall_mem_cons] at inside
      obtain ⟨lost, count⟩ := ih inside.2
      rw [State.countLost, isLost_eq inside.1, count]
      exact ⟨_, rfl⟩

/-- The runs fit the superblock or its array is overrun. -/
theorem reclaim_none {blocks : List ULong} (inside : ∀ y ∈ blocks, inMap s.fsSize y) (run : Bool)
    {ntofree : ℕ} (fits : ntofree ≤ BASE_FREESECS) (queue : List Alloc) :
    s.reclaim blocks run ntofree queue = none ↔
      BASE_FREESECS < ntofree + s.lostRuns blocks run := by
  induction blocks generalizing run ntofree queue with
  | nil =>
      rw [State.reclaim, State.lostRuns]
      exact ⟨nofun, fun more => by omega⟩
  | cons y rest ih =>
      rw [List.forall_mem_cons] at inside
      rw [State.reclaim, State.lostRuns, isLost_eq inside.1]
      cases marked : s.maps.freemap y with
      | true =>
          rw [if_pos rfl]
          exact ih inside.2 false fits queue
      | false =>
          rw [if_neg Bool.false_ne_true]
          cases run with
          | true => exact ih inside.2 true fits _
          | false =>
              change (if false = true then _ else if BASE_FREESECS < ntofree then _ else
                if BASE_FREESECS ≤ ntofree then none else _) = none ↔ _
              rw [if_neg Bool.false_ne_true, if_neg Bool.false_ne_true, if_neg (by omega)]
              by_cases full : BASE_FREESECS ≤ ntofree
              · rw [if_pos full]
                exact ⟨fun _ => by omega, fun _ => rfl⟩
              · rw [if_neg full, ih inside.2 true (by omega)]
                omega

/-- Where no block is lost there is no run of lost blocks. -/
theorem lostRuns_zero {blocks : List ULong} (inside : ∀ y ∈ blocks, inMap s.fsSize y)
    (none_ : s.countLost blocks = some 0) (run : Bool) : s.lostRuns blocks run = 0 := by
  induction blocks generalizing run with
  | nil => rfl
  | cons y rest ih =>
      rw [List.forall_mem_cons] at inside
      obtain ⟨lost, count⟩ := countLost_some inside.2
      rw [State.countLost, isLost_eq inside.1, count] at none_
      rw [State.lostRuns]
      cases marked : s.maps.freemap y with
      | true =>
          rw [marked] at none_
          rw [if_pos rfl]
          obtain rfl : lost = 0 := Option.some.inj none_
          exact ih inside.2 count false
      | false =>
          rw [marked] at none_
          exact absurd (Option.some.inj none_) (Nat.succ_ne_zero lost)

/-- When the array of the superblock is overrun. -/
theorem checkLostblocks_wild : s.checkLostblocks answer = .wild ↔ answer = true ∧
    (∃ fs, s.disk.getSec BASE_SEC = some fs) ∧
      BASE_FREESECS < s.lostRuns s.candidates false := by
  obtain ⟨lost, count⟩ := countLost_some (@candidates_inMap s)
  have runs := @reclaim_none s _ candidates_inMap false 0 (Nat.zero_le _) []
  rw [Nat.zero_add] at runs
  rw [State.checkLostblocks, count]
  dsimp only
  by_cases none_ : lost = 0
  · rw [if_pos (.inl none_)]
    rw [none_] at count
    refine ⟨nofun, fun all => ?_⟩
    rw [lostRuns_zero candidates_inMap count] at all
    exact absurd all.2.2 (Nat.not_lt_zero _)
  cases answer with
  | false =>
      rw [if_pos (.inr rfl)]
      exact ⟨nofun, fun all => absurd all.1 nofun⟩
  | true =>
      rw [if_neg (by simp [none_])]
      cases s.disk.getSec BASE_SEC with
      | none => exact ⟨nofun, fun ⟨_, ⟨_, is⟩, _⟩ => absurd is nofun⟩
      | some fs =>
          dsimp only
          cases queue : s.reclaim s.candidates false 0 [] with
          | none => exact ⟨fun _ => ⟨rfl, ⟨fs, rfl⟩, runs.mp queue⟩, fun _ => rfl⟩
          | some l =>
              have few : ¬BASE_FREESECS < s.lostRuns s.candidates false := by
                rw [← runs, queue]
                exact nofun
              dsimp only
              cases s.disk.myWriteSec BASE_SEC (withQueue fs l) with
              | none => exact ⟨nofun, fun all => absurd all.2.2 few⟩
              | some _ => exact ⟨nofun, fun all => absurd all.2.2 few⟩

theorem checkLostblocks_fine
    (sane : ∀ fs, s.disk.getSec BASE_SEC = some fs → answer = true →
      s.lostRuns s.candidates false ≤ BASE_FREESECS) : Fine m (s.checkLostblocks answer) := by
  constructor
  · rw [Ne, checkLostblocks_wild]
    rintro ⟨yes, ⟨fs, got⟩, more⟩
    exact absurd (sane fs got yes) (Nat.not_le.mpr more)
  · intro t is
    rw [State.checkLostblocks] at is
    split at is
    · cases is
    · split_ifs at is
      repeat' split at is
      all_goals cases is

/-- **One step.** A step that is none of the five that go wrong is inside the bitmaps and the
arrays, and there is less to do behind it. -/
theorem step_fine (inv : s.Inv) (sane : s.Sane answer) : Fine s.measure (s.step answer) := by
  rw [State.Sane] at sane
  rw [State.step, State.measure]
  cases phase : s.phase with
  | freelist next highest =>
      rw [phase] at sane
      exact freelist_fine inv.size sane
  | entries next fr x highest modified =>
      rw [phase] at sane
      exact entries_fine inv.size (inv.few _ _ _ _ _ phase) sane
  | tree sec stack =>
      rw [phase] at sane
      exact checkTree_fine inv.size sane
  | fsdir dir stack => exact checkFsdir_fine inv.size
  | ret res stack => exact returns_fine inv.size
  | lost =>
      rw [phase] at sane
      exact checkLostblocks_fine sane

end Steps

end State

end Vsta.Fsck
