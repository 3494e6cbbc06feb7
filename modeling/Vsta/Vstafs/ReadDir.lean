import Vsta.Vstafs.BlockMap
import Mathlib.Data.List.TakeWhile
import Mathlib.Tactic.SplitIfs

/-!
# Listing a directory

A directory is a file of slots, each a name and the sector where the file of that name starts. A
read of it is answered by `vfs_readdir` of `rw.c` with as many names as there is room for, and the
next read goes on with the slot whose name did not fit. It ends when a read is answered with
nothing.

What is read of the slots in one piece is what `bmap` hands out; `loop_eq` says that the pieces do
not matter. `complete_iff` says when the listing has all the names in use. A name that fills its 28
characters has no null byte: what is behind it, the start, is taken for more of the name. And
nothing is looked for behind a slot whose name is empty.
-/

set_option autoImplicit false

namespace Vsta.Vstafs.Bytes

abbrev MAXNAMLEN : ℕ := 28

/-- `sizeof(struct fs_dirent)`. -/
abbrev DIRENT : ℕ := 32

def nl : UChar := 10#8

/-- The bytes of a `struct fs_dirent`. -/
abbrev Slot := List UChar

namespace Slot

/-- `fs_name[0]`. -/
def first (d : Slot) : UChar := d.headD 0#8

/-- There is a name that is not deleted, and a start. -/
def live (d : Slot) : Prop :=
  d.first ≠ 0#8 ∧ (∃ byte ∈ d.drop MAXNAMLEN, byte ≠ 0#8) ∧ d.first &&& 0x80#8 = 0#8

instance (d : Slot) : Decidable d.live := inferInstanceAs (Decidable (_ ∧ _))

/-- The name. -/
def name (d : Slot) : List UChar := (d.take MAXNAMLEN).takeWhile (· ≠ 0#8)

/-- What `strlen` and `strcat` take for the name: all up to a null byte. -/
def text (d : Slot) : List UChar := d.takeWhile (· ≠ 0#8)

end Slot

/-- Why a read is not answered: a name runs out of its slot, an assertion fails, or the loop does
not end. -/
inductive ReadFault where
  | wild
  | assertion
  | forever
  deriving DecidableEq

/-- `roundup`. -/
def roundup (val units : ℕ) : ℕ := (val + (units - 1)) / units * units

section ReadDir

variable (disk : Disk) (fs : FsFile) (found : ℕ → Bool) (len : ℕ)

/-- The next run of entries, mapped in if there is none: where it is and how long, or nothing at the
end of the file and where there is no buffer. -/
def nextRun (pos step d bufcnt : ℕ) : Except ReadFault (Option (ℕ × ℕ)) :=
  if step < MAXNAMLEN then
    if fs.fsLen < pos then .error .assertion
    else
      let x := roundup (len - bufcnt) MAXNAMLEN
      let x := min (x / MAXNAMLEN * DIRENT) (fs.fsLen - pos)
      if x < 1 then .ok none
      else
        match bmap ⟨0, false, 0, found pos⟩ disk fs pos x with
        | none => .error .assertion
        | some (_, _, none) => .ok none
        | some (_, _, some (p, step)) =>
            if step < DIRENT then .error .assertion else .ok (some (p, step))
  else .ok (some (d, step))

/-- The loop of `vfs_readdir`: the position, and the names that were added. -/
def readdirLoop : ℕ → ℕ → ℕ → ℕ → List UChar → Except ReadFault (ℕ × List UChar)
  | 0, _, _, _, _ => .error .forever
  | fuel + 1, pos, step, d, buf =>
      match nextRun disk fs found len pos step d buf.length with
      | .error why => .error why
      | .ok none => .ok (pos, buf)
      | .ok (some (d, step)) =>
          let slot : Slot := disk.bytes d DIRENT
          if slot.first = 0#8 then .ok (pos, buf)
          else if slot.live then
            if 0#8 ∉ slot then .error .wild
            else if len ≤ buf.length + (slot.text.length + 1) then .ok (pos, buf)
            else readdirLoop fuel (pos + DIRENT) (step - DIRENT) (d + DIRENT)
              (buf ++ slot.text ++ [nl])
          else readdirLoop fuel (pos + DIRENT) (step - DIRENT) (d + DIRENT) buf

end ReadDir

/-- A read: the size of the buffer, and whether there is a buffer for the sectors at a position. -/
structure ReadRequest where
  mArg : ℕ
  found : ℕ → Bool

/-- `vfs_readdir`: the position after it, and what it is answered. -/
def vfsReaddir (disk : Disk) (fs : FsFile) (r : ReadRequest) (fPos : ℕ) :
    Except ReadFault (ℕ × List UChar) :=
  readdirLoop disk fs r.found (min r.mArg 256) (fs.fsLen / DIRENT + 1) fPos 0 0 []

/-- Reads, one after the other. -/
def readAll (disk : Disk) (fs : FsFile) : List ReadRequest → ℕ →
    Except ReadFault (List (List UChar))
  | [], _ => .ok []
  | r :: rest, fPos => do
      let (fPos, reply) ← vfsReaddir disk fs r fPos
      return reply :: (← readAll disk fs rest fPos)

/-! ## What it is for -/

/-- The slot of an index. -/
def slotAt (disk : Disk) (fs : FsFile) (i : ℕ) : Slot :=
  (List.range DIRENT).map fun k => (byteAt disk fs (OFF_DATA + DIRENT * i + k)).getD 0#8

/-- How many slots there are. -/
def nslots (fs : FsFile) : ℕ := (fs.fsLen - OFF_DATA) / DIRENT

/-- The slots of a directory. -/
def slots (disk : Disk) (fs : FsFile) : List Slot :=
  (List.range (nslots fs)).map (slotAt disk fs)

/-- A directory: its extents have the sectors of its length, which is a number of slots. -/
structure Directory where
  fs : FsFile
  laid : Laid fs
  aligned : DIRENT ∣ fs.fsLen

/-- The names in use. -/
def names (ds : List Slot) : List (List UChar) := (ds.filter fun d => d.live).map Slot.name

/-- Names, each with a newline behind it. -/
def listing (ns : List (List UChar)) : List UChar := (ns.map (· ++ [nl])).flatten

/-- **The listing is complete.** Reads with room for a name, and no error, are answered with the
first of the names in use, each once and in the order of the slots; and where one is answered with
nothing, those were all. -/
def Complete (dir : Directory) (disk : Disk) : Prop :=
  ∀ requests : List ReadRequest,
    (∀ r ∈ requests, MAXNAMLEN + 2 ≤ r.mArg ∧ ∀ pos, r.found pos = true) →
    ∃ replies n, readAll disk dir.fs requests OFF_DATA = .ok replies ∧
      replies.flatten = listing ((names (slots disk dir.fs)).take n) ∧
      ([] ∈ replies → replies.flatten = listing (names (slots disk dir.fs)))

/-- **When it is complete.** A name in use ends in its 28 characters or right behind them, and it
has no slot with an empty name in front of it. -/
def Tidy (ds : List Slot) : Prop :=
  (∀ d ∈ ds, d.live → d.text.length ≤ MAXNAMLEN) ∧
    ds.Pairwise fun d e => e.live → d.first ≠ 0#8

/-! ## The pieces do not matter -/

/-- What one read takes from the slots that are left: how many, and the names. -/
def fill (len : ℕ) : List Slot → List UChar → Except ReadFault (ℕ × List UChar)
  | [], buf => .ok (0, buf)
  | d :: rest, buf =>
      if d.first = 0#8 then .ok (0, buf)
      else if d.live then
        if 0#8 ∉ d then .error .wild
        else if len ≤ buf.length + (d.text.length + 1) then .ok (0, buf)
        else (fill len rest (buf ++ d.text ++ [nl])).map fun r => (r.1 + 1, r.2)
      else (fill len rest buf).map fun r => (r.1 + 1, r.2)

section Pieces

variable {disk : Disk} {dir : Directory} {found : ℕ → Bool} {len : ℕ}

theorem Directory.fsLen_eq (dir : Directory) :
    dir.fs.fsLen = OFF_DATA + DIRENT * nslots dir.fs := by
  have header := dir.laid.header
  have aligned := dir.aligned
  simp only [nslots, OFF_DATA, DIRENT] at *
  omega

/-- The position of a slot. -/
abbrev posOf (i : ℕ) : ℕ := OFF_DATA + DIRENT * i

/-- What is mapped from a slot on: nothing, or whole slots. -/
def Window (fs : FsFile) (i step d : ℕ) : Prop :=
  step = 0 ∨ (DIRENT ∣ step ∧ 0 < step ∧ Maps fs (posOf i) d step ∧ posOf i + step ≤ fs.fsLen)

/-- The slot at the start of a window. -/
theorem slot_eq {fs : FsFile} {i step d : ℕ} (room : DIRENT ≤ step)
    (maps : Maps fs (posOf i) d step) :
    disk.bytes d DIRENT = slotAt disk fs i := by
  have maps' : Maps fs (posOf i) d DIRENT := fun k inside => maps k (by omega)
  refine List.ext_getElem? fun k => ?_
  by_cases inside : k < DIRENT
  · rw [maps'.bytes_eq inside, slotAt, List.getElem?_map, List.getElem?_range inside]
    have here := maps' k inside
    rw [Option.map_some, byteAt, here, Option.map_some, Option.getD_some]
  · have left : (disk.bytes d DIRENT).length = DIRENT := by simp [Disk.bytes]
    have right : (slotAt disk fs i).length = DIRENT := by simp [slotAt]
    rw [List.getElem?_eq_none (by omega), List.getElem?_eq_none (by omega)]

/-- The window without its first slot. -/
theorem Window.next {fs : FsFile} {i step d : ℕ} (aligned : DIRENT ∣ step) (some_ : 0 < step)
    (maps : Maps fs (posOf i) d step) (inside : posOf i + step ≤ fs.fsLen) :
    Window fs (i + 1) (step - DIRENT) (d + DIRENT) := by
  by_cases last : step - DIRENT = 0
  · exact .inl last
  · refine .inr ⟨Nat.dvd_sub aligned (dvd_refl _), by omega, fun k within => ?_, ?_⟩
    · have here := maps (DIRENT + k) (by omega)
      rw [show posOf (i + 1) + k = posOf i + (DIRENT + k) by
        simp only [posOf, OFF_DATA, DIRENT]
        omega, here]
      simp only [Option.some.injEq]
      omega
    · simp only [posOf, OFF_DATA, DIRENT] at *
      omega

/-- What `bmap` hands out is whole slots when it is asked for whole slots. -/
theorem blkp_aligned {a : Alloc} {extoff pos cnt : ℕ} (pos_ : DIRENT ∣ pos) (cnt_ : DIRENT ∣ cnt) :
    DIRENT ∣ (blkp a extoff pos cnt).2 := by
  simp only [blkp, stob, word, SECSZ, DIRENT] at *
  omega

/-- Where whole slots are left, `bmap` hands out some of them. -/
theorem bmap_slots (x : BmapOutcome) (buffer : x.found = true) {i cnt : ℕ}
    (below : i < nslots dir.fs) (some_ : 0 < cnt) (aligned : DIRENT ∣ cnt) :
    ∃ addr step, bmap x disk dir.fs (posOf i) cnt = some (disk, dir.fs, some (addr, step)) ∧
      0 < step ∧ step ≤ cnt ∧ DIRENT ∣ step ∧ Maps dir.fs (posOf i) addr step := by
  have inside : posOf i < dir.fs.fsLen := by
    rw [dir.fsLen_eq]
    simp only [posOf, OFF_DATA, DIRENT]
    omega
  rcases bmap_reads x disk dir.laid inside some_ with ⟨none_, -⟩ | ⟨addr, step, is, piece⟩
  · rw [buffer] at none_
    cases none_
  · refine ⟨addr, step, is, piece.1, piece.2.1, ?_, piece.2.2⟩
    have same : bmapGrow x disk dir.fs (posOf i) cnt = some (disk, dir.fs, true) := by
      rw [bmapGrow, if_neg (by omega)]
    rw [bmap.eq_def, same] at is
    dsimp only at is
    split at is
    · cases is
    · rename_i a extoff located
      rw [if_neg (by simp [buffer])] at is
      simp only [Option.some.injEq, Prod.mk.injEq, true_and] at is
      have posAligned : DIRENT ∣ posOf i := Dvd.intro (10 + i) (by
        simp only [posOf, OFF_DATA, DIRENT]
        omega)
      have here := @blkp_aligned a extoff _ _ posAligned aligned
      rwa [is] at here

/-- Behind the last slot there is no next run. -/
theorem nextRun_end {step d bufcnt : ℕ} (window : Window dir.fs (nslots dir.fs) step d) :
    nextRun disk dir.fs found len (posOf (nslots dir.fs)) step d bufcnt = .ok none := by
  have stop : dir.fs.fsLen = posOf (nslots dir.fs) := dir.fsLen_eq
  have none_ : step = 0 := by
    rcases window with zero | ⟨-, some_, -, inside⟩
    · exact zero
    · omega
  have nothing : min (roundup (len - bufcnt) MAXNAMLEN / MAXNAMLEN * DIRENT)
      (dir.fs.fsLen - posOf (nslots dir.fs)) < 1 := by omega
  have short : step < MAXNAMLEN := by
    rw [none_]
    decide
  rw [nextRun, if_pos short, if_neg (by omega)]
  exact if_pos nothing

/-- In front of it there is one, of whole slots. -/
theorem nextRun_slots (fills : ∀ pos, found pos = true) {i step d bufcnt : ℕ} (room : bufcnt < len)
    (below : i < nslots dir.fs) (window : Window dir.fs i step d) :
    ∃ d' step', nextRun disk dir.fs found len (posOf i) step d bufcnt = .ok (some (d', step')) ∧
      0 < step' ∧ DIRENT ∣ step' ∧ Maps dir.fs (posOf i) d' step' ∧
      posOf i + step' ≤ dir.fs.fsLen := by
  have stop : dir.fs.fsLen = OFF_DATA + DIRENT * nslots dir.fs := dir.fsLen_eq
  have inside : posOf i + DIRENT ≤ dir.fs.fsLen := by
    simp only [posOf, OFF_DATA, DIRENT] at *
    omega
  rw [nextRun]
  by_cases more : step < MAXNAMLEN
  · have cnt : 0 < min (roundup (len - bufcnt) MAXNAMLEN / MAXNAMLEN * DIRENT)
        (dir.fs.fsLen - posOf i) := by
      simp only [roundup, MAXNAMLEN, DIRENT] at *
      omega
    have aligned : DIRENT ∣ min (roundup (len - bufcnt) MAXNAMLEN / MAXNAMLEN * DIRENT)
        (dir.fs.fsLen - posOf i) := by
      simp only [posOf, MAXNAMLEN, OFF_DATA, DIRENT] at *
      omega
    obtain ⟨addr, step', is, some_, few, whole, maps⟩ :=
      @bmap_slots disk dir ⟨0, false, 0, found (posOf i)⟩ (fills _) i _ below cnt aligned
    have big : ¬step' < DIRENT := by
      simp only [DIRENT] at *
      omega
    refine ⟨addr, step', ?_, some_, whole, maps, by omega⟩
    have noEnd : ¬min (roundup (len - bufcnt) MAXNAMLEN / MAXNAMLEN * DIRENT)
        (dir.fs.fsLen - posOf i) < 1 := by omega
    rw [if_pos more, if_neg (by omega)]
    dsimp only
    rw [if_neg noEnd, is]
    exact if_neg big
  · rcases window with zero | ⟨whole, some_, maps, within⟩
    · exact absurd (by rw [zero]; decide) more
    · exact ⟨d, step, if_neg more, some_, whole, maps, within⟩

theorem drop_slots {i : ℕ} (below : i < nslots dir.fs) :
    (slots disk dir.fs).drop i = slotAt disk dir.fs i :: (slots disk dir.fs).drop (i + 1) := by
  have inside : i < (slots disk dir.fs).length := by simpa [slots] using below
  rw [List.drop_eq_getElem_cons inside]
  simp [slots]

/-- **The pieces do not matter**: the loop goes through the slots that are left. -/
theorem loop_eq (fills : ∀ pos, found pos = true) :
    ∀ (left i fuel step d : ℕ) (buf : List UChar), i + left = nslots dir.fs → left < fuel →
      Window dir.fs i step d → buf.length < len →
      readdirLoop disk dir.fs found len fuel (posOf i) step d buf =
        (fill len ((slots disk dir.fs).drop i) buf).map fun r => (posOf (i + r.1), r.2)
  | left, i, 0, step, d, buf, _, enough, _, _ => by omega
  | 0, i, fuel + 1, step, d, buf, all, _, window, _ => by
      obtain rfl : i = nslots dir.fs := by omega
      have none_ : (slots disk dir.fs).drop (nslots dir.fs) = [] :=
        List.drop_eq_nil_of_le (by simp [slots])
      rw [readdirLoop, nextRun_end window, none_]
      rfl
  | left + 1, i, fuel + 1, step, d, buf, all, enough, window, room => by
      have below : i < nslots dir.fs := by omega
      obtain ⟨d', step', is, some_, whole, maps, inside⟩ :=
        @nextRun_slots disk dir found len fills i step d buf.length room below window
      have big : DIRENT ≤ step' := Nat.le_of_dvd some_ whole
      have slot := @slot_eq disk dir.fs i step' d' big maps
      have after := Window.next whole some_ maps inside
      have go := fun buf' (short : buf'.length < len) =>
        loop_eq fills left (i + 1) fuel (step' - DIRENT) (d' + DIRENT) buf' (by omega) (by omega)
          after short
      have stepOf : posOf i + DIRENT = posOf (i + 1) := by
        simp only [posOf, OFF_DATA, DIRENT]
        omega
      have shift : ∀ r : Except ReadFault (ℕ × List UChar),
          (r.map fun r => (r.1 + 1, r.2)).map (fun r => (posOf (i + r.1), r.2)) =
            r.map fun r => (posOf (i + 1 + r.1), r.2) := by
        intro r
        cases r with
        | error why => rfl
        | ok r =>
          simp only [Except.map, Except.ok.injEq, Prod.mk.injEq, and_true, posOf, OFF_DATA, DIRENT]
          omega
      rw [readdirLoop, is, drop_slots below, fill]
      dsimp only
      rw [slot, stepOf]
      split_ifs with stop live ends full
      · rfl
      · rfl
      · have short : (buf ++ (slotAt disk dir.fs i).text ++ [nl]).length < len := by
          simp only [List.length_append, List.length_singleton]
          omega
        rw [go _ short, shift]
      · rfl
      · rw [go _ room, shift]

/-- A read goes on where the last one ended. -/
theorem vfsReaddir_eq {r : ReadRequest} (room : 0 < min r.mArg 256)
    (fills : ∀ pos, r.found pos = true) {i : ℕ} (inside : i ≤ nslots dir.fs) :
    vfsReaddir disk dir.fs r (posOf i) =
      (fill (min r.mArg 256) ((slots disk dir.fs).drop i) []).map fun q =>
        (posOf (i + q.1), q.2) := by
  refine loop_eq fills (nslots dir.fs - i) i _ 0 0 [] (by omega) ?_ (.inl rfl) room
  have stop := dir.fsLen_eq
  simp only [OFF_DATA, DIRENT] at *
  omega

end Pieces

/-! ## The names -/

@[simp] theorem names_nil : names [] = [] := rfl

theorem names_live {d : Slot} (live : d.live) (ds : List Slot) :
    names (d :: ds) = d.name :: names ds := by simp [names, live]

theorem names_other {d : Slot} (other : ¬d.live) (ds : List Slot) :
    names (d :: ds) = names ds := by simp [names, other]

theorem names_append (ds es : List Slot) : names (ds ++ es) = names ds ++ names es := by
  simp [names]

@[simp] theorem listing_nil : listing [] = [] := rfl

theorem listing_cons (n : List UChar) (ns : List (List UChar)) :
    listing (n :: ns) = n ++ [nl] ++ listing ns := rfl

theorem listing_append (ns ms : List (List UChar)) :
    listing (ns ++ ms) = listing ns ++ listing ms := by simp [listing]

theorem listing_eq_nil {ns : List (List UChar)} : listing ns = [] ↔ ns = [] := by
  cases ns <;> simp [listing]

/-- A name that ends in its characters, or right behind them, is what is taken for it. -/
theorem name_eq {d : Slot} (short : d.text.length ≤ MAXNAMLEN) : d.name = d.text := by
  rw [Slot.name, ← List.take_takeWhile]
  exact List.take_of_length_le short

/-- A text that is short ends in its slot. -/
theorem ends_of_short {d : Slot} (whole : d.length = DIRENT) (short : d.text.length ≤ MAXNAMLEN) :
    0#8 ∈ d := by
  by_contra none_
  have all : d.text = d := List.takeWhile_eq_self_iff.mpr fun byte isIn => by
    simpa using fun zero : byte = 0#8 => none_ (zero ▸ isIn)
  rw [all, whole] at short
  exact absurd short (by decide)

/-- Slots that are gone through: none has an empty name, and the names in use are short. -/
def Plain (ds : List Slot) : Prop :=
  ∀ d ∈ ds, d.length = DIRENT ∧ d.first ≠ 0#8 ∧ (d.live → d.text.length ≤ MAXNAMLEN)

/-- **What a read takes** in front of a slot where it stops: the names of the first slots, and
nothing just when there are none. -/
theorem fill_front {front tail : List Slot} {len : ℕ} {stop : Except ReadFault Unit}
    (plain : Plain front) (room : MAXNAMLEN + 2 ≤ len)
    (stops : ∀ buf, fill len tail buf = stop.map fun _ => (0, buf)) (buf : List UChar) :
    (∃ why, stop = .error why ∧ fill len (front ++ tail) buf = .error why) ∨
      ∃ k, fill len (front ++ tail) buf = .ok (k, buf ++ listing (names (front.take k))) ∧
        k ≤ front.length ∧ (buf ++ listing (names (front.take k)) = [] → names front = []) := by
  induction front generalizing buf with
  | nil =>
    cases stop with
    | error why => exact .inl ⟨why, rfl, stops buf⟩
    | ok u =>
      refine .inr ⟨0, (stops buf).trans ?_, le_rfl, fun _ => rfl⟩
      rw [List.take_nil, names_nil, listing_nil, List.append_nil]
      rfl
  | cons d rest ih =>
    obtain ⟨whole, some_, short⟩ := plain d List.mem_cons_self
    have plain' : Plain rest := fun e isIn => plain e (List.mem_cons_of_mem _ isIn)
    rw [List.cons_append, fill, if_neg some_]
    by_cases live : d.live
    · have few := short live
      rw [if_pos live, if_neg (not_not.mpr (ends_of_short whole few))]
      by_cases full : len ≤ buf.length + (d.text.length + 1)
      · rw [if_pos full]
        refine .inr ⟨0, by simp, Nat.zero_le _, fun empty => ?_⟩
        have noBuf : buf = [] := by simpa using empty
        rw [noBuf, List.length_nil] at full
        omega
      · rw [if_neg full]
        rcases ih plain' (buf ++ d.text ++ [nl]) with ⟨why, stuck, is⟩ | ⟨k, is, inside, -⟩
        · exact .inl ⟨why, stuck, by rw [is]; rfl⟩
        · refine .inr ⟨k + 1, ?_, by simpa using inside, fun empty => ?_⟩
          · rw [is, List.take_succ_cons, names_live live, listing_cons, name_eq few]
            simp [Except.map]
          · rw [List.take_succ_cons, names_live live, listing_cons] at empty
            simp at empty
    · rw [if_neg live]
      rcases ih plain' buf with ⟨why, stuck, is⟩ | ⟨k, is, inside, all⟩
      · exact .inl ⟨why, stuck, by rw [is]; rfl⟩
      · refine .inr ⟨k + 1, ?_, by simpa using inside, fun empty => ?_⟩
        · rw [is, List.take_succ_cons, names_other live]
          rfl
        · rw [List.take_succ_cons, names_other live] at empty
          rw [names_other live]
          exact all empty

/-- A tidy directory is gone through up to an empty name, or its end. -/
theorem tidy_split {ds : List Slot} (tidy : Tidy ds) (whole : ∀ d ∈ ds, d.length = DIRENT) :
    ∃ front tail, ds = front ++ tail ∧ Plain front ∧ names ds = names front ∧
      ∀ len buf, fill len tail buf = .ok (0, buf) := by
  induction ds with
  | nil => exact ⟨[], [], rfl, nofun, rfl, fun _ _ => rfl⟩
  | cons d rest ih =>
    obtain ⟨short, apart⟩ := tidy
    obtain ⟨behind, apart'⟩ := List.pairwise_cons.mp apart
    by_cases stop : d.first = 0#8
    · have notLive : ¬d.live := fun live => live.1 stop
      have none_ : names rest = [] := by
        rw [names, List.map_eq_nil_iff, List.filter_eq_nil_iff]
        intro e isIn live
        exact behind e isIn (by simpa using live) stop
      refine ⟨[], d :: rest, rfl, nofun, by rw [names_other notLive, none_, names_nil], ?_⟩
      intro len buf
      rw [fill, if_pos stop]
    · obtain ⟨front, tail, rfl, plain, same, stops⟩ :=
        ih ⟨fun e isIn => short e (List.mem_cons_of_mem _ isIn), apart'⟩
          fun e isIn => whole e (List.mem_cons_of_mem _ isIn)
      refine ⟨d :: front, tail, rfl, fun e isIn => ?_, ?_, stops⟩
      · rcases List.mem_cons.mp isIn with rfl | later
        · exact ⟨whole e List.mem_cons_self, stop, short e List.mem_cons_self⟩
        · exact plain e later
      · by_cases live : d.live
        · rw [names_live live, names_live live, same]
        · rw [names_other live, names_other live, same]

/-- What a read of a tidy directory takes. -/
theorem fill_spec {ds : List Slot} (tidy : Tidy ds) (whole : ∀ d ∈ ds, d.length = DIRENT) {len : ℕ}
    (room : MAXNAMLEN + 2 ≤ len) :
    ∃ k, fill len ds [] = .ok (k, listing (names (ds.take k))) ∧ k ≤ ds.length ∧
      (listing (names (ds.take k)) = [] → names ds = []) := by
  obtain ⟨front, tail, rfl, plain, same, stops⟩ := tidy_split tidy whole
  rcases @fill_front front tail len (.ok ()) plain room (fun buf => stops len buf) [] with
    ⟨why, error, -⟩ | ⟨k, is, inside, all⟩
  · cases error
  · have first : (front ++ tail).take k = front.take k := List.take_append_of_le_length inside
    rw [List.nil_append] at is all
    exact ⟨k, by rw [is, first], by rw [List.length_append]; omega, by rw [first, same]; exact all⟩

/-! ## The listing -/

section Listing

variable {disk : Disk} {dir : Directory}

theorem slots_length : (slots disk dir.fs).length = nslots dir.fs := by simp [slots]

theorem slots_whole : ∀ d ∈ slots disk dir.fs, d.length = DIRENT := by
  intro d isIn
  obtain ⟨i, -, rfl⟩ := List.mem_map.mp isIn
  simp [slotAt]

theorem Tidy.drop {ds : List Slot} (tidy : Tidy ds) (i : ℕ) : Tidy (ds.drop i) :=
  ⟨fun d isIn => tidy.1 d (List.mem_of_mem_drop isIn), tidy.2.sublist (List.drop_sublist i ds)⟩

/-- The names in the first slots are the first names. -/
theorem names_take (ds : List Slot) (k : ℕ) : ∃ n, names (ds.take k) = (names ds).take n := by
  refine ⟨(names (ds.take k)).length, ?_⟩
  have split : names ds = names (ds.take k) ++ names (ds.drop k) := by
    rw [← names_append, List.take_append_drop]
  rw [split, List.take_left]

/-- One read and those behind it. -/
theorem readAll_cons {r : ReadRequest} {rest : List ReadRequest} {pos pos' : ℕ}
    {reply : List UChar} (is : vfsReaddir disk dir.fs r pos = .ok (pos', reply)) :
    readAll disk dir.fs (r :: rest) pos =
      (readAll disk dir.fs rest pos').map (reply :: ·) := by
  simp only [readAll, is, bind, Except.bind]
  cases readAll disk dir.fs rest pos' <;> rfl

/-- Reads of a tidy directory from a slot on. -/
theorem readAll_tidy (tidy : Tidy (slots disk dir.fs)) {requests : List ReadRequest}
    (asked : ∀ r ∈ requests, MAXNAMLEN + 2 ≤ r.mArg ∧ ∀ pos, r.found pos = true) {i : ℕ}
    (inside : i ≤ nslots dir.fs) :
    ∃ replies k, readAll disk dir.fs requests (posOf i) = .ok replies ∧
      replies.flatten = listing (names (((slots disk dir.fs).drop i).take k)) ∧
      ([] ∈ replies → replies.flatten = listing (names ((slots disk dir.fs).drop i))) := by
  induction requests generalizing i with
  | nil => exact ⟨[], 0, rfl, by simp, nofun⟩
  | cons r rest ih =>
    obtain ⟨room, fills⟩ := asked r List.mem_cons_self
    have room' : MAXNAMLEN + 2 ≤ min r.mArg 256 := le_min room (by decide)
    obtain ⟨k, filled, few, none_⟩ := fill_spec (tidy.drop i)
      (fun d isIn => @slots_whole disk dir d (List.mem_of_mem_drop isIn)) room'
    rw [List.length_drop, slots_length] at few
    have here := @vfsReaddir_eq disk dir r (lt_of_lt_of_le (by decide) room') fills i inside
    rw [filled] at here
    obtain ⟨replies, k', ran, text, all⟩ := @ih
      (fun r isIn => asked r (List.mem_cons_of_mem _ isIn)) (i + k) (by omega)
    rw [← List.drop_drop] at text all
    generalize (slots disk dir.fs).drop i = ds at *
    have both : listing (names (ds.take k)) ++ replies.flatten
        = listing (names (ds.take (k + k'))) := by
      rw [text, ← listing_append, ← names_append, ← List.take_add]
    refine ⟨listing (names (ds.take k)) :: replies, k + k', ?_, both, fun isIn => ?_⟩
    · rw [readAll_cons here, ran]
      rfl
    · rw [List.flatten_cons]
      rcases List.mem_cons.mp isIn with empty | later
      · have nothing := none_ empty.symm
        obtain ⟨n, first⟩ := names_take ds (k + k')
        rw [both, first, nothing, List.take_nil]
      · rw [all later, ← listing_append, ← names_append, List.take_append_drop]

/-- A slot where a read with just enough room stops, for a name in use that is too long or an empty
one. -/
theorem fill_stuck {d : Slot} (bad : (d.live ∧ MAXNAMLEN < d.text.length) ∨ d.first = 0#8)
    (rest : List Slot) : ∃ stop : Except ReadFault Unit, ∀ buf,
      fill (MAXNAMLEN + 2) (d :: rest) buf = stop.map fun _ => (0, buf) := by
  by_cases none_ : d.first = 0#8
  · exact ⟨.ok (), fun buf => by rw [fill, if_pos none_]; rfl⟩
  · obtain ⟨live, long⟩ := bad.resolve_right none_
    by_cases ends : 0#8 ∈ d
    · refine ⟨.ok (), fun buf => ?_⟩
      have full : MAXNAMLEN + 2 ≤ buf.length + (d.text.length + 1) := by omega
      rw [fill, if_neg none_, if_pos live, if_neg (not_not.mpr ends), if_pos full]
      rfl
    · exact ⟨.error .wild, fun buf => by rw [fill, if_neg none_, if_pos live, if_pos ends]; rfl⟩

/-- A read with just enough room for a name, and no error. -/
def smallRead : ReadRequest := ⟨MAXNAMLEN + 2, fun _ => true⟩

/-- Reads with just enough room get to a slot where they stop. -/
theorem readAll_stuck {d : Slot} (bad : (d.live ∧ MAXNAMLEN < d.text.length) ∨ d.first = 0#8)
    {rest front : List Slot} {i : ℕ} (split : (slots disk dir.fs).drop i = front ++ d :: rest)
    (plain : Plain front) (inside : i ≤ nslots dir.fs) :
    ∃ m, (∃ why, readAll disk dir.fs (List.replicate m smallRead) (posOf i) = .error why) ∨
      ∃ replies, readAll disk dir.fs (List.replicate m smallRead) (posOf i) = .ok replies ∧
        [] ∈ replies ∧ replies.flatten = listing (names front) := by
  obtain ⟨stop, stops⟩ := fill_stuck bad rest
  induction size : front.length using Nat.strong_induction_on generalizing front i with
  | _ left ih =>
  have here := @vfsReaddir_eq disk dir smallRead (by decide) (fun _ => rfl) i inside
  have len : min smallRead.mArg 256 = MAXNAMLEN + 2 := by decide
  rw [len, split] at here
  rcases fill_front plain le_rfl stops [] with ⟨why, -, is⟩ | ⟨k, is, within, all⟩
  · refine ⟨1, .inl ⟨why, ?_⟩⟩
    rw [is] at here
    simp only [List.replicate_one, readAll, here, Except.map, bind, Except.bind]
  · rw [List.nil_append] at is all
    rw [is] at here
    by_cases empty : listing (names (front.take k)) = []
    · refine ⟨1, .inr ⟨[[]], ?_, List.mem_singleton_self _, ?_⟩⟩
      · rw [List.replicate_one, readAll_cons here, empty]
        rfl
      · rw [all empty]
        rfl
    · have some_ : k ≠ 0 := by
        rintro rfl
        exact empty rfl
      have split' : (slots disk dir.fs).drop (i + k) = front.drop k ++ d :: rest := by
        rw [← List.drop_drop, split, List.drop_append_of_le_length within]
      have plain' : Plain (front.drop k) := fun e isIn => plain e (List.mem_of_mem_drop isIn)
      have length := congrArg List.length split
      rw [List.length_drop, slots_length, List.length_append] at length
      have shorter : (front.drop k).length < left := by
        rw [List.length_drop]
        omega
      obtain ⟨m, ran⟩ := ih _ shorter split' plain' (by omega) rfl
      refine ⟨m + 1, ?_⟩
      rw [List.replicate_succ, readAll_cons here]
      rcases ran with ⟨why, error⟩ | ⟨replies, ok, isIn, text⟩
      · exact .inl ⟨why, by rw [error]; rfl⟩
      · refine .inr ⟨_, by rw [ok]; rfl, List.mem_cons_of_mem _ isIn, ?_⟩
        rw [List.flatten_cons, text, ← listing_append, ← names_append, List.take_append_drop]

/-- What is not tidy has a first slot where reads stop, with a name in use there or behind it. -/
theorem not_tidy {ds : List Slot} (untidy : ¬Tidy ds) (whole : ∀ d ∈ ds, d.length = DIRENT) :
    ∃ front d rest, ds = front ++ d :: rest ∧ Plain front ∧
      ((d.live ∧ MAXNAMLEN < d.text.length) ∨ d.first = 0#8) ∧ names (d :: rest) ≠ [] := by
  induction ds with
  | nil => exact absurd ⟨nofun, List.Pairwise.nil⟩ untidy
  | cons d rest ih =>
    by_cases here : (d.live ∧ MAXNAMLEN < d.text.length) ∨ (d.first = 0#8 ∧ names rest ≠ [])
    · refine ⟨[], d, rest, rfl, nofun, here.imp_right And.left, ?_⟩
      rcases here with ⟨live, -⟩ | ⟨none_, some_⟩
      · rw [names_live live]
        exact List.cons_ne_nil _ _
      · rwa [names_other fun live => live.1 none_]
    · obtain ⟨short, named⟩ := not_or.mp here
      by_cases none_ : d.first = 0#8
      · -- behind an empty name there is none in use, so the directory is tidy
        have nothing : names rest = [] := by
          by_contra some_
          exact named ⟨none_, some_⟩
        have dead : ∀ e ∈ rest, ¬e.live := fun e isIn live => by
          rw [names, List.map_eq_nil_iff, List.filter_eq_nil_iff] at nothing
          exact nothing e isIn (by simpa using live)
        refine absurd ⟨fun e isIn live => ?_, List.pairwise_cons.mpr ⟨fun e isIn live =>
          absurd live (dead e isIn), ?_⟩⟩ untidy
        · rcases List.mem_cons.mp isIn with rfl | later
          · exact absurd none_ live.1
          · exact absurd live (dead e later)
        · exact List.pairwise_of_forall_mem_list fun a _ b isIn live => absurd live (dead b isIn)
      · have untidy' : ¬Tidy rest := fun tidy => untidy ⟨fun e isIn live => by
          rcases List.mem_cons.mp isIn with rfl | later
          · exact not_lt.mp fun long => short ⟨live, long⟩
          · exact tidy.1 e later live, List.pairwise_cons.mpr ⟨fun _ _ _ => none_, tidy.2⟩⟩
        obtain ⟨front, e, tail, rfl, plain, bad, some_⟩ := ih untidy'
          fun e isIn => whole e (List.mem_cons_of_mem _ isIn)
        refine ⟨d :: front, e, tail, rfl, fun g isIn => ?_, bad, some_⟩
        rcases List.mem_cons.mp isIn with rfl | later
        · exact ⟨whole g List.mem_cons_self, none_, fun live => not_lt.mp fun long =>
            short ⟨live, long⟩⟩
        · exact plain g later

theorem tidy_of_complete (complete : Complete dir disk) : Tidy (slots disk dir.fs) := by
  by_contra untidy
  obtain ⟨front, d, rest, split, plain, bad, some_⟩ := not_tidy untidy slots_whole
  obtain ⟨m, ran⟩ := @readAll_stuck disk dir d bad rest front 0 split plain (Nat.zero_le _)
  obtain ⟨replies, n, is, -, all⟩ := complete (List.replicate m smallRead) fun r isIn => by
    obtain rfl := List.eq_of_mem_replicate isIn
    exact ⟨le_rfl, fun _ => rfl⟩
  rcases ran with ⟨why, error⟩ | ⟨replies', is', isIn, text⟩
  · rw [show posOf 0 = OFF_DATA from rfl, is] at error
    cases error
  · rw [show posOf 0 = OFF_DATA from rfl, is] at is'
    cases is'
    rw [all isIn, split, names_append, listing_append] at text
    exact some_ (listing_eq_nil.mp (List.append_right_eq_self.mp text))

end Listing

/-- **The listing of a directory is complete just when it is tidy.** -/
theorem complete_iff (dir : Directory) (disk : Disk) :
    Complete dir disk ↔ Tidy (slots disk dir.fs) := by
  refine ⟨tidy_of_complete, fun tidy requests asked => ?_⟩
  obtain ⟨replies, k, ran, text, all⟩ := readAll_tidy tidy asked (Nat.zero_le _)
  rw [List.drop_zero] at text all
  obtain ⟨n, first⟩ := names_take (slots disk dir.fs) k
  exact ⟨replies, n, ran, by rw [text, first], all⟩

/-- A directory with one slot. -/
def oneSlot : Directory where
  fs := ⟨352, [⟨1, 1⟩]⟩
  laid := ⟨by decide, by decide, by decide, by decide⟩
  aligned := by decide

/-- The slot has a name of 28 characters, and the start 5. -/
def fullName : Disk where
  free := 0
  held := 0
  data a := if a < 860 then 97#8 else if a = 860 then 5#8 else 0#8

/-- **A name of 28 characters** is not listed: the first byte of its start is taken for more of it,
and so it has no room where a name of 28 characters has. -/
theorem full_name_unlisted : ¬Complete oneSlot fullName := by
  intro complete
  have slot : slots fullName oneSlot.fs = [List.replicate 28 97#8 ++ [5#8, 0#8, 0#8, 0#8]] := by
    decide
  have tidy := tidy_of_complete complete
  rw [slot] at tidy
  exact absurd (tidy.1 _ List.mem_cons_self (by decide)) (by decide)

end Vsta.Vstafs.Bytes
