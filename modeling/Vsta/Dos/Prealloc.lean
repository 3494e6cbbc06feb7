import Vsta.Dos.Chains

/-!
# Contiguous allocation in FAT32

`fat32_prealloc` looks for a run of free clusters. The outer loop stands at a candidate; the inner
loop counts the free clusters from there, and when it meets one in use moves the candidate to it.
What carries the search is that no run starts in front of the candidate (`findRun_finds`). The
clusters of the run are then chained one by one (`linkRun_linked`).
-/

set_option autoImplicit false

namespace Vsta.Dos

open WriteBack Except

variable (b : Boot)

/-- The clusters of a run are chained, and the last one gets the end mark. -/
def linkRun (cl newclust : ℕ) (s : State) (run : List ℕ) : Except Fault State :=
  run.foldlM (fun s x =>
    set b s (cl + x) (if x + 1 < newclust then cl + x + 1 else b.format.FAT_EOF)) s

/-- `fat32_prealloc`, and whether it succeeds. -/
def fat32Prealloc (s : State) (h newclust : ℕ) (mem : Bool) : Except Fault (State × Bool) := do
  let (s, cl, cnt) ← findRun b newclust b.nclust s 0 0
  if cnt < newclust ∨ !mem then .ok (s, false)
  else
    let s ← linkRun b cl newclust s (List.range newclust)
    let s := s.addFree (-BitVec.ofNat 32 newclust)
    .ok ({ s with
      clusts := Function.update s.clusts h ((List.range newclust).map (cl + ·))
      fatDirty := true }, true)

/-- `clust_prealloc` of a FAT32 is `fat32_prealloc`, for a file that has no clusters. -/
theorem clustPrealloc_fat32 {b : Boot} {s : State} {h : ℕ} (format : b.format = .fat32)
    (empty : s.clusts h = []) (newlen : ULong) (mem : Bool) :
    clustPrealloc b s h newlen mem = (fat32Prealloc b s h (clusters b newlen) mem).map (·.1) := by
  have other : ¬s.clusts h ≠ [] := not_not_intro empty
  have same : ¬b.format ≠ .fat32 := not_not_intro format
  simp only [clustPrealloc, fat32Prealloc, if_neg other, if_neg same]
  cases findRun b (clusters b newlen) b.nclust s 0 0 with
  | error e => rfl
  | ok r =>
      obtain ⟨t, cl, cnt⟩ := r
      simp only [ok_bind]
      split_ifs
      · rfl
      · change _ = Except.map _ (linkRun b cl _ t _ >>= _)
        cases linked : linkRun b cl (clusters b newlen) t (List.range (clusters b newlen)) with
        | error e => rw [linkRun] at linked; rw [linked]; rfl
        | ok u => rw [linkRun] at linked; rw [linked]; rfl

/-! ## Words -/

variable {bytes : ℕ → UChar} {at_ other : ℕ} {val : ULong}

/-- A word that was stored. -/
theorem word_setWord : word (setWord bytes at_ val) at_ = val := by
  have first : setWord bytes at_ val at_ = (val >>> 0).setWidth 8 :=
    put_inside (i := 0) (by decide)
  rw [word, first, setWord, put_inside (by decide), put_inside (by decide),
    put_inside (by decide)]
  refine BitVec.eq_of_getLsbD_eq fun i inside => ?_
  simp only [BitVec.getLsbD_append, BitVec.getLsbD_setWidth, BitVec.getLsbD_ushiftRight]
  grind

/-- A word beside one that was stored. -/
theorem word_setWord_of_apart (apart : other + 4 ≤ at_ ∨ at_ + 4 ≤ other) :
    word (setWord bytes at_ val) other = word bytes other := by
  simp only [word, setWord]
  rw [put_outside (by omega), put_outside (by omega), put_outside (by omega),
    put_outside (by omega)]

/-! ## The search -/

/-- Clusters that are free, one after the other. -/
def FreeRun (s : State) (cl n : ℕ) : Prop :=
  cl + n ≤ b.nclust ∧ ∀ i < n, entryAt b s (cl + i) = 0

/-- A FAT32 with an entry for each cluster, each in a segment that the server has a slot for, and a
dirty map for them. -/
structure Whole (s : State) : Prop where
  format : b.format = .fat32
  entries : b.nclust * 4 ≤ b.fatlenBytes
  slots : b.fatlenBytes + Boot.FATSEGSIZE ≤ 2 ^ 32
  map : s.dirtymap.length = b.dirtymapsize

variable {b} {s t u : State}

/-- What a search does: it loads segments, and finds the entries as they are. -/
structure Searching (b : Boot) (s t : State) : Prop where
  same : Same b s t
  rest : ∃ fatv, t = { s with fatv := fatv }

theorem Searching.refl (s : State) : Searching b s s := ⟨rfl, s.fatv, rfl⟩

theorem Searching.trans (one : Searching b s t) (two : Searching b t u) : Searching b s u := by
  obtain ⟨same, fatv, rfl⟩ := one
  obtain ⟨same', fatv', rfl⟩ := two
  exact ⟨same.trans same', fatv', rfl⟩

theorem Searching.freeRun_iff (kept : Searching b s t) (cl n : ℕ) :
    FreeRun b t cl n ↔ FreeRun b s cl n := by
  rw [FreeRun, FreeRun, kept.same]

theorem Searching.whole (kept : Searching b s t) (whole : Whole b s) : Whole b t := by
  obtain ⟨-, fatv, rfl⟩ := kept
  exact ⟨whole.format, whole.entries, whole.slots, whole.map⟩

/-- Each cluster has its segment. -/
theorem Whole.slot (whole : Whole b s) {cl : ℕ} (inside : cl < b.nclust) :
    FATSEG cl < b.nfatv := by
  have entries := whole.entries
  have slots := whole.slots
  simp only [Boot.FATSEGSIZE] at slots
  simp only [FATSEG, Boot.nfatv, roundup, wrap, Boot.FATSEGSIZE]
  omega

/-- Each cluster has its mark in the dirty map. -/
theorem Whole.marked (whole : Whole b s) {cl : ℕ} (inside : cl < b.nclust) :
    wrap (cl * 4) / SECSZ < s.dirtymap.length := by
  have entries := whole.entries
  have slots := whole.slots
  simp only [Boot.FATSEGSIZE] at slots
  rw [whole.map, Boot.dirtymapsize, whole.format]
  simp only [roundup, SECSZ, wrap]
  omega

/-- A read in a whole FAT32. -/
theorem Whole.get (whole : Whole b s) {cl : ℕ} (inside : cl < b.nclust) :
    ∃ t, get b s cl = .ok (t, entryAt b s cl) ∧ Searching b s t := by
  refine ⟨load b s (FATSEG cl), ?_, same_load whole.format _, _, rfl⟩
  rw [Dos.get, entryAt, whole.format]
  simp only [lookup_eq (whole.slot inside)]
  rfl

/-- How the inner loop ends, from a candidate `start`. -/
def Stopped (b : Boot) (s : State) (n start cnt : ℕ) : Stop → Prop
  | .enough => cnt = n ∧ FreeRun b s start n
  | .used cl => start ≤ cl ∧ cl < b.nclust ∧ entryAt b s cl ≠ 0 ∧ cl < start + n ∧ cnt < n
  | .over_ => b.nclust < start + n ∧ cnt < n

/-- **The inner loop counts the free clusters from a candidate.** -/
theorem freeRun_finds {n start : ℕ} (left : ℕ) {cl cnt : ℕ} (whole : Whole b s)
    (place : start + cnt = cl) (room : cl + left = b.nclust) (few : cnt < n)
    (free : ∀ i < cnt, entryAt b s (start + i) = 0) :
    ∃ t cnt' stop, freeRun b n left s cl cnt = .ok (t, cnt', stop) ∧ Searching b s t ∧
      Stopped b s n start cnt' stop := by
  induction left generalizing s cl cnt with
  | zero => exact ⟨s, cnt, .over_, rfl, .refl s, by omega, few⟩
  | succ left ih =>
      have inside : cl < b.nclust := by omega
      obtain ⟨t, read, kept⟩ := whole.get inside
      rw [freeRun, read, ok_bind]
      dsimp only
      by_cases used : entryAt b s cl ≠ 0
      · rw [if_pos used]
        exact ⟨t, cnt, .used cl, rfl, kept, by omega, by omega, used, by omega, few⟩
      · have more : ∀ i < cnt + 1, entryAt b s (start + i) = 0 := by
          intro i inside
          rcases Nat.lt_succ_iff_lt_or_eq.mp inside with before | rfl
          · exact free i before
          · rw [place]
            exact not_not.mp used
        rw [if_neg used]
        by_cases enough : n ≤ cnt + 1
        · rw [if_pos enough]
          have size : cnt + 1 = n := by omega
          exact ⟨t, cnt + 1, .enough, rfl, kept, size, by omega, size ▸ more⟩
        · rw [if_neg enough]
          have place' : start + (cnt + 1) = cl + 1 := by omega
          obtain ⟨u, cnt', stop, found, kept', stopped⟩ := ih (kept.whole whole) place'
            (by omega) (by omega) (by rwa [kept.same])
          refine ⟨u, cnt', stop, found, kept.trans kept', ?_⟩
          cases stop with
          | enough => exact ⟨stopped.1, (kept.freeRun_iff _ _).mp stopped.2⟩
          | used cl' =>
              obtain ⟨least, most, used', near, short⟩ := stopped
              rw [kept.same] at used'
              exact ⟨least, most, used', near, short⟩
          | over_ => exact stopped

/-- No run starts in front of a candidate. -/
def Passed (b : Boot) (s : State) (n cl : ℕ) : Prop := ∀ r < cl, ¬FreeRun b s r n

/-- A cluster in use rules out the runs it would be in. -/
theorem Passed.used {n cl cl' : ℕ} (passed : Passed b s n cl) (used : entryAt b s cl' ≠ 0)
    (near : cl' < cl + n) : Passed b s n (cl' + 1) := by
  intro r before run
  by_cases first : r < cl
  · exact passed r first run
  · refine used ?_
    have there := run.2 (cl' - r) (by omega)
    rwa [Nat.add_sub_cancel' (by omega)] at there

/-- Behind the last place where there is room, no run starts. -/
theorem Passed.end_ {n cl cl' : ℕ} (passed : Passed b s n cl) (short : b.nclust < cl + n) :
    Passed b s n cl' := by
  intro r _ run
  by_cases first : r < cl
  · exact passed r first run
  · have := run.1
    omega

/-- **The outer loop finds a run, or there is none.** -/
theorem findRun_finds {n : ℕ} (some_ : 0 < n) (fuel : ℕ) {cl cnt : ℕ} (whole : Whole b s)
    (enough : b.nclust ≤ cl + fuel) (few : cnt < n) (passed : Passed b s n cl) :
    ∃ t cl' cnt', findRun b n fuel s cl cnt = .ok (t, cl', cnt') ∧ Searching b s t ∧
      ((n ≤ cnt' ∧ FreeRun b s cl' n) ∨ (cnt' < n ∧ ∀ r, ¬FreeRun b s r n)) := by
  have beyond : ∀ {cl : ℕ}, b.nclust ≤ cl → Passed b s n cl → ∀ r, ¬FreeRun b s r n := by
    intro cl out passed r
    have all : Passed b s n (r + 1) := passed.end_ (by omega)
    exact all r (Nat.lt_succ_self r)
  induction fuel generalizing s cl cnt with
  | zero => exact ⟨s, cl, cnt, rfl, .refl s, .inr ⟨few, beyond (by omega) passed⟩⟩
  | succ fuel ih =>
      -- The search goes on behind a place that is passed, from a state with the same entries.
      have on : ∀ {u : State} {next cnt' : ℕ}, Searching b s u → cl < next → cnt' < n →
          Passed b s n next → ∃ t cl' cnt'', findRun b n fuel u next cnt' = .ok (t, cl', cnt'') ∧
            Searching b s t ∧
              ((n ≤ cnt'' ∧ FreeRun b s cl' n) ∨ (cnt'' < n ∧ ∀ r, ¬FreeRun b s r n)) := by
        intro u next cnt' kept ahead few passed
        have passed' : Passed b u n next := fun r before run =>
          passed r before ((kept.freeRun_iff r n).mp run)
        obtain ⟨t, cl', cnt'', found, kept', finds⟩ := ih (kept.whole whole) (by omega) few passed'
          fun out none_ r run => (beyond out fun r' before run' =>
            none_ r' before ((kept.freeRun_iff r' n).mpr run')) r ((kept.freeRun_iff r n).mp run)
        simp only [kept.freeRun_iff] at finds
        exact ⟨t, cl', cnt'', found, kept.trans kept', finds⟩
      rw [findRun]
      by_cases out : b.nclust ≤ cl
      · rw [if_pos out]
        exact ⟨s, cl, cnt, rfl, .refl s, .inr ⟨few, beyond out passed⟩⟩
      rw [if_neg out]
      obtain ⟨t, read, kept⟩ := whole.get (not_le.mp out)
      rw [read, ok_bind]
      dsimp only
      by_cases used : entryAt b s cl ≠ 0
      · rw [if_pos used]
        exact on kept (Nat.lt_succ_self cl) few (passed.used used (by omega))
      rw [if_neg used]
      obtain ⟨u, cnt', stop, counted, kept', stopped⟩ := freeRun_finds (b.nclust - cl)
        (kept.whole whole) (Nat.add_zero cl) (by omega) some_ nofun
      rw [counted, ok_bind]
      have both := kept.trans kept'
      cases stop with
      | enough =>
          obtain ⟨rfl, run⟩ := stopped
          exact ⟨u, cl, cnt', rfl, both, .inl ⟨le_rfl, (kept.freeRun_iff cl cnt').mp run⟩⟩
      | used cl' =>
          obtain ⟨least, -, used', near, short⟩ := stopped
          rw [kept.same] at used'
          dsimp only
          rw [if_neg (by omega)]
          exact on both (by omega) short (passed.used used' near)
      | over_ =>
          dsimp only
          rw [if_neg (by have := stopped.2; omega)]
          exact on both (Nat.lt_succ_self cl) stopped.2 (passed.end_ stopped.1)

/-! ## The links -/

/-- The places of two entries of a segment are the same, or apart. -/
theorem entry_apart {x y : ℕ} (small : x < 2 ^ 30) (small' : y < 2 ^ 30) (other : y ≠ x)
    (seg : FATSEG y = FATSEG x) :
    FATIDX y * 4 + 4 ≤ FATIDX x * 4 ∨ FATIDX x * 4 + 4 ≤ FATIDX y * 4 := by
  rw [FATSEG, FATSEG, wrap_eq (by omega), wrap_eq (by omega)] at seg
  simp only [FATIDX, Boot.FATSEGSIZE] at seg ⊢
  omega

theorem Whole.small (whole : Whole b s) {cl : ℕ} (inside : cl < b.nclust) : cl < 2 ^ 30 := by
  have entries := whole.entries
  have slots := whole.slots
  omega

/-- An entry of a FAT32 is changed and its sector is marked. -/
def withEntry (b : Boot) (s : State) (cl val : ℕ) : State :=
  { s with
    fatv := Function.update (load b s (FATSEG cl)).fatv (FATSEG cl)
      (some (setWord (segment b s (FATSEG cl)) (FATIDX cl * 4) (BitVec.ofNat 32 val)))
    dirtymap := s.dirtymap.set (wrap (cl * 4) / SECSZ) true }

/-- **An entry is changed, and no other.** -/
theorem Whole.set (whole : Whole b s) {cl val : ℕ} (inside : cl < b.nclust)
    (fits : val < 2 ^ 32) :
    ∃ t, set b s cl val = .ok t ∧ Whole b t ∧ t.clusts = s.clusts ∧
      ∀ y < 2 ^ 30, entryAt b t y = if y = cl then val else entryAt b s y := by
  have format := whole.format
  have marked := whole.marked inside
  refine ⟨withEntry b s cl val, ?_, ?_, rfl, ?_⟩
  · rw [Dos.set, store, format]
    simp only [lookup_eq (whole.slot inside), ok_bind, Format.marks, List.foldlM_cons,
      List.foldlM_nil, State.mark]
    have marked' : wrap (cl * 4) / SECSZ < (load b s (FATSEG cl)).dirtymap.length := marked
    rw [if_pos marked']
    rfl
  · refine ⟨format, whole.entries, whole.slots, ?_⟩
    rw [← whole.map]
    exact List.length_set
  · intro y small
    by_cases here : y = cl
    · subst here
      simp only [withEntry, entryAt, format, segment, Function.update_self, if_pos, word_setWord]
      rw [BitVec.toNat_ofNat, Nat.mod_eq_of_lt fits]
    · rw [if_neg here]
      simp only [entryAt, format]
      by_cases seg : FATSEG y = FATSEG cl
      · have apart := entry_apart (whole.small inside) small here seg
        simp only [withEntry, segment, seg, Function.update_self, word_setWord_of_apart apart]
      · simp only [withEntry, segment, load, Function.update_of_ne seg]

/-- A chain of the clusters from `cl`, of which `k` are linked. -/
def Chained (b : Boot) (s t : State) (cl n k : ℕ) : Prop :=
  ∀ y < 2 ^ 30, entryAt b t y =
    if cl ≤ y ∧ y < cl + k then (if y + 1 < cl + n then y + 1 else b.format.FAT_EOF)
    else entryAt b s y

/-- **The clusters of a run are linked.** -/
theorem linkRun_linked {cl n : ℕ} (whole : Whole b s) (room : cl + n ≤ b.nclust) (k : ℕ)
    (few : k ≤ n) :
    ∃ t, linkRun b cl n s (List.range k) = .ok t ∧ Whole b t ∧ t.clusts = s.clusts ∧
      Chained b s t cl n k := by
  induction k with
  | zero =>
      refine ⟨s, rfl, whole, rfl, fun y _ => ?_⟩
      rw [if_neg (by omega)]
  | succ k ih =>
      obtain ⟨t, linked, whole', clusts, chained⟩ := ih (by omega)
      have inside : cl + k < b.nclust := by omega
      have small := whole'.small inside
      have fits : (if k + 1 < n then cl + k + 1 else b.format.FAT_EOF) < 2 ^ 32 := by
        rw [whole.format]
        split_ifs
        · omega
        · decide
      obtain ⟨u, stored, whole'', clusts', entries⟩ :=
        whole'.set inside fits
      refine ⟨u, ?_, whole'', clusts'.trans clusts, fun y small' => ?_⟩
      · rw [linkRun, List.range_succ, List.foldlM_append]
        rw [linkRun] at linked
        rw [linked, ok_bind, List.foldlM_cons, stored]
        rfl
      · rw [entries y small', chained y small']
        by_cases here : y = cl + k
        · subst here
          have new : cl ≤ cl + k ∧ cl + k < cl + (k + 1) := by omega
          have next : cl + k + 1 < cl + n ↔ k + 1 < n := by omega
          rw [if_pos rfl, if_pos new]
          simp only [next]
        · rw [if_neg here]
          have old : cl ≤ y ∧ y < cl + (k + 1) ↔ cl ≤ y ∧ y < cl + k := by omega
          simp only [old]

/-! ## The allocation -/

/-- A run of free clusters has become the chain of a file. -/
def Taken (b : Boot) (s t : State) (h n : ℕ) : Prop :=
  ∃ cl, 2 ≤ cl ∧ FreeRun b s cl n ∧
    t.clusts = Function.update s.clusts h ((List.range n).map (cl + ·)) ∧
    (∀ i < n, entryAt b t (cl + i) = if i + 1 < n then cl + i + 1 else b.format.FAT_EOF) ∧
    ∀ y, InFat b y → y < cl ∨ cl + n ≤ y → entryAt b t y = entryAt b s y

/-- What changes beside the entries. -/
theorem entryAt_done (free : ULong) (clusts : ℕ → List ℕ) (dirty : Bool) :
    entryAt b { s.addFree free with clusts := clusts, fatDirty := dirty } = entryAt b s := by
  funext y
  rfl

/-- With two reserved entries in use, a run starts behind them. -/
theorem FreeRun.two_le {cl n : ℕ} (some_ : 0 < n) (first : entryAt b s 0 ≠ 0)
    (second : entryAt b s 1 ≠ 0) (run : FreeRun b s cl n) : 2 ≤ cl := by
  have free := run.2 0 some_
  rw [Nat.add_zero] at free
  by_contra low
  obtain rfl | rfl : cl = 0 ∨ cl = 1 := by omega
  · exact first free
  · exact second free

/-- **Contiguous allocation.** It succeeds exactly when there is a run of free clusters, and memory
for the list of them; then one such run becomes the chain, and no other entry changes. When it
fails, no entry changes. -/
theorem prealloc_iff (whole : Whole b s) (first : entryAt b s 0 ≠ 0) (second : entryAt b s 1 ≠ 0)
    (h : ℕ) {n : ℕ} (some_ : 0 < n) (mem : Bool) :
    ∃ t done, fat32Prealloc b s h n mem = .ok (t, done) ∧
      (done = true ↔ (∃ cl, 2 ≤ cl ∧ FreeRun b s cl n) ∧ mem = true) ∧
      (done = true → Taken b s t h n) ∧ (done = false → entryAt b t = entryAt b s) := by
  obtain ⟨t, cl, cnt, found, kept, finds⟩ := findRun_finds some_ b.nclust whole
    (Nat.le_add_left _ 0) some_ (fun r before => absurd before (Nat.not_lt_zero r))
  rw [fat32Prealloc, found, ok_bind]
  dsimp only
  rcases finds with ⟨enough, run⟩ | ⟨short, none_⟩
  · have start := run.two_le some_ first second
    cases mem with
    | false =>
        rw [if_pos (by simp)]
        exact ⟨t, false, rfl, by simp, nofun, fun _ => kept.same⟩
    | true =>
        obtain ⟨u, linked, whole', clusts, chained⟩ :=
          linkRun_linked (kept.whole whole) run.1 n le_rfl
        rw [if_neg (by simp; omega), linked, ok_bind]
        refine ⟨_, true, rfl, by simpa using ⟨cl, start, run⟩, fun _ => ?_, nofun⟩
        refine ⟨cl, start, run, ?_, fun i inside => ?_, fun y inFat off => ?_⟩
        · obtain ⟨-, fatv, rfl⟩ := kept
          have same : (u.addFree (-BitVec.ofNat 32 n)).clusts = s.clusts := clusts
          exact congrArg (Function.update · h _) same
        · have within : cl + i < b.nclust := (Nat.add_lt_add_left inside cl).trans_le run.1
          have small := whole.small within
          rw [entryAt_done, chained _ small, if_pos (by omega)]
          have next : cl + i + 1 < cl + n ↔ i + 1 < n := by omega
          simp only [next]
        · rw [entryAt_done, chained y (inFat.small.trans (by decide)), if_neg (by omega), kept.same]
  · rw [if_pos (.inl short)]
    refine ⟨t, false, rfl, ?_, nofun, fun _ => kept.same⟩
    simp only [Bool.false_eq_true, false_iff, not_and]
    rintro ⟨r, -, run⟩
    exact absurd run (none_ r)

/-- A FAT32 with four clusters. -/
def four : Boot := ⟨512, 1, 1, 2, 0, 4, 0, 0, 1, 2, 0xFFFF⟩

/-- Its two reserved entries are in use. -/
def reserved : State :=
  ⟨fun a => if a = 512 ∨ a = 516 then 1 else 0, [], fun _ => 0, fun _ => none, [false], 0, false,
    none, 0, fun _ => []⟩

/-- The two clusters are free. -/
theorem reserved_free : 2 ≤ 2 ∧ FreeRun four reserved 2 2 :=
  ⟨le_rfl, by decide, by decide⟩

/-- The two clusters are taken. -/
theorem prealloc_iff_four :
    ∃ t, fat32Prealloc four reserved 0 2 true = .ok (t, true) ∧ Taken four reserved t 0 2 := by
  have whole : Whole four reserved := ⟨by decide, by decide, by decide, by decide⟩
  obtain ⟨t, done, ran, iff_, taken, -⟩ :=
    prealloc_iff whole (by decide) (by decide) 0 (n := 2) Nat.two_pos true
  obtain rfl : done = true := iff_.mpr ⟨⟨2, reserved_free⟩, rfl⟩
  exact ⟨t, ran, taken rfl⟩

/-- **A run, and no memory.** The clusters are free, and the call fails. -/
theorem prealloc_no_memory :
    (∃ cl, 2 ≤ cl ∧ FreeRun four reserved cl 2) ∧
      ∃ t, fat32Prealloc four reserved 0 2 false = .ok (t, false) :=
  ⟨⟨2, reserved_free⟩, _, rfl⟩

end Vsta.Dos
