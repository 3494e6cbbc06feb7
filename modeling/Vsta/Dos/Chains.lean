import Vsta.Dos.Fat
import Vsta.Library.Ensures
import Vsta.Library.Links

/-!
# Reading a chain of the FAT

`fat12_alloc`, `fat16_alloc` and `fat32_alloc` walk the chain of a file twice: once for its length,
once to copy it. Nothing in either loop bounds the walk, and nothing but the dirt on the disk says
where it goes. `alloc_safe_iff` says when the walk is safe: when the links come to an end mark, all
of the clusters on the way have an entry in the FAT, and none but the last is one of the two
reserved ones. Then no cluster is passed twice, so that the count does not wrap and the copy fits
its array.
-/

set_option autoImplicit false

namespace Vsta.Dos

open Linked

variable (b : Boot)

/-- The fields of a directory entry that have its first cluster. -/
structure Directory where
  startHi : UShort
  start : UShort
  deriving DecidableEq, Repr

/-- `START`. -/
def START (d : Directory) : ℕ :=
  match b.format with
  | .fat12 | .fat16 => d.start.toNat
  | .fat32 => d.startHi.toNat * 2 ^ 16 + d.start.toNat

/-- The scan for the length of a chain, and the entries it looks at. With no fuel it goes on. -/
def countClust : ℕ → State → ℕ → Except Fault (State × ℕ × List ℕ)
  | 0, _, _ => .error .endless
  | fuel + 1, s, x => do
      let (s, val) ← get b s x
      if val < b.format.FAT_RESERVED then
        if x < 2 then .error .assfail
        else
          let (s, next) ← get b s x
          let (s, nclust, reads) ← countClust fuel s next
          .ok (s, wrap (nclust + 1), x :: x :: reads)
      else .ok (s, 1, [x])

/-- The scan that records each cluster, in an array of `cap` from its place `n`. -/
def copyClust (cap : ℕ) : ℕ → State → ℕ → ℕ → Except Fault (State × List ℕ × List ℕ)
  | 0, _, _, _ => .error .endless
  | fuel + 1, s, x, n =>
      if cap ≤ n then .error .wild
      else do
        let (s, next) ← get b s x
        if next < b.format.FAT_RESERVED then
          let (s, cClust, reads) ← copyClust cap fuel s next (n + 1)
          .ok (s, x :: cClust, x :: reads)
        else .ok (s, [x], [x])

/-- `fat12_alloc`, `fat16_alloc` and `fat32_alloc`: the number of clusters with the array, or none
when there is no memory for it, and the entries that were read. -/
def fatAlloc (fuel : ℕ) (s : State) (d : Directory) (mem : Bool) :
    Except Fault (State × Option (ℕ × List ℕ) × List ℕ) := do
  let start := START b d
  let (s, nclust, reads) ← countClust b fuel s start
  if !mem then .ok (s, none, reads)
  else
    let (s, cClust, again) ← copyClust b (wrap (nclust * 4) / 4) fuel s start 0
    .ok (s, some (nclust, cClust), reads ++ again)

/-! ## Entries -/

/-- A segment of a FAT32, as it is in memory or would be read. -/
def segment (s : State) (seg : ℕ) : ℕ → UChar :=
  match s.fatv seg with
  | some fatp => fatp
  | none => fun i => s.disk (wrap (b.fatbase * SECSZ + seg * Boot.FATSEGSIZE) + i)

/-- What `get` finds. -/
def entryAt (s : State) (idx : ℕ) : ℕ :=
  match b.format with
  | .fat12 => entry12 s.fat idx
  | .fat16 => (half s.fat (idx * 2)).toNat
  | .fat32 => (word (segment b s (FATSEG idx)) (FATIDX idx * 4)).toNat

/-- The bytes of an entry lie in the FAT. -/
def InFat (idx : ℕ) : Prop :=
  match b.format with
  | .fat12 => idx * 3 / 2 + 1 < b.fatlenBytes
  | .fat16 => idx * 2 + 1 < b.fatlenBytes
  | .fat32 => idx * 4 + 3 < b.fatlenBytes

instance (idx : ℕ) : Decidable (InFat b idx) := by
  unfold InFat
  cases b.format <;> infer_instance

/-- FAT32 has a slot for the segment of an entry. -/
def Loadable (idx : ℕ) : Prop := b.format = .fat32 → FATSEG idx < b.nfatv

instance (idx : ℕ) : Decidable (Loadable b idx) := inferInstanceAs (Decidable (_ → _))

/-- A cluster with an end mark. -/
def IsLast (s : State) (x : ℕ) : Prop := b.format.FAT_RESERVED ≤ entryAt b s x

/-- The clusters that the links of the FAT lead to. -/
abbrev Clusters (s : State) : ℕ → List ℕ → Prop := Chain (entryAt b s) (IsLast b s)

/-! ## What is safe, and when -/

/-- **A chain is read safely.** The call returns, it reads entries of the FAT alone, and when it
succeeds it has the clusters of the chain. -/
def Safe (s : State) (d : Directory) (mem : Bool) : Prop :=
  ∃ fuel t result reads, fatAlloc b fuel s d mem = .ok (t, result, reads) ∧
    (∀ x ∈ reads, InFat b x) ∧
    ∀ nclust cClust, result = some (nclust, cClust) →
      nclust = cClust.length ∧ Clusters b s (START b d) cClust

/-- The cluster that `i` links lead to from the first. -/
def link (s : State) (d : Directory) (i : ℕ) : ℕ := (entryAt b s)^[i] (START b d)

/-- **The links come to an end mark, through entries of the FAT, and meet no reserved cluster
before.** -/
def Ending (s : State) (d : Directory) : Prop :=
  ∃ k, IsLast b s (link b s d k) ∧
    (∀ i ≤ k, InFat b (link b s d i) ∧ Loadable b (link b s d i)) ∧
    ∀ i < k, 2 ≤ link b s d i

variable {b} {s t : State} {x : ℕ} {l : List ℕ}

/-! ## One read -/

/-- A read changes no entry. -/
def Same (b : Boot) (s t : State) : Prop := entryAt b t = entryAt b s

theorem Same.trans {u : State} (one : Same b s t) (two : Same b t u) : Same b s u :=
  Eq.trans two one

theorem Same.isLast (same : Same b s t) : IsLast b t = IsLast b s :=
  funext fun x => by rw [IsLast, IsLast, same]

theorem Same.clusters (same : Same b s t) : Clusters b t = Clusters b s := by
  rw [Clusters, Clusters, same.isLast, same]

/-- A segment is loaded. -/
def load (b : Boot) (s : State) (seg : ℕ) : State :=
  { s with fatv := Function.update s.fatv seg (some (segment b s seg)) }

theorem lookup_eq (there : FATSEG x < b.nfatv) :
    lookup b s x = .ok (load b s (FATSEG x), segment b s (FATSEG x)) := by
  rw [lookup, if_neg (not_le.mpr there), load]
  cases loaded : s.fatv (FATSEG x) with
  | none => simp only [segment, loaded]
  | some fatp =>
      have whole : segment b s (FATSEG x) = fatp := by simp only [segment, loaded]
      have kept : Function.update s.fatv (FATSEG x) (some fatp) = s.fatv := by
        rw [← loaded, Function.update_eq_self]
      rw [whole, kept]

theorem same_load (format : b.format = .fat32) (seg : ℕ) : Same b s (load b s seg) := by
  have kept : segment b (load b s seg) = segment b s := by
    funext other
    by_cases here : other = seg
    · subst here
      simp only [load, segment, Function.update_self]
    · simp only [segment, load, Function.update_of_ne here]
  funext y
  simp only [entryAt, format, kept]

/-- **A read finds the entry, where there is a segment for it.** -/
theorem get_loadable (there : Loadable b x) :
    ∃ t, get b s x = .ok (t, entryAt b s x) ∧ Same b s t := by
  cases format : b.format with
  | fat12 => exact ⟨s, by rw [get, entryAt, format], rfl⟩
  | fat16 => exact ⟨s, by rw [get, entryAt, format], rfl⟩
  | fat32 =>
      refine ⟨load b s (FATSEG x), ?_, same_load format _⟩
      rw [get, entryAt, format]
      simp only [lookup_eq (there format)]
      rfl

/-- Without a segment the server stops. -/
theorem get_not_loadable (missing : ¬Loadable b x) : get b s x = .error .assfail := by
  rw [Loadable, Classical.not_imp, not_lt] at missing
  rw [get, missing.1]
  simp only [lookup, if_pos missing.2]
  rfl

/-! ## The two walks -/

/-- The clusters of a chain that can be read, and may be counted. -/
structure Countable (b : Boot) (l : List ℕ) : Prop where
  loadable : ∀ y ∈ l, Loadable b y
  used : ∀ y ∈ l.dropLast, 2 ≤ y

theorem Countable.link {rest : List ℕ} (first : Loadable b x) (used : 2 ≤ x)
    (rest_ : Countable b rest) : Countable b (x :: rest) := by
  refine ⟨?_, ?_⟩
  · exact List.forall_mem_cons.mpr ⟨first, rest_.loadable⟩
  · cases rest with
    | nil => exact nofun
    | cons y rest => exact List.forall_mem_cons.mpr ⟨used, rest_.used⟩

theorem Countable.tail {rest : List ℕ} (all : Countable b (x :: rest)) (more : rest ≠ []) :
    Loadable b x ∧ 2 ≤ x ∧ Countable b rest := by
  obtain ⟨y, rest, rfl⟩ := List.exists_cons_of_ne_nil more
  obtain ⟨first, others⟩ := List.forall_mem_cons.mp all.loadable
  obtain ⟨used, behind⟩ := List.forall_mem_cons.mp all.used
  exact ⟨first, used, others, behind⟩

/-- **A count that returns has walked a chain.** -/
theorem countClust_ok {fuel n : ℕ} {reads : List ℕ}
    (done : countClust b fuel s x = .ok (t, n, reads)) :
    ∃ l, Clusters b s x l ∧ Countable b l ∧ ∀ y, y ∈ l ↔ y ∈ reads := by
  induction fuel generalizing s t x n reads with
  | zero => exact nomatch done
  | succ fuel ih =>
      by_cases there : Loadable b x
      · obtain ⟨u, read, same⟩ := get_loadable (s := s) there
        obtain ⟨v, again, same'⟩ := get_loadable (s := u) there
        rw [countClust, read, Except.ok_bind] at done
        dsimp only at done
        split_ifs at done with goes few
        · rw [again, Except.ok_bind] at done
          dsimp only at done
          cases rest : countClust b fuel v (entryAt b u x) with
          | error e => rw [rest] at done; exact nomatch done
          | ok r =>
              obtain ⟨w, m, more⟩ := r
              rw [rest, Except.ok_bind] at done
              obtain ⟨l, tail, countable, exact_⟩ := ih rest
              rw [(same.trans same').clusters, same] at tail
              refine ⟨x :: l, .link (not_le.mpr goes) tail,
                .link there (not_lt.mp few) countable, fun y => ?_⟩
              simp only [Except.ok.injEq, Prod.mk.injEq] at done
              obtain ⟨-, -, rfl⟩ := done
              simp [exact_]
        · refine ⟨[x], .last (not_lt.mp goes), ⟨by simpa using there, nofun⟩, fun y => ?_⟩
          simp only [Except.ok.injEq, Prod.mk.injEq] at done
          rw [← done.2.2]
      · rw [countClust, get_not_loadable there] at done
        exact nomatch done

/-- **A chain that may be counted is.** -/
theorem countClust_chain (walk : Clusters b s x l) (countable : Countable b l) {fuel : ℕ}
    (enough : l.length ≤ fuel) :
    ∃ t reads, countClust b fuel s x = .ok (t, wrap l.length, reads) ∧ Same b s t ∧
      ∀ y ∈ reads, y ∈ l := by
  induction fuel generalizing s x l with
  | zero => exact absurd (List.length_eq_zero_iff.mp (Nat.le_zero.mp enough)) walk.ne_nil
  | succ fuel ih =>
      cases walk with
      | last stop =>
          obtain ⟨u, read, same⟩ := get_loadable (s := s) (countable.loadable x (by simp))
          refine ⟨u, [x], ?_, same, fun y member => member⟩
          rw [countClust, read, Except.ok_bind]
          exact if_neg (not_lt.mpr stop)
      | @link _ rest goes tail =>
          obtain ⟨there, used, countable⟩ := countable.tail tail.ne_nil
          obtain ⟨u, read, same⟩ := get_loadable (s := s) there
          obtain ⟨v, again, same'⟩ := get_loadable (s := u) there
          rw [same] at again
          have tail' : Clusters b v (entryAt b s x) rest := by
            rwa [(same.trans same').clusters]
          obtain ⟨w, reads, counted, kept, known⟩ :=
            ih tail' countable (Nat.le_of_succ_le_succ enough)
          refine ⟨w, x :: x :: reads, ?_, (same.trans same').trans kept, ?_⟩
          · rw [countClust, read, Except.ok_bind]
            dsimp only
            rw [if_pos (not_le.mp goes), if_neg (not_lt.mpr used), again, Except.ok_bind]
            dsimp only
            rw [counted, Except.ok_bind, List.length_cons]
            simp only [wrap, Nat.mod_add_mod]
          · intro y member
            rcases List.mem_cons.mp member with rfl | member
            · exact List.mem_cons_self
            · rcases List.mem_cons.mp member with rfl | member
              · exact List.mem_cons_self
              · exact List.mem_cons_of_mem _ (known y member)

/-- **A chain that fits the array is copied.** -/
theorem copyClust_chain (walk : Clusters b s x l) (loadable : ∀ y ∈ l, Loadable b y)
    {cap fuel n : ℕ} (enough : l.length ≤ fuel) (fits : n + l.length ≤ cap) :
    ∃ t, copyClust b cap fuel s x n = .ok (t, l, l) := by
  induction fuel generalizing s x l n with
  | zero => exact absurd (List.length_eq_zero_iff.mp (Nat.le_zero.mp enough)) walk.ne_nil
  | succ fuel ih =>
      have room : ¬cap ≤ n := by
        have := List.length_pos_iff.mpr walk.ne_nil
        omega
      cases walk with
      | last stop =>
          obtain ⟨u, read, -⟩ := get_loadable (s := s) (loadable x (by simp))
          refine ⟨u, ?_⟩
          rw [copyClust, if_neg room, read, Except.ok_bind]
          exact if_neg (not_lt.mpr stop)
      | @link _ rest goes tail =>
          obtain ⟨there, behind⟩ := List.forall_mem_cons.mp loadable
          obtain ⟨u, read, same⟩ := get_loadable (s := s) there
          have tail' : Clusters b u (entryAt b s x) rest := by rwa [same.clusters]
          rw [List.length_cons] at enough fits
          have fits' : n + 1 + rest.length ≤ cap := by omega
          obtain ⟨w, copied⟩ := ih tail' behind (by omega) fits'
          refine ⟨w, ?_⟩
          rw [copyClust, if_neg room, read, Except.ok_bind]
          dsimp only
          rw [if_pos (not_le.mp goes), copied, Except.ok_bind]

/-- The scan of a chain whose length is known finds its clusters. -/
theorem scan_chain (walk : Clusters b s x l) (countable : Countable b l) :
    ∃ t, scan b (l.length - 1) s x = .ok (t, l) := by
  induction l generalizing s x with
  | nil => exact absurd rfl walk.ne_nil
  | cons y rest ih =>
      cases walk with
      | last stop =>
          obtain ⟨u, read, -⟩ := get_loadable (s := s) (countable.loadable y (by simp))
          refine ⟨u, ?_⟩
          rw [List.length_singleton, Nat.sub_self, scan, read, Except.ok_bind]
          exact if_neg (not_lt.mpr stop)
      | link goes tail =>
          obtain ⟨there, used, behind⟩ := countable.tail tail.ne_nil
          obtain ⟨u, read, same⟩ := get_loadable (s := s) there
          have tail' : Clusters b u (entryAt b s y) rest := by rwa [same.clusters]
          obtain ⟨w, scanned⟩ := ih tail' behind
          obtain ⟨more, size⟩ :=
            Nat.exists_eq_succ_of_ne_zero (List.length_pos_iff.mpr tail.ne_nil).ne'
          rw [size, Nat.succ_sub_one] at scanned
          refine ⟨w, ?_⟩
          rw [List.length_cons, Nat.add_sub_cancel, size, scan, read, Except.ok_bind]
          dsimp only
          rw [if_pos (not_le.mp goes), if_neg (not_lt.mpr used), scanned, Except.ok_bind]

/-! ## When reading is safe -/

/-- A cluster with an entry has a small number. -/
theorem InFat.small (inside : InFat b x) : x < 2 ^ 30 - 1 := by
  rw [InFat] at inside
  have whole : b.fatlenBytes % 512 = 0 := by
    rw [Boot.fatlenBytes, wrap]
    simp only [SECSZ]
    omega
  have limit : b.fatlenBytes < 2 ^ 32 := Nat.mod_lt _ (by decide)
  have short : b.format ≠ .fat32 → b.fatlenBytes < 2 ^ 25 := by
    intro flat
    have some_ : b.fatlen ≠ 0 := by
      intro none_
      rw [Boot.format, if_pos none_] at flat
      exact flat rfl
    have few : b.fatlen.toNat < 2 ^ 16 := b.fatlen.isLt
    have least := wrap_le (b.fatSectors * SECSZ)
    rw [Boot.fatSectors, if_neg some_] at least
    rw [Boot.fatlenBytes, Boot.fatSectors, if_neg some_]
    simp only [SECSZ] at least ⊢
    omega
  cases format : b.format with
  | fat12 =>
      rw [format] at inside short
      have := short (by decide)
      simp only at inside
      omega
  | fat16 =>
      rw [format] at inside short
      have := short (by decide)
      simp only at inside
      omega
  | fat32 =>
      rw [format] at inside
      simp only at inside
      omega

/-- A chain in the FAT is short, so that its length and the size of its array do not wrap. -/
theorem length_clusters (walk : Clusters b s x l) (inside : ∀ y ∈ l, InFat b y) :
    l.length < 2 ^ 30 := by
  have below : l ⊆ List.range (2 ^ 30 - 1) :=
    fun y member => List.mem_range.mpr (inside y member).small
  have fits := (walk.nodup.subperm below).length_le
  rw [List.length_range] at fits
  omega

/-- **A chain that may be counted is read safely.** -/
theorem fatAlloc_chain {d : Directory} {mem : Bool} (walk : Clusters b s (START b d) l)
    (countable : Countable b l) (inside : ∀ y ∈ l, InFat b y) :
    Safe b s d mem := by
  have short := length_clusters walk inside
  obtain ⟨t, reads, counted, same, known⟩ := countClust_chain walk countable le_rfl
  rw [wrap_eq (by omega)] at counted
  cases mem with
  | false =>
      refine ⟨l.length, t, none, reads, ?_, fun y member => inside y (known y member), nofun⟩
      rw [fatAlloc, counted, Except.ok_bind]
      rfl
  | true =>
      have walk' : Clusters b t (START b d) l := by rwa [same.clusters]
      have room : 0 + l.length ≤ wrap (l.length * 4) / 4 := by
        rw [wrap_eq (by omega)]
        omega
      obtain ⟨u, copied⟩ := copyClust_chain walk' countable.loadable le_rfl room
      refine ⟨l.length, u, some (l.length, l), reads ++ l, ?_, fun y member => ?_, ?_⟩
      · rw [fatAlloc, counted, Except.ok_bind]
        dsimp only
        rw [if_neg (by decide), copied, Except.ok_bind]
      · exact (List.mem_append.mp member).elim (fun seen => inside y (known y seen)) (inside y)
      · rintro n c same_
        simp only [Option.some.injEq, Prod.mk.injEq] at same_
        obtain ⟨rfl, rfl⟩ := same_
        exact ⟨rfl, walk⟩

/-- **What is read safely is a chain that may be counted.** -/
theorem Safe.chain {d : Directory} {mem : Bool} (safe : Safe b s d mem) :
    ∃ l, Clusters b s (START b d) l ∧ Countable b l ∧ ∀ y ∈ l, InFat b y := by
  obtain ⟨fuel, t, result, reads, done, inside, -⟩ := safe
  rw [fatAlloc] at done
  cases counted : countClust b fuel s (START b d) with
  | error e => rw [counted] at done; exact nomatch done
  | ok r =>
      obtain ⟨u, n, seen⟩ := r
      obtain ⟨l, walk, countable, known⟩ := countClust_ok counted
      refine ⟨l, walk, countable, fun y member => inside y ?_⟩
      have first := (known y).mp member
      rw [counted, Except.ok_bind] at done
      dsimp only at done
      split_ifs at done with out
      · simp only [Except.ok.injEq, Prod.mk.injEq] at done
        rwa [← done.2.2]
      · cases copied : copyClust b (wrap (n * 4) / 4) fuel u (START b d) 0 with
        | error e => rw [copied] at done; exact nomatch done
        | ok r =>
            rw [copied, Except.ok_bind] at done
            simp only [Except.ok.injEq, Prod.mk.injEq] at done
            rw [← done.2.2]
            exact List.mem_append_left _ first

/-- The clusters on the way are used, when those before the last are. -/
theorem countable_iff (walk : Clusters b s x l) :
    Countable b l ↔ (∀ i < l.length, Loadable b ((entryAt b s)^[i] x)) ∧
      ∀ i < l.length - 1, 2 ≤ (entryAt b s)^[i] x := by
  have before : (∀ y ∈ l.dropLast, 2 ≤ y) ↔ ∀ i < l.length - 1, 2 ≤ (entryAt b s)^[i] x := by
    constructor
    · intro all i inside
      have there : i < l.dropLast.length := by rwa [List.length_dropLast]
      have used := all _ (List.getElem_mem there)
      rwa [List.getElem_dropLast, walk.getElem_eq] at used
    · intro all y member
      obtain ⟨i, there, rfl⟩ := List.mem_iff_getElem.mp member
      rw [List.getElem_dropLast, walk.getElem_eq]
      exact all i (by rwa [List.length_dropLast] at there)
  rw [← before, ← walk.forall_iff]
  exact ⟨fun countable => ⟨countable.loadable, countable.used⟩, fun both => ⟨both.1, both.2⟩⟩

/-- **A chain of the FAT is read safely exactly when its links come to an end mark.** -/
theorem alloc_safe_iff (b : Boot) (s : State) (d : Directory) (mem : Bool) :
    Safe b s d mem ↔ Ending b s d := by
  constructor
  · intro safe
    obtain ⟨l, walk, countable, inside⟩ := safe.chain
    have some_ := List.length_pos_iff.mpr walk.ne_nil
    rw [countable_iff walk] at countable
    rw [walk.forall_iff] at inside
    refine ⟨l.length - 1, walk.ends_last, fun i within => ?_, countable.2⟩
    exact ⟨inside i (by omega), countable.1 i (by omega)⟩
  · rintro ⟨k, stops, inside, used⟩
    obtain ⟨l, walk, short⟩ := Chain.of_iterate stops
    refine fatAlloc_chain walk ((countable_iff walk).mpr ⟨?_, ?_⟩) (walk.forall_iff.mpr ?_)
    · exact fun i within => (inside i (by omega)).2
    · exact fun i within => used i (by omega)
    · exact fun i within => (inside i (by omega)).1

/-- A FAT16 of 20 sectors. -/
def flat16 : Boot := ⟨512, 1, 1, 2, 0, 0, 20, 5000, 0, 0, 0⟩

/-- A FAT with a byte for each of its bytes. -/
def holding (fat : ℕ → UChar) : State :=
  ⟨fun _ => 0, [], fat, fun _ => none, [], 0, false, none, 0, fun _ => []⟩

/-- **A chain that goes round.** The entry of cluster 5 is 5, and the walk does not end. -/
theorem alloc_endless :
    ¬Safe flat16 (holding fun i => if i = 10 then 5 else 0) ⟨0, 5⟩ true := by
  intro safe
  obtain ⟨l, walk, -, -⟩ := safe.chain
  have again : entryAt flat16 (holding fun i => if i = 10 then 5 else 0) 5 = 5 := by decide
  have round : ∀ {x : ℕ} {l : List ℕ},
      Clusters flat16 (holding fun i => if i = 10 then 5 else 0) x l → x ≠ 5 := by
    intro x l walk
    induction walk with
    | last stop =>
        rintro rfl
        rw [IsLast, again] at stop
        exact absurd stop (by decide)
    | link goes tail ih =>
        rintro rfl
        exact ih again
  exact round walk rfl

end Vsta.Dos
