import Mathlib.Data.Nat.Count
import Mathlib.Order.Interval.Finset.Nat
import Mathlib.Tactic.SplitIfs
import Vsta.Basic

/-!
# Picking the next thread to run

`os/kern/sched.c` keeps the runnable threads in a tree. The children of a node are a
circular list, here the list of them from `s_down` on. `pick_run()` goes over it twice:
`firstPass` adds up the priorities of the children with something to run, `walk` takes
the priorities off a random residue of that sum until one covers what is left.

The comparison of `walk` is `s_prio >= sum` on a residue that starts at 0, so the child
that is first in the list wins for one residue too many and the last one for one too few.
-/

set_option autoImplicit false

namespace Vsta.Scheduling

/-- `struct sched`: a queued thread, or an internal node with the nodes below it. -/
inductive Sched where
  | leaf (thread : Nat) (prio nrun : Uint)
  | node (down : List Sched) (prio nrun : Uint)
  deriving Repr

namespace Sched

def prio : Sched → Uint
  | leaf _ prio _ => prio
  | node _ prio _ => prio

def nrun : Sched → Uint
  | leaf _ _ nrun => nrun
  | node _ _ nrun => nrun

mutual
/-- The threads queued at a node or below it. -/
def threads : Sched → List Nat
  | leaf thread _ _ => [thread]
  | node down _ _ => threadsOf down

def threadsOf : List Sched → List Nat
  | [] => []
  | s :: rest => s.threads ++ threadsOf rest
end

mutual
/-- Every `s_nrun` counts the threads queued below its node. -/
def Counted : Sched → Prop
  | leaf _ _ nrun => nrun = 1#32
  | node down _ nrun => CountedAll down ∧ nrun.toNat = (threadsOf down).length

def CountedAll : List Sched → Prop
  | [] => True
  | s :: rest => s.Counted ∧ CountedAll rest
end

/-- A node with a thread to run. -/
def Runnable (s : Sched) : Prop := s.threads ≠ []

theorem countedAll_iff (down : List Sched) : CountedAll down ↔ ∀ s ∈ down, s.Counted := by
  induction down with
  | nil => simp [CountedAll]
  | cons s rest ih => simp [CountedAll, ih]

theorem threadsOf_append (front back : List Sched) :
    threadsOf (front ++ back) = threadsOf front ++ threadsOf back := by
  induction front with
  | nil => rfl
  | cons s rest ih => simp [threadsOf, ih]

/-- The number of threads below a node is its `s_nrun`. -/
theorem Counted.nrun_eq {s : Sched} (counted : s.Counted) :
    s.nrun.toNat = s.threads.length := by
  cases s with
  | leaf thread prio nrun =>
      rw [Counted] at counted
      subst counted
      rfl
  | node down prio nrun =>
      rw [Counted] at counted
      exact counted.2

theorem Counted.runnable_iff {s : Sched} (counted : s.Counted) :
    s.Runnable ↔ s.nrun ≠ 0#32 := by
  have same := counted.nrun_eq
  constructor
  · rintro runnable none
    rw [none] at same
    exact runnable (List.eq_nil_of_length_eq_zero same.symm)
  · intro some none
    rw [none] at same
    exact some (BitVec.eq_of_toNat_eq same)

end Sched

/-- What the first pass of `pick_run()` leaves: the last child with something to run, the
sum of the priorities and the number of such children. -/
structure Tally where
  pick : Option Nat
  sum : Uint
  nrun : Uint
  deriving DecidableEq, Repr

/-- The first pass over the children, the first of which has index `i`. -/
def firstPass : List Sched → Nat → Tally → Tally
  | [], _, t => t
  | s2 :: rest, i, t =>
      firstPass rest (i + 1)
        (if s2.nrun = 0#32 then t else ⟨some i, t.sum + s2.prio, t.nrun + 1#32⟩)

def tally (ring : List Sched) : Tally := firstPass ring 0 ⟨none, 0#32, 0#32⟩

/-- The second pass: the index of the child that wins. -/
def walk : List Sched → Nat → Option Nat → Uint → Option Nat
  | [], _, pick, _ => pick
  | s2 :: rest, i, pick, sum =>
      if s2.nrun = 0#32 then walk rest (i + 1) pick sum
      else if sum ≤ s2.prio then some i
      else walk rest (i + 1) (some i) (sum - s2.prio)

/-- The child selected when the dice give the residue `r`. They are not rolled for a
single choice. -/
def select (ring : List Sched) (r : Uint) : Option Nat :=
  if 1#32 < (tally ring).nrun then walk ring 0 (tally ring).pick r else (tally ring).pick

/-- The child `pick_run()` goes down to, when `random()` returns `random`. `none` stands for
the division by zero that a sum of 0 causes. -/
def pickChild (ring : List Sched) (random : ULong) : Option Nat :=
  if 1#32 < (tally ring).nrun ∧ (tally ring).sum = 0#32 then none
  else select ring (random % (tally ring).sum)

/-- `pick_run()`: the thread picked and the tree without it, `none` for a leaf that is
dequeued. The call of `random()` at each level is numbered. -/
def pickRun (random : Nat → ULong) (level : Nat) : Sched → Option (Nat × Option Sched)
  | .leaf thread _ _ => some (thread, none)
  | .node down prio nrun =>
      match pickChild down (random level) with
      | none => none
      | some i =>
          match _found : down[i]? with
          | none => none
          | some child =>
              match pickRun random (level + 1) child with
              | none => none
              | some (thread, some rest) =>
                  some (thread, some (.node (down.set i rest) prio (nrun - 1#32)))
              | some (thread, none) =>
                  some (thread, some (.node (down.eraseIdx i) prio (nrun - 1#32)))
termination_by s => sizeOf s
decreasing_by
  have := List.sizeOf_lt_of_mem (List.mem_of_getElem? _found)
  simp_wf
  omega

/-- The number of residues for which the child with index `i` is selected. -/
def share (ring : List Sched) (i : Nat) : Nat :=
  Nat.count (fun r => select ring (BitVec.ofNat 32 r) = some i) (tally ring).sum.toNat

/-- The children the walk does not skip. -/
def ready (ring : List Sched) : List Sched := ring.filter fun s => s.nrun ≠ 0#32

/-- The sum of the priorities of the children the walk does not skip. -/
def total (ring : List Sched) : Nat := ((ready ring).map fun s => s.prio.toNat).sum

/-! ## The first pass -/

theorem ready_cons (s : Sched) (rest : List Sched) :
    ready (s :: rest) = if s.nrun = 0#32 then ready rest else s :: ready rest := by
  by_cases idle : s.nrun = 0#32 <;> simp [ready, idle]

theorem total_cons (s : Sched) (rest : List Sched) :
    total (s :: rest) = if s.nrun = 0#32 then total rest else s.prio.toNat + total rest := by
  by_cases idle : s.nrun = 0#32 <;> simp [total, ready_cons, idle]

theorem ready_append (front back : List Sched) :
    ready (front ++ back) = ready front ++ ready back := List.filter_append ..

theorem total_append (front back : List Sched) :
    total (front ++ back) = total front + total back := by simp [total, ready_append]

theorem firstPass_append (front back : List Sched) (i : Nat) (t : Tally) :
    firstPass (front ++ back) i t = firstPass back (i + front.length) (firstPass front i t) := by
  induction front generalizing i t with
  | nil => rfl
  | cons s rest ih =>
      simp only [List.cons_append, firstPass, ih, List.length_cons]
      congr 1
      omega

theorem firstPass_idle {ring : List Sched} (idle : ready ring = []) (i : Nat) (t : Tally) :
    firstPass ring i t = t := by
  induction ring generalizing i t with
  | nil => rfl
  | cons s rest ih =>
      rw [ready_cons] at idle
      split_ifs at idle with skip
      rw [firstPass, if_pos skip, ih idle]

/-- The sum and the count of the first pass are the true ones, in `uint` arithmetic. -/
theorem firstPass_sums (ring : List Sched) (i : Nat) (t : Tally) :
    (firstPass ring i t).sum.toNat = (t.sum.toNat + total ring) % 2 ^ 32 ∧
      (firstPass ring i t).nrun.toNat = (t.nrun.toNat + (ready ring).length) % 2 ^ 32 := by
  induction ring generalizing i t with
  | nil =>
      have one := t.sum.isLt
      have two := t.nrun.isLt
      exact ⟨(Nat.mod_eq_of_lt one).symm, (Nat.mod_eq_of_lt two).symm⟩
  | cons s rest ih =>
      rw [firstPass, ready_cons, total_cons]
      by_cases idle : s.nrun = 0#32
      · simp only [if_pos idle]
        exact ih _ _
      · simp only [if_neg idle]
        obtain ⟨sum, nrun⟩ := ih (i + 1) ⟨some i, t.sum + s.prio, t.nrun + 1#32⟩
        rw [sum, nrun, List.length_cons, BitVec.toNat_add, BitVec.toNat_add, BitVec.toNat_ofNat]
        omega

theorem tally_sum (ring : List Sched) : (tally ring).sum.toNat = total ring % 2 ^ 32 := by
  simpa [tally] using (firstPass_sums ring 0 ⟨none, 0#32, 0#32⟩).1

theorem tally_nrun (ring : List Sched) :
    (tally ring).nrun.toNat = (ready ring).length % 2 ^ 32 := by
  simpa [tally] using (firstPass_sums ring 0 ⟨none, 0#32, 0#32⟩).2

/-- The first pass leaves the last child with something to run. -/
theorem tally_pick {front back : List Sched} {s : Sched} (some_ : s.nrun ≠ 0#32)
    (idle : ready back = []) : (tally (front ++ s :: back)).pick = some front.length := by
  rw [tally, firstPass_append, firstPass, if_neg some_, firstPass_idle idle, Nat.zero_add]

/-- A child is the last one with something to run, or there is one after it. -/
theorem exists_last {ring : List Sched} (some_ : ready ring ≠ []) :
    ∃ front s back, ring = front ++ s :: back ∧ s.nrun ≠ 0#32 ∧ ready back = [] := by
  induction ring with
  | nil => exact absurd rfl some_
  | cons s rest ih =>
      by_cases more : ready rest = []
      · refine ⟨[], s, rest, rfl, fun idle => some_ ?_, more⟩
        rw [ready_cons, if_pos idle, more]
      · obtain ⟨front, c, back, rfl, runs, idle⟩ := ih more
        exact ⟨s :: front, c, back, rfl, runs, idle⟩

theorem exists_first {ring : List Sched} {a : Sched} {others : List Sched}
    (found : ready ring = a :: others) :
    ∃ front back, ring = front ++ a :: back ∧ a.nrun ≠ 0#32 ∧ ready front = [] ∧
      ready back = others := by
  obtain ⟨front, back, rfl, idle, runs, rest⟩ := List.filter_eq_cons_iff.mp found
  exact ⟨front, back, rfl, by simpa using runs, List.filter_eq_nil_iff.mpr idle, rest⟩

/-! ## The second pass -/

/-- The walk goes past children that have nothing to run. -/
theorem walk_idle {front : List Sched} (idle : ready front = []) (back : List Sched) (i : Nat)
    (pick : Option Nat) (sum : Uint) :
    walk (front ++ back) i pick sum = walk back (i + front.length) pick sum := by
  induction front generalizing i with
  | nil => rfl
  | cons s rest ih =>
      rw [ready_cons] at idle
      split_ifs at idle with skip
      rw [List.cons_append, walk, if_pos skip, ih idle, List.length_cons]
      congr 1
      omega

/-- The walk goes past children whose priorities the residue exceeds. -/
theorem walk_past {front : List Sched} {sum : Uint} (more : total front < sum.toNat)
    (back : List Sched) (i : Nat) (pick : Option Nat) :
    ∃ last, walk (front ++ back) i pick sum =
        walk back (i + front.length) last (sum - BitVec.ofNat 32 (total front)) ∧
      (ready front = [] → last = pick) := by
  induction front generalizing i pick sum with
  | nil => exact ⟨pick, by simp [total, ready], fun _ => rfl⟩
  | cons s rest ih =>
      rw [total_cons] at more ⊢
      by_cases idle : s.nrun = 0#32
      · rw [if_pos idle] at more ⊢
        obtain ⟨last, on, same⟩ := ih more (i + 1) pick
        refine ⟨last, ?_, fun none => same ?_⟩
        · rw [List.cons_append, walk, if_pos idle, on, List.length_cons]
          congr 1
          omega
        · rwa [ready_cons, if_pos idle] at none
      · rw [if_neg idle] at more ⊢
        have below : s.prio.toNat < sum.toNat := by omega
        have left : (sum - s.prio).toNat = sum.toNat - s.prio.toNat :=
          BitVec.toNat_sub_of_le (BitVec.le_def.mpr below.le)
        have next : total rest < (sum - s.prio).toNat := by omega
        obtain ⟨last, on, -⟩ := ih next (i + 1) (some i)
        refine ⟨last, ?_, fun none => ?_⟩
        · have same : sum - s.prio - BitVec.ofNat 32 (total rest) =
              sum - BitVec.ofNat 32 (s.prio.toNat + total rest) := by
            rw [BitVec.ofNat_add, BitVec.ofNat_toNat, BitVec.setWidth_eq, BitVec.sub_sub]
          rw [List.cons_append, walk, if_neg idle, if_neg (by simpa [BitVec.le_def] using below),
            on, List.length_cons, same]
          congr 1
          omega
        · rw [ready_cons, if_neg idle] at none
          exact absurd none (List.cons_ne_nil _ _)

/-- The walk over children with something to run ends at one of them. -/
theorem walk_lands {ring : List Sched} (some_ : ready ring ≠ []) (i : Nat) (pick : Option Nat)
    (sum : Uint) :
    ∃ front s back, ring = front ++ s :: back ∧ s.nrun ≠ 0#32 ∧
      walk ring i pick sum = some (i + front.length) := by
  induction ring generalizing i pick sum with
  | nil => exact absurd rfl some_
  | cons s rest ih =>
      by_cases idle : s.nrun = 0#32
      · rw [ready_cons, if_pos idle] at some_
        obtain ⟨front, c, back, rfl, runs, at_⟩ := ih some_ (i + 1) pick sum
        refine ⟨s :: front, c, back, rfl, runs, ?_⟩
        rw [walk, if_pos idle, at_, List.length_cons]
        congr 1
        omega
      · rw [walk, if_neg idle]
        by_cases covers : sum ≤ s.prio
        · exact ⟨[], s, rest, rfl, idle, by rw [if_pos covers]; rfl⟩
        · rw [if_neg covers]
          by_cases more : ready rest = []
          · refine ⟨[], s, rest, rfl, idle, ?_⟩
            have ends := walk_idle more [] (i + 1) (some i) (sum - s.prio)
            rw [List.append_nil] at ends
            rw [ends]
            rfl
          · obtain ⟨front, c, back, rfl, runs, at_⟩ := ih more (i + 1) (some i) (sum - s.prio)
            refine ⟨s :: front, c, back, rfl, runs, ?_⟩
            rw [at_, List.length_cons]
            congr 1
            omega

/-- A child with something to run is selected for every residue. -/
theorem select_lands {ring : List Sched} (some_ : ready ring ≠ []) (r : Uint) :
    ∃ front s back, ring = front ++ s :: back ∧ s.nrun ≠ 0#32 ∧
      select ring r = some front.length := by
  rw [select]
  split_ifs
  · obtain ⟨front, s, back, parts, runs, at_⟩ := walk_lands some_ 0 (tally ring).pick r
    exact ⟨front, s, back, parts, runs, by rw [at_, Nat.zero_add]⟩
  · obtain ⟨front, s, back, rfl, runs, idle⟩ := exists_last some_
    exact ⟨front, s, back, rfl, runs, tally_pick runs idle⟩

/-! ## The shares of the children -/

instance : DecidablePred Sched.Runnable := fun s => inferInstanceAs (Decidable (s.threads ≠ []))

theorem ready_eq_runnable {ring : List Sched} (counted : ∀ c ∈ ring, c.Counted) :
    ready ring = ring.filter fun c => c.Runnable := by
  refine List.filter_congr fun c member => ?_
  rw [decide_eq_decide]
  exact (counted c member).runnable_iff.symm

theorem idle_of_mem {ring : List Sched} (idle : ready ring = []) {i : Nat} {c : Sched}
    (at_ : ring[i]? = some c) : c.nrun = 0#32 := by
  simpa using List.filter_eq_nil_iff.mp idle c (List.mem_of_getElem? at_)

/-- The index of the only child with something to run. -/
theorem index_single {front back : List Sched} {s : Sched} (before : ready front = [])
    (behind : ready back = []) {i : Nat} {c : Sched} (at_ : (front ++ s :: back)[i]? = some c)
    (runs : c.nrun ≠ 0#32) : i = front.length ∧ c = s := by
  rcases Nat.lt_trichotomy i front.length with less | rfl | more
  · rw [List.getElem?_append_left less] at at_
    exact absurd (idle_of_mem before at_) runs
  · rw [List.getElem?_append_right le_rfl, Nat.sub_self] at at_
    exact ⟨rfl, (Option.some.inj at_).symm⟩
  · obtain ⟨k, rfl⟩ : ∃ k, i = front.length + (k + 1) := ⟨i - front.length - 1, by omega⟩
    rw [List.getElem?_append_right (by omega), Nat.add_sub_cancel_left] at at_
    exact absurd (idle_of_mem behind at_) runs

/-- A single child with something to run has all the residues. -/
theorem share_single {front back : List Sched} {s : Sched} (some_ : s.nrun ≠ 0#32)
    (before : ready front = []) (behind : ready back = []) (r : Uint) :
    select (front ++ s :: back) r = some front.length ∧
      share (front ++ s :: back) front.length = s.prio.toNat := by
  have one : ready (front ++ s :: back) = [s] := by
    rw [ready_append, before, ready_cons, if_neg some_, behind, List.nil_append]
  have choice : ∀ r, select (front ++ s :: back) r = some front.length := by
    intro r
    have count := tally_nrun (front ++ s :: back)
    rw [one] at count
    have single : ¬1#32 < (tally (front ++ s :: back)).nrun := by
      rw [BitVec.lt_def, count, List.length_singleton]
      decide
    rw [select, if_neg single, tally_pick some_ behind]
  refine ⟨choice r, ?_⟩
  have sum : (tally (front ++ s :: back)).sum.toNat = s.prio.toNat := by
    rw [tally_sum, total, one, List.map_cons, List.map_nil, List.sum_singleton]
    exact Nat.mod_eq_of_lt s.prio.isLt
  rw [share, sum]
  exact Nat.count_of_forall fun r _ => choice _

/-- Of two children with something to run one does not get its share. -/
theorem exists_unfair {ring : List Sched} {a b : Sched} {others : List Sched}
    (found : ready ring = a :: b :: others) (positive : ∀ c ∈ ring, c.prio ≠ 0#32) :
    ∃ i c, ring[i]? = some c ∧ c.nrun ≠ 0#32 ∧ share ring i ≠ c.prio.toNat := by
  obtain ⟨front, back, rfl, runs, before, behind⟩ := exists_first found
  have weight : ∀ c ∈ front ++ a :: back, 0 < c.prio.toNat := fun c member =>
    Nat.pos_of_ne_zero fun zero => positive c member (BitVec.eq_of_toNat_eq zero)
  have first : (front ++ a :: back)[front.length]? = some a := by simp
  have more : ready back ≠ [] := behind ▸ List.cons_ne_nil _ _
  by_cases roll : 1#32 < (tally (front ++ a :: back)).nrun
  · -- the walk keeps the first child as long as the residue is at most its priority
    have wins : ∀ r : Nat, r < 2 ^ 32 → r ≤ a.prio.toNat →
        select (front ++ a :: back) (BitVec.ofNat 32 r) = some front.length := by
      intro r small most
      have covers : BitVec.ofNat 32 r ≤ a.prio := by
        rw [BitVec.le_def, BitVec.toNat_ofNat, Nat.mod_eq_of_lt small]
        exact most
      rw [select, if_pos roll, walk_idle before, walk, if_neg runs, if_pos covers, Nat.zero_add]
    have small := (tally (front ++ a :: back)).sum.isLt
    by_cases all : (tally (front ++ a :: back)).sum.toNat ≤ a.prio.toNat
    · -- the sum has overflowed, and nothing is left for the second child
      obtain ⟨mid, post, rfl, runsB, -, -⟩ := exists_first behind
      have here : front ++ a :: (mid ++ b :: post) = (front ++ a :: mid) ++ b :: post := by simp
      have second : (front ++ a :: (mid ++ b :: post))[(front ++ a :: mid).length]? = some b := by
        rw [here]
        simp
      refine ⟨_, b, second, runsB, ?_⟩
      have none : share (front ++ a :: (mid ++ b :: post)) (front ++ a :: mid).length = 0 := by
        refine Nat.count_of_forall_not fun r below => ?_
        rw [wins r (by omega) (by omega)]
        simp
      rw [none]
      exact (weight b (by simp)).ne
    · refine ⟨_, a, first, runs, ?_⟩
      have atLeast : a.prio.toNat + 1 ≤ share (front ++ a :: back) front.length := by
        have all_ : Nat.count (fun r => select (front ++ a :: back) (BitVec.ofNat 32 r) =
            some front.length) (a.prio.toNat + 1) = a.prio.toNat + 1 :=
          Nat.count_of_forall fun r below => wins r (by omega) (by omega)
        rw [← all_]
        exact Nat.count_monotone _ (by omega)
      omega
  · -- the count has overflowed, and the dice are not rolled
    refine ⟨_, a, first, runs, ?_⟩
    obtain ⟨mid, s, post, rfl, runsS, idle⟩ := exists_last more
    have last : (tally (front ++ a :: (mid ++ s :: post))).pick =
        some (front ++ a :: mid).length := by
      have here : front ++ a :: (mid ++ s :: post) = (front ++ a :: mid) ++ s :: post := by simp
      rw [here]
      exact tally_pick runsS idle
    have none : share (front ++ a :: (mid ++ s :: post)) front.length = 0 := by
      refine Nat.count_of_forall_not fun r _ => ?_
      rw [select, if_neg roll, last]
      simp
    rw [none]
    exact (weight a (by simp)).ne

/-- **Proportional share.** Every child with a runnable thread is selected for as many
residues as its priority, and only such children are selected, exactly when there are not
two of them. -/
theorem fair_iff (ring : List Sched) (counted : ∀ c ∈ ring, c.Counted)
    (positive : ∀ c ∈ ring, c.prio ≠ 0#32) :
    ((∀ i c, ring[i]? = some c → c.Runnable → share ring i = c.prio.toNat) ∧
      ∀ r < (tally ring).sum.toNat, ∃ i c, select ring (BitVec.ofNat 32 r) = some i ∧
        ring[i]? = some c ∧ c.Runnable) ↔
      (ring.filter fun c => c.Runnable).length ≤ 1 := by
  rw [← ready_eq_runnable counted]
  have runs_iff : ∀ {i : Nat} {c : Sched}, ring[i]? = some c → (c.Runnable ↔ c.nrun ≠ 0#32) :=
    fun at_ => (counted _ (List.mem_of_getElem? at_)).runnable_iff
  constructor
  · rintro ⟨shares, -⟩
    by_contra many
    obtain ⟨a, b, others, found⟩ : ∃ a b others, ready ring = a :: b :: others := by
      match ready ring, many with
      | [], many => exact absurd (Nat.zero_le 1) many
      | [_], many => exact absurd le_rfl many
      | a :: b :: others, _ => exact ⟨a, b, others, rfl⟩
    obtain ⟨i, c, at_, runs, unfair⟩ := exists_unfair found positive
    exact unfair (shares i c at_ ((runs_iff at_).mpr runs))
  · intro few
    cases found : ready ring with
    | nil =>
        refine ⟨fun i c at_ runnable =>
          absurd (idle_of_mem found at_) ((runs_iff at_).mp runnable), fun r below => ?_⟩
        rw [tally_sum, total, found] at below
        exact absurd below (Nat.not_lt_zero r)
    | cons a others =>
        rw [found] at few
        obtain rfl : others = [] := by
          cases others with
          | nil => rfl
          | cons b others => simp at few
        obtain ⟨front, back, rfl, runs, before, behind⟩ := exists_first found
        have first : (front ++ a :: back)[front.length]? = some a := by simp
        constructor
        · intro i c at_ runnable
          obtain ⟨rfl, rfl⟩ := index_single before behind at_ ((runs_iff at_).mp runnable)
          exact (share_single runs before behind 0#32).2
        · intro r _
          exact ⟨_, a, (share_single runs before behind _).1, first, (runs_iff first).mpr runs⟩

/-- Two threads of priority 1 under one node. -/
def twins : List Sched := [.leaf 1 1#32 1#32, .leaf 2 1#32 1#32]

/-- **The second of two equal threads never runs.** Both residues select the first. -/
theorem twin_starves :
    (∀ c ∈ twins, c.Counted) ∧ (∀ c ∈ twins, c.prio ≠ 0#32) ∧ (tally twins).sum = 2#32 ∧
      share twins 0 = 2 ∧ share twins 1 = 0 ∧
      ¬∀ i c, twins[i]? = some c → c.Runnable → share twins i = c.prio.toNat := by
  refine ⟨by simp [twins, Sched.Counted], by simp [twins, Sched.prio], by decide, by decide,
    by decide, fun shares => ?_⟩
  have equal := shares 1 (.leaf 2 1#32 1#32) rfl (by decide)
  exact absurd equal (by decide)

/-- An idle node and a thread. -/
theorem fair_iff_alone :
    let ring : List Sched := [.node [] 7#32 0#32, .leaf 1 3#32 1#32]
    share ring 1 = 3 := by
  intro ring
  have counted : ∀ c ∈ ring, c.Counted := by
    simp [ring, Sched.Counted, Sched.CountedAll, Sched.threadsOf]
  have positive : ∀ c ∈ ring, c.prio ≠ 0#32 := by simp [ring, Sched.prio]
  exact ((fair_iff ring counted positive).mpr (by decide)).1 1 (.leaf 1 3#32 1#32) rfl (by decide)

/-! ## What each child gets -/

/-- The walk ends within children whose priorities cover the residue. -/
theorem walk_within {front : List Sched} (some_ : ready front ≠ []) {sum : Uint}
    (within : sum.toNat ≤ total front) (back : List Sched) (i : Nat) (pick : Option Nat) :
    ∃ j < front.length, walk (front ++ back) i pick sum = some (i + j) := by
  induction front generalizing i pick sum with
  | nil => exact absurd rfl some_
  | cons s rest ih =>
      rw [ready_cons] at some_
      rw [total_cons] at within
      rw [List.cons_append, walk, List.length_cons]
      by_cases idle : s.nrun = 0#32
      · rw [if_pos idle] at some_ within ⊢
        obtain ⟨j, inside, at_⟩ := ih some_ within (i + 1) pick
        exact ⟨j + 1, by omega, by rw [at_]; congr 1; omega⟩
      · rw [if_neg idle] at within ⊢
        by_cases covers : sum ≤ s.prio
        · exact ⟨0, by omega, by rw [if_pos covers, Nat.add_zero]⟩
        · rw [if_neg covers]
          have above : s.prio.toNat < sum.toNat := by simpa [BitVec.le_def] using covers
          have left : (sum - s.prio).toNat = sum.toNat - s.prio.toNat :=
            BitVec.toNat_sub_of_le (BitVec.le_def.mpr above.le)
          have more : ready rest ≠ [] := by
            intro idle_
            rw [total, idle_] at within
            exact absurd within (by simpa using above)
          have next : (sum - s.prio).toNat ≤ total rest := by omega
          obtain ⟨j, inside, at_⟩ := ih more next (i + 1) (some i)
          exact ⟨j + 1, by omega, by rw [at_]; congr 1; omega⟩

/-- The residues for which the walk ends at a given child: those its predecessors do not
cover and it does, and 0 for the first. -/
theorem walk_iff {front back : List Sched} {s : Sched} (some_ : s.nrun ≠ 0#32)
    (fits : total (front ++ s :: back) < 2 ^ 32) {r : Nat}
    (below : r < total (front ++ s :: back)) (pick : Option Nat) :
    walk (front ++ s :: back) 0 pick (BitVec.ofNat 32 r) = some front.length ↔
      r ≤ total front + s.prio.toNat ∧ (total front < r ∨ ready front = []) := by
  have value : (BitVec.ofNat 32 r).toNat = r := by
    rw [BitVec.toNat_ofNat]
    exact Nat.mod_eq_of_lt (below.trans fits)
  have whole : total (front ++ s :: back) = total front + (s.prio.toNat + total back) := by
    rw [total_append, total_cons, if_neg some_]
  -- from the child on, with what the children before it leave of the residue
  have here : ∀ last (left : Uint), left.toNat = r - total front →
      (walk (s :: back) front.length last left = some front.length ↔
        r ≤ total front + s.prio.toNat) := by
    intro last left same
    rw [walk, if_neg some_]
    by_cases covers : left ≤ s.prio
    · rw [if_pos covers]
      rw [BitVec.le_def] at covers
      exact ⟨fun _ => by omega, fun _ => rfl⟩
    · rw [if_neg covers]
      rw [BitVec.le_def] at covers
      have more : ready back ≠ [] := by
        intro idle
        have nothing : total back = 0 := by rw [total, idle]; rfl
        omega
      obtain ⟨f, c, b, -, -, at_⟩ := walk_lands more (front.length + 1) (some front.length)
        (left - s.prio)
      rw [at_]
      refine ⟨fun same => ?_, fun most => by omega⟩
      have := Option.some.inj same
      omega
  by_cases idle : ready front = []
  · have nothing : total front = 0 := by rw [total, idle]; rfl
    rw [walk_idle idle, Nat.zero_add, here pick _ (by rw [value, nothing, Nat.sub_zero])]
    exact ⟨fun most => ⟨most, .inr idle⟩, fun both => both.1⟩
  · by_cases past : total front < r
    · have behind : total front < (BitVec.ofNat 32 r).toNat := by rwa [value]
      obtain ⟨last, on, -⟩ := walk_past behind (s :: back) 0 pick
      have left : (BitVec.ofNat 32 r - BitVec.ofNat 32 (total front)).toNat = r - total front := by
        rw [BitVec.toNat_sub_of_le, value, BitVec.toNat_ofNat, Nat.mod_eq_of_lt (by omega)]
        rw [BitVec.le_def, value, BitVec.toNat_ofNat, Nat.mod_eq_of_lt (by omega)]
        omega
      rw [on, Nat.zero_add, here last _ left]
      exact ⟨fun most => ⟨most, .inl past⟩, fun both => both.1⟩
    · have within : (BitVec.ofNat 32 r).toNat ≤ total front := by omega
      obtain ⟨j, inside, at_⟩ := walk_within idle within (s :: back) 0 pick
      rw [at_]
      constructor
      · intro same
        have := Option.some.inj same
        omega
      · rintro ⟨-, more | none⟩
        · exact absurd more past
        · exact absurd none idle

/-- The priorities are positive, so there are no more children than their sum. -/
theorem length_le_total {ring : List Sched} (positive : ∀ c ∈ ring, c.prio ≠ 0#32) :
    (ready ring).length ≤ total ring := by
  induction ring with
  | nil => exact le_rfl
  | cons s rest ih =>
      have others := ih fun c member => positive c (.tail _ member)
      have one : 0 < s.prio.toNat := Nat.pos_of_ne_zero fun zero =>
        positive s List.mem_cons_self (BitVec.eq_of_toNat_eq zero)
      rw [ready_cons, total_cons]
      split_ifs
      · exact others
      · rw [List.length_cons]
        omega

/-- **One residue goes from the last child to the first.** With two or more children to
choose from the first has one residue more than its priority, the last has one less, and
the others have what they should. -/
theorem share_eq {front back : List Sched} {s : Sched} (some_ : s.nrun ≠ 0#32)
    (positive : ∀ c ∈ front ++ s :: back, c.prio ≠ 0#32)
    (fits : total (front ++ s :: back) < 2 ^ 32)
    (many : ready front ≠ [] ∨ ready back ≠ []) :
    share (front ++ s :: back) front.length + (if ready back = [] then 1 else 0) =
      s.prio.toNat + if ready front = [] then 1 else 0 := by
  have whole : total (front ++ s :: back) = total front + (s.prio.toNat + total back) := by
    rw [total_append, total_cons, if_neg some_]
  have count : ready (front ++ s :: back) = ready front ++ s :: ready back := by
    rw [ready_append, ready_cons, if_neg some_]
  have roll : 1#32 < (tally (front ++ s :: back)).nrun := by
    have few := length_le_total positive
    rw [BitVec.lt_def, tally_nrun, Nat.mod_eq_of_lt (few.trans_lt fits), count, List.length_append,
      List.length_cons]
    rcases many with more | more
    · have := List.length_pos_iff.mpr more
      exact Nat.lt_of_lt_of_le (by decide) (by omega : 2 ≤ _)
    · have := List.length_pos_iff.mpr more
      exact Nat.lt_of_lt_of_le (by decide) (by omega : 2 ≤ _)
  have sum : (tally (front ++ s :: back)).sum.toNat = total (front ++ s :: back) := by
    rw [tally_sum, Nat.mod_eq_of_lt fits]
  have weight : ∀ l : List Sched, (∀ c ∈ l, c ∈ front ++ s :: back) → ready l ≠ [] → 0 < total l :=
    fun l within more => (List.length_pos_iff.mpr more).trans_le
      (length_le_total fun c member => positive c (within c member))
  have pos : 0 < s.prio.toNat := Nat.pos_of_ne_zero fun zero =>
    positive s (by simp) (BitVec.eq_of_toNat_eq zero)
  have chosen : share (front ++ s :: back) front.length =
      ((Finset.range (total (front ++ s :: back))).filter fun r =>
        r ≤ total front + s.prio.toNat ∧ (total front < r ∨ ready front = [])).card := by
    rw [share, sum, Nat.count_eq_card_filter_range]
    congr 1
    refine Finset.filter_congr fun r member => ?_
    rw [select, if_pos roll]
    exact walk_iff some_ fits (Finset.mem_range.mp member) _
  rw [chosen, whole]
  by_cases first : ready front = []
  · have nothing : total front = 0 := by rw [total, first]; rfl
    have last : ready back ≠ [] := many.resolve_left fun not => not first
    have behind := weight back (fun c member => by simp [member]) last
    have range : (Finset.range (total front + (s.prio.toNat + total back))).filter (fun r =>
        r ≤ total front + s.prio.toNat ∧ (total front < r ∨ ready front = [])) =
        Finset.range (s.prio.toNat + 1) := by
      ext r
      simp only [Finset.mem_filter, Finset.mem_range, first, or_true, and_true]
      omega
    rw [range, Finset.card_range, if_pos first, if_neg last, Nat.add_zero]
  · by_cases last : ready back = []
    · have nothing : total back = 0 := by rw [total, last]; rfl
      have range : (Finset.range (total front + (s.prio.toNat + total back))).filter (fun r =>
          r ≤ total front + s.prio.toNat ∧ (total front < r ∨ ready front = [])) =
          Finset.Ioo (total front) (total front + s.prio.toNat) := by
        ext r
        simp only [Finset.mem_filter, Finset.mem_range, first, or_false, Finset.mem_Ioo]
        omega
      rw [range, Nat.card_Ioo, if_neg first, if_pos last]
      omega
    · have behind := weight back (fun c member => by simp [member]) last
      have range : (Finset.range (total front + (s.prio.toNat + total back))).filter (fun r =>
          r ≤ total front + s.prio.toNat ∧ (total front < r ∨ ready front = [])) =
          Finset.Ioc (total front) (total front + s.prio.toNat) := by
        ext r
        simp only [Finset.mem_filter, Finset.mem_range, first, or_false, Finset.mem_Ioc]
        omega
      rw [range, Nat.card_Ioc, if_neg first, if_neg last]
      omega

/-! ## The whole tree -/

namespace Sched

mutual
/-- The children of every node have positive priorities, whose sum is a `uint`. -/
def Weighed : Sched → Prop
  | leaf _ _ _ => True
  | node down _ _ => ((∀ c ∈ down, c.prio ≠ 0#32) ∧ total down < 2 ^ 32) ∧ WeighedAll down

def WeighedAll : List Sched → Prop
  | [] => True
  | s :: rest => s.Weighed ∧ WeighedAll rest
end

theorem weighedAll_iff (down : List Sched) : WeighedAll down ↔ ∀ s ∈ down, s.Weighed := by
  induction down with
  | nil => simp [WeighedAll]
  | cons s rest ih => simp [WeighedAll, ih]

/-- A node has a thread to run when one of its children has. -/
theorem ready_ne_nil {down : List Sched} (counted : ∀ c ∈ down, c.Counted)
    (some_ : threadsOf down ≠ []) : ready down ≠ [] := by
  induction down with
  | nil => exact absurd rfl some_
  | cons s rest ih =>
      rw [ready_cons]
      split_ifs with idle
      · refine ih (fun c member => counted c (.tail _ member)) fun none => some_ ?_
        have own : s.threads = [] := by
          by_contra runs
          exact (counted s List.mem_cons_self).runnable_iff.mp runs idle
        rw [threadsOf, own, none, List.append_nil]
      · exact List.cons_ne_nil _ _

end Sched

open Sched

/-- A node with a thread to run has a child to go down to. -/
theorem pickChild_lands {ring : List Sched} (some_ : ready ring ≠ [])
    (positive : ∀ c ∈ ring, c.prio ≠ 0#32) (fits : total ring < 2 ^ 32) (random : ULong) :
    ∃ front s back, ring = front ++ s :: back ∧ s.nrun ≠ 0#32 ∧
      pickChild ring random = some front.length := by
  have sum : (tally ring).sum ≠ 0#32 := by
    intro zero
    have value := tally_sum ring
    rw [zero, Nat.mod_eq_of_lt fits] at value
    have few := length_le_total positive
    have one := List.length_pos_iff.mpr some_
    have : (0#32).toNat = 0 := rfl
    omega
  rw [pickChild, if_neg fun both => sum both.2]
  exact select_lands some_ _

/-- The counts and the threads of a node, after a child has lost one thread. -/
theorem Sched.Counted.picked {front back : List Sched} {c : Sched} {prio nrun : Uint}
    {thread : Nat} {rest : List Sched}
    (counted : (node (front ++ c :: back) prio nrun).Counted)
    (fewer : c.threads.Perm (thread :: threadsOf rest)) (restCounted : ∀ t ∈ rest, t.Counted) :
    (threadsOf (front ++ c :: back)).Perm (thread :: threadsOf (front ++ (rest ++ back))) ∧
      (node (front ++ (rest ++ back)) prio (nrun - 1#32)).Counted := by
  rw [Counted, countedAll_iff] at counted
  have perm : (threadsOf (front ++ c :: back)).Perm
      (thread :: threadsOf (front ++ (rest ++ back))) := by
    rw [threadsOf_append, threadsOf, threadsOf_append, threadsOf_append]
    calc threadsOf front ++ (c.threads ++ threadsOf back)
      _ |>.Perm (threadsOf front ++ (thread :: threadsOf rest ++ threadsOf back)) :=
          .append_left _ (fewer.append_right _)
      _ |>.Perm (thread :: (threadsOf front ++ (threadsOf rest ++ threadsOf back))) :=
          List.perm_middle
  refine ⟨perm, ?_⟩
  rw [Counted, countedAll_iff]
  refine ⟨fun t member => ?_, ?_⟩
  · rw [List.mem_append, List.mem_append] at member
    rcases member with inFront | inRest | inBack
    · exact counted.1 t (by simp [inFront])
    · exact restCounted t inRest
    · exact counted.1 t (by simp [inBack])
  · have length := perm.length_eq
    rw [List.length_cons] at length
    rw [BitVec.toNat_sub_of_le (BitVec.le_def.mpr (by rw [counted.2, length]; simp)), counted.2,
      length]
    rfl

/-- **`pick_run()` takes one queued thread out of the tree.** It finds a thread for every
outcome of the dice, the other threads stay queued, and every count is one of the threads
left below its node. -/
theorem pickRun_spec (random : Nat → ULong) (level : Nat) (s : Sched) (counted : s.Counted)
    (weighed : s.Weighed) (runnable : s.Runnable) :
    ∃ thread rest, pickRun random level s = some (thread, rest) ∧
      s.threads.Perm (thread :: threadsOf rest.toList) ∧
      ∀ t, rest = some t → t.Counted ∧ t.prio = s.prio := by
  match s with
  | .leaf thread _ _ => exact ⟨thread, none, by rw [pickRun], .refl _, nofun⟩
  | .node down prio nrun =>
      have each := counted
      rw [Counted, countedAll_iff] at each
      rw [Weighed, weighedAll_iff] at weighed
      obtain ⟨front, c, back, parts, runs, chosen⟩ :=
        pickChild_lands (ready_ne_nil each.1 runnable) weighed.1.1 weighed.1.2 (random level)
      have member : c ∈ down := by simp [parts]
      have smaller := List.sizeOf_lt_of_mem member
      obtain ⟨thread, rest, on, fewer, keeps⟩ := pickRun_spec random (level + 1) c
        (each.1 c member) (weighed.2 c member) ((each.1 c member).runnable_iff.mpr runs)
      subst parts
      have at_ : (front ++ c :: back)[front.length]? = some c := by simp
      have restCounted : ∀ t ∈ rest.toList, t.Counted :=
        fun t inRest => (keeps t (Option.mem_toList.mp inRest)).1
      have after := counted.picked fewer restCounted
      rw [pickRun, chosen]
      dsimp only
      split
      · next none => exact absurd (at_.symm.trans none) (nofun)
      · next child found =>
          obtain rfl : c = child := Option.some.inj (at_.symm.trans found)
          rw [on]
          cases rest with
          | none =>
              have removed : (front ++ c :: back).eraseIdx front.length = front ++ back := by
                rw [List.eraseIdx_append_of_length_le le_rfl, Nat.sub_self]
                rfl
              dsimp only
              rw [removed]
              refine ⟨thread, _, rfl, ?_, ?_⟩
              · rw [threads, Option.toList_some, threadsOf, threads, threadsOf, List.append_nil]
                exact after.1
              · rintro t ⟨⟩
                exact ⟨after.2, rfl⟩
          | some t =>
              have replaced : (front ++ c :: back).set front.length t = front ++ t :: back := by
                rw [List.set_append_right _ _ le_rfl, Nat.sub_self]
                rfl
              dsimp only
              rw [replaced]
              refine ⟨thread, _, rfl, ?_, ?_⟩
              · rw [threads, Option.toList_some, threadsOf, threads, threadsOf, List.append_nil]
                exact after.1
              · rintro t ⟨⟩
                exact ⟨after.2, rfl⟩
termination_by sizeOf s

end Vsta.Scheduling
