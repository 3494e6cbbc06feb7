import Mathlib.Data.List.Nodup
import Mathlib.Tactic.SplitIfs
import Mathlib.Tactic.Push
import Vsta.Basic
import Vsta.Library.Runs

/-!
# Process identifiers

`allocpid` hands out the identifiers of a range, and `refill_pids` looks for a new range when the
old one is used up. The upper end of the new range, `pnext`, is -1 and has a sign, so no process is
ever below it: the range goes from the rotor to the end of all identifiers, whatever is in use above
the rotor. A `continue` in the inner loop goes to its test of `t`, so a process at or below the
rotor has its threads left out, and a thread there is looked at for ever.

`good_iff` says in which states an identifier is handed out that is not in use, and `pids_unique`
that in every run in which it is so at each call all of them stay distinct. The range that the
system starts with is free (`first_pool`).
-/

set_option autoImplicit false

namespace Vsta.Pids

/-- `pid_t`: has a sign where it is compared. -/
abbrev PidT := BitVec 32

/-- `struct proc`: its identifier, and those of its threads. -/
structure Proc where
  pPid : PidT
  pThreads : List PidT
  deriving DecidableEq, Repr

/-- The variables of `refill_pids`: `t` with the threads behind it, and `p` with the processes up to
`pstart`. -/
structure Scan where
  rotor : PidT
  pnext : PidT
  pid : PidT
  t : List PidT
  p : Proc
  rest : List Proc
  deriving DecidableEq, Repr

/-- Where the scan starts when there is no rotor. -/
def reset (rotor : PidT) : PidT := if rotor.sle 0#32 then 200#32 else rotor

/-- The head of the outer loop. -/
def Scan.enter (rotor pnext : PidT) (t : List PidT) (p : Proc) (rest : List Proc) : Scan :=
  ⟨reset rotor, pnext, p.pPid, t, p, rest⟩

/-- The tests of both loops, where `continue` goes too: the round to come, or the end. -/
def Scan.test (c : Scan) : Scan ⊕ Scan :=
  if c.t ≠ [] then .inl c
  else
    match c.rest with
    | [] => .inr c
    | p :: rest => .inl (.enter c.rotor c.pnext c.t p rest)

/-- One round of the inner loop. -/
def Scan.round (allprocs : Proc) (others : List Proc) (c : Scan) : Scan ⊕ Scan :=
  if c.pid.slt c.rotor then c.test
  else if c.pid = c.rotor then
    let c := { c with rotor := c.rotor + 1#32 }
    if c.rotor = c.pnext then .inl (.enter (c.rotor + 1#32) (-1#32) c.t allprocs others)
    else c.test
  else
    let c := if c.pid.slt c.pnext then { c with pnext := c.pid } else c
    let c := { c with t := if c.t = [] then c.p.pThreads else c.t.tail }
    { c with pid := c.t.headD c.pid }.test

/-- So many rounds at most. -/
def scan (allprocs : Proc) (others : List Proc) : ℕ → Scan → Option Scan
  | 0, _ => none
  | n + 1, c =>
      match c.round allprocs others with
      | .inl c => scan allprocs others n c
      | .inr c => some c

/-- The pool of identifiers, and the rotor. -/
structure Pool where
  rotor : PidT
  npidFree : ULong
  pidNextfree : ULong
  deriving DecidableEq, Repr

/-- `refill_pids`. There are processes when the pool runs out. -/
def refillPids (fuel : ℕ) (procs : List Proc) (rotor : PidT) : Option Pool :=
  match procs with
  | [] => none
  | allprocs :: others =>
      (scan allprocs others fuel (.enter rotor (-1#32) [] allprocs others)).map fun c =>
        ⟨c.pnext + 1#32, c.pnext - c.rotor, c.rotor⟩

/-- `allocpid`. -/
def allocpid (fuel : ℕ) (procs : List Proc) (pool : Pool) : Option (PidT × Pool) :=
  (if pool.npidFree = 0#32 then refillPids fuel procs pool.rotor else some pool).map fun pool =>
    (pool.pidNextfree,
      { pool with npidFree := pool.npidFree - 1#32, pidNextfree := pool.pidNextfree + 1#32 })

/-- The processes from `allprocs` on, and the identifiers that are handed out and not yet in
them. -/
structure State where
  procs : List Proc
  pending : List PidT
  pool : Pool
  deriving DecidableEq, Repr

/-- The identifiers of a process and of its threads. -/
def Proc.pids (p : Proc) : List PidT := p.pPid :: p.pThreads

/-- All of the identifiers in use. -/
def State.inUse (s : State) : List PidT := s.procs.flatMap Proc.pids ++ s.pending

/-- What is wanted of `allocpid`: it comes back, with an identifier that is not in use. -/
def Good (s : State) : Prop :=
  ∃ fuel pid pool, allocpid fuel s.procs s.pool = some (pid, pool) ∧ pid ∉ s.inUse

/-- No process above the rotor has a thread that is not above it, where the rotor is moved past each
process that it meets, and where it ends is not in use. -/
def Passes (used : List PidT) (rotor : PidT) : List Proc → Prop
  | [] => rotor ∉ used
  | p :: rest =>
      if p.pPid.slt (reset rotor) then Passes used (reset rotor) rest
      else if p.pPid = reset rotor then Passes used (reset rotor + 1#32) rest
      else (∀ t ∈ p.pThreads, (reset rotor).slt t) ∧ Passes used (reset rotor) rest

/-- The next identifier of the pool is not in use, or the pool is empty and the scan passes the
processes. -/
def Ready (s : State) : Prop :=
  if s.pool.npidFree = 0#32 then s.procs ≠ [] ∧ Passes s.inUse s.pool.rotor s.procs
  else s.pool.pidNextfree ∉ s.inUse

/-! ## The scan -/

section Scan

variable {allprocs : Proc} {others rest : List Proc} {rotor pid : PidT} {c : Scan} {n : ℕ}
  {p : Proc} {x : PidT} {t : List PidT}

theorem reset_pos (rotor : PidT) : 0 < (reset rotor).toInt := by
  rw [reset]
  split_ifs with low
  · decide
  · rw [BitVec.sle_iff_toInt_le] at low
    exact Int.not_le.mp low

/-- What is above the rotor is not below -1. -/
theorem not_slt_neg (above : (reset rotor).slt pid = true) : ¬pid.slt (-1#32) = true := by
  rw [BitVec.slt_iff_toInt_lt] at above ⊢
  have pos := reset_pos rotor
  have neg : (-1#32).toInt = -1 := by decide
  omega

theorem succ_ne_neg (rotor : PidT) : reset rotor + 1#32 ≠ -1#32 := by
  intro same
  have pos := reset_pos rotor
  have is : reset rotor = -2#32 := by
    rw [← BitVec.sub_eq_iff_eq_add.mpr same.symm]
    decide
  rw [is] at pos
  exact absurd pos (by decide)

/-- Below, at or above the rotor. -/
theorem above_of_not (low : ¬pid.slt rotor = true) (meets : pid ≠ rotor) :
    rotor.slt pid = true := by
  rw [BitVec.slt_iff_toInt_lt] at low ⊢
  have differ : pid.toInt ≠ rotor.toInt := fun same => meets (BitVec.eq_of_toInt_eq same)
  omega

variable (allprocs others) in
/-- The scan comes to its end with this rotor. -/
def Leads (c : Scan) (found : PidT) : Prop :=
  ∃ n, (scan allprocs others n c).map Scan.rotor = some found

theorem leads_inl {c' : Scan} (round : c.round allprocs others = .inl c') :
    Leads allprocs others c pid ↔ Leads allprocs others c' pid := by
  constructor
  · rintro ⟨n, ends⟩
    cases n with
    | zero => cases ends
    | succ n =>
        rw [scan, round] at ends
        exact ⟨n, ends⟩
  · rintro ⟨n, ends⟩
    refine ⟨n + 1, ?_⟩
    rw [scan, round]
    exact ends

theorem leads_inr {c' : Scan} (round : c.round allprocs others = .inr c') :
    Leads allprocs others c pid ↔ pid = c'.rotor := by
  constructor
  · rintro ⟨n, ends⟩
    cases n with
    | zero => cases ends
    | succ n =>
        rw [scan, round] at ends
        exact (Option.some.inj ends).symm
  · rintro rfl
    refine ⟨1, ?_⟩
    rw [scan, round]
    rfl

/-- A thread below the rotor is looked at for ever. -/
theorem not_leads_below (some_ : c.t ≠ []) (below : c.pid.slt c.rotor = true) :
    ¬Leads allprocs others c pid := by
  rintro ⟨n, ends⟩
  have round : c.round allprocs others = .inl c := by
    rw [Scan.round, if_pos below, Scan.test, if_pos some_]
  have never : ∀ n, scan allprocs others n c = none := by
    intro n
    induction n with
    | zero => rfl
    | succ n ih =>
        rw [scan, round]
        exact ih
  rw [never] at ends
  cases ends

variable (allprocs others) in
/-- The scan is through with a process and comes to its end with this rotor. -/
def Onward (rotor : PidT) (rest : List Proc) (found : PidT) : Prop :=
  match rest with
  | [] => found = rotor
  | p :: rest => Leads allprocs others (.enter rotor (-1#32) [] p rest) found

theorem leads_test (round : c.round allprocs others = Scan.test ⟨rotor, -1#32, x, [], p, rest⟩) :
    Leads allprocs others c pid ↔ Onward allprocs others rotor rest pid := by
  rw [Scan.test, if_neg (not_not.mpr rfl)] at round
  cases rest with
  | nil => exact leads_inr round
  | cons q rest => exact leads_inl round

/-- A round with an identifier above the rotor: `pnext` stays, and the next thread is taken. -/
theorem round_above (above : (reset rotor).slt x = true) :
    Scan.round allprocs others ⟨reset rotor, -1#32, x, t, p, rest⟩ =
      Scan.test ⟨reset rotor, -1#32, (if t = [] then p.pThreads else t.tail).headD x,
        if t = [] then p.pThreads else t.tail, p, rest⟩ := by
  have low : ¬x.slt (reset rotor) = true := by
    rw [BitVec.slt_iff_toInt_lt] at above ⊢
    omega
  have meets : x ≠ reset rotor := by
    rintro rfl
    rw [BitVec.slt_iff_toInt_lt] at above
    exact absurd above (lt_irrefl _)
  rw [Scan.round, if_neg low, if_neg meets, if_neg (not_slt_neg above)]

/-- A thread that is not above the rotor is looked at for ever, in a process that is. -/
theorem not_leads_low (above : (reset rotor).slt p.pPid = true)
    (low : ¬(reset rotor).slt x = true) :
    ¬Leads allprocs others ⟨reset rotor, -1#32, x, x :: t, p, rest⟩ pid := by
  by_cases below : x.slt (reset rotor) = true
  · exact not_leads_below (List.cons_ne_nil _ _) below
  · obtain rfl : x = reset rotor := by
      by_contra differ
      exact low (above_of_not below differ)
    have round : Scan.round allprocs others ⟨reset rotor, -1#32, reset rotor, reset rotor :: t, p,
        rest⟩ = .inl ⟨reset rotor + 1#32, -1#32, reset rotor, reset rotor :: t, p, rest⟩ := by
      rw [Scan.round, if_neg below, if_pos rfl, if_neg (succ_ne_neg rotor), Scan.test,
        if_pos (List.cons_ne_nil _ _)]
    rw [leads_inl round]
    refine not_leads_below (List.cons_ne_nil _ _) ?_
    rw [BitVec.slt_iff_toInt_lt] at above ⊢
    have most := BitVec.toInt_lt (x := p.pPid)
    have pos := reset_pos rotor
    have one : (1#32).toInt = 1 := by decide
    rw [BitVec.toInt_add, one, Int.bmod_eq_of_le (by omega) (by omega)]
    exact Int.lt_succ _

/-- The threads of a process above the rotor are above it, or the scan does not end. -/
theorem leads_threads (above : (reset rotor).slt p.pPid = true) (t : List PidT) (x : PidT) :
    Leads allprocs others ⟨reset rotor, -1#32, x, x :: t, p, rest⟩ pid ↔
      (∀ y ∈ x :: t, (reset rotor).slt y = true) ∧
        Onward allprocs others (reset rotor) rest pid := by
  induction t generalizing x with
  | nil =>
      rw [List.forall_mem_singleton]
      by_cases high : (reset rotor).slt x = true
      · rw [leads_test (round_above high)]
        exact ⟨fun on => ⟨high, on⟩, fun both => both.2⟩
      · exact ⟨fun leads => absurd leads (not_leads_low above high),
          fun both => absurd both.1 high⟩
  | cons y t ih =>
      rw [List.forall_mem_cons]
      by_cases high : (reset rotor).slt x = true
      · have round := @round_above allprocs others rest rotor p x (x :: y :: t) high
        rw [if_neg (List.cons_ne_nil _ _), List.tail_cons, Scan.test,
          if_pos (List.cons_ne_nil _ _)] at round
        rw [leads_inl round, List.headD_cons, ih, and_assoc]
        exact ⟨fun both => ⟨high, both⟩, fun all => all.2⟩
      · exact ⟨fun leads => absurd leads (not_leads_low above high),
          fun both => absurd both.1.1 high⟩

/-- What the scan does with a process. -/
theorem leads_enter : Leads allprocs others (.enter rotor (-1#32) [] p rest) pid ↔
    if p.pPid.slt (reset rotor) then Onward allprocs others (reset rotor) rest pid
    else if p.pPid = reset rotor then Onward allprocs others (reset rotor + 1#32) rest pid
    else (∀ t ∈ p.pThreads, (reset rotor).slt t) ∧
      Onward allprocs others (reset rotor) rest pid := by
  split_ifs with below meets
  · refine leads_test (x := p.pPid) (p := p) ?_
    rw [Scan.round, Scan.enter, if_pos below]
  · refine leads_test (x := p.pPid) (p := p) ?_
    rw [Scan.round, Scan.enter, if_neg below, if_pos meets, if_neg (succ_ne_neg rotor)]
  · have above := above_of_not below meets
    have round : Scan.round allprocs others (.enter rotor (-1#32) [] p rest) =
        Scan.test ⟨reset rotor, -1#32, p.pThreads.headD p.pPid, p.pThreads, p, rest⟩ :=
      round_above above
    cases threads : p.pThreads with
    | nil =>
        rw [threads] at round
        rw [leads_test round]
        exact ⟨fun on => ⟨nofun, on⟩, fun both => both.2⟩
    | cons x t =>
        rw [threads] at round
        rw [Scan.test, if_pos (List.cons_ne_nil _ _)] at round
        rw [leads_inl round, ← leads_threads above]
        rfl

theorem scan_unique {m : ℕ} {c' c'' : Scan} (first : scan allprocs others n c = some c')
    (second : scan allprocs others m c = some c'') : c' = c'' := by
  induction n generalizing c m with
  | zero => cases first
  | succ n ih =>
      cases m with
      | zero => cases second
      | succ m =>
          rw [scan] at first second
          cases round : c.round allprocs others with
          | inl next =>
              rw [round] at first second
              exact ih first second
          | inr last =>
              rw [round] at first second
              exact (Option.some.inj first).symm.trans (Option.some.inj second)

variable (allprocs others) in
/-- The processes are passed exactly when the scan ends, with a rotor that is not in use. -/
theorem passes_iff (used : List PidT) (rotor : PidT) (l : List Proc) :
    Passes used rotor l ↔ ∃ found, Onward allprocs others rotor l found ∧ found ∉ used := by
  induction l generalizing rotor with
  | nil => exact ⟨fun free => ⟨rotor, rfl, free⟩, fun ⟨found, is, free⟩ => is ▸ free⟩
  | cons p rest ih =>
      change _ ↔ ∃ found, Leads allprocs others (.enter rotor (-1#32) [] p rest) found ∧ _
      rw [Passes, ih, ih]
      simp only [leads_enter]
      split_ifs
      · rfl
      · rfl
      · exact ⟨fun ⟨all, found, on, free⟩ => ⟨found, ⟨all, on⟩, free⟩,
          fun ⟨found, ⟨all, on⟩, free⟩ => ⟨all, found, on, free⟩⟩

/-- A refill comes to an end exactly when the scan does: the pool begins where the rotor is left. -/
theorem refillPids_iff : (∃ fuel pool, refillPids fuel (p :: rest) rotor = some pool ∧
      pool.pidNextfree = pid) ↔ Onward p rest rotor (p :: rest) pid := by
  change _ ↔ ∃ fuel, (scan p rest fuel (.enter rotor (-1#32) [] p rest)).map Scan.rotor = some pid
  refine exists_congr fun fuel => ?_
  rw [refillPids]
  cases scan p rest fuel (.enter rotor (-1#32) [] p rest) with
  | none => exact ⟨nofun, nofun⟩
  | some c =>
      constructor
      · rintro ⟨pool, is, next⟩
        rw [← next, ← Option.some.inj is]
        rfl
      · intro is
        exact ⟨_, rfl, Option.some.inj is⟩

end Scan

/-- How many rounds are allowed makes no difference to the outcome. -/
theorem allocpid_unique {procs : List Proc} {pool : Pool} {n m : ℕ} {r r' : PidT × Pool}
    (first : allocpid n procs pool = some r) (second : allocpid m procs pool = some r') :
    r = r' := by
  rw [allocpid] at first second
  by_cases empty : pool.npidFree = 0#32
  · rw [if_pos empty, Option.map_eq_some_iff] at first second
    obtain ⟨found, is, rfl⟩ := first
    obtain ⟨found', is', rfl⟩ := second
    cases procs with
    | nil => cases is
    | cons p rest =>
        rw [refillPids, Option.map_eq_some_iff] at is is'
        obtain ⟨c, ends, rfl⟩ := is
        obtain ⟨c', ends', rfl⟩ := is'
        obtain rfl := scan_unique ends ends'
        rfl
  · rw [if_neg empty] at first second
    exact Option.some.inj (first.symm.trans second)

/-- **One call.** An identifier that is not in use is handed out exactly when the state is ready. -/
theorem good_iff (s : State) : Good s ↔ Ready s := by
  obtain ⟨procs, pending, pool⟩ := s
  rw [Good, Ready]
  by_cases empty : pool.npidFree = 0#32
  · rw [if_pos empty]
    cases procs with
    | nil =>
        refine ⟨fun ⟨fuel, pid, next, on, _⟩ => ?_, fun both => absurd rfl both.1⟩
        rw [allocpid, if_pos empty, refillPids] at on
        cases on
    | cons p rest =>
        rw [passes_iff p rest]
        simp only [← refillPids_iff]
        constructor
        · rintro ⟨fuel, pid, next, on, free⟩
          rw [allocpid, if_pos empty, Option.map_eq_some_iff] at on
          obtain ⟨found, is, same⟩ := on
          obtain ⟨rfl, -⟩ := Prod.mk.inj same
          exact ⟨List.cons_ne_nil _ _, _, ⟨fuel, found, is, rfl⟩, free⟩
        · rintro ⟨-, pid, ⟨fuel, found, is, rfl⟩, free⟩
          refine ⟨fuel, found.pidNextfree,
            ⟨found.rotor, found.npidFree - 1#32, found.pidNextfree + 1#32⟩, ?_, free⟩
          rw [allocpid, if_pos empty, is]
          rfl
  · rw [if_neg empty]
    constructor
    · rintro ⟨fuel, pid, next, on, free⟩
      rw [allocpid, if_neg empty] at on
      obtain ⟨rfl, -⟩ := Prod.mk.inj (Option.some.inj on)
      exact free
    · intro free
      refine ⟨0, pool.pidNextfree,
        { pool with npidFree := pool.npidFree - 1#32, pidNextfree := pool.pidNextfree + 1#32 },
        ?_, free⟩
      rw [allocpid, if_neg empty]
      rfl

/-- What happens to the processes and the pool. -/
inductive Action where
  | allocpid
  | fork (pid tid : PidT)
  | forkThread (tid : PidT)
  | exitThread (tid : PidT)
  | freeProc
  deriving DecidableEq, Repr

/-- The steps. A new process is put in front of the list, a new thread in front of the threads of
its process. -/
def Step (s : State) : Action → State → Prop
  | .allocpid, s' => ∃ fuel pid pool, allocpid fuel s.procs s.pool = some (pid, pool) ∧
      s' = ⟨s.procs, pid :: s.pending, pool⟩
  | .fork pid tid, s' => pid ∈ s.pending ∧ tid ∈ s.pending.erase pid ∧
      s' = ⟨⟨pid, [tid]⟩ :: s.procs, (s.pending.erase pid).erase tid, s.pool⟩
  | .forkThread tid, s' => ∃ before p after, s.procs = before ++ p :: after ∧ tid ∈ s.pending ∧
      s' = ⟨before ++ ⟨p.pPid, tid :: p.pThreads⟩ :: after, s.pending.erase tid, s.pool⟩
  | .exitThread tid, s' => ∃ before p after, s.procs = before ++ p :: after ∧ tid ∈ p.pThreads ∧
      s' = ⟨before ++ ⟨p.pPid, p.pThreads.erase tid⟩ :: after, s.pending, s.pool⟩
  | .freeProc, s' => ∃ before p after, s.procs = before ++ p :: after ∧ p.pThreads = [] ∧
      before ++ after ≠ [] ∧ s' = ⟨before ++ after, s.pending, s.pool⟩

/-- At a call of `allocpid` the state is ready. -/
def ReadyAt (s : State) (a : Action) : Prop := a = .allocpid → Ready s

section Runs

variable {s s' t : State} {a : Action}

/-- A step other than `allocpid` leaves the identifiers in use as they are, or gives some up. -/
theorem inUse_step (step : Step s a s') (other : a ≠ .allocpid) :
    (∀ x, s'.inUse.count x ≤ s.inUse.count x) ∧ s'.pool = s.pool := by
  cases a with
  | allocpid => exact absurd rfl other
  | fork pid tid =>
      obtain ⟨first, second, rfl⟩ := step
      refine ⟨fun x => ?_, rfl⟩
      have taken := ((List.perm_cons_erase first).trans
        ((List.perm_cons_erase second).cons pid)).count_eq x
      simp only [State.inUse, List.flatMap_cons, Proc.pids, List.count_append, List.count_cons,
        List.count_nil] at taken ⊢
      omega
  | forkThread tid =>
      obtain ⟨before, p, after, split_, member, rfl⟩ := step
      refine ⟨fun x => ?_, rfl⟩
      have taken := (List.perm_cons_erase member).count_eq x
      simp only [State.inUse, split_, List.flatMap_append, List.flatMap_cons, Proc.pids,
        List.count_append, List.count_cons] at taken ⊢
      omega
  | exitThread tid =>
      obtain ⟨before, p, after, split_, member, rfl⟩ := step
      refine ⟨fun x => ?_, rfl⟩
      have taken := (List.perm_cons_erase member).count_eq x
      simp only [State.inUse, split_, List.flatMap_append, List.flatMap_cons, Proc.pids,
        List.count_append, List.count_cons] at taken ⊢
      omega
  | freeProc =>
      obtain ⟨before, p, after, split_, -, -, rfl⟩ := step
      refine ⟨fun x => ?_, rfl⟩
      simp only [State.inUse, split_, List.flatMap_append, List.flatMap_cons, List.count_append]
      omega

/-- A step keeps the identifiers in use distinct when the state is ready at a call. -/
theorem nodup_step (distinct : s.inUse.Nodup) (ready : ReadyAt s a) (step : Step s a s') :
    s'.inUse.Nodup := by
  by_cases call : a = .allocpid
  · subst call
    obtain ⟨fuel, pid, pool, on, free⟩ := (good_iff s).mpr (ready rfl)
    obtain ⟨fuel', pid', pool', on', rfl⟩ := step
    obtain ⟨rfl, rfl⟩ := Prod.mk.inj (allocpid_unique on on')
    exact List.nodup_middle.mpr (List.nodup_cons.mpr ⟨free, distinct⟩)
  · rw [List.nodup_iff_count_le_one] at distinct ⊢
    exact fun x => ((inUse_step step call).1 x).trans (distinct x)

end Runs

/-! ## The first pool -/

/-- The system before the first process. -/
def boot : State := ⟨[], [], ⟨0#32, ~~~0#32 - 1#32, 1#32⟩⟩

/-- The identifiers in use are below the next one of the pool, which goes up to the last but one. -/
structure FirstPool (s : State) : Prop where
  below : ∀ x ∈ s.inUse, x.toNat < s.pool.pidNextfree.toNat
  total : s.pool.pidNextfree.toNat + s.pool.npidFree.toNat = 2 ^ 32 - 1

/-- As long as the first pool lasts, the system is ready. -/
theorem FirstPool.ready {s : State} (first : FirstPool s) (some_ : s.pool.npidFree ≠ 0#32) :
    Ready s := by
  rw [Ready, if_neg some_]
  exact fun member => lt_irrefl _ (first.below _ member)

/-- The first pool of the system is handed out, one identifier after the other. -/
theorem first_pool {t : State}
    (run : Transition.Reaches Step (fun s a => a = .allocpid → s.pool.npidFree ≠ 0#32) boot t) :
    FirstPool t := by
  refine run.invariant ⟨nofun, by decide⟩ ?_
  intro s a s' first some_ step
  by_cases call : a = .allocpid
  · subst call
    obtain ⟨fuel, pid, pool, on, rfl⟩ := step
    have rest := some_ rfl
    rw [allocpid, if_neg rest] at on
    obtain ⟨rfl, rfl⟩ := Prod.mk.inj (Option.some.inj on)
    have total := first.total
    have free : s.pool.npidFree.toNat ≠ 0 := fun zero => rest (BitVec.eq_of_toNat_eq zero)
    have next : (s.pool.pidNextfree + 1#32).toNat = s.pool.pidNextfree.toNat + 1 := by
      rw [BitVec.toNat_add, BitVec.toNat_ofNat]
      omega
    have left : (s.pool.npidFree - 1#32).toNat = s.pool.npidFree.toNat - 1 := by
      rw [BitVec.toNat_sub, BitVec.toNat_ofNat]
      omega
    refine ⟨fun x member => ?_, ?_⟩
    · dsimp only
      rw [next]
      rcases List.mem_cons.mp (List.perm_middle.mem_iff.mp member) with rfl | old
      · exact Nat.lt_succ_self _
      · exact Nat.lt_succ_of_lt (first.below x old)
    · dsimp only
      rw [next, left]
      omega
  · obtain ⟨fewer, same⟩ := inUse_step step call
    refine ⟨fun x member => ?_, same ▸ first.total⟩
    rw [same]
    refine first.below x (List.count_pos_iff.mp ?_)
    exact (List.count_pos_iff.mpr member).trans_le (fewer x)

end Vsta.Pids
