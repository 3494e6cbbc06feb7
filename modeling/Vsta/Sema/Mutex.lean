import Vsta.Library.Runs
import Mathlib.Data.List.Perm.Basic
import Mathlib.Data.List.Nodup
import Mathlib.Algebra.Order.Group.Int
import Mathlib.Logic.Function.Basic

/-!
# Semaphores of the kernel

`mutex.c`: a count, and a queue of threads that sleep. The file is the implementation for one
processor, where a lock holds off interrupts: what runs under a lock is one step, and a thread that
sleeps goes on in a later step of its own. `vall_sema` tests the count without the lock, so its test
and the `v_sema` behind it are two steps.

The queue is the list of the threads linked by `t_hd`, from `s_sleepq` on.
-/

set_option autoImplicit false

namespace Vsta.Mutex

/-- `sema_t`, without its lock. -/
structure Sema (Tid : Type*) where
  sCount : ℤ
  sSleepq : List Tid

/-- `t_state`, as far as semaphores go. -/
inductive TState where
  | onproc
  | run
  | sleep
  deriving DecidableEq, Repr

/-- Priorities of a sleep: events do not break one with `PRIHI`. -/
inductive Pri where
  | priCatch
  | priHi
  deriving DecidableEq, Repr

/-- Where a thread is in `vall_sema`: before the test of its loop, or before the `v_sema`. -/
inductive Vall where
  | out
  | test
  | wake
  deriving DecidableEq, Repr

/-- What a thread has to do with the semaphore. `ticket` is history: how many threads were queued
before it was. -/
structure Thread where
  tState : TState
  tWchan : Bool
  tNointr : Bool
  tIntr : Bool
  vall : Vall
  ticket : ℕ
  deriving DecidableEq, Repr

section
variable {Tid : Type*} [DecidableEq Tid]

/-- `q_sema`. -/
def Sema.qSema (s : Sema Tid) (t : Tid) : Sema Tid := { s with sSleepq := s.sSleepq ++ [t] }

/-- `dq_sema`. -/
def Sema.dqSema (s : Sema Tid) (t : Tid) : Sema Tid :=
  { sCount := s.sCount + 1, sSleepq := s.sSleepq.erase t }

theorem Sema.length_dqSema {s : Sema Tid} {t : Tid} (queued : t ∈ s.sSleepq) :
    (s.dqSema t).sSleepq.length + 1 = s.sSleepq.length := by
  have some_ := List.length_pos_of_mem queued
  rw [Sema.dqSema, List.length_erase_of_mem queued]
  omega

theorem Sema.dqSema_first {s : Sema Tid} {t : Tid} {rest : List Tid} (queue : s.sSleepq = t :: rest) :
    (s.dqSema t).sSleepq = rest := by
  rw [Sema.dqSema, queue, List.erase_cons_head]

theorem Sema.perm_dqSema {s : Sema Tid} {t : Tid} (queued : t ∈ s.sSleepq) :
    s.sSleepq.Perm (t :: (s.dqSema t).sSleepq) := List.perm_cons_erase queued

theorem Sema.dqSema_sublist (s : Sema Tid) (t : Tid) :
    (s.dqSema t).sSleepq.Sublist s.sSleepq := List.erase_sublist

/-- The semaphore with its threads and those that are ready to run. The rest is history: the next
ticket, the tickets of the threads that `v_sema` woke, how many `p_sema` and `cp_sema` returned
success, and how many `v_sema` there were. -/
structure State (Tid : Type*) where
  sema : Sema Tid
  threads : Tid → Thread
  runq : List Tid
  next : ℕ
  woken : List ℕ
  passed : ℕ
  vs : ℕ

namespace State

/-- A thread is changed. -/
def setThread (s : State Tid) (t : Tid) (th : Thread) : State Tid :=
  { s with threads := Function.update s.threads t th }

/-- `lsetrun`, for a thread off the queue: `intr` tells whether `cunsleep` took it off. -/
def lsetrun (s : State Tid) (t : Tid) (intr : Bool) : State Tid :=
  { s.setThread t { s.threads t with tWchan := false, tIntr := intr, tState := .run } with
    runq := s.runq ++ [t] }

/-- `p_sema` up to where the thread sleeps, and `p_sema_v_lock`, which does the same and drops a
lock. -/
def pSema (s : State Tid) (t : Tid) (p : Pri) : State Tid :=
  let sema := { s.sema with sCount := s.sema.sCount - 1 }
  if 0 ≤ sema.sCount then { s with sema := sema, passed := s.passed + 1 }
  else
    let th := { s.threads t with
      tWchan := true, tNointr := p == .priHi, tIntr := false, tState := .sleep, ticket := s.next }
    { s.setThread t th with sema := sema.qSema t, next := s.next + 1 }

/-- `p_sema` and `p_sema_v_lock` behind `swtch`: the thread looks whether it was interrupted. -/
def resume (s : State Tid) (t : Tid) : State Tid :=
  { s.setThread t { s.threads t with tNointr := false, tState := .onproc } with
    runq := s.runq.erase t
    passed := if (s.threads t).tIntr then s.passed else s.passed + 1 }

/-- `cp_sema`. -/
def cpSema (s : State Tid) : State Tid :=
  if 0 < s.sema.sCount then
    { s with sema := { s.sema with sCount := s.sema.sCount - 1 }, passed := s.passed + 1 }
  else s

/-- `v_sema`. -/
def vSema (s : State Tid) : State Tid :=
  match s.sema.sSleepq with
  | t :: _ =>
      { s.lsetrun t (s.threads t).tIntr with
        sema := s.sema.dqSema t
        woken := s.woken ++ [(s.threads t).ticket]
        vs := s.vs + 1 }
  | [] => { s with sema := { s.sema with sCount := s.sema.sCount + 1 }, vs := s.vs + 1 }

/-- `cunsleep`, with the `lsetrun` of its caller. -/
def cunsleep (s : State Tid) (t : Tid) : State Tid :=
  { s.lsetrun t true with sema := s.sema.dqSema t }

/-- Where a thread is in `vall_sema`. -/
def setVall (s : State Tid) (t : Tid) (vall : Vall) : State Tid :=
  s.setThread t { s.threads t with vall := vall }

end State

/-- The steps. -/
inductive Act (Tid : Type*) where
  | pSema (t : Tid) (p : Pri)
  | pSemaVLock (t : Tid) (p : Pri)
  | resume (t : Tid)
  | cpSema
  | vSema
  | vallSema (t : Tid)
  | vallTest (t : Tid)
  | vallWake (t : Tid)
  | cunsleep (t : Tid)

/-- A thread that runs, outside `vall_sema`. -/
def Thread.idle (th : Thread) : Prop := th.tState = .onproc ∧ th.vall = .out

instance (th : Thread) : Decidable th.idle := inferInstanceAs (Decidable (_ ∧ _))

/-- One step: a thread that runs makes a call, a thread that is ready goes on, or a thread asleep is
interrupted, which `signal_thread` does only to one that sleeps and may be. `cp_sema` and `v_sema`
are made by interrupts too. -/
def State.exec (s : State Tid) : Act Tid → Option (State Tid)
  | .pSema t p => if (s.threads t).idle then some (s.pSema t p) else none
  | .pSemaVLock t p => if (s.threads t).idle then some (s.pSema t p) else none
  | .resume t => if t ∈ s.runq then some (s.resume t) else none
  | .cpSema => some s.cpSema
  | .vSema => some s.vSema
  | .vallSema t => if (s.threads t).idle then some (s.setVall t .test) else none
  | .vallTest t =>
      if (s.threads t).vall = .test then
        some (s.setVall t (if s.sema.sCount < 0 then .wake else .out))
      else none
  | .vallWake t =>
      if (s.threads t).vall = .wake then some (s.vSema.setVall t .test) else none
  | .cunsleep t =>
      if (s.threads t).tState = .sleep ∧ (s.threads t).tNointr = false then some (s.cunsleep t)
      else none

/-- A semaphore that has been set to a count, with no thread in it. -/
def State.start (Tid : Type*) (count : ℕ) : State Tid where
  sema := ⟨count, []⟩
  threads := fun _ => ⟨.onproc, false, false, false, .out, 0⟩
  runq := []
  next := 0
  woken := []
  passed := 0
  vs := 0

/-- A step that is taken. -/
def Step (s : State Tid) (a : Act Tid) (s' : State Tid) : Prop := s.exec a = some s'

/-! ## The invariant -/

namespace State

/-- The tickets of the threads on the queue. -/
def tickets (s : State Tid) : List ℕ := s.sema.sSleepq.map fun t => (s.threads t).ticket

/-- The threads that were woken with a unit and have not come back. -/
def granted (s : State Tid) : List Tid := s.runq.filter fun t => !(s.threads t).tIntr

end State

/-- A thread is on the queue exactly while it sleeps, and ready exactly after it was woken. -/
structure Thread.At (th : Thread) (queued ready : Prop) : Prop where
  queued_iff : queued ↔ th.tState = .sleep
  ready_iff : ready ↔ th.tState = .run
  wchan_iff : th.tWchan = true ↔ th.tState = .sleep
  fine : th.tState = .sleep → th.tIntr = false
  vallRuns : th.vall ≠ .out → th.tState = .onproc

/-- The queue is as long as the count is below zero, its threads sleep and are in the order of their
tickets, and every unit is with a thread that passed or was woken, or in the count. -/
structure Sound (init : ℕ) (s : State Tid) : Prop where
  length : (s.sema.sSleepq.length : ℤ) = max 0 (-s.sema.sCount)
  nodup : s.sema.sSleepq.Nodup
  runNodup : s.runq.Nodup
  at_ : ∀ t, (s.threads t).At (t ∈ s.sema.sSleepq) (t ∈ s.runq)
  order : (s.woken ++ s.tickets).Pairwise (· < ·)
  fresh : ∀ n ∈ s.woken ++ s.tickets, n < s.next
  balance : (s.passed : ℤ) + s.granted.length + s.sema.sCount + s.sema.sSleepq.length =
    init + s.vs

variable {init : ℕ} {s s' : State Tid} {t : Tid}

omit [DecidableEq Tid] in
theorem start_sound (count : ℕ) : Sound count (State.start Tid count) := by
  refine ⟨by simp [State.start], by simp [State.start], by simp [State.start], fun t => ?_,
    by simp [State.start, State.tickets], by simp [State.start, State.tickets],
    by simp [State.start, State.granted]⟩
  constructor <;> simp [State.start]

/-! ## What a change of one thread leaves -/

/-- A thread off the queue does not change the tickets. -/
theorem tickets_update {queue : List Tid} {threads : Tid → Thread} {th : Thread}
    (off : t ∉ queue) :
    (queue.map fun u => (Function.update threads t th u).ticket) =
      queue.map fun u => (threads u).ticket := by
  refine List.map_congr_left fun u member => ?_
  have other : u ≠ t := fun same => off (same ▸ member)
  rw [Function.update_of_ne other]

/-- A thread that is not ready does not change who was woken with a unit. -/
theorem granted_update {runq : List Tid} {threads : Tid → Thread} {th : Thread}
    (off : t ∉ runq) :
    (runq.filter fun u => !(Function.update threads t th u).tIntr) =
      runq.filter fun u => !(threads u).tIntr := by
  refine List.filter_congr fun u member => ?_
  have other : u ≠ t := fun same => off (same ▸ member)
  rw [Function.update_of_ne other]

/-- Threads other than the one that changes stay where they are. -/
theorem at_update {queue queue' runq runq' : List Tid} {threads : Tid → Thread} {th : Thread}
    (placed : ∀ u, (threads u).At (u ∈ queue) (u ∈ runq)) (here : th.At (t ∈ queue') (t ∈ runq'))
    (others : ∀ u ≠ t, (u ∈ queue' ↔ u ∈ queue) ∧ (u ∈ runq' ↔ u ∈ runq)) (u : Tid) :
    (Function.update threads t th u).At (u ∈ queue') (u ∈ runq') := by
  by_cases same : u = t
  · subst same
    rwa [Function.update_self]
  · obtain ⟨sameQ, sameR⟩ := others u same
    rw [Function.update_of_ne same, sameQ, sameR]
    exact placed u

/-! ## Each step -/

omit [DecidableEq Tid] in
/-- The thread finds a unit. -/
theorem Sound.pSema_passes (sound : Sound init s) (passes : 0 ≤ s.sema.sCount - 1) :
    Sound init { s with
      sema := { s.sema with sCount := s.sema.sCount - 1 }, passed := s.passed + 1 } := by
  have length := sound.length
  have balance := sound.balance
  refine { sound with length := ?_, balance := ?_ }
  · simp only
    omega
  · simp only [State.granted] at balance ⊢
    push_cast
    omega

theorem Sound.pSema (sound : Sound init s) (idle : (s.threads t).idle) (p : Pri) :
    Sound init (s.pSema t p) := by
  obtain ⟨runs, out⟩ := idle
  have placed := sound.at_ t
  have offQ : t ∉ s.sema.sSleepq := fun member => by simp [placed.queued_iff.mp member] at runs
  have offR : t ∉ s.runq := fun member => by simp [placed.ready_iff.mp member] at runs
  rw [State.pSema]
  simp only
  split_ifs with passes
  · exact sound.pSema_passes passes
  -- the thread goes to the end of the queue
  have length := sound.length
  have balance := sound.balance
  have tickets : State.tickets { s.setThread t { s.threads t with
        tWchan := true, tNointr := p == .priHi, tIntr := false, tState := .sleep,
        ticket := s.next } with
      sema := Sema.qSema { s.sema with sCount := s.sema.sCount - 1 } t, next := s.next + 1 } =
      s.tickets ++ [s.next] := by
    simp only [State.tickets, State.setThread, Sema.qSema, List.map_append, tickets_update offQ,
      List.map_cons, List.map_nil, Function.update_self]
  constructor
  case length =>
      simp only [Sema.qSema, List.length_append, List.length_cons, List.length_nil]
      push_cast
      omega
  case nodup =>
      simp only [Sema.qSema]
      exact List.nodup_append.mpr ⟨sound.nodup, List.nodup_singleton t, fun u member v here => by
        rw [List.mem_singleton.mp here]
        exact fun same => offQ (same ▸ member)⟩
  case runNodup => exact sound.runNodup
  case at_ =>
      refine at_update sound.at_ ?_ fun u other => ⟨?_, Iff.rfl⟩
      · constructor <;> simp [Sema.qSema, offR, State.setThread, out]
      · simp [Sema.qSema, other]
  case order =>
      rw [tickets, ← List.append_assoc, List.pairwise_append]
      refine ⟨sound.order, List.pairwise_singleton _ _, fun n member m here => ?_⟩
      rw [List.mem_singleton.mp here]
      exact sound.fresh n member
  case fresh =>
      intro n member
      rw [tickets, ← List.append_assoc] at member
      rcases List.mem_append.mp member with old | new
      · exact Nat.lt_succ_of_lt (sound.fresh n old)
      · rw [List.mem_singleton.mp new]
        exact Nat.lt_succ_self _
  case balance =>
      simp only [State.granted, State.setThread, granted_update offR, Sema.qSema,
        List.length_append, List.length_cons, List.length_nil] at balance ⊢
      push_cast
      omega

/-- A thread that was woken comes back. -/
theorem Sound.resume (sound : Sound init s) (ready : t ∈ s.runq) : Sound init (s.resume t) := by
  have placed := sound.at_ t
  have state := placed.ready_iff.mp ready
  have offQ : t ∉ s.sema.sSleepq := fun member => by
    simp [placed.queued_iff.mp member] at state
  have out : (s.threads t).vall = .out := by
    by_contra inside
    simp [placed.vallRuns inside] at state
  have offR : t ∉ s.runq.erase t := fun member => (sound.runNodup.mem_erase_iff.mp member).1 rfl
  have wchan : (s.threads t).tWchan = false := by
    rw [Bool.eq_false_iff]
    exact fun waits => by simp [placed.wchan_iff.mp waits] at state
  have ready_eq := List.perm_cons_erase ready
  have granted : s.granted.length = (if (s.threads t).tIntr then 0 else 1) +
      ((s.runq.erase t).filter fun u => !(s.threads u).tIntr).length := by
    rw [State.granted, (ready_eq.filter _).length_eq, List.filter_cons]
    cases (s.threads t).tIntr <;> simp [Nat.add_comm]
  constructor
  case length => exact sound.length
  case nodup => exact sound.nodup
  case runNodup => exact sound.runNodup.erase t
  case at_ =>
      refine at_update sound.at_ ?_ fun u other => ⟨Iff.rfl, ?_⟩
      · constructor <;> simp [State.resume, State.setThread, offQ, offR, out, wchan]
      · exact List.mem_erase_of_ne other
  case order =>
      simpa only [State.tickets, State.resume, State.setThread, tickets_update offQ] using sound.order
  case fresh =>
      simpa only [State.tickets, State.resume, State.setThread, tickets_update offQ] using sound.fresh
  case balance =>
      have balance := sound.balance
      rw [granted] at balance
      simp only [State.granted, State.resume, State.setThread, granted_update offR]
      cases intr : (s.threads t).tIntr <;>
        · simp only [intr, if_true, if_false, Bool.false_eq_true] at balance ⊢
          push_cast at balance ⊢
          omega

/-- A thread is taken off the queue and set running, with a unit or without. -/
theorem Sound.wakes (sound : Sound init s) (queued : t ∈ s.sema.sSleepq) (intr : Bool)
    (woken : List ℕ)
    (kept : (woken ++ (s.sema.sSleepq.erase t).map fun u => (s.threads u).ticket).Sublist
      (s.woken ++ s.tickets)) :
    Sound init { s.lsetrun t intr with
      sema := s.sema.dqSema t
      woken := woken
      vs := if intr then s.vs else s.vs + 1 } := by
  have placed := sound.at_ t
  have state := placed.queued_iff.mp queued
  have offR : t ∉ s.runq := fun member => by simp [placed.ready_iff.mp member] at state
  have offQ : t ∉ s.sema.sSleepq.erase t := fun member =>
    (sound.nodup.mem_erase_iff.mp member).1 rfl
  have out : (s.threads t).vall = .out := by
    by_contra inside
    simp [placed.vallRuns inside] at state
  have shorter := List.length_erase_of_mem queued
  have some_ := List.length_pos_of_mem queued
  have length := sound.length
  have granted : State.granted { s.lsetrun t intr with
      sema := s.sema.dqSema t, woken := woken, vs := if intr then s.vs else s.vs + 1 } =
      s.granted ++ if intr then [] else [t] := by
    simp only [State.granted, State.lsetrun, State.setThread, List.filter_append,
      granted_update offR, List.filter_cons, List.filter_nil, Function.update_self]
    cases intr <;> simp
  constructor
  case length =>
      simp only [Sema.dqSema]
      omega
  case nodup => exact sound.nodup.erase t
  case runNodup =>
      refine List.nodup_append.mpr ⟨sound.runNodup, List.nodup_singleton t, fun u member v here => ?_⟩
      rw [List.mem_singleton.mp here]
      exact fun same => offR (same ▸ member)
  case at_ =>
      refine at_update sound.at_ ?_ fun u other => ⟨?_, ?_⟩
      · constructor <;> simp [Sema.dqSema, offQ, State.lsetrun, State.setThread, out]
      · exact List.mem_erase_of_ne other
      · simp [State.lsetrun, other]
  case order =>
      simp only [State.tickets, State.lsetrun, State.setThread, Sema.dqSema, tickets_update offQ]
      exact sound.order.sublist kept
  case fresh =>
      simp only [State.tickets, State.lsetrun, State.setThread, Sema.dqSema, tickets_update offQ]
      exact fun n member => sound.fresh n (kept.subset member)
  case balance =>
      have balance := sound.balance
      rw [granted, List.length_append]
      simp only [Sema.dqSema, State.lsetrun, State.setThread]
      cases intr <;>
        · simp only [if_true, if_false, Bool.false_eq_true, List.length_cons, List.length_nil]
          push_cast
          omega

/-- `v_sema` wakes the first of the queue, or raises the count. -/
theorem Sound.vSema (sound : Sound init s) : Sound init s.vSema := by
  rw [State.vSema]
  cases queue : s.sema.sSleepq with
  | nil =>
      have length := sound.length
      have balance := sound.balance
      rw [queue] at length balance
      refine { sound with length := ?_, balance := ?_ }
      · simp only [queue]
        simp only [List.length_nil] at length ⊢
        push_cast at length ⊢
        omega
      · simp only [queue, State.granted] at balance ⊢
        push_cast
        omega
  | cons t rest =>
      have queued : t ∈ s.sema.sSleepq := by
        rw [queue]
        exact List.mem_cons_self
      have fine := (sound.at_ t).fine ((sound.at_ t).queued_iff.mp queued)
      have wakes := sound.wakes queued false (s.woken ++ [(s.threads t).ticket]) (by
        simp [State.tickets, queue])
      simp only [fine]
      exact wakes

/-- `cunsleep` takes a thread off the queue wherever it is. -/
theorem Sound.cunsleep (sound : Sound init s) (sleeps : (s.threads t).tState = .sleep) :
    Sound init (s.cunsleep t) :=
  sound.wakes ((sound.at_ t).queued_iff.mpr sleeps) true s.woken
    (((List.erase_sublist).map _).append_left _)

omit [DecidableEq Tid] in
theorem Sound.cpSema (sound : Sound init s) : Sound init s.cpSema := by
  rw [State.cpSema]
  split_ifs with some_
  · exact sound.pSema_passes (by omega)
  · exact sound

/-- A thread moves on in `vall_sema`. -/
theorem Sound.setVall (sound : Sound init s) (runs : (s.threads t).tState = .onproc) (vall : Vall) :
    Sound init (s.setVall t vall) := by
  have placed := sound.at_ t
  have offQ : t ∉ s.sema.sSleepq := fun member => by simp [placed.queued_iff.mp member] at runs
  have offR : t ∉ s.runq := fun member => by simp [placed.ready_iff.mp member] at runs
  refine ⟨sound.length, sound.nodup, sound.runNodup, ?_, ?_, ?_, ?_⟩
  · refine at_update sound.at_ ?_ fun _ _ => ⟨Iff.rfl, Iff.rfl⟩
    obtain ⟨queued_iff, ready_iff, wchan_iff, fine, -⟩ := placed
    exact ⟨queued_iff, ready_iff, wchan_iff, fine, fun _ => runs⟩
  · simpa only [State.tickets, State.setVall, State.setThread, tickets_update offQ] using
      sound.order
  · simpa only [State.tickets, State.setVall, State.setThread, tickets_update offQ] using
      sound.fresh
  · simpa only [State.granted, State.setVall, State.setThread, granted_update offR] using
      sound.balance

/-- `v_sema` leaves a thread that runs where it is. -/
theorem Sound.vSema_runs (sound : Sound init s) (runs : (s.threads t).tState = .onproc) :
    (s.vSema.threads t).tState = .onproc := by
  rw [State.vSema]
  cases queue : s.sema.sSleepq with
  | nil => exact runs
  | cons u rest =>
      have other : t ≠ u := by
        rintro rfl
        have sleeps := (sound.at_ t).queued_iff.mp (queue ▸ List.mem_cons_self)
        simp [sleeps] at runs
      simp only [State.lsetrun, State.setThread, Function.update_of_ne other]
      exact runs

/-- **Every step keeps the count and the queue in agreement.** -/
theorem Sound.step (sound : Sound init s) {a : Act Tid} (step : Step s a s') : Sound init s' := by
  cases a with
  | pSema t p =>
      obtain ⟨idle, taken⟩ := Option.ite_none_right_eq_some.mp step
      obtain rfl := Option.some.inj taken
      exact sound.pSema idle p
  | pSemaVLock t p =>
      obtain ⟨idle, taken⟩ := Option.ite_none_right_eq_some.mp step
      obtain rfl := Option.some.inj taken
      exact sound.pSema idle p
  | resume t =>
      obtain ⟨ready, taken⟩ := Option.ite_none_right_eq_some.mp step
      obtain rfl := Option.some.inj taken
      exact sound.resume ready
  | cpSema =>
      obtain rfl := Option.some.inj step
      exact sound.cpSema
  | vSema =>
      obtain rfl := Option.some.inj step
      exact sound.vSema
  | vallSema t =>
      obtain ⟨idle, taken⟩ := Option.ite_none_right_eq_some.mp step
      obtain rfl := Option.some.inj taken
      exact sound.setVall idle.1 .test
  | vallTest t =>
      obtain ⟨inside, taken⟩ := Option.ite_none_right_eq_some.mp step
      obtain rfl := Option.some.inj taken
      exact sound.setVall ((sound.at_ t).vallRuns (by simp [inside])) _
  | vallWake t =>
      obtain ⟨inside, taken⟩ := Option.ite_none_right_eq_some.mp step
      obtain rfl := Option.some.inj taken
      have runs := (sound.at_ t).vallRuns (by simp [inside])
      exact sound.vSema.setVall (sound.vSema_runs runs) .test
  | cunsleep t =>
      obtain ⟨⟨sleeps, -⟩, taken⟩ := Option.ite_none_right_eq_some.mp step
      obtain rfl := Option.some.inj taken
      exact sound.cunsleep sleeps

theorem sound_run {guard : State Tid → Act Tid → Prop}
    (run : Transition.Reaches Step guard (State.start Tid init) s) : Sound init s :=
  run.invariant (start_sound init) fun _ _ _ sound _ => sound.step

/-- **In every run a count below zero is the number of threads on the queue and any other count
leaves the queue empty; `v_sema` wakes the threads in the order they were queued; and the
operations that succeeded are no more than the initial count and the `v_sema`s, with an interrupted
thread taking nothing.** -/
theorem semaphore_agrees
    (run : Transition.Reaches Step Transition.Any (State.start Tid init) s) :
    (s.sema.sCount < 0 → (s.sema.sSleepq.length : ℤ) = -s.sema.sCount) ∧
      (0 ≤ s.sema.sCount → s.sema.sSleepq = []) ∧
      (s.sema.sSleepq.Nodup ∧ ∀ t, t ∈ s.sema.sSleepq ↔ (s.threads t).tState = .sleep) ∧
      (s.woken ++ s.tickets).Pairwise (· < ·) ∧
      s.passed ≤ init + s.vs ∧
      (s.passed : ℤ) + s.granted.length = init + s.vs - max 0 s.sema.sCount := by
  have sound := sound_run run
  have length := sound.length
  have balance := sound.balance
  refine ⟨fun low => ?_, fun high => ?_, ⟨sound.nodup, fun t => (sound.at_ t).queued_iff⟩,
    sound.order, ?_, ?_⟩
  · omega
  · exact List.length_eq_zero_iff.mp (by omega)
  · omega
  · omega

end

/-- Two threads sleep, the first is interrupted and the second is woken. -/
def twoSleepers : List (Act ℕ) :=
  [.pSema 0 .priCatch, .pSema 1 .priHi, .cunsleep 0, .vSema, .resume 1, .resume 0]

theorem follow_twoSleepers :
    (Transition.follow State.exec (fun _ _ => true) (State.start ℕ 0) twoSleepers).map
      (fun s => (s.passed, s.vs, s.sema.sSleepq)) = some (1, 1, []) := by decide

/-- The interrupted thread takes nothing. -/
theorem semaphore_agrees_two : ∃ s : State ℕ, s.passed = 1 ∧ s.passed ≤ 0 + s.vs := by
  obtain ⟨s, followed, eq⟩ := Option.map_eq_some_iff.mp follow_twoSleepers
  have run : Transition.Reaches Step Transition.Any (State.start ℕ 0) s :=
    (Transition.Reaches.refl _).follow (fun _ _ _ => trivial) followed
  exact ⟨s, (Prod.mk.inj eq).1, (semaphore_agrees run).2.2.2.2.1⟩

end Vsta.Mutex
