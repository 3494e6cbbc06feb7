import Vsta.Sema.Mutex
import Mathlib.Algebra.Order.Group.Multiset
import Mathlib.Tactic.Abel

/-!
# Exit groups

`exitgrp.c`: the children of a process post their exit status to the group, and threads of the
process wait for one. A section under `e_lock` is one step; where a thread sleeps on `e_sema` it
goes on in a step of its own. A thread that finds a status takes it at once and counts the semaphore
down only after it has dropped the lock, so a thread that was given a unit may find no status
(`waiter_finds_none`). In every run in which no thread takes a status that a woken one is to have,
and none counts on a unit of a status that has been taken, every status is returned by one thread or
discarded (`statuses_delivered`).

The threads in `wait_exitgrp` are kept by what they are to do next; those on the queue of the
semaphore with the status they hold, if they have taken one.
-/

set_option autoImplicit false
set_option linter.unusedSectionVars false

namespace Vsta.ExitGroup

open Mutex (Sema)

/-- `struct exitst`. -/
structure Exitst where
  ePid : ℕ
  eCode : ℤ
  eUsr : ℕ
  eSys : ℕ
  eEvent : String
  deriving DecidableEq, Repr

/-- Whether the parent is attached, has dropped its statuses and is to drop its reference, or is
gone. -/
inductive Parent where
  | attached
  | detaching
  | gone
  deriving DecidableEq, Repr

section
variable {Tid : Type*} [DecidableEq Tid]

/-- `struct exitgrp` with those who use it: the threads of the parent that were given a unit of the
semaphore and are to take a status, that were interrupted, that have taken a status and are to count
the semaphore down, and that did and slept; and the children, by how far they are in exiting. The
rest is history: how often the group was freed, the statuses queued, those returned and those
discarded. -/
structure State (Tid : Type*) where
  parent : Parent
  eSema : Sema (Tid × Option Exitst)
  eStat : List Exitst
  eRefs : ℕ
  granted : List Tid
  intr : List Tid
  takers : List (Tid × Exitst)
  woken : List (Tid × Exitst)
  alive : List ℕ
  looked : List Exitst
  leaving : List ℕ
  frees : ℕ
  posted : List Exitst
  returned : List Exitst
  discarded : List Exitst

namespace State

/-- `e_parent` is set. -/
def eParent (s : State Tid) : Prop := s.parent = .attached

instance (s : State Tid) : Decidable s.eParent := inferInstanceAs (Decidable (_ = _))

/-- The semaphore counted down. -/
def counted (s : State Tid) : Sema (Tid × Option Exitst) :=
  { s.eSema with sCount := s.eSema.sCount - 1 }

/-- `ref_exitgrp`, for a child that is forked. -/
def refExitgrp (s : State Tid) (pid : ℕ) : State Tid :=
  { s with eRefs := s.eRefs + 1, alive := pid :: s.alive }

/-- `deref_exitgrp`. -/
def derefExitgrp (s : State Tid) : State Tid :=
  { s with eRefs := s.eRefs - 1, frees := if 0 < s.eRefs - 1 then s.frees else s.frees + 1 }

/-- `noparent_exitgrp` up to where it drops the reference of the parent. -/
def noparentExitgrp (s : State Tid) : State Tid :=
  { s with parent := .detaching, eStat := [], discarded := s.discarded ++ s.eStat }

/-- `v_sema` on `e_sema`. -/
def vSema (s : State Tid) : State Tid :=
  match s.eSema.sSleepq with
  | (t, none) :: _ =>
      { s with eSema := s.eSema.dqSema (t, none), granted := s.granted ++ [t] }
  | (t, some es) :: _ =>
      { s with eSema := s.eSema.dqSema (t, some es), woken := s.woken ++ [(t, es)] }
  | [] => { s with eSema := { s.eSema with sCount := s.eSema.sCount + 1 } }

/-- `post_exitgrp` behind its look at the parent: the status is queued, or freed. -/
def postExitgrp (s : State Tid) (es : Exitst) : State Tid :=
  let s := { s with looked := s.looked.erase es, leaving := es.ePid :: s.leaving }
  if s.eParent then State.vSema { s with eStat := es :: s.eStat, posted := es :: s.posted } else s

/-- `wait_exitgrp` up to where it drops the lock or sleeps. -/
def waitExitgrp (s : State Tid) (t : Tid) (block : Bool) : State Tid :=
  match s.eStat with
  | es :: rest => { s with eStat := rest, takers := (t, es) :: s.takers }
  | [] =>
      if s.eRefs = 1 ∨ block = false then s
      else if 0 ≤ s.counted.sCount then
        { s with eSema := s.counted, granted := s.granted ++ [t] }
      else { s with eSema := s.counted.qSema (t, none) }

/-- `wait_exitgrp` after a sleep: the status is taken. There is none to take where the list is
empty. -/
def collect (s : State Tid) (t : Tid) : Option (State Tid) :=
  match s.eStat with
  | es :: rest =>
      some { s with
        eStat := rest, granted := s.granted.erase t, returned := s.returned ++ [es] }
  | [] => none

/-- `wait_exitgrp` with a status it has taken: `p_sema` up to where it sleeps. -/
def takeSema (s : State Tid) (t : Tid) (es : Exitst) : State Tid :=
  let s' := { s with takers := s.takers.erase (t, es) }
  if 0 ≤ s.counted.sCount then
    { s' with eSema := s.counted, returned := s.returned ++ [es] }
  else { s' with eSema := s.counted.qSema (t, some es) }

end State

/-- The steps. -/
inductive Act (Tid : Type*) where
  | fork (pid : ℕ)
  | wait (t : Tid) (block : Bool)
  | collect (t : Tid)
  | interrupt (t : Tid)
  | interrupted (t : Tid)
  | takeSema (t : Tid) (es : Exitst)
  | takeWoken (t : Tid) (es : Exitst)
  | look (es : Exitst)
  | post (es : Exitst)
  | deref (pid : ℕ)
  | noparent
  | derefParent

/-- No thread of the parent is in `wait_exitgrp`. -/
def State.Empty (s : State Tid) : Prop :=
  s.eSema.sSleepq = [] ∧ s.granted = [] ∧ s.intr = [] ∧ s.takers = [] ∧ s.woken = []

instance (s : State Tid) : Decidable s.Empty := inferInstanceAs (Decidable (_ ∧ _))

/-- One step. Threads of the parent fork and wait as long as it is attached, and its last thread
detaches it. Only a thread that sleeps for a status may be interrupted: one that has taken a status
sleeps with `PRIHI`. -/
def State.exec (s : State Tid) : Act Tid → Option (State Tid)
  | .fork pid => if s.eParent then some (s.refExitgrp pid) else none
  | .wait t block => if s.eParent then some (s.waitExitgrp t block) else none
  | .collect t => if t ∈ s.granted then s.collect t else none
  | .interrupt t =>
      if (t, none) ∈ s.eSema.sSleepq then
        some { s with eSema := s.eSema.dqSema (t, none), intr := t :: s.intr }
      else none
  | .interrupted t => if t ∈ s.intr then some { s with intr := s.intr.erase t } else none
  | .takeSema t es => if (t, es) ∈ s.takers then some (s.takeSema t es) else none
  | .takeWoken t es =>
      if (t, es) ∈ s.woken then
        some { s with woken := s.woken.erase (t, es), returned := s.returned ++ [es] }
      else none
  | .look es =>
      if es.ePid ∈ s.alive then
        if s.eParent then
          some { s with alive := s.alive.erase es.ePid, looked := es :: s.looked }
        else some { s with alive := s.alive.erase es.ePid, leaving := es.ePid :: s.leaving }
      else none
  | .post es => if es ∈ s.looked then some (s.postExitgrp es) else none
  | .deref pid =>
      if pid ∈ s.leaving then
        some (State.derefExitgrp { s with leaving := s.leaving.erase pid })
      else none
  | .noparent => if s.eParent ∧ s.Empty then some s.noparentExitgrp else none
  | .derefParent =>
      if s.parent = .detaching then some (State.derefExitgrp { s with parent := .gone }) else none

/-- A step that is taken. -/
def Step (s : State Tid) (a : Act Tid) (s' : State Tid) : Prop := s.exec a = some s'

/-- The group of a process without children, as `alloc_exitgrp` makes it. -/
def State.start (Tid : Type*) : State Tid where
  parent := .attached
  eSema := ⟨0, []⟩
  eStat := []
  eRefs := 1
  granted := []
  intr := []
  takers := []
  woken := []
  alive := []
  looked := []
  leaving := []
  frees := 0
  posted := []
  returned := []
  discarded := []

/-- What a step has to meet: a thread does not take a status that a woken one is to have, and does
not go to sleep on a count that is up for a status that has been taken. -/
def InStep (s : State Tid) : Act Tid → Prop
  | .wait _ block =>
      (s.eStat ≠ [] → s.granted.length < s.eStat.length) ∧
        (s.eStat = [] → s.eRefs ≠ 1 → block = true → s.eSema.sCount ≤ 0)
  | _ => True

instance (s : State Tid) (a : Act Tid) : Decidable (InStep s a) := by
  cases a <;> unfold InStep <;> infer_instance

/-! ## The invariant -/

/-- The semaphore counts the statuses that no woken thread is to have, those that have been taken
among them. -/
structure Counted (s : State Tid) : Prop where
  length : (s.eSema.sSleepq.length : ℤ) = max 0 (-s.eSema.sCount)
  waiters : ∀ w ∈ s.eSema.sSleepq, w.2 = none
  woken : s.woken = []
  balance : s.eSema.sCount + s.eSema.sSleepq.length + s.granted.length =
    s.eStat.length + s.takers.length
  enough : s.granted.length ≤ s.eStat.length

/-- The statuses that threads of the parent have taken and not returned. -/
def State.inHand (s : State Tid) : Multiset Exitst :=
  (s.takers.map Prod.snd : List Exitst) + (s.eSema.sSleepq.filterMap Prod.snd : List Exitst) +
    (s.woken.map Prod.snd : List Exitst)

/-- Every status posted is in one place. -/
structure Kept (s : State Tid) : Prop where
  places : (s.posted : Multiset Exitst) = s.eStat + s.inHand + s.returned + s.discarded
  detached : s.parent ≠ .attached → s.eStat = [] ∧ s.Empty

/-- The references are those of the parent and of the children, and the group is freed with the
last. -/
structure Referenced (s : State Tid) : Prop where
  refs : s.eRefs = (if s.parent = .gone then 0 else 1) + s.alive.length + s.looked.length +
    s.leaving.length
  frees : s.frees = if s.eRefs = 0 then 1 else 0

variable {s s' : State Tid}

theorem start_counted : Counted (State.start Tid) := by
  constructor <;> simp [State.start]

theorem start_kept : Kept (State.start Tid) := by
  constructor <;> simp [State.start, State.inHand, State.Empty]

theorem start_referenced : Referenced (State.start Tid) := by
  constructor <;> simp [State.start]

/-! ## The count -/

/-- `v_sema` for a status that has been queued. -/
theorem Counted.vSema {es : Exitst} {posted : List Exitst} (counted : Counted s) :
    Counted (State.vSema { s with eStat := es :: s.eStat, posted := posted }) := by
  obtain ⟨length, waiters, woken, balance, enough⟩ := counted
  rw [State.vSema]
  simp only
  cases queue : s.eSema.sSleepq with
  | nil =>
      rw [queue] at length balance
      simp only [List.length_nil] at length balance
      push_cast at *
      constructor
      · simp only [List.length_nil]
        push_cast
        omega
      · simp
      · exact woken
      · simp only [List.length_nil, List.length_cons]
        push_cast
        omega
      · simp only [List.length_cons]
        omega
  | cons w rest =>
      obtain ⟨t, none_⟩ := w
      obtain rfl : none_ = none := waiters _ (queue ▸ List.mem_cons_self)
      rw [queue] at length balance
      simp only [List.length_cons] at length balance
      push_cast at length balance
      have left := Sema.dqSema_first queue
      have count : (s.eSema.dqSema (t, none)).sCount = s.eSema.sCount + 1 := rfl
      constructor
      · simp only [left, count]
        omega
      · simp only [left]
        exact fun w member => waiters w (queue ▸ List.mem_cons_of_mem _ member)
      · exact woken
      · simp only [left, count, List.length_append, List.length_cons, List.length_nil]
        push_cast
        omega
      · simp only [List.length_append, List.length_cons, List.length_nil]
        omega

/-- A step that leaves the semaphore, the statuses and those who wait for them. -/
theorem Counted.frame (counted : Counted s) (sema : s'.eSema = s.eSema) (stat : s'.eStat = s.eStat)
    (granted : s'.granted = s.granted) (takers : s'.takers = s.takers)
    (woken : s'.woken = s.woken) : Counted s' := by
  obtain ⟨length, waiters, none_, balance, enough⟩ := counted
  constructor
  · rwa [sema]
  · rwa [sema]
  · rwa [woken]
  · rwa [sema, stat, granted, takers]
  · rwa [granted, stat]

theorem Counted.wait (counted : Counted s) {t : Tid} {block : Bool}
    (inStep : InStep s (.wait t block)) : Counted (s.waitExitgrp t block) := by
  obtain ⟨spare, down⟩ := inStep
  obtain ⟨length, waiters, woken, balance, enough⟩ := counted
  rw [State.waitExitgrp.eq_def]
  cases stat : s.eStat with
  | cons es rest =>
      have less := spare (by simp [stat])
      rw [stat] at balance less
      simp only [List.length_cons] at balance less
      push_cast at balance
      refine ⟨length, waiters, woken, ?_, by simp only; omega⟩
      simp only [List.length_cons]
      push_cast
      omega
  | nil =>
      simp only
      split_ifs with none_ up
      · exact ⟨length, waiters, woken, balance, enough⟩
      · -- a count that is up is the unit of a status that has been taken
        obtain ⟨refs, blocks⟩ := not_or.mp none_
        have low := down stat refs (by simpa using blocks)
        simp only [State.counted] at up
        omega
      · simp only [State.counted] at up
        rw [stat] at balance enough
        constructor
        · simp only [State.counted, Sema.qSema, List.length_append, List.length_cons,
            List.length_nil]
          push_cast
          omega
        · intro w member
          simp only [State.counted, Sema.qSema] at member
          rcases List.mem_append.mp member with old | new
          · exact waiters w old
          · rw [List.mem_singleton.mp new]
        · exact woken
        · simp only [State.counted, Sema.qSema, List.length_append, List.length_cons,
            List.length_nil] at balance ⊢
          push_cast at balance ⊢
          omega
        · simpa [stat] using enough

theorem Counted.collect (counted : Counted s) {t : Tid} (granted : t ∈ s.granted)
    (collect : s.collect t = some s') : Counted s' := by
  obtain ⟨length, waiters, woken, balance, enough⟩ := counted
  have shorter := List.length_erase_of_mem granted
  have some_ := List.length_pos_of_mem granted
  rw [State.collect.eq_def] at collect
  cases stat : s.eStat with
  | nil => simp [stat] at collect
  | cons es rest =>
      simp only [stat, Option.some.injEq] at collect
      subst collect
      rw [stat] at balance enough
      simp only [List.length_cons] at balance enough
      push_cast at balance
      refine ⟨length, waiters, woken, ?_, ?_⟩
      · simp only [shorter]
        omega
      · simp only [shorter]
        omega

theorem Counted.interrupt (counted : Counted s) {t : Tid}
    (queued : (t, none) ∈ s.eSema.sSleepq) :
    Counted { s with eSema := s.eSema.dqSema (t, none), intr := t :: s.intr } := by
  obtain ⟨length, waiters, woken, balance, enough⟩ := counted
  have shorter := Sema.length_dqSema queued
  have some_ := List.length_pos_of_mem queued
  have count : (s.eSema.dqSema (t, none)).sCount = s.eSema.sCount + 1 := rfl
  refine ⟨?_, fun w member => waiters w ((Sema.dqSema_sublist _ _).subset member), woken, ?_,
    enough⟩
  · simp only [count]
    omega
  · simp only [count]
    omega

/-- As long as a status is in the hands of a thread, the count is up for it. -/
theorem Counted.up (counted : Counted s) {t : Tid} {es : Exitst} (taken : (t, es) ∈ s.takers) :
    0 < s.eSema.sCount := by
  have length := counted.length
  have balance := counted.balance
  have enough := counted.enough
  have some_ := List.length_pos_of_mem taken
  omega

theorem Counted.takeSema (counted : Counted s) {t : Tid} {es : Exitst}
    (taken : (t, es) ∈ s.takers) : Counted (s.takeSema t es) := by
  have up := counted.up taken
  obtain ⟨length, waiters, woken, balance, enough⟩ := counted
  have shorter := List.length_erase_of_mem taken
  have some_ := List.length_pos_of_mem taken
  rw [State.takeSema]
  simp only
  rw [if_pos (by simp only [State.counted]; omega)]
  refine ⟨?_, waiters, woken, ?_, enough⟩
  · simp only [State.counted]
    omega
  · simp only [State.counted, shorter]
    omega

theorem Kept.attached_of (kept : Kept s) (busy : ¬s.Empty) : s.parent = .attached := by
  by_contra other
  exact busy (kept.detached other).2

/-- **In a step that meets the condition a woken thread keeps a status to take.** -/
theorem Counted.step (counted : s.parent = .attached → Counted s) (kept : Kept s) {a : Act Tid}
    (inStep : InStep s a) (step : Step s a s') : s'.parent = .attached → Counted s' := by
  cases a with
  | fork pid =>
      obtain ⟨-, taken⟩ := Option.ite_none_right_eq_some.mp step
      obtain rfl := Option.some.inj taken
      exact fun attached => (counted attached).frame rfl rfl rfl rfl rfl
  | wait t block =>
      obtain ⟨attached, taken⟩ := Option.ite_none_right_eq_some.mp step
      obtain rfl := Option.some.inj taken
      exact fun _ => (counted attached).wait inStep
  | collect t =>
      obtain ⟨granted, taken⟩ := Option.ite_none_right_eq_some.mp step
      have attached := kept.attached_of fun empty => by simp [empty.2.1] at granted
      exact fun _ => (counted attached).collect granted taken
  | interrupt t =>
      obtain ⟨queued, taken⟩ := Option.ite_none_right_eq_some.mp step
      obtain rfl := Option.some.inj taken
      exact fun attached => (counted attached).interrupt queued
  | interrupted t =>
      obtain ⟨-, taken⟩ := Option.ite_none_right_eq_some.mp step
      obtain rfl := Option.some.inj taken
      exact fun attached => (counted attached).frame rfl rfl rfl rfl rfl
  | takeSema t es =>
      obtain ⟨taker, taken⟩ := Option.ite_none_right_eq_some.mp step
      obtain rfl := Option.some.inj taken
      have attached := kept.attached_of fun empty => by simp [empty.2.2.2.1] at taker
      exact fun _ => (counted attached).takeSema taker
  | takeWoken t es =>
      obtain ⟨woken, -⟩ := Option.ite_none_right_eq_some.mp step
      have attached := kept.attached_of fun empty => by simp [empty.2.2.2.2] at woken
      rw [(counted attached).woken] at woken
      cases woken
  | look es =>
      obtain ⟨-, taken⟩ := Option.ite_none_right_eq_some.mp step
      split_ifs at taken
      · obtain rfl := Option.some.inj taken
        exact fun attached => (counted attached).frame rfl rfl rfl rfl rfl
      · obtain rfl := Option.some.inj taken
        exact fun attached => (counted attached).frame rfl rfl rfl rfl rfl
  | post es =>
      obtain ⟨-, taken⟩ := Option.ite_none_right_eq_some.mp step
      obtain rfl := Option.some.inj taken
      rw [State.postExitgrp]
      simp only
      split_ifs with attached
      · have framed : Counted { s with
            looked := s.looked.erase es, leaving := es.ePid :: s.leaving } :=
          (counted attached).frame rfl rfl rfl rfl rfl
        exact fun _ => framed.vSema
      · exact fun attached => (counted attached).frame rfl rfl rfl rfl rfl
  | deref pid =>
      obtain ⟨-, taken⟩ := Option.ite_none_right_eq_some.mp step
      obtain rfl := Option.some.inj taken
      exact fun attached => (counted attached).frame rfl rfl rfl rfl rfl
  | noparent =>
      obtain ⟨-, taken⟩ := Option.ite_none_right_eq_some.mp step
      obtain rfl := Option.some.inj taken
      exact fun attached => by cases attached
  | derefParent =>
      obtain ⟨-, taken⟩ := Option.ite_none_right_eq_some.mp step
      obtain rfl := Option.some.inj taken
      exact fun attached => by cases attached

/-! ## The statuses -/

/-- A step that moves no status and leaves the parent attached or the threads where they are. -/
theorem Kept.frame (kept : Kept s) (posted : s'.posted = s.posted) (stat : s'.eStat = s.eStat)
    (inHand : s'.inHand = s.inHand) (returned : s'.returned = s.returned)
    (discarded : s'.discarded = s.discarded)
    (detached : s'.parent ≠ .attached → s'.eStat = [] ∧ s'.Empty) : Kept s' := by
  refine ⟨?_, detached⟩
  rw [posted, stat, inHand, returned, discarded]
  exact kept.places

/-- `v_sema` moves no status. -/
theorem inHand_vSema (s : State Tid) : s.vSema.inHand = s.inHand := by
  rw [State.vSema.eq_def]
  cases queue : s.eSema.sSleepq with
  | nil => simp [State.inHand, queue]
  | cons w rest =>
      obtain ⟨t, held⟩ := w
      have left := Sema.dqSema_first queue
      cases held with
      | none => simp [State.inHand, queue, left]
      | some es =>
          simp only [State.inHand, queue, left, List.filterMap_cons, List.map_append, List.map_cons,
            List.map_nil]
          rw [← Multiset.cons_coe, ← Multiset.coe_add, ← Multiset.singleton_add,
            ← Multiset.coe_singleton]
          abel

theorem vSema_frame (s : State Tid) : s.vSema.posted = s.posted ∧ s.vSema.eStat = s.eStat ∧
    s.vSema.returned = s.returned ∧ s.vSema.discarded = s.discarded ∧
    s.vSema.parent = s.parent := by
  rw [State.vSema.eq_def]
  split <;> exact ⟨rfl, rfl, rfl, rfl, rfl⟩

/-- A status goes from the list into the hands of a thread. -/
theorem Kept.wait (kept : Kept s) (attached : s.eParent) (t : Tid) (block : Bool) :
    Kept (s.waitExitgrp t block) := by
  have places := kept.places
  rw [State.waitExitgrp.eq_def]
  cases stat : s.eStat with
  | cons es rest =>
      refine ⟨?_, fun other => absurd attached other⟩
      rw [places, stat]
      simp only [State.inHand, List.map_cons, ← Multiset.cons_coe, ← Multiset.singleton_add]
      abel
  | nil =>
      simp only
      split_ifs with none_ up
      · exact kept
      · exact kept.frame rfl stat.symm rfl rfl rfl fun other => absurd attached other
      · refine kept.frame rfl stat.symm ?_ rfl rfl fun other => absurd attached other
        simp [State.inHand, State.counted, Sema.qSema]

theorem Kept.collect (kept : Kept s) (attached : s.parent = .attached) {t : Tid}
    (collect : s.collect t = some s') : Kept s' := by
  have places := kept.places
  rw [State.collect.eq_def] at collect
  cases stat : s.eStat with
  | nil => simp [stat] at collect
  | cons es rest =>
      simp only [stat, Option.some.injEq] at collect
      subst collect
      refine ⟨?_, fun other => absurd attached other⟩
      rw [places, stat]
      simp only [State.inHand, ← Multiset.coe_add, Multiset.coe_singleton]
      rw [← Multiset.cons_coe, ← Multiset.singleton_add]
      abel

theorem Kept.interrupt (kept : Kept s) {t : Tid} (queued : (t, none) ∈ s.eSema.sSleepq) :
    Kept { s with eSema := s.eSema.dqSema (t, none), intr := t :: s.intr } := by
  have attached := kept.attached_of fun empty => by simp [empty.1] at queued
  refine kept.frame rfl rfl ?_ rfl rfl fun other => absurd attached other
  have same : ((s.eSema.sSleepq.filterMap Prod.snd : List Exitst) : Multiset Exitst) =
      ((s.eSema.dqSema (t, none)).sSleepq.filterMap Prod.snd : List Exitst) :=
    Multiset.coe_eq_coe.mpr ((Sema.perm_dqSema queued).filterMap Prod.snd)
  simp only [State.inHand, same]

theorem Kept.takeSema (kept : Kept s) {t : Tid} {es : Exitst} (taken : (t, es) ∈ s.takers) :
    Kept (s.takeSema t es) := by
  have attached := kept.attached_of fun empty => by simp [empty.2.2.2.1] at taken
  have takers : ((s.takers.map Prod.snd : List Exitst) : Multiset Exitst) =
      {es} + ((s.takers.erase (t, es)).map Prod.snd : List Exitst) := by
    rw [Multiset.singleton_add, Multiset.cons_coe]
    exact Multiset.coe_eq_coe.mpr ((List.perm_cons_erase taken).map Prod.snd)
  have places := kept.places
  rw [State.inHand, takers] at places
  rw [State.takeSema]
  simp only
  split_ifs
  · refine ⟨?_, fun other => absurd attached other⟩
    rw [places]
    simp only [State.inHand, State.counted, ← Multiset.coe_add, ← Multiset.coe_singleton]
    abel
  · refine ⟨?_, fun other => absurd attached other⟩
    rw [places]
    simp only [State.inHand, State.counted, Sema.qSema, List.filterMap_append,
      List.filterMap_cons, List.filterMap_nil, ← Multiset.coe_add, ← Multiset.coe_singleton]
    abel

theorem Kept.takeWoken (kept : Kept s) {t : Tid} {es : Exitst} (woken : (t, es) ∈ s.woken) :
    Kept { s with woken := s.woken.erase (t, es), returned := s.returned ++ [es] } := by
  have attached := kept.attached_of fun empty => by simp [empty.2.2.2.2] at woken
  have left : ((s.woken.map Prod.snd : List Exitst) : Multiset Exitst) =
      {es} + ((s.woken.erase (t, es)).map Prod.snd : List Exitst) := by
    rw [Multiset.singleton_add, Multiset.cons_coe]
    exact Multiset.coe_eq_coe.mpr ((List.perm_cons_erase woken).map Prod.snd)
  refine ⟨?_, fun other => absurd attached other⟩
  rw [kept.places]
  simp only [State.inHand, left, ← Multiset.coe_add, ← Multiset.coe_singleton]
  abel

theorem Kept.post (kept : Kept s) (es : Exitst) : Kept (s.postExitgrp es) := by
  rw [State.postExitgrp]
  simp only
  split_ifs with attached
  · obtain ⟨posted, stat, returned, discarded, parent⟩ := vSema_frame { s with
      looked := s.looked.erase es, leaving := es.ePid :: s.leaving,
      eStat := es :: s.eStat, posted := es :: s.posted }
    refine ⟨?_, fun other => absurd (parent.trans attached) other⟩
    rw [posted, stat, inHand_vSema, returned, discarded, ← Multiset.cons_coe,
      ← Multiset.cons_coe, kept.places]
    simp only [State.inHand, ← Multiset.singleton_add]
    abel
  · exact kept.frame rfl rfl rfl rfl rfl kept.detached

theorem Kept.noparent (kept : Kept s) (empty : s.Empty) : Kept s.noparentExitgrp := by
  refine ⟨?_, fun _ => ⟨rfl, empty⟩⟩
  rw [State.noparentExitgrp, kept.places]
  simp only [State.inHand, ← Multiset.coe_add, Multiset.coe_nil]
  abel

/-- **Every step keeps each status in one place.** -/
theorem Kept.step (kept : Kept s) {a : Act Tid} (step : Step s a s') : Kept s' := by
  cases a with
  | fork pid =>
      obtain ⟨-, taken⟩ := Option.ite_none_right_eq_some.mp step
      obtain rfl := Option.some.inj taken
      exact kept.frame rfl rfl rfl rfl rfl kept.detached
  | wait t block =>
      obtain ⟨attached, taken⟩ := Option.ite_none_right_eq_some.mp step
      obtain rfl := Option.some.inj taken
      exact kept.wait attached t block
  | collect t =>
      obtain ⟨granted, taken⟩ := Option.ite_none_right_eq_some.mp step
      exact kept.collect (kept.attached_of fun empty => by simp [empty.2.1] at granted) taken
  | interrupt t =>
      obtain ⟨queued, taken⟩ := Option.ite_none_right_eq_some.mp step
      obtain rfl := Option.some.inj taken
      exact kept.interrupt queued
  | interrupted t =>
      obtain ⟨intr, taken⟩ := Option.ite_none_right_eq_some.mp step
      obtain rfl := Option.some.inj taken
      have attached := kept.attached_of fun empty => by simp [empty.2.2.1] at intr
      exact kept.frame rfl rfl rfl rfl rfl fun other => absurd attached other
  | takeSema t es =>
      obtain ⟨taker, taken⟩ := Option.ite_none_right_eq_some.mp step
      obtain rfl := Option.some.inj taken
      exact kept.takeSema taker
  | takeWoken t es =>
      obtain ⟨woken, taken⟩ := Option.ite_none_right_eq_some.mp step
      obtain rfl := Option.some.inj taken
      exact kept.takeWoken woken
  | look es =>
      obtain ⟨-, taken⟩ := Option.ite_none_right_eq_some.mp step
      split_ifs at taken
      · obtain rfl := Option.some.inj taken
        exact kept.frame rfl rfl rfl rfl rfl kept.detached
      · obtain rfl := Option.some.inj taken
        exact kept.frame rfl rfl rfl rfl rfl kept.detached
  | post es =>
      obtain ⟨-, taken⟩ := Option.ite_none_right_eq_some.mp step
      obtain rfl := Option.some.inj taken
      exact kept.post es
  | deref pid =>
      obtain ⟨-, taken⟩ := Option.ite_none_right_eq_some.mp step
      obtain rfl := Option.some.inj taken
      exact kept.frame rfl rfl rfl rfl rfl kept.detached
  | noparent =>
      obtain ⟨⟨-, empty⟩, taken⟩ := Option.ite_none_right_eq_some.mp step
      obtain rfl := Option.some.inj taken
      exact kept.noparent empty
  | derefParent =>
      obtain ⟨detaching, taken⟩ := Option.ite_none_right_eq_some.mp step
      obtain rfl := Option.some.inj taken
      exact kept.frame rfl rfl rfl rfl rfl fun _ => kept.detached (by simp [detaching])

/-! ## The references -/

/-- A step that moves no reference. -/
theorem Referenced.frame (referenced : Referenced s) (refs : s'.eRefs = s.eRefs)
    (frees : s'.frees = s.frees) (parent : s'.parent = .gone ↔ s.parent = .gone)
    (holders : s'.alive.length + s'.looked.length + s'.leaving.length =
      s.alive.length + s.looked.length + s.leaving.length) : Referenced s' := by
  have old := referenced.refs
  constructor
  · simp only [refs, parent]
    omega
  · rw [frees, refs, referenced.frees]

theorem postExitgrp_references (s : State Tid) (es : Exitst) :
    (s.postExitgrp es).eRefs = s.eRefs ∧ (s.postExitgrp es).frees = s.frees ∧
      (s.postExitgrp es).parent = s.parent ∧ (s.postExitgrp es).alive = s.alive ∧
      (s.postExitgrp es).looked = s.looked.erase es ∧
      (s.postExitgrp es).leaving = es.ePid :: s.leaving := by
  rw [State.postExitgrp]
  simp only
  split_ifs
  · rw [State.vSema.eq_def]
    split <;> exact ⟨rfl, rfl, rfl, rfl, rfl, rfl⟩
  · exact ⟨rfl, rfl, rfl, rfl, rfl, rfl⟩

/-- A reference that is dropped was held. -/
theorem Referenced.deref {parent : Parent} {leaving : List ℕ} (referenced : Referenced s)
    (held : 0 < s.eRefs)
    (holders : (if parent = .gone then 0 else 1) + leaving.length + 1 =
      (if s.parent = .gone then 0 else 1) + s.leaving.length) :
    Referenced (State.derefExitgrp { s with parent := parent, leaving := leaving }) := by
  have old := referenced.refs
  have frees := referenced.frees
  rw [if_neg (by omega)] at frees
  constructor
  · simp only [State.derefExitgrp]
    omega
  · simp only [State.derefExitgrp]
    split_ifs <;> omega

/-- **Every step keeps the references counted.** -/
theorem Referenced.step (referenced : Referenced s) {a : Act Tid} (step : Step s a s') :
    Referenced s' := by
  have refs := referenced.refs
  cases a with
  | fork pid =>
      obtain ⟨attached, taken⟩ := Option.ite_none_right_eq_some.mp step
      obtain rfl := Option.some.inj taken
      have there : s.parent ≠ .gone := by rw [attached]; decide
      rw [if_neg there] at refs
      have frees := referenced.frees
      rw [if_neg (by omega)] at frees
      constructor
      · show s.eRefs + 1 = (if s.parent = .gone then 0 else 1) + (pid :: s.alive).length +
          s.looked.length + s.leaving.length
        rw [if_neg there, List.length_cons]
        omega
      · show s.frees = if s.eRefs + 1 = 0 then 1 else 0
        rw [if_neg (Nat.succ_ne_zero _)]
        exact frees
  | wait t block =>
      obtain ⟨-, taken⟩ := Option.ite_none_right_eq_some.mp step
      obtain rfl := Option.some.inj taken
      rw [State.waitExitgrp.eq_def]
      split
      · exact referenced.frame rfl rfl Iff.rfl rfl
      · split_ifs
        · exact referenced
        · exact referenced.frame rfl rfl Iff.rfl rfl
        · exact referenced.frame rfl rfl Iff.rfl rfl
  | collect t =>
      obtain ⟨-, taken⟩ := Option.ite_none_right_eq_some.mp step
      rw [State.collect.eq_def] at taken
      split at taken
      · obtain rfl := Option.some.inj taken
        exact referenced.frame rfl rfl Iff.rfl rfl
      · cases taken
  | interrupt t =>
      obtain ⟨-, taken⟩ := Option.ite_none_right_eq_some.mp step
      obtain rfl := Option.some.inj taken
      exact referenced.frame rfl rfl Iff.rfl rfl
  | interrupted t =>
      obtain ⟨-, taken⟩ := Option.ite_none_right_eq_some.mp step
      obtain rfl := Option.some.inj taken
      exact referenced.frame rfl rfl Iff.rfl rfl
  | takeSema t es =>
      obtain ⟨-, taken⟩ := Option.ite_none_right_eq_some.mp step
      obtain rfl := Option.some.inj taken
      rw [State.takeSema]
      simp only
      split_ifs
      · exact referenced.frame rfl rfl Iff.rfl rfl
      · exact referenced.frame rfl rfl Iff.rfl rfl
  | takeWoken t es =>
      obtain ⟨-, taken⟩ := Option.ite_none_right_eq_some.mp step
      obtain rfl := Option.some.inj taken
      exact referenced.frame rfl rfl Iff.rfl rfl
  | look es =>
      obtain ⟨alive, taken⟩ := Option.ite_none_right_eq_some.mp step
      have shorter := List.length_erase_of_mem alive
      have some_ := List.length_pos_of_mem alive
      split_ifs at taken
      · obtain rfl := Option.some.inj taken
        refine referenced.frame rfl rfl Iff.rfl ?_
        simp only [shorter, List.length_cons]
        omega
      · obtain rfl := Option.some.inj taken
        refine referenced.frame rfl rfl Iff.rfl ?_
        simp only [shorter, List.length_cons]
        omega
  | post es =>
      obtain ⟨looked, taken⟩ := Option.ite_none_right_eq_some.mp step
      obtain rfl := Option.some.inj taken
      obtain ⟨eRefs, frees, parent, alive, looked', leaving⟩ := postExitgrp_references s es
      refine referenced.frame eRefs frees (by rw [parent]) ?_
      have shorter := List.length_erase_of_mem looked
      have some_ := List.length_pos_of_mem looked
      rw [alive, looked', leaving, shorter, List.length_cons]
      omega
  | deref pid =>
      obtain ⟨leaving, taken⟩ := Option.ite_none_right_eq_some.mp step
      obtain rfl := Option.some.inj taken
      have shorter := List.length_erase_of_mem leaving
      have some_ := List.length_pos_of_mem leaving
      exact referenced.deref (by omega) (by omega)
  | noparent =>
      obtain ⟨⟨attached, -⟩, taken⟩ := Option.ite_none_right_eq_some.mp step
      obtain rfl := Option.some.inj taken
      have there : s.parent = .attached := attached
      exact referenced.frame rfl rfl (by simp [State.noparentExitgrp, there]) rfl
  | derefParent =>
      obtain ⟨detaching, taken⟩ := Option.ite_none_right_eq_some.mp step
      obtain rfl := Option.some.inj taken
      rw [detaching] at refs
      simp only [reduceCtorEq, if_false] at refs
      exact referenced.deref (by omega) (by simp [detaching, Nat.add_comm])

/-! ## Runs -/

/-- What holds in every state reached. -/
structure Delivering (s : State Tid) : Prop where
  counted : s.parent = .attached → Counted s
  kept : Kept s
  referenced : Referenced s

theorem delivering_run (run : Transition.Reaches Step InStep (State.start Tid) s) :
    Delivering s := by
  have base : Delivering (State.start Tid) :=
    ⟨fun _ => start_counted, start_kept, start_referenced⟩
  exact run.invariant base fun _ _ _ good inStep step =>
    ⟨Counted.step good.counted good.kept inStep step, good.kept.step step,
      good.referenced.step step⟩

/-- **In every run whose steps meet the condition a thread that was given a unit finds a status,
one that has taken a status does not sleep, each status posted is in one place (and returned or
discarded once the parent is gone), and the group is freed once, with its last reference.** -/
theorem statuses_delivered (run : Transition.Reaches Step InStep (State.start Tid) s) :
    (∀ t ∈ s.granted, s.eStat ≠ [] ∧ (s.collect t).isSome) ∧
      (s.woken = [] ∧ (∀ w ∈ s.eSema.sSleepq, w.2 = none) ∧
        ∀ h ∈ s.takers, 0 < s.eSema.sCount) ∧
      (s.posted : Multiset Exitst) =
        s.eStat + (s.takers.map Prod.snd : List Exitst) + s.returned + s.discarded ∧
      (s.parent ≠ .attached →
        (s.posted : Multiset Exitst) = s.returned + s.discarded) ∧
      s.eRefs = (if s.parent = .gone then 0 else 1) + s.alive.length + s.looked.length +
        s.leaving.length ∧
      s.frees = if s.eRefs = 0 then 1 else 0 := by
  obtain ⟨counted, kept, referenced⟩ := delivering_run run
  have asleep : s.woken = [] ∧ ∀ w ∈ s.eSema.sSleepq, w.2 = none := by
    by_cases attached : s.parent = .attached
    · exact ⟨(counted attached).woken, (counted attached).waiters⟩
    · obtain ⟨-, queue, -, -, -, woken⟩ := kept.detached attached
      exact ⟨woken, by simp [queue]⟩
  have inHand : s.inHand = (s.takers.map Prod.snd : List Exitst) := by
    have none_ : s.eSema.sSleepq.filterMap Prod.snd = [] :=
      List.filterMap_eq_nil_iff.mpr asleep.2
    simp [State.inHand, asleep.1, none_]
  refine ⟨fun t granted => ?_, ⟨asleep.1, asleep.2, fun h taker => ?_⟩, ?_, fun other => ?_,
    referenced.refs, referenced.frees⟩
  · have attached := kept.attached_of fun empty => by simp [empty.2.1] at granted
    have enough := (counted attached).enough
    have some_ := List.length_pos_of_mem granted
    rw [State.collect.eq_def]
    cases stat : s.eStat with
    | nil =>
        rw [stat, List.length_nil] at enough
        omega
    | cons es rest => exact ⟨by simp, rfl⟩
  · have attached := kept.attached_of fun empty => by simp [empty.2.2.2.1] at taker
    exact (counted attached).up taker
  · rw [kept.places, inHand]
  · obtain ⟨stat, -, -, -, takers, -⟩ := kept.detached other
    rw [kept.places, inHand, stat, takers]
    simp

end

/-- The status of a child that exits with `code`. -/
def exits (pid : ℕ) (code : ℤ) : Exitst := ⟨pid, code, 0, 0, ""⟩

/-- A thread sleeps for a status, which is posted and taken, and the parent and the child go. -/
def oneChild : List (Act ℕ) :=
  [.fork 5, .wait 0 true, .look (exits 5 1), .post (exits 5 1), .collect 0, .noparent, .deref 5,
    .derefParent]

theorem follow_oneChild :
    (Transition.follow State.exec (fun s a => decide (InStep s a)) (State.start ℕ) oneChild).map
      (fun s => (s.returned, s.frees)) = some ([exits 5 1], 1) := by decide

theorem statuses_delivered_one : ∃ s : State ℕ, s.returned = [exits 5 1] ∧
    (s.posted : Multiset Exitst) = s.eStat + (s.takers.map Prod.snd : List Exitst) + s.returned +
      s.discarded := by
  obtain ⟨s, followed, eq⟩ := Option.map_eq_some_iff.mp follow_oneChild
  have run : Transition.Reaches Step InStep (State.start ℕ) s :=
    (Transition.Reaches.refl _).follow (fun _ _ => of_decide_eq_true) followed
  exact ⟨s, (Prod.mk.inj eq).1, (statuses_delivered run).2.2.1⟩

/-- Of two children one has posted its status, which a thread that polls takes before the woken
one. -/
def overtaken : List (Act ℕ) :=
  [.fork 5, .fork 6, .wait 0 true, .look (exits 5 1), .post (exits 5 1), .wait 1 false]

theorem follow_overtaken :
    (Transition.follow State.exec (fun _ _ => true) (State.start ℕ) overtaken).map
      (fun s => (s.granted, s.eStat)) = some ([0], []) := by decide

/-- **A thread that was given a unit may find no status.** -/
theorem waiter_finds_none : ∃ s : State ℕ,
    Transition.Reaches Step Transition.Any (State.start ℕ) s ∧ 0 ∈ s.granted ∧ s.eStat = [] ∧
      s.collect 0 = none := by
  obtain ⟨s, followed, eq⟩ := Option.map_eq_some_iff.mp follow_overtaken
  obtain ⟨granted, stat⟩ := Prod.mk.inj eq
  have run : Transition.Reaches Step Transition.Any (State.start ℕ) s :=
    (Transition.Reaches.refl _).follow (fun _ _ _ => trivial) followed
  refine ⟨s, run, by simp [granted], stat, ?_⟩
  rw [State.collect, stat]

end Vsta.ExitGroup
