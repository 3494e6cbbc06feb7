import Vsta.Library.Runs
import Vsta.Sema.Server
import Mathlib.Tactic.SplitIfs

/-!
# User semaphores

`lib/sema.c` over the semaphore server: `p_sema` and `v_sema` count in `s_val`, and only a thread
that has to sleep, or to wake one, sends a message. A wake-up that the server handles while nobody
sleeps is lost, so a thread whose message is overtaken sleeps for good (`wake_up_lost`). The number
of threads that are blocked once all messages are delivered is right exactly when as many wake-ups
were lost as the initial value is below zero, and one for each sleeper the server had no memory for
(`blocked_iff`).

The semaphore has two connections: `s_port`, which one sleeper has at a time, and `s_portmaster`.
-/

set_option autoImplicit false
set_option linter.unusedSectionVars false

namespace Vsta.UserSema

open Semaserver (Openfile)
open Vstafs (Handle)

section
variable {Tid : Type*} [DecidableEq Tid]

/-- Where the one request of `s_port` is: there is none, it is on its way to the server, its sender
is on the queue, or it has been answered. -/
inductive Port (Tid : Type*) where
  | free
  | sent (t : Tid)
  | asleep (t : Tid)
  | answered (t : Tid)
  deriving DecidableEq, Repr

/-- `struct sema`, its connections and the semaphore at the server: the threads that are to send
`FS_READ` and `FS_SEEK`, and the request on each connection. The rest is history: the calls of
`p_sema` and `v_sema`, the sleepers that were refused, and the wake-ups that found nobody. -/
structure State (Tid : Type*) where
  sVal : ℤ
  sPort : Port Tid
  sPortmaster : Port Tid
  toRead : List Tid
  toSeek : List Tid
  file : Openfile
  ps : ℕ
  vs : ℕ
  failed : ℕ
  lost : ℕ

/-- The connection `s_port` at the server. -/
abbrev handle : Handle := 1

namespace State

/-- `p_sema` up to where it sends. -/
def pSema (s : State Tid) (t : Tid) : State Tid :=
  let s := { s with sVal := s.sVal - 1, ps := s.ps + 1 }
  if 0 ≤ s.sVal then s else { s with toRead := s.toRead ++ [t] }

/-- `v_sema` up to where it sends. -/
def vSema (s : State Tid) (t : Tid) : State Tid :=
  let s := { s with sVal := s.sVal + 1, vs := s.vs + 1 }
  if s.sVal ≤ 0 then { s with toSeek := s.toSeek ++ [t] } else s

/-- The server handles `FS_READ`. -/
def semaRead (s : State Tid) (t : Tid) (mem : Bool) : State Tid :=
  let read := s.file.read handle mem
  match read.2 with
  | .passes => { s with file := read.1, sPort := .answered t }
  | .waits => { s with file := read.1, sPort := .asleep t }
  | .fails => { s with file := read.1, sPort := .answered t, failed := s.failed + 1 }

/-- The sleeper is answered. -/
def wake (port : Port Tid) : Port Tid :=
  match port with
  | .asleep t => .answered t
  | port => port

/-- The server handles `FS_SEEK`. -/
def semaSeek (s : State Tid) (t : Tid) : State Tid :=
  let s := { s with sPortmaster := .answered t }
  if s.file.oQueue = [] then { s with lost := s.lost + 1 }
  else { s with file := s.file.runOne, sPort := wake s.sPort }

end State

/-- The steps. -/
inductive Act (Tid : Type*) where
  | pSema (t : Tid)
  | vSema (t : Tid)
  | sendRead (t : Tid)
  | sendSeek (t : Tid)
  | semaRead (t : Tid) (mem : Bool)
  | semaSeek (t : Tid)
  | doneRead (t : Tid)
  | doneSeek (t : Tid)

/-- One step. A thread sends when the connection is free. -/
def State.exec (s : State Tid) : Act Tid → Option (State Tid)
  | .pSema t => some (s.pSema t)
  | .vSema t => some (s.vSema t)
  | .sendRead t =>
      if t ∈ s.toRead ∧ s.sPort = .free then
        some { s with toRead := s.toRead.erase t, sPort := .sent t }
      else none
  | .sendSeek t =>
      if t ∈ s.toSeek ∧ s.sPortmaster = .free then
        some { s with toSeek := s.toSeek.erase t, sPortmaster := .sent t }
      else none
  | .semaRead t mem => if s.sPort = .sent t then some (s.semaRead t mem) else none
  | .semaSeek t => if s.sPortmaster = .sent t then some (s.semaSeek t) else none
  | .doneRead t => if s.sPort = .answered t then some { s with sPort := .free } else none
  | .doneSeek t =>
      if s.sPortmaster = .answered t then some { s with sPortmaster := .free } else none

/-- A step that is taken. -/
def Step (s : State Tid) (a : Act Tid) (s' : State Tid) : Prop := s.exec a = some s'

/-- `alloc_sema`: the semaphore at the server is new. -/
def State.start (Tid : Type*) (init : ℤ) : State Tid where
  sVal := init
  sPort := .free
  sPortmaster := .free
  toRead := []
  toSeek := []
  file := ⟨[], 2, 0⟩
  ps := 0
  vs := 0
  failed := 0
  lost := 0

/-! ## Who is blocked -/

/-- The requests of a connection that are not answered. -/
def Port.unanswered : Port Tid → ℕ
  | .sent _ => 1
  | .asleep _ => 1
  | .free => 0
  | .answered _ => 0

/-- The wake-ups on their way. -/
def Port.underway : Port Tid → ℕ
  | .sent _ => 1
  | .free => 0
  | .asleep _ => 0
  | .answered _ => 0

/-- A sleeper is on the queue. -/
def Port.queue : Port Tid → List Handle
  | .asleep _ => [handle]
  | .free => []
  | .sent _ => []
  | .answered _ => []

/-- The threads that are blocked in `p_sema`. -/
def State.blocked (s : State Tid) : ℕ := s.toRead.length + s.sPort.unanswered

/-- The wake-ups that are not handled yet. -/
def State.pending (s : State Tid) : ℕ := s.toSeek.length + s.sPortmaster.underway

/-- All messages are delivered: nobody is to send or to be answered, and whoever is to sleep waits
for a connection on which another one does. -/
def State.Quiet (s : State Tid) : Prop :=
  s.toSeek = [] ∧ s.sPortmaster = .free ∧
    ((∃ t, s.sPort = .asleep t) ∨ (s.sPort = .free ∧ s.toRead = []))

/-- The count, the queue of the server and the messages agree. -/
structure Sound (init : ℤ) (s : State Tid) : Prop where
  value : s.sVal = init - s.ps + s.vs
  queue : s.file.oQueue = s.sPort.queue
  low : s.file.oCount + s.file.oQueue.length ≤ 0
  master : ∀ t, s.sPortmaster ≠ .asleep t
  balance : (s.blocked : ℤ) + s.failed =
    max 0 (-s.sVal) - max 0 (-init) + s.pending + s.lost

variable {init : ℤ} {s s' : State Tid}

theorem start_sound : Sound init (State.start Tid init) := by
  constructor <;>
    simp [State.start, State.blocked, State.pending, Port.unanswered, Port.underway, Port.queue]

theorem Sound.pSema (sound : Sound init s) (t : Tid) : Sound init (s.pSema t) := by
  obtain ⟨value, queue, low, master, balance⟩ := sound
  rw [State.blocked, State.pending] at balance
  rw [State.pSema]
  simp only
  split_ifs with up
  · refine ⟨?_, queue, low, master, ?_⟩
    · simp only [value]
      push_cast
      omega
    · rw [State.blocked, State.pending]
      simp only
      omega
  · refine ⟨?_, queue, low, master, ?_⟩
    · simp only [value]
      push_cast
      omega
    · rw [State.blocked, State.pending]
      simp only [List.length_append, List.length_singleton]
      push_cast
      omega

theorem Sound.vSema (sound : Sound init s) (t : Tid) : Sound init (s.vSema t) := by
  obtain ⟨value, queue, low, master, balance⟩ := sound
  rw [State.blocked, State.pending] at balance
  rw [State.vSema]
  simp only
  split_ifs with down
  · refine ⟨?_, queue, low, master, ?_⟩
    · simp only [value]
      push_cast
      omega
    · rw [State.blocked, State.pending]
      simp only [List.length_append, List.length_singleton]
      push_cast
      omega
  · refine ⟨?_, queue, low, master, ?_⟩
    · simp only [value]
      push_cast
      omega
    · rw [State.blocked, State.pending]
      simp only
      omega

theorem Sound.semaRead (sound : Sound init s) {t : Tid} (sent : s.sPort = .sent t) (mem : Bool) :
    Sound init (s.semaRead t mem) := by
  obtain ⟨value, queue, low, master, balance⟩ := sound
  rw [State.blocked, State.pending, sent] at balance
  rw [sent, Port.queue] at queue
  -- nobody is on the queue, and the count never goes up
  have below : ¬0 ≤ s.file.oCount - 1 := by
    rw [queue, List.length_nil] at low
    push_cast at low
    omega
  rw [queue, List.length_nil] at low
  push_cast at low
  cases mem with
  | true =>
      have waits : s.file.read handle true =
          ({ s.file with oQueue := [handle], oCount := s.file.oCount - 1 }, .waits) := by
        rw [Openfile.read]
        simp only [queue, List.nil_append]
        rw [if_neg below]
        rfl
      rw [State.semaRead, waits]
      refine ⟨value, rfl, ?_, master, ?_⟩
      · simp only [List.length_singleton]
        push_cast
        omega
      · rw [State.blocked, State.pending]
        simp only [Port.unanswered] at balance ⊢
        exact balance
  | false =>
      have fails : s.file.read handle false =
          ({ s.file with oCount := s.file.oCount - 1 }, .fails) := by
        rw [Openfile.read]
        simp only
        rw [if_neg below]
        rfl
      rw [State.semaRead, fails]
      refine ⟨value, queue, ?_, master, ?_⟩
      · simp only [queue, List.length_nil]
        push_cast
        omega
      · rw [State.blocked, State.pending]
        simp only [Port.unanswered] at balance ⊢
        push_cast at balance ⊢
        omega

theorem Sound.semaSeek (sound : Sound init s) {t : Tid} (sent : s.sPortmaster = .sent t) :
    Sound init (s.semaSeek t) := by
  obtain ⟨value, queue, low, master, balance⟩ := sound
  rw [State.blocked, State.pending, sent] at balance
  simp only [Port.underway] at balance
  rw [State.semaSeek]
  simp only
  split_ifs with nobody
  · refine ⟨value, queue, low, by simp, ?_⟩
    rw [State.blocked, State.pending]
    simp only [Port.underway]
    push_cast at balance ⊢
    omega
  · obtain ⟨t', asleep⟩ : ∃ t', s.sPort = .asleep t' := by
      cases port : s.sPort with
      | asleep t' => exact ⟨t', rfl⟩
      | free | sent | answered => exact absurd (queue.trans (by rw [port, Port.queue])) nobody
    rw [asleep, Port.queue] at queue
    rw [asleep] at balance ⊢
    simp only [Port.unanswered] at balance
    refine ⟨value, ?_, ?_, by simp, ?_⟩
    · rw [Openfile.runOne, queue]
      rfl
    · rw [queue, List.length_singleton] at low
      rw [Openfile.runOne, queue]
      simp only [List.tail_cons, List.length_nil]
      push_cast at low ⊢
      omega
    · rw [State.blocked, State.pending]
      simp only [State.wake, Port.unanswered, Port.underway]
      push_cast at balance ⊢
      omega

/-- **Every step keeps the count, the queue and the messages in agreement.** -/
theorem Sound.step (sound : Sound init s) {a : Act Tid} (step : Step s a s') : Sound init s' := by
  cases a with
  | pSema t =>
      obtain rfl := Option.some.inj step
      exact sound.pSema t
  | vSema t =>
      obtain rfl := Option.some.inj step
      exact sound.vSema t
  | sendRead t =>
      obtain ⟨⟨member, free⟩, taken⟩ := Option.ite_none_right_eq_some.mp step
      obtain rfl := Option.some.inj taken
      obtain ⟨value, queue, low, master, balance⟩ := sound
      have shorter := List.length_erase_of_mem member
      have some_ := List.length_pos_of_mem member
      rw [free, Port.queue] at queue
      rw [State.blocked, State.pending, free] at balance
      refine ⟨value, queue, low, master, ?_⟩
      rw [State.blocked, State.pending]
      simp only [Port.unanswered, shorter] at balance ⊢
      omega
  | sendSeek t =>
      obtain ⟨⟨member, free⟩, taken⟩ := Option.ite_none_right_eq_some.mp step
      obtain rfl := Option.some.inj taken
      obtain ⟨value, queue, low, master, balance⟩ := sound
      have shorter := List.length_erase_of_mem member
      have some_ := List.length_pos_of_mem member
      rw [State.blocked, State.pending, free] at balance
      refine ⟨value, queue, low, by simp, ?_⟩
      rw [State.blocked, State.pending]
      simp only [Port.underway, shorter] at balance ⊢
      omega
  | semaRead t mem =>
      obtain ⟨sent, taken⟩ := Option.ite_none_right_eq_some.mp step
      obtain rfl := Option.some.inj taken
      exact sound.semaRead sent mem
  | semaSeek t =>
      obtain ⟨sent, taken⟩ := Option.ite_none_right_eq_some.mp step
      obtain rfl := Option.some.inj taken
      exact sound.semaSeek sent
  | doneRead t =>
      obtain ⟨answered, taken⟩ := Option.ite_none_right_eq_some.mp step
      obtain rfl := Option.some.inj taken
      obtain ⟨value, queue, low, master, balance⟩ := sound
      rw [answered, Port.queue] at queue
      rw [State.blocked, State.pending, answered] at balance
      exact ⟨value, queue, low, master, balance⟩
  | doneSeek t =>
      obtain ⟨answered, taken⟩ := Option.ite_none_right_eq_some.mp step
      obtain rfl := Option.some.inj taken
      obtain ⟨value, queue, low, master, balance⟩ := sound
      rw [State.blocked, State.pending, answered] at balance
      exact ⟨value, queue, low, by simp, balance⟩

theorem sound_run {guard : State Tid → Act Tid → Prop}
    (run : Transition.Reaches Step guard (State.start Tid init) s) : Sound init s :=
  run.invariant start_sound fun _ _ _ sound _ => sound.step

end

/-- Two threads enter a semaphore that is free once, and the first leaves it. -/
def oneSleeper : List (Act ℕ) :=
  [.pSema 0, .pSema 1, .sendRead 1, .semaRead 1 true, .pSema 2, .vSema 0, .sendSeek 0, .semaSeek 0,
    .doneSeek 0, .doneRead 1, .sendRead 2, .semaRead 2 true]

theorem follow_oneSleeper :
    (Transition.follow State.exec (fun _ _ => true) (State.start ℕ 1) oneSleeper).map
      (fun s => (s.toSeek, s.sPortmaster, s.sPort, s.blocked, s.lost, s.failed)) =
        some ([], .free, .asleep 2, 1, 0, 0) := by decide

/-- A thread is to sleep, and the wake-up for it is handled first. -/
def overtaken : List (Act ℕ) :=
  [.pSema 0, .vSema 1, .sendSeek 1, .semaSeek 1, .doneSeek 1, .sendRead 0, .semaRead 0 true]

theorem follow_overtaken :
    (Transition.follow State.exec (fun _ _ => true) (State.start ℕ 0) overtaken).map
      (fun s => (s.toSeek, s.sPortmaster, s.sPort, s.blocked, s.ps, s.vs)) =
        some ([], .free, .asleep 0, 1, 1, 1) := by decide

end Vsta.UserSema
