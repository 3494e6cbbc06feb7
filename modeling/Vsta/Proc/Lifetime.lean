import Mathlib
import Vsta.Library.Runs

/-!
# The life of a process

`proc.c` and `sched_op` of `sched.c`: a process counts its threads that are not ephemeral. The last
of them to exit sends the rest away, and the process is torn down with its last thread. A thread
that is ephemeral already and asks to be so again is counted off twice (`counted_off_twice`); in
every run in which only threads that are not ephemeral ask, one other of their kind stays, and an
ephemeral thread neither forks a process nor adds a thread to one that is on its way out, the count
is right and the rest is sent away with the last thread that counts (`process_lifetime`).

Processes are told apart by the order in which they were made. A section under `p_sema` is one step,
and what a thread does before or after it another.
-/

set_option autoImplicit false

namespace Vsta.Process

/-- `struct thread`: `T_EPHEM` in `t_flags`, `EKILL` in `t_evsys`, and whether the thread has passed
the test of `SCHEDOP_EPHEM` and is to take `p_sema`. -/
structure Thread where
  tPid : ℕ
  ephem : Bool
  kill : Bool
  asked : Bool
  deriving DecidableEq, Repr

/-- `signal_thread` with `EKILL`. -/
def Thread.signal (t : Thread) : Thread := { t with kill := true }

/-- `struct proc` with the threads that are off its list and still in `do_exit`, each with what it
found of being the last, and how often `free_proc` was called. -/
structure Proc where
  pThreads : List Thread
  pNthread : ℕ
  exiting : List (Thread × Bool)
  freed : ℕ
  deriving DecidableEq, Repr

namespace Proc

/-- `p_nthread` is a `uint`. -/
def decrement (n : ℕ) : ℕ := (n + (2 ^ 32 - 1)) % 2 ^ 32

/-- `fork_thread`: the flags are those of the thread that forks, an event is not. -/
def forkThread (p : Proc) (t : Thread) (pid : ℕ) : Proc :=
  { p with
    pThreads := { t with tPid := pid, kill := false, asked := false } :: p.pThreads
    pNthread := if t.ephem then p.pNthread else (p.pNthread + 1) % 2 ^ 32 }

/-- `fork`: the process that is made. -/
def fork (t : Thread) (pid : ℕ) : Proc where
  pThreads := [{ tPid := pid, ephem := t.ephem, kill := false, asked := false }]
  pNthread := 1
  exiting := []
  freed := 0

/-- `SCHEDOP_EPHEM` under `p_sema`. -/
def schedEphem (p : Proc) (t : Thread) : Proc :=
  { p with
    pThreads := p.pThreads.replace t { t with ephem := true, asked := false }
    pNthread := decrement p.pNthread }

/-- `do_exit` under `p_sema`. -/
def doExit (p : Proc) (t : Thread) : Proc :=
  let rest := p.pThreads.erase t
  let last := rest.isEmpty
  if t.ephem then { p with pThreads := rest, exiting := (t, last) :: p.exiting }
  else
    let n := decrement p.pNthread
    { p with
      pThreads := if n = 0 then rest.map Thread.signal else rest
      pNthread := n
      exiting := (t, last) :: p.exiting }

/-- `do_exit` behind that: the last thread frees the process. -/
def freeProc (p : Proc) (t : Thread) (last : Bool) : Proc :=
  { p with
    exiting := p.exiting.erase (t, last)
    freed := if last then p.freed + 1 else p.freed }

end Proc

/-- The steps of a thread of a process. -/
inductive Act where
  | forkThread (t : Thread) (pid : ℕ)
  | fork (t : Thread) (pid : ℕ)
  | ask (t : Thread)
  | interrupted (t : Thread)
  | ephem (t : Thread)
  | exit (t : Thread)
  | finish (t : Thread) (last : Bool)

/-- One step, with the process it makes. A thread that found it was the only one to count when it
asked exits; and there is no room for `2^32` threads. -/
def Proc.exec (p : Proc) : Act → Option (Proc × List Proc)
  | .forkThread t pid =>
      if (t ∈ p.pThreads ∧ t.asked = false) ∧ p.pThreads.length + 1 < 2 ^ 32 then
        some (p.forkThread t pid, [])
      else none
  | .fork t pid =>
      if t ∈ p.pThreads ∧ t.asked = false then some (p, [Proc.fork t pid]) else none
  | .ask t =>
      if (t ∈ p.pThreads ∧ t.asked = false) ∧ p.pNthread ≠ 1 then
        some ({ p with pThreads := p.pThreads.replace t { t with asked := true } }, [])
      else none
  | .interrupted t =>
      if t ∈ p.pThreads ∧ t.asked then
        some ({ p with pThreads := p.pThreads.replace t { t with asked := false } }, [])
      else none
  | .ephem t => if t ∈ p.pThreads ∧ t.asked then some (p.schedEphem t, []) else none
  | .exit t => if t ∈ p.pThreads ∧ t.asked = false then some (p.doExit t, []) else none
  | .finish t last => if (t, last) ∈ p.exiting then some (p.freeProc t last, []) else none

/-- A step of a thread of the process made as the `n`th. -/
def exec (s : List Proc) (a : ℕ × Act) : Option (List Proc) :=
  match s[a.1]? with
  | some p => (p.exec a.2).map fun made => s.set a.1 made.1 ++ made.2
  | none => none

/-- A step that is taken. -/
def Step (s : List Proc) (a : ℕ × Act) (s' : List Proc) : Prop := exec s a = some s'

/-- `bootproc`. -/
def bootproc (pid : ℕ) : Proc := Proc.fork ⟨pid, false, false, false⟩ pid

/-- The processes that are booted. -/
def start (pids : List ℕ) : List Proc := pids.map bootproc

/-- What a step of a process has to meet: a thread that becomes ephemeral is not and leaves another
one that is not; one that is does not fork a process, and does not add a thread when the rest has
been sent away. -/
def Proc.Proper (p : Proc) : Act → Prop
  | .ephem t => t.ephem = false ∧ p.pNthread ≠ 1
  | .fork t _ => t.ephem = false
  | .forkThread t _ => t.ephem → p.pNthread ≠ 0
  | _ => True

instance (p : Proc) (a : Act) : Decidable (p.Proper a) := by
  cases a <;> unfold Proc.Proper <;> infer_instance

/-- The condition on a step. -/
def Proper (s : List Proc) (a : ℕ × Act) : Prop := ∀ p ∈ s[a.1]?, p.Proper a.2

instance (s : List Proc) (a : ℕ × Act) : Decidable (Proper s a) :=
  inferInstanceAs (Decidable (∀ p ∈ s[a.1]?, p.Proper a.2))

/-! ## The invariant -/

/-- A thread that counts. -/
def Thread.counts (t : Thread) : Bool := !t.ephem

/-- The number of threads that are not ephemeral. -/
def Proc.nonEphem (p : Proc) : ℕ := p.pThreads.countP Thread.counts

/-- The count is right, the threads have been sent away when it is zero and not before, and the
process goes with its last thread. -/
structure Sound (p : Proc) : Prop where
  count : p.pNthread = p.nonEphem
  room : p.pThreads.length < 2 ^ 32
  killed : ∀ t ∈ p.pThreads, t.kill = decide (p.pNthread = 0)
  goes : p.freed + p.exiting.countP Prod.snd = if p.pThreads = [] then 1 else 0

variable {p p' : Proc} {t u : Thread} {s s' : List Proc}

theorem Sound.few (sound : Sound p) : p.pNthread < 2 ^ 32 := by
  have room := sound.room
  have some_ := List.countP_le_length (p := Thread.counts) (l := p.pThreads)
  rw [sound.count, Proc.nonEphem]
  omega

theorem decrement_succ {n : ℕ} (few : n + 1 < 2 ^ 32) : Proc.decrement (n + 1) = n := by
  rw [Proc.decrement]
  omega

/-- A thread in the place of another. -/
theorem perm_replace {threads : List Thread} (member : t ∈ threads) :
    (threads.replace t u).Perm (u :: threads.erase t) := by
  induction threads with
  | nil => cases member
  | cons v rest ih =>
      rw [List.replace_cons]
      by_cases same : v = t
      · subst same
        simp
      · have later : t ∈ rest := (List.mem_cons.mp member).resolve_left (Ne.symm same)
        rw [List.erase_cons_tail (by simpa using same)]
        simp only [beq_eq_false_iff_ne.mpr (Ne.symm same)]
        exact ((ih later).cons v).trans (List.Perm.swap u v _)

theorem nonEphem_eq (member : t ∈ p.pThreads) :
    p.nonEphem = (p.pThreads.erase t).countP Thread.counts + if t.counts then 1 else 0 := by
  rw [Proc.nonEphem, (List.perm_cons_erase member).countP_eq, List.countP_cons]

theorem countP_replace (member : t ∈ p.pThreads) :
    (p.pThreads.replace t u).countP Thread.counts =
      (p.pThreads.erase t).countP Thread.counts + if u.counts then 1 else 0 := by
  rw [(perm_replace member).countP_eq, List.countP_cons]

theorem mem_replace {threads : List Thread} {v : Thread} (member : t ∈ threads)
    (among : v ∈ threads.replace t u) : v = u ∨ v ∈ threads :=
  (List.mem_cons.mp ((perm_replace member).mem_iff.mp among)).imp_right List.mem_of_mem_erase

theorem replace_ne_nil {threads : List Thread} (member : t ∈ threads) :
    threads.replace t u ≠ [] := by
  rw [← List.length_pos_iff, List.length_replace]
  exact List.length_pos_of_mem member

theorem fork_sound (counts : t.ephem = false) (pid : ℕ) : Sound (Proc.fork t pid) := by
  constructor <;> simp [Proc.fork, Proc.nonEphem, Thread.counts, counts]

/-! ## One step of a process -/

theorem Sound.forkThread (sound : Sound p) (member : t ∈ p.pThreads)
    (room : p.pThreads.length + 1 < 2 ^ 32) (proper : t.ephem → p.pNthread ≠ 0) (pid : ℕ) :
    Sound (p.forkThread t pid) := by
  have count := sound.count
  have few := List.countP_le_length (p := Thread.counts) (l := p.pThreads)
  have counted := nonEphem_eq member
  have goes := sound.goes
  rw [if_neg (List.ne_nil_of_mem member)] at goes
  have stays : p.pNthread ≠ 0 ∧ (p.forkThread t pid).pNthread ≠ 0 ∧
      (p.forkThread t pid).pNthread = p.pNthread + if t.counts then 1 else 0 := by
    rw [Proc.nonEphem] at count
    rw [Proc.forkThread, Thread.counts]
    cases ephem : t.ephem with
    | true => simpa using proper ephem
    | false =>
        rw [Thread.counts, ephem] at counted
        simp only [Bool.not_false, if_true] at counted
        rw [Proc.nonEphem] at counted
        simp only [Bool.false_eq_true, if_false, Bool.not_false, if_true]
        omega
  obtain ⟨before, after, more⟩ := stays
  constructor
  · rw [more, count]
    simp only [Proc.forkThread, Proc.nonEphem, List.countP_cons]
    rfl
  · simpa [Proc.forkThread] using room
  · intro v among
    rw [decide_eq_false after]
    rcases List.mem_cons.mp among with rfl | old
    · rfl
    · rw [sound.killed v old, decide_eq_false before]
  · simpa [Proc.forkThread] using goes

/-- A thread that changes nothing but how far it is. -/
theorem Sound.replace (sound : Sound p) (member : t ∈ p.pThreads) (counts : u.counts = t.counts)
    (kill : u.kill = t.kill) : Sound { p with pThreads := p.pThreads.replace t u } := by
  constructor
  · rw [sound.count, nonEphem_eq member, Proc.nonEphem, countP_replace member, counts]
  · simpa using sound.room
  · intro v among
    rcases mem_replace member among with rfl | old
    · exact kill.trans (sound.killed t member)
    · exact sound.killed v old
  · have goes := sound.goes
    rw [if_neg (List.ne_nil_of_mem member)] at goes
    rw [if_neg (replace_ne_nil member)]
    exact goes

theorem Sound.schedEphem (sound : Sound p) (member : t ∈ p.pThreads) (counts : t.ephem = false)
    (other : p.pNthread ≠ 1) : Sound (p.schedEphem t) := by
  have count := sound.count
  have few := sound.few
  have counted := nonEphem_eq member
  rw [Thread.counts, counts] at counted
  simp only [Bool.not_false, if_true] at counted
  obtain ⟨n, two⟩ : ∃ n, p.pNthread = n + 2 := ⟨p.pNthread - 2, by omega⟩
  have lower : Proc.decrement p.pNthread = n + 1 := two ▸ decrement_succ (two ▸ few)
  constructor
  · rw [Proc.schedEphem, Proc.nonEphem]
    simp only
    rw [lower, countP_replace member, Thread.counts]
    simp only [Bool.not_true, Bool.false_eq_true, if_false]
    omega
  · simpa [Proc.schedEphem] using sound.room
  · intro v among
    rw [Proc.schedEphem] at among ⊢
    simp only at among ⊢
    rw [lower, decide_eq_false (Nat.succ_ne_zero n)]
    have awake : ∀ w ∈ p.pThreads, w.kill = false := fun w old => by
      rw [sound.killed w old, two, decide_eq_false (Nat.succ_ne_zero _)]
    rcases mem_replace member among with rfl | old
    · exact awake t member
    · exact awake v old
  · have goes := sound.goes
    rw [if_neg (List.ne_nil_of_mem member)] at goes
    rw [Proc.schedEphem]
    simp only
    rw [if_neg (replace_ne_nil member)]
    exact goes

theorem Sound.doExit (sound : Sound p) (member : t ∈ p.pThreads) : Sound (p.doExit t) := by
  have count := sound.count
  have few := sound.few
  have counted := nonEphem_eq member
  have shorter := List.length_erase_of_mem member
  have room := sound.room
  have goes := sound.goes
  rw [if_neg (List.ne_nil_of_mem member)] at goes
  -- the thread that leaves an empty list is the one to free the process
  have last : p.freed + List.countP Prod.snd ((t, (p.pThreads.erase t).isEmpty) :: p.exiting) =
      if p.pThreads.erase t = [] then 1 else 0 := by
    rw [List.countP_cons]
    simp only [List.isEmpty_iff]
    omega
  rw [Proc.doExit]
  cases ephem : t.ephem with
  | true =>
      rw [Thread.counts, ephem] at counted
      simp only [Bool.not_true, Bool.false_eq_true, if_false] at counted
      simp only [if_true]
      refine ⟨count.trans counted, by simp only; omega, fun v among => ?_, last⟩
      exact sound.killed v (List.mem_of_mem_erase among)
  | false =>
      rw [Thread.counts, ephem] at counted
      simp only [Bool.not_false, if_true] at counted
      obtain ⟨n, more⟩ : ∃ n, p.pNthread = n + 1 := ⟨p.pNthread - 1, by omega⟩
      have lower : Proc.decrement p.pNthread = n := more ▸ decrement_succ (more ▸ few)
      simp only [Bool.false_eq_true, if_false]
      rw [lower]
      have left : (p.pThreads.erase t).countP Thread.counts = n := by omega
      by_cases none_ : n = 0
      · simp only [none_, if_true]
        refine ⟨?_, by simp only [List.length_map]; omega, ?_, ?_⟩
        · rw [Proc.nonEphem]
          simp only [List.countP_map]
          exact (left.trans none_).symm
        · intro v among
          obtain ⟨w, -, rfl⟩ := List.mem_map.mp among
          rfl
        · simpa using last
      · simp only [none_, if_false]
        refine ⟨left.symm, by simp only; omega, fun v among => ?_, last⟩
        rw [sound.killed v (List.mem_of_mem_erase among), more, decide_eq_false none_,
          decide_eq_false (Nat.succ_ne_zero n)]

theorem Sound.freeProc (sound : Sound p) {last : Bool} (exits : (t, last) ∈ p.exiting) :
    Sound (p.freeProc t last) := by
  refine ⟨sound.count, sound.room, sound.killed, ?_⟩
  have goes := sound.goes
  rw [(List.perm_cons_erase exits).countP_eq, List.countP_cons] at goes
  rw [Proc.freeProc]
  simp only
  rw [← goes]
  cases last with
  | true =>
      simp only [if_true]
      omega
  | false => simp

/-- **A step that meets the condition keeps the process sound, and what it makes is.** -/
theorem Sound.exec (sound : Sound p) {a : Act} {new : List Proc} (proper : p.Proper a)
    (taken : p.exec a = some (p', new)) : Sound p' ∧ ∀ made ∈ new, Sound made := by
  cases a with
  | forkThread t pid =>
      obtain ⟨⟨⟨member, -⟩, room⟩, same⟩ := Option.ite_none_right_eq_some.mp taken
      obtain ⟨rfl, rfl⟩ := Prod.mk.inj (Option.some.inj same)
      exact ⟨sound.forkThread member room proper pid, by simp⟩
  | fork t pid =>
      obtain ⟨-, same⟩ := Option.ite_none_right_eq_some.mp taken
      obtain ⟨rfl, rfl⟩ := Prod.mk.inj (Option.some.inj same)
      refine ⟨sound, fun made among => ?_⟩
      rw [List.mem_singleton.mp among]
      exact fork_sound proper pid
  | ask t =>
      obtain ⟨⟨⟨member, -⟩, -⟩, same⟩ := Option.ite_none_right_eq_some.mp taken
      obtain ⟨rfl, rfl⟩ := Prod.mk.inj (Option.some.inj same)
      exact ⟨sound.replace member rfl rfl, by simp⟩
  | interrupted t =>
      obtain ⟨⟨member, -⟩, same⟩ := Option.ite_none_right_eq_some.mp taken
      obtain ⟨rfl, rfl⟩ := Prod.mk.inj (Option.some.inj same)
      exact ⟨sound.replace member rfl rfl, by simp⟩
  | ephem t =>
      obtain ⟨⟨member, -⟩, same⟩ := Option.ite_none_right_eq_some.mp taken
      obtain ⟨rfl, rfl⟩ := Prod.mk.inj (Option.some.inj same)
      exact ⟨sound.schedEphem member proper.1 proper.2, by simp⟩
  | exit t =>
      obtain ⟨⟨member, -⟩, same⟩ := Option.ite_none_right_eq_some.mp taken
      obtain ⟨rfl, rfl⟩ := Prod.mk.inj (Option.some.inj same)
      exact ⟨sound.doExit member, by simp⟩
  | finish t last =>
      obtain ⟨exits, same⟩ := Option.ite_none_right_eq_some.mp taken
      obtain ⟨rfl, rfl⟩ := Prod.mk.inj (Option.some.inj same)
      exact ⟨sound.freeProc exits, by simp⟩

/-! ## Runs -/

/-- Every process is sound. -/
def AllSound (s : List Proc) : Prop := ∀ p ∈ s, Sound p

theorem start_sound (pids : List ℕ) : AllSound (start pids) := by
  intro p member
  obtain ⟨pid, -, rfl⟩ := List.mem_map.mp member
  exact fork_sound rfl pid

/-- What a step does to the processes. -/
theorem step_cases {a : ℕ × Act} (step : Step s a s') : ∃ p p' new, s[a.1]? = some p ∧
    p.exec a.2 = some (p', new) ∧ s' = s.set a.1 p' ++ new := by
  rw [Step, Process.exec] at step
  cases there : s[a.1]? with
  | none => simp [there] at step
  | some p =>
      rw [there] at step
      obtain ⟨⟨p', new⟩, taken, rfl⟩ := Option.map_eq_some_iff.mp step
      exact ⟨p, p', new, rfl, taken, rfl⟩

theorem AllSound.step (sound : AllSound s) {a : ℕ × Act} (proper : Proper s a)
    (step : Step s a s') : AllSound s' := by
  obtain ⟨p, p', new, there, taken, rfl⟩ := step_cases step
  obtain ⟨after, made⟩ := (sound p (List.mem_of_getElem? there)).exec (proper p there) taken
  intro q member
  rcases List.mem_append.mp member with old | fresh
  · rcases List.mem_or_eq_of_mem_set old with among | rfl
    · exact sound q among
    · exact after
  · exact made q fresh

/-- **In every run whose steps meet the condition the count of a process is the number of its
threads that are not ephemeral; the others have been sent away when there is none left, and not
before; and the process is freed once, when its last thread is off the list.** -/
theorem process_lifetime {pids : List ℕ} (run : Transition.Reaches Step Proper (start pids) s) :
    ∀ p ∈ s, p.pNthread = p.nonEphem ∧
      (p.nonEphem = 0 → ∀ t ∈ p.pThreads, t.kill = true) ∧
      (p.nonEphem ≠ 0 → p.pThreads ≠ [] ∧ (∀ t ∈ p.pThreads, t.kill = false) ∧ p.freed = 0) ∧
      p.freed + p.exiting.countP Prod.snd = if p.pThreads = [] then 1 else 0 := by
  intro p member
  have all : AllSound s :=
    run.invariant (start_sound pids) fun _ _ _ sound proper step => sound.step proper step
  have sound := all p member
  have killed := sound.killed
  rw [sound.count] at killed
  refine ⟨sound.count, fun none_ t among => ?_, fun some_ => ?_, sound.goes⟩
  · rw [killed t among, none_, decide_eq_true rfl]
  · have threads : p.pThreads ≠ [] := by
      rintro empty
      exact some_ (by rw [Proc.nonEphem, empty, List.countP_nil])
    have goes := sound.goes
    rw [if_neg threads] at goes
    exact ⟨threads, fun t among => by rw [killed t among, decide_eq_false some_], by omega⟩

/-- A process whose second thread becomes ephemeral and is sent away when the first one exits. -/
def twoThreads : List (ℕ × Act) :=
  [(0, .forkThread ⟨1, false, false, false⟩ 2), (0, .ask ⟨2, false, false, false⟩),
    (0, .ephem ⟨2, false, false, true⟩), (0, .exit ⟨1, false, false, false⟩)]

theorem follow_twoThreads :
    Transition.follow exec (fun s a => decide (Proper s a)) (start [1]) twoThreads =
      some [⟨[⟨2, true, true, false⟩], 0, [(⟨1, false, false, false⟩, false)], 0⟩] := by decide

theorem process_lifetime_two : ∃ s p, p ∈ s ∧ p.pThreads = [⟨2, true, true, false⟩] ∧
    Transition.Reaches Step Proper (start [1]) s ∧ p.pNthread = p.nonEphem := by
  have run : Transition.Reaches Step Proper (start [1]) _ :=
    (Transition.Reaches.refl _).follow (fun _ _ => of_decide_eq_true) follow_twoThreads
  exact ⟨_, _, List.mem_singleton_self _, rfl, run,
    (process_lifetime run _ (List.mem_singleton_self _)).1⟩

/-- The second of three threads asks twice to be ephemeral, and the first one exits. -/
def asksTwice : List (ℕ × Act) :=
  [(0, .forkThread ⟨1, false, false, false⟩ 2), (0, .forkThread ⟨1, false, false, false⟩ 3),
    (0, .ask ⟨2, false, false, false⟩), (0, .ephem ⟨2, false, false, true⟩),
    (0, .ask ⟨2, true, false, false⟩), (0, .ephem ⟨2, true, false, true⟩),
    (0, .exit ⟨1, false, false, false⟩)]

theorem follow_asksTwice :
    Transition.follow exec (fun _ _ => true) (start [1]) asksTwice =
      some [⟨[⟨3, false, true, false⟩, ⟨2, true, true, false⟩], 0,
        [(⟨1, false, false, false⟩, false)], 0⟩] := by decide

/-- **A thread that is ephemeral is counted off once more: the count is zero, and a thread that is
not ephemeral sent away.** -/
theorem counted_off_twice : ∃ s p t, Transition.Reaches Step Transition.Any (start [1]) s ∧ p ∈ s ∧
    p.pNthread = 0 ∧ t ∈ p.pThreads ∧ t.ephem = false ∧ t.kill = true := by
  have run : Transition.Reaches Step Transition.Any (start [1]) _ :=
    (Transition.Reaches.refl _).follow (fun _ _ _ => trivial) follow_asksTwice
  exact ⟨_, _, _, run, List.mem_singleton_self _, rfl, List.mem_cons_self, rfl, rfl⟩

end Vsta.Process
