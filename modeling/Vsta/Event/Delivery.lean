import Mathlib.Data.List.Forall2
import Vsta.Event.Notify
import Vsta.Library.Runs

/-!
# What a notification does

A call of `notify2` should succeed exactly when its event was placed in the slots it is for, and
leave the slots alone when it fails. The search for a single thread lacks the jump to the end of the
function once the event is placed, and falls into the error for a thread that is not there; the loop
over all threads leaves the slots it has filled when a later one is taken; and the loop over a group
ignores what becomes of its members. `meets_iff_fair` says when a call does what it should.

Over whole runs (`events_once`): each event placed in a slot is taken by its thread once before the
next one is placed, as long as no thread takes its events while a call that found its semaphore busy
is about to start over.
-/

set_option autoImplicit false

namespace Vsta.Events

/-! ## One thread -/

namespace Thread

variable (t : Thread) (n : Nat) (ev : Event)

theorem put_tEvproc : (t.put n ev).tEvproc = some ev := by
  rw [put]
  split_ifs with here
  · exact here
  · rfl

theorem put_tPid : (t.put n ev).tPid = t.tPid := by
  rw [put]
  split_ifs <;> rfl

theorem put_put : (t.put n ev).put n ev = t.put n ev := by
  rw [put, if_pos (t.put_tEvproc n ev)]

theorem checkEvents_tPid : t.checkEvents.tPid = t.tPid := by
  rw [checkEvents]
  split
  · rfl
  · split <;> rfl

/-- An event that is sent stands in the slot, whatever the attempts. -/
theorem retry_tEvproc (busy : List Bool) : (t.retry n ev busy).tEvproc = some ev := by
  induction busy generalizing t with
  | nil =>
      simp only [retry]
      split_ifs <;> exact t.put_tEvproc n ev
  | cons took rest ih =>
      simp only [retry]
      split_ifs
      · exact ih _
      · exact ih _
      · exact t.put_tEvproc n ev

theorem retry_tPid (busy : List Bool) : (t.retry n ev busy).tPid = t.tPid := by
  induction busy generalizing t with
  | nil =>
      simp only [retry]
      split_ifs <;> exact t.put_tPid n ev
  | cons took rest ih =>
      simp only [retry]
      split_ifs
      · rw [ih]
        exact ((t.put n ev).checkEvents_tPid).trans (t.put_tPid n ev)
      · rw [ih]
        exact t.put_tPid n ev
      · exact t.put_tPid n ev

/-- A thread that takes nothing in between has the event placed once. -/
theorem retry_slotLog {busy : List Bool} (quiet : true ∉ busy) :
    (t.retry n ev busy).slotLog = (t.put n ev).slotLog := by
  induction busy generalizing t with
  | nil =>
      simp only [retry]
      split_ifs <;> rfl
  | cons took rest ih =>
      obtain rfl : took = false := by
        cases took with
        | false => rfl
        | true => exact absurd List.mem_cons_self quiet
      simp only [retry, Bool.false_eq_true, if_false]
      split_ifs
      · rw [ih _ fun later => quiet (.tail _ later), put_put]
      · rfl

end Thread

/-! ## The threads of a process -/

/-- What a call does to a thread: nothing, or it fills the empty slot. -/
def Touched (c : Call) (n : Nat) (t t' : Thread) : Prop :=
  t' = t ∨ t.tEvproc = none ∧ t' = t.retry n c.evname (c.busy t.tPid)

/-- The event is placed in the slot of a thread. -/
def Filled (ev : Event) (t t' : Thread) : Prop := t.tEvproc = none ∧ t'.tEvproc = some ev

variable {c : Call} {n : Nat} {tid : ULong} {t : Thread} {threads rest : List Thread}

theorem signalThread_full (full : t.tEvproc ≠ none) (busy : List Bool) :
    t.signalThread n c.evname busy = .error .EAGAIN := by
  rw [Thread.signalThread, if_pos (Option.isSome_iff_ne_none.mpr full)]

theorem signalThread_empty (empty : t.tEvproc = none) (busy : List Bool) :
    t.signalThread n c.evname busy = .ok (t.retry n c.evname busy) := by
  rw [Thread.signalThread, if_neg (by simp [empty])]

theorem signalAll_full (full : t.tEvproc ≠ none) :
    signalAll c n (t :: rest) = (t :: rest, .error .EAGAIN) := by
  simp only [signalAll, signalThread_full full]

theorem signalAll_empty (empty : t.tEvproc = none) :
    signalAll c n (t :: rest) =
      (t.retry n c.evname (c.busy t.tPid) :: (signalAll c n rest).1, (signalAll c n rest).2) := by
  simp only [signalAll, signalThread_empty empty]

/-- All threads are signalled when all slots are empty. -/
theorem signalAll_ok_iff :
    (signalAll c n threads).2 = .ok () ↔ ∀ t ∈ threads, t.tEvproc = none := by
  induction threads with
  | nil => simp [signalAll]
  | cons t rest ih =>
      by_cases empty : t.tEvproc = none
      · rw [signalAll_empty empty, List.forall_mem_cons]
        exact ⟨fun ok => ⟨empty, ih.mp ok⟩, fun all => ih.mpr all.2⟩
      · rw [signalAll_full empty, List.forall_mem_cons]
        exact ⟨nofun, fun all => absurd all.1 empty⟩

theorem signalAll_touched : List.Forall₂ (Touched c n) threads (signalAll c n threads).1 := by
  induction threads with
  | nil => exact .nil
  | cons t rest ih =>
      by_cases empty : t.tEvproc = none
      · rw [signalAll_empty empty]
        exact .cons (.inr ⟨empty, rfl⟩) ih
      · rw [signalAll_full empty]
        exact List.forall₂_same.mpr fun _ _ => .inl rfl

/-- The slots are filled in all threads, if they were empty. -/
theorem signalAll_filled (all : ∀ t ∈ threads, t.tEvproc = none) :
    List.Forall₂ (Filled c.evname) threads (signalAll c n threads).1 := by
  induction threads with
  | nil => exact .nil
  | cons t rest ih =>
      rw [List.forall_mem_cons] at all
      rw [signalAll_empty all.1]
      exact .cons ⟨all.1, t.retry_tEvproc n _ _⟩ (ih all.2)

theorem signalOne_full (here : t.tPid = tid) (full : t.tEvproc ≠ none) :
    signalOne c n tid (t :: rest) = (t :: rest, .error .EAGAIN) := by
  simp only [signalOne, if_pos here, signalThread_full full]

theorem signalOne_empty (here : t.tPid = tid) (empty : t.tEvproc = none) :
    signalOne c n tid (t :: rest) =
      (t.retry n c.evname (c.busy t.tPid) :: (signalOne c n tid rest).1,
        (signalOne c n tid rest).2) := by
  simp only [signalOne, if_pos here, signalThread_empty empty]

theorem signalOne_other (other : t.tPid ≠ tid) :
    signalOne c n tid (t :: rest) =
      (t :: (signalOne c n tid rest).1, (signalOne c n tid rest).2) := by
  simp only [signalOne, if_neg other]

/-- The search for a single thread never succeeds. -/
theorem signalOne_ne_ok : (signalOne c n tid threads).2 ≠ .ok () := by
  induction threads with
  | nil => exact nofun
  | cons t rest ih =>
      by_cases here : t.tPid = tid
      · by_cases empty : t.tEvproc = none
        · rw [signalOne_empty here empty]
          exact ih
        · rw [signalOne_full here empty]
          exact nofun
      · rw [signalOne_other here]
        exact ih

theorem signalOne_touched : List.Forall₂ (Touched c n) threads (signalOne c n tid threads).1 := by
  induction threads with
  | nil => exact .nil
  | cons t rest ih =>
      by_cases here : t.tPid = tid
      · by_cases empty : t.tEvproc = none
        · rw [signalOne_empty here empty]
          exact .cons (.inr ⟨empty, rfl⟩) ih
        · rw [signalOne_full here empty]
          exact List.forall₂_same.mpr fun _ _ => .inl rfl
      · rw [signalOne_other here]
        exact .cons (.inl rfl) ih

/-- What is pending for each thread. -/
def slots (threads : List Thread) : List (Option Event × Option Event) :=
  threads.map fun t => (t.tEvproc, t.tEvsys)

theorem head_of_slots {t' : Thread} {rest' : List Thread}
    (same : slots (t' :: rest') = slots (t :: rest)) : t'.tEvproc = t.tEvproc :=
  congrArg Prod.fst (List.cons.inj same).1

/-- The search leaves the slots alone when the thread is not there or its slot is taken. -/
theorem signalOne_slots_iff :
    slots (signalOne c n tid threads).1 = slots threads ↔
      ∀ t, threads.find? (fun t => t.tPid = tid) = some t → t.tEvproc ≠ none := by
  induction threads with
  | nil => simp [signalOne]
  | cons t rest ih =>
      by_cases here : t.tPid = tid
      · rw [List.find?_cons_of_pos (by simpa using here)]
        by_cases empty : t.tEvproc = none
        · rw [signalOne_empty here empty]
          constructor
          · intro same
            have first := head_of_slots same
            rw [Thread.retry_tEvproc, empty] at first
            exact absurd first nofun
          · intro full
            exact absurd empty (full t rfl)
        · rw [signalOne_full here empty]
          refine ⟨fun _ t' same => ?_, fun _ => rfl⟩
          obtain rfl := Option.some.inj same
          exact empty
      · rw [List.find?_cons_of_neg (by simpa using here), ← ih, signalOne_other here]
        simp [slots]

/-- The loop over all threads leaves the slots alone when the first one is taken. -/
theorem signalAll_slots_iff :
    slots (signalAll c n (t :: rest)).1 = slots (t :: rest) ↔ t.tEvproc ≠ none := by
  by_cases empty : t.tEvproc = none
  · rw [signalAll_empty empty]
    constructor
    · intro same
      have first := head_of_slots same
      rw [Thread.retry_tEvproc, empty] at first
      exact absurd first nofun
    · intro full
      exact absurd empty full
  · rw [signalAll_full empty]
    exact ⟨fun _ => empty, fun _ => rfl⟩

/-! ## One call -/

/-- The event of a call for the thread `tid`, or for all threads when that is 0, is placed in the
slots it is for. -/
def Served (ev : Event) (tid : ULong) (threads threads' : List Thread) : Prop :=
  (∃ t ∈ threads, tid = 0#32 ∨ t.tPid = tid) ∧
    List.Forall₂ (fun t t' => tid = 0#32 ∨ t.tPid = tid → Filled ev t t') threads threads'

/-- The event is placed in the slots of a process that is looked up by its pid. -/
def ServedIn (ev : Event) (tid pid : ULong) (w w' : World) : Prop :=
  ∃ p p', w.pidHash.lookup pid = some p ∧ w'.pidHash.lookup pid = some p' ∧
    Served ev tid p.pThreads p'.pThreads

/-- The event of a call is placed in every slot it is for. -/
def Placed (c : Call) (w w' : World) : Prop :=
  ∃ pid p, w.target c = some (pid, p) ∧
    if c.argThread = NOTIFY_PG then
      w.pgMembers p.pPgrp ≠ [] ∧ ∀ m ∈ w.pgMembers p.pPgrp, ServedIn c.evname 0#32 m w w'
    else ServedIn c.evname c.argThread pid w w'

/-- No thread's pending event is another. -/
def Unchanged (w w' : World) : Prop :=
  ∀ pid, (w'.pidHash.lookup pid).map (fun p => slots p.pThreads) =
    (w.pidHash.lookup pid).map fun p => slots p.pThreads

/-- A call succeeds exactly when its event was placed, and else leaves the slots alone. -/
def Meets (w : World) (c : Call) : Prop :=
  ((w.notify2 c).2 = .ok () ↔ Placed c w (w.notify2 c).1) ∧
    ((w.notify2 c).2 ≠ .ok () → Unchanged w (w.notify2 c).1)

/-- Every member of a group may be signalled and has threads, all of them with an empty slot. -/
def Open (w : World) (c : Call) (m : ULong) : Prop :=
  ∃ p, w.pidHash.lookup m = some p ∧ w.maySignal c p = true ∧ p.pThreads ≠ [] ∧
    ∀ t ∈ p.pThreads, t.tEvproc = none

/-- The condition under which a call does what it should. -/
def Fair (w : World) (c : Call) : Prop :=
  ¬(c.argProc = 0#32 ∧ c.interrupted) → ∀ pid p, w.target c = some (pid, p) →
    w.maySignal c p = true →
      if c.argThread = NOTIFY_PG then
        w.pgMembers p.pPgrp ≠ [] ∧ ∀ m ∈ w.pgMembers p.pPgrp, Open w c m
      else if c.argThread ≠ 0#32 then
        ∀ t, p.pThreads.find? (fun t => t.tPid = c.argThread) = some t → t.tEvproc ≠ none
      else
        ∃ t rest, p.pThreads = t :: rest ∧
          (t.tEvproc ≠ none ∨ ∀ t ∈ p.pThreads, t.tEvproc = none)

section Calls

variable {w w' : World} {pid : ULong} {p : Proc}

theorem lookup_setThreads (w : World) (pid other : ULong) (threads : List Thread) :
    (w.setThreads pid threads).pidHash.lookup other =
      if other = pid then (w.pidHash.lookup pid).map fun p => { p with pThreads := threads }
      else w.pidHash.lookup other := by
  rw [World.setThreads]
  exact w.pidHash.lookup_modify pid (fun p => { p with pThreads := threads }) other

theorem target_lookup (found : w.target c = some (pid, p)) : w.pidHash.lookup pid = some p := by
  obtain ⟨q, there, same⟩ := Option.map_eq_some_iff.mp found
  obtain ⟨rfl, rfl⟩ := Prod.mk.inj same
  exact there

theorem unchanged_refl (w : World) : Unchanged w w := fun _ => rfl

/-- The slots are left alone when those of the process are. -/
theorem unchanged_setThreads (found : w.pidHash.lookup pid = some p) (threads : List Thread) :
    Unchanged w (w.setThreads pid threads) ↔ slots threads = slots p.pThreads := by
  constructor
  · intro same
    have here := same pid
    rw [lookup_setThreads, if_pos rfl, found] at here
    exact Option.some.inj here
  · intro same other
    rw [lookup_setThreads]
    split_ifs with here
    · subst here
      rw [found, Option.map_some, Option.map_some, Option.map_some, same]
    · rfl

/-- An event that is placed changes the slots of the process. -/
theorem Served.slots_ne {ev : Event} {threads' : List Thread}
    (served : Served ev tid threads threads') : slots threads' ≠ slots threads := by
  obtain ⟨⟨t, member, for_⟩, all⟩ := served
  intro same
  induction all with
  | nil => cases member
  | cons first others ih =>
      rcases List.mem_cons.mp member with rfl | later
      · have filled := first for_
        rw [Filled, head_of_slots same] at filled
        exact absurd (filled.1.symm.trans filled.2) nofun
      · exact ih later (List.cons.inj same).2

theorem ServedIn.changes {ev : Event} (served : ServedIn ev tid pid w w') : ¬Unchanged w w' := by
  obtain ⟨p, p', one, two, served⟩ := served
  intro same
  have here := same pid
  rw [one, two] at here
  exact served.slots_ne (Option.some.inj here)

theorem Placed.changes (placed : Placed c w w') : ¬Unchanged w w' := by
  obtain ⟨pid, p, -, placed⟩ := placed
  split_ifs at placed with group
  · obtain ⟨m, member⟩ := List.exists_mem_of_ne_nil _ placed.1
    exact (placed.2 m member).changes
  · exact placed.changes

/-- A call that fails before it comes to a slot does what it should. -/
theorem meets_of_same {e : NotifyErr} (same : w.notify2 c = (w, .error e)) : Meets w c := by
  rw [Meets, same]
  exact ⟨⟨nofun, fun placed => absurd (unchanged_refl w) placed.changes⟩, fun _ => unchanged_refl w⟩

/-- An event that is placed in the threads of one process. -/
theorem servedIn_setThreads (found : w.pidHash.lookup pid = some p) (threads : List Thread)
    (ev : Event) :
    ServedIn ev tid pid w (w.setThreads pid threads) ↔ Served ev tid p.pThreads threads := by
  constructor
  · rintro ⟨q, q', one, two, served⟩
    rw [lookup_setThreads, if_pos rfl, found] at two
    obtain rfl := Option.some.inj (one.symm.trans found)
    obtain rfl := Option.some.inj two
    exact served
  · intro served
    refine ⟨p, { p with pThreads := threads }, found, ?_, served⟩
    rw [lookup_setThreads, if_pos rfl, found]
    rfl

/-- A call that fails and leaves the slots alone does what it should. -/
theorem meets_of_error (fails : (w.notify2 c).2 ≠ .ok ()) :
    Meets w c ↔ Unchanged w (w.notify2 c).1 := by
  constructor
  · rintro ⟨-, keeps⟩
    exact keeps fails
  · intro keeps
    exact ⟨⟨fun ok => absurd ok fails, fun placed => absurd keeps placed.changes⟩, fun _ => keeps⟩

/-- The call for a single thread. -/
theorem meets_one (found : w.pidHash.lookup pid = some p)
    (same : w.notify2 c = (w.setThreads pid (signalOne c w.calls c.argThread p.pThreads).1,
      (signalOne c w.calls c.argThread p.pThreads).2)) :
    Meets w c ↔
      ∀ t, p.pThreads.find? (fun t => t.tPid = c.argThread) = some t → t.tEvproc ≠ none := by
  rw [meets_of_error (by rw [same]; exact signalOne_ne_ok), same]
  exact (unchanged_setThreads found _).trans signalOne_slots_iff

/-- The call for all threads of a process. -/
theorem meets_all (found : w.pidHash.lookup pid = some p) (target : w.target c = some (pid, p))
    (all : c.argThread = 0#32)
    (same : w.notify2 c = (w.setThreads pid (signalAll c w.calls p.pThreads).1,
      (signalAll c w.calls p.pThreads).2)) :
    Meets w c ↔ ∃ t rest, p.pThreads = t :: rest ∧
      (t.tEvproc ≠ none ∨ ∀ t ∈ p.pThreads, t.tEvproc = none) := by
  have placed_iff : Placed c w (w.notify2 c).1 ↔
      Served c.evname 0#32 p.pThreads (signalAll c w.calls p.pThreads).1 := by
    rw [same, ← servedIn_setThreads found, Placed]
    constructor
    · rintro ⟨pid', p', target', placed⟩
      obtain ⟨rfl, rfl⟩ := Prod.mk.inj (Option.some.inj (target.symm.trans target'))
      rwa [all, if_neg (by decide)] at placed
    · intro served
      refine ⟨pid, p, target, ?_⟩
      rwa [all, if_neg (by decide)]
  by_cases empty : ∀ t ∈ p.pThreads, t.tEvproc = none
  · have ok : (w.notify2 c).2 = .ok () := by
      rw [same]
      exact signalAll_ok_iff.mpr empty
    constructor
    · rintro ⟨iff, -⟩
      obtain ⟨⟨t, member, -⟩, -⟩ := placed_iff.mp (iff.mp ok)
      obtain ⟨first, rest, parts⟩ := List.exists_cons_of_ne_nil (List.ne_nil_of_mem member)
      exact ⟨first, rest, parts, .inr empty⟩
    · rintro ⟨t, rest, parts, -⟩
      refine ⟨iff_of_true ok (placed_iff.mpr ⟨⟨t, by simp [parts], .inl rfl⟩, ?_⟩),
        fun fails => absurd ok fails⟩
      refine List.Forall₂.imp ?_ (signalAll_filled empty)
      exact fun _ _ filled _ => filled
  · have fails : (w.notify2 c).2 ≠ .ok () := by
      rw [same]
      exact fun ok => empty (signalAll_ok_iff.mp ok)
    rw [meets_of_error fails, same]
    dsimp only
    rw [unchanged_setThreads found]
    cases parts : p.pThreads with
    | nil => exact absurd (by simp [parts]) empty
    | cons t rest =>
        rw [signalAll_slots_iff, ← parts]
        constructor
        · intro full
          exact ⟨t, rest, parts, .inl full⟩
        · rintro ⟨t', rest', parts', full | all⟩
          · obtain ⟨rfl, -⟩ := List.cons.inj (parts.symm.trans parts')
            exact full
          · exact absurd all empty

/-! ## A group -/

/-- What a notification of a group does to one of its members. -/
def hit (w : World) (c : Call) (p : Proc) : Proc :=
  if w.maySignal c p then { p with pThreads := (signalAll c w.calls p.pThreads).1 } else p

/-- A second loop over the same threads finds the first slot taken. -/
theorem signalAll_signalAll (c : Call) (n : Nat) (threads : List Thread) :
    (signalAll c n (signalAll c n threads).1).1 = (signalAll c n threads).1 := by
  cases threads with
  | nil => rfl
  | cons t rest =>
      by_cases empty : t.tEvproc = none
      · rw [signalAll_empty empty]
        dsimp only
        rw [signalAll_full (by rw [Thread.retry_tEvproc]; exact nofun)]
      · rw [signalAll_full empty]
        dsimp only
        rw [signalAll_full empty]

theorem maySignal_congr {w' : World} (ids : w'.callerIds c = w.callerIds c) {q : Proc}
    (prot : q.pProt = p.pProt) : w'.maySignal c q = w.maySignal c p := by
  rw [World.maySignal, World.maySignal, ids, prot]

theorem hit_hit (w : World) (c : Call) (p : Proc) : hit w c (hit w c p) = hit w c p := by
  by_cases may : w.maySignal c p = true
  · have once : hit w c p = { p with pThreads := (signalAll c w.calls p.pThreads).1 } := if_pos may
    have again : w.maySignal c (hit w c p) = true :=
      (maySignal_congr rfl (by rw [once])).trans may
    rw [hit, if_pos again, once]
    dsimp only
    rw [signalAll_signalAll]
  · have once : hit w c p = p := if_neg may
    rw [once, once]

theorem lookup_notifyMember (w : World) (c : Call) (pid m : ULong) :
    (w.notifyMember c pid).pidHash.lookup m =
      if m = pid then (w.pidHash.lookup pid).map (hit w c) else w.pidHash.lookup m := by
  rw [World.notifyMember]
  cases found : w.pidHash.lookup pid with
  | none =>
      split_ifs with here
      · rw [here, found]
        rfl
      · rfl
  | some p =>
      dsimp only
      rw [Option.map_some, hit]
      by_cases may : w.maySignal c p = true
      · rw [if_pos may, if_pos may, lookup_setThreads, found, Option.map_some]
      · rw [if_neg may, if_neg may]
        split_ifs with here
        · rw [here, found]
        · rfl

theorem hit_pIds (w : World) (c : Call) (p : Proc) : (hit w c p).pIds = p.pIds := by
  rw [hit]
  split_ifs <;> rfl

/-- A notification changes neither what the caller is permitted nor the number of the call. -/
theorem notifyMember_keeps (w : World) (c : Call) (pid : ULong) :
    (w.notifyMember c pid).callerIds c = w.callerIds c ∧
      (w.notifyMember c pid).calls = w.calls := by
  constructor
  · rw [World.callerIds, World.callerIds, lookup_notifyMember]
    split_ifs with here
    · rw [here]
      cases w.pidHash.lookup pid with
      | none => rfl
      | some p => exact hit_pIds w c p
    · rfl
  · rw [World.notifyMember]
    split
    · rfl
    · split_ifs <;> rfl

/-- **What becomes of the processes when a group is notified.** -/
theorem lookup_notifypg (w : World) (c : Call) (members : List ULong) (m : ULong) :
    (w.notifypg c members).pidHash.lookup m =
      if m ∈ members then (w.pidHash.lookup m).map (hit w c) else w.pidHash.lookup m := by
  induction members generalizing w with
  | nil => rfl
  | cons pid rest ih =>
      obtain ⟨ids, calls⟩ := notifyMember_keeps w c pid
      have same : hit (w.notifyMember c pid) c = hit w c := by
        funext p
        rw [hit, hit, maySignal_congr ids rfl, calls]
      rw [World.notifypg, List.foldl_cons, ← World.notifypg, ih, same, lookup_notifyMember]
      by_cases here : m = pid
      · subst here
        rw [if_pos rfl, if_pos List.mem_cons_self]
        split_ifs
        · rw [Option.map_map]
          exact congrArg (fun f => (w.pidHash.lookup m).map f) (funext (hit_hit w c))
        · rfl
      · simp only [List.mem_cons, here, false_or, if_false]

/-- The event is placed in all slots that were empty. -/
theorem served_all_iff {ev : Event} (name : c.evname = ev) (n : Nat) (threads : List Thread) :
    Served ev 0#32 threads (signalAll c n threads).1 ↔
      threads ≠ [] ∧ ∀ t ∈ threads, t.tEvproc = none := by
  subst name
  constructor
  · rintro ⟨⟨t, member, -⟩, all⟩
    refine ⟨List.ne_nil_of_mem member, fun t member => ?_⟩
    have empties : ∀ (one two : List Thread), List.Forall₂
        (fun t t' => 0#32 = 0#32 ∨ t.tPid = 0#32 → Filled c.evname t t') one two →
          ∀ t ∈ one, t.tEvproc = none := by
      intro one two all
      induction all with
      | nil => exact nofun
      | cons first _ ih => exact List.forall_mem_cons.mpr ⟨(first (.inl rfl)).1, ih⟩
    exact empties _ _ all t member
  · rintro ⟨some_, empty⟩
    obtain ⟨t, member⟩ := List.exists_mem_of_ne_nil _ some_
    refine ⟨⟨t, member, .inl rfl⟩, List.Forall₂.imp ?_ (signalAll_filled empty)⟩
    exact fun _ _ filled _ => filled

/-- The members of a group that get the event are those that are open to it. -/
theorem servedIn_notifypg {members : List ULong} {m : ULong} (member : m ∈ members) :
    ServedIn c.evname 0#32 m w (w.notifypg c members) ↔ Open w c m := by
  rw [ServedIn, Open, lookup_notifypg, if_pos member]
  cases found : w.pidHash.lookup m with
  | none => simp
  | some p =>
      have one : (some p).map (hit w c) = some (hit w c p) := rfl
      by_cases may : w.maySignal c p = true
      · have once : hit w c p = { p with pThreads := (signalAll c w.calls p.pThreads).1 } :=
          if_pos may
        rw [one, once]
        constructor
        · rintro ⟨q, q', ⟨⟩, ⟨⟩, served⟩
          exact ⟨p, rfl, may, (served_all_iff rfl _ _).mp served⟩
        · rintro ⟨q, ⟨⟩, -, open_⟩
          exact ⟨p, _, rfl, rfl, (served_all_iff rfl _ _).mpr open_⟩
      · have once : hit w c p = p := if_neg may
        rw [one, once]
        constructor
        · rintro ⟨q, q', ⟨⟩, ⟨⟩, served⟩
          exact absurd rfl served.slots_ne
        · rintro ⟨q, ⟨⟩, may', -⟩
          exact absurd may' may

/-- The call for a group. -/
theorem meets_group (target : w.target c = some (pid, p)) (group : c.argThread = NOTIFY_PG)
    (same : w.notify2 c = (w.notifypg c (w.pgMembers p.pPgrp), .ok ())) :
    Meets w c ↔ w.pgMembers p.pPgrp ≠ [] ∧ ∀ m ∈ w.pgMembers p.pPgrp, Open w c m := by
  have placed_iff : Placed c w (w.notify2 c).1 ↔
      w.pgMembers p.pPgrp ≠ [] ∧ ∀ m ∈ w.pgMembers p.pPgrp, Open w c m := by
    rw [same, Placed]
    constructor
    · rintro ⟨pid', p', target', placed⟩
      obtain ⟨rfl, rfl⟩ := Prod.mk.inj (Option.some.inj (target.symm.trans target'))
      rw [if_pos group] at placed
      exact ⟨placed.1, fun m member => (servedIn_notifypg member).mp (placed.2 m member)⟩
    · rintro ⟨some_, all⟩
      refine ⟨pid, p, target, ?_⟩
      rw [if_pos group]
      exact ⟨some_, fun m member => (servedIn_notifypg member).mpr (all m member)⟩
  have ok : (w.notify2 c).2 = .ok () := by rw [same]
  rw [← placed_iff, Meets]
  exact ⟨fun meets => meets.1.mp ok, fun placed => ⟨iff_of_true ok placed, fun no => absurd ok no⟩⟩

/-- **When a notification does what it should.** -/
theorem meets_iff_fair (w : World) (c : Call) : Meets w c ↔ Fair w c := by
  by_cases intr : c.argProc = 0#32 ∧ c.interrupted = true
  · exact iff_of_true (meets_of_same (by rw [World.notify2, if_pos intr])) fun no => absurd intr no
  · cases target : w.target c with
    | none =>
        refine iff_of_true (meets_of_same (e := .ESRCH) ?_) fun _ _ _ found => ?_
        · rw [World.notify2, if_neg intr, target]
        · exact absurd (target.symm.trans found) nofun
    | some found =>
        obtain ⟨pid, p⟩ := found
        have there := target_lookup target
        have fair_iff : Fair w c ↔ (w.maySignal c p = true →
            if c.argThread = NOTIFY_PG then
              w.pgMembers p.pPgrp ≠ [] ∧ ∀ m ∈ w.pgMembers p.pPgrp, Open w c m
            else if c.argThread ≠ 0#32 then
              ∀ t, p.pThreads.find? (fun t => t.tPid = c.argThread) = some t → t.tEvproc ≠ none
            else ∃ t rest, p.pThreads = t :: rest ∧
              (t.tEvproc ≠ none ∨ ∀ t ∈ p.pThreads, t.tEvproc = none)) := by
          constructor
          · intro fair
            exact fair intr pid p target
          · intro fair _ pid' p' target'
            obtain ⟨rfl, rfl⟩ := Prod.mk.inj (Option.some.inj (target.symm.trans target'))
            exact fair
        rw [fair_iff]
        by_cases may : w.maySignal c p = true
        · simp only [may, forall_const]
          by_cases group : c.argThread = NOTIFY_PG
          · rw [if_pos group]
            refine meets_group target group ?_
            simp only [World.notify2, if_neg intr, target, may, Bool.not_true, Bool.false_eq_true,
              if_false, if_pos group]
          · rw [if_neg group]
            by_cases single : c.argThread ≠ 0#32
            · rw [if_pos single]
              refine meets_one there ?_
              simp only [World.notify2, if_neg intr, target, may, Bool.not_true,
                Bool.false_eq_true, if_false, if_neg group, if_pos single]
            · rw [if_neg single]
              refine meets_all there target (not_not.mp single) ?_
              simp only [World.notify2, if_neg intr, target, may, Bool.not_true,
                Bool.false_eq_true, if_false, if_neg group, if_neg single]
        · refine iff_of_true (meets_of_same (e := .EPERM) ?_) fun yes => absurd yes may
          simp only [World.notify2, if_neg intr, target, may, Bool.not_false, if_true]

end Calls

/-! ## Runs -/

/-- What happened to a slot, the newest first, up to now: the event that stands in it was placed
last, and before each placement the one before was taken, once. -/
inductive Orderly : List SlotAct → Option Event → Prop where
  | empty : Orderly [] none
  | placed {log : List SlotAct} (call : Nat) (ev : Event) (before : Orderly log none)
      (once : ∀ earlier old, .placed earlier old ∈ log → earlier < call) :
      Orderly (.placed call ev :: log) (some ev)
  | taken {log : List SlotAct} (ev : Event) (before : Orderly log (some ev)) :
      Orderly (.taken ev :: log) none

/-- A thread of the system. -/
def World.Has (w : World) (t : Thread) : Prop := ∃ node ∈ w.pidHash, t ∈ node.2.pThreads

/-- The steps of the system. `other` is the rest of the kernel. -/
inductive Act where
  | notify (c : Call)
  | checkEvents (pid : ULong) (i : Nat)
  | system (pid : ULong) (i : Nat) (ev : Event)
  | other

/-- What the rest of the kernel leaves of the slots: a thread is new, or has the slot it had. -/
def Rest (w w' : World) : Prop :=
  w'.calls = w.calls ∧ ∀ t', w'.Has t' → t'.tEvproc = none ∧ t'.slotLog = [] ∨
    ∃ t, w.Has t ∧ t'.tEvproc = t.tEvproc ∧ t'.slotLog = t.slotLog

/-- One thread of a process takes a step. -/
def ThreadStep (w : World) (pid : ULong) (i : Nat) (change : Thread → Thread) (w' : World) : Prop :=
  ∃ p t, w.pidHash.lookup pid = some p ∧ p.pThreads[i]? = some t ∧
    w' = w.setThreads pid (p.pThreads.set i (change t))

/-- One step of the system. -/
def Step (w : World) (a : Act) (w' : World) : Prop :=
  match a with
  | .notify c => w' = { (w.notify2 c).1 with calls := w.calls + 1 }
  | .checkEvents pid i => ThreadStep w pid i Thread.checkEvents w'
  | .system pid i ev => ThreadStep w pid i (fun t => { t with tEvsys := some ev }) w'
  | .other => Rest w w'

/-- No thread takes its events while a call that found its semaphore busy is to start over. -/
def Quiet (_ : World) : Act → Prop
  | .notify c => ∀ pid, true ∉ c.busy pid
  | _ => True

/-- Every slot has an orderly past, with calls that are over. -/
def World.Orderly (w : World) : Prop :=
  ∀ t, w.Has t → Events.Orderly t.slotLog t.tEvproc ∧
    ∀ call ev, .placed call ev ∈ t.slotLog → call < w.calls

section Runs

variable {w w' : World}

theorem has_of_lookup {pid : ULong} {p : Proc} (found : w.pidHash.lookup pid = some p)
    {t : Thread} (member : t ∈ p.pThreads) : w.Has t :=
  ⟨(pid, p), (Hash.perm_delete found).mem_iff.mpr List.mem_cons_self, member⟩

theorem has_setThreads {pid : ULong} {threads : List Thread} {t : Thread}
    (has : (w.setThreads pid threads).Has t) : t ∈ threads ∨ w.Has t := by
  obtain ⟨node, member, inside⟩ := has
  obtain ⟨old, there, rfl⟩ := List.mem_map.mp member
  dsimp only at inside
  by_cases here : old.1 = pid
  · rw [if_pos here] at inside
    exact .inl inside
  · rw [if_neg here] at inside
    exact .inr ⟨old, there, inside⟩

theorem exists_of_forall₂ {R : Thread → Thread → Prop} {l l' : List Thread}
    (all : List.Forall₂ R l l') {t' : Thread} (member : t' ∈ l') : ∃ t ∈ l, R t t' := by
  induction all with
  | nil => cases member
  | cons first _ ih =>
      rcases List.mem_cons.mp member with rfl | later
      · exact ⟨_, List.mem_cons_self, first⟩
      · obtain ⟨t, inside, is⟩ := ih later
        exact ⟨t, .tail _ inside, is⟩

/-- Every thread after a call is one from before, touched at most once. -/
def TouchedBy (c : Call) (n : Nat) (w w' : World) : Prop :=
  ∀ t', w'.Has t' → ∃ t, w.Has t ∧ Touched c n t t'

theorem TouchedBy.refl (w : World) : TouchedBy c n w w := fun t has => ⟨t, has, .inl rfl⟩

theorem Touched.trans {one two three : Thread} (first : Touched c n one two)
    (second : Touched c n two three) : Touched c n one three := by
  rcases first with rfl | ⟨empty, rfl⟩
  · exact second
  · rcases second with rfl | ⟨again, -⟩
    · exact .inr ⟨empty, rfl⟩
    · rw [Thread.retry_tEvproc] at again
      exact absurd again nofun

theorem TouchedBy.trans {w'' : World} (first : TouchedBy c n w w')
    (second : TouchedBy c n w' w'') : TouchedBy c n w w'' := by
  intro t'' has
  obtain ⟨t', has', later⟩ := second t'' has
  obtain ⟨t, has, earlier⟩ := first t' has'
  exact ⟨t, has, earlier.trans later⟩

theorem touchedBy_setThreads {pid : ULong} {p : Proc} (found : w.pidHash.lookup pid = some p)
    {threads : List Thread} (touched : List.Forall₂ (Touched c n) p.pThreads threads) :
    TouchedBy c n w (w.setThreads pid threads) := by
  intro t' has
  rcases has_setThreads has with inside | before
  · obtain ⟨t, member, is⟩ := exists_of_forall₂ touched inside
    exact ⟨t, has_of_lookup found member, is⟩
  · exact ⟨t', before, .inl rfl⟩

theorem touchedBy_notifyMember (w : World) (c : Call) (pid : ULong) :
    TouchedBy c w.calls w (w.notifyMember c pid) := by
  rw [World.notifyMember]
  cases found : w.pidHash.lookup pid with
  | none => exact .refl w
  | some p =>
      dsimp only
      split_ifs
      · exact touchedBy_setThreads found signalAll_touched
      · exact .refl w

theorem touchedBy_notifypg (w : World) (c : Call) (members : List ULong) :
    TouchedBy c w.calls w (w.notifypg c members) ∧ (w.notifypg c members).calls = w.calls := by
  induction members generalizing w with
  | nil => exact ⟨.refl w, rfl⟩
  | cons pid rest ih =>
      obtain ⟨-, calls⟩ := notifyMember_keeps w c pid
      obtain ⟨others, same⟩ := ih (w.notifyMember c pid)
      rw [calls] at others same
      exact ⟨(touchedBy_notifyMember w c pid).trans others, same⟩

/-- A call touches each thread at most once. -/
theorem touchedBy_notify2 (w : World) (c : Call) : TouchedBy c w.calls w (w.notify2 c).1 := by
  rw [World.notify2]
  by_cases intr : c.argProc = 0#32 ∧ c.interrupted = true
  · rw [if_pos intr]
    exact .refl w
  · rw [if_neg intr]
    cases target : w.target c with
    | none => exact .refl w
    | some found =>
        obtain ⟨pid, p⟩ := found
        have there := target_lookup target
        dsimp only
        split_ifs
        · exact .refl w
        · exact (touchedBy_notifypg w c _).1
        · exact touchedBy_setThreads there signalOne_touched
        · exact touchedBy_setThreads there signalAll_touched

/-- A slot that is filled has an orderly past. -/
theorem Orderly.touched {t t' : Thread} (orderly : Orderly t.slotLog t.tEvproc)
    (below : ∀ call ev, .placed call ev ∈ t.slotLog → call < n)
    (quiet : ∀ pid, true ∉ c.busy pid) (touched : Touched c n t t') :
    Orderly t'.slotLog t'.tEvproc ∧
      ∀ call ev, .placed call ev ∈ t'.slotLog → call < n + 1 := by
  rcases touched with rfl | ⟨empty, rfl⟩
  · exact ⟨orderly, fun call ev member => (below call ev member).trans (Nat.lt_succ_self n)⟩
  · have log : (t.retry n c.evname (c.busy t.tPid)).slotLog = .placed n c.evname :: t.slotLog := by
      rw [Thread.retry_slotLog _ _ _ (quiet _), Thread.put, if_neg (by rw [empty]; exact nofun)]
    rw [Thread.retry_tEvproc, log]
    rw [empty] at orderly
    refine ⟨.placed n c.evname orderly below, fun call ev member => ?_⟩
    rcases List.mem_cons.mp member with same | earlier
    · obtain ⟨rfl, -⟩ := SlotAct.placed.inj same
      exact Nat.lt_succ_self _
    · exact (below call ev earlier).trans (Nat.lt_succ_self n)

/-- A thread that takes its events. -/
theorem Orderly.checkEvents {t : Thread} (orderly : Orderly t.slotLog t.tEvproc) :
    Orderly t.checkEvents.slotLog t.checkEvents.tEvproc ∧
      ∀ call ev, .placed call ev ∈ t.checkEvents.slotLog → .placed call ev ∈ t.slotLog := by
  rw [Thread.checkEvents]
  cases t.tEvsys with
  | some _ => exact ⟨orderly, fun _ _ member => member⟩
  | none =>
      cases standing : t.tEvproc with
      | none =>
          dsimp only
          rw [standing] at orderly ⊢
          exact ⟨orderly, fun _ _ member => member⟩
      | some ev =>
          rw [standing] at orderly
          refine ⟨.taken ev orderly, fun call old member => ?_⟩
          rcases List.mem_cons.mp member with same | earlier
          · exact absurd same nofun
          · exact earlier

theorem World.Orderly.threadStep (orderly : w.Orderly) {pid : ULong} {i : Nat}
    {change : Thread → Thread} (step : ThreadStep w pid i change w')
    (keeps : ∀ t, Events.Orderly t.slotLog t.tEvproc →
      Events.Orderly (change t).slotLog (change t).tEvproc ∧
        ∀ call ev, .placed call ev ∈ (change t).slotLog → .placed call ev ∈ t.slotLog) :
    w'.Orderly := by
  obtain ⟨p, t, found, at_, rfl⟩ := step
  have old := orderly t (has_of_lookup found (List.mem_of_getElem? at_))
  intro t' has
  rcases has_setThreads has with inside | before
  · rcases List.mem_or_eq_of_mem_set inside with same | rfl
    · exact orderly t' (has_of_lookup found same)
    · obtain ⟨next, fewer⟩ := keeps t old.1
      exact ⟨next, fun call ev member => old.2 call ev (fewer call ev member)⟩
  · exact orderly t' before

theorem World.Orderly.step (orderly : w.Orderly) {a : Act} (quiet : Quiet w a)
    (step : Step w a w') : w'.Orderly := by
  cases a with
  | notify c =>
      rw [Step] at step
      subst step
      intro t' has
      obtain ⟨t, before, touched⟩ := touchedBy_notify2 w c t' has
      exact (orderly t before).1.touched (orderly t before).2 quiet touched
  | checkEvents pid i => exact orderly.threadStep step fun t past => past.checkEvents
  | system pid i ev => exact orderly.threadStep step fun t past => ⟨past, fun _ _ member => member⟩
  | other =>
      obtain ⟨calls, each⟩ := step
      intro t' has
      rw [calls]
      rcases each t' has with ⟨empty, none⟩ | ⟨t, before, same, log⟩
      · rw [empty, none]
        exact ⟨.empty, nofun⟩
      · rw [same, log]
        exact orderly t before

/-- No thread has an event yet. -/
def World.Fresh (w : World) : Prop := ∀ t, w.Has t → t.tEvproc = none ∧ t.slotLog = []

/-- **Each event is taken once before the next one is placed.** -/
theorem events_once {start : World} (fresh : start.Fresh)
    (run : Transition.Reaches Step Quiet start w) {t : Thread} (has : w.Has t) :
    Orderly t.slotLog t.tEvproc := by
  have first : start.Orderly := fun t has => by
    rw [(fresh t has).1, (fresh t has).2]
    exact ⟨.empty, nofun⟩
  have last : w.Orderly := run.invariant first fun _ _ _ orderly quiet step =>
    orderly.step quiet step
  exact (last t has).1

/-- **Events.** A call of `notify2` does what it should exactly when it is fair, and in every quiet
run each event placed in a slot is taken once before the next one is placed. -/
theorem notify_events (w : World) :
    (∀ c, Meets w c ↔ Fair w c) ∧
      ∀ start, start.Fresh → Transition.Reaches Step Quiet start w →
        ∀ t, w.Has t → Orderly t.slotLog t.tEvproc :=
  ⟨meets_iff_fair w, fun _ fresh run _ has => events_once fresh run has⟩

end Runs

/-- An event. -/
def hello : Event := ⟨[104#8, 105#8], by decide⟩

/-- A thread that sleeps. -/
def sleeper (pid : ULong) (standing : Option Event) : Thread :=
  ⟨pid, standing, none, .sleep, false, []⟩

/-- One process, which everybody may signal. -/
def lone (threads : List Thread) : World where
  pidHash := [(1#32, ⟨[⟨0#8, Vector.replicate PERMLEN 0#8, 0#32⟩],
    ⟨0#8, P_SIG, Vector.replicate PERMLEN 0#8, Vector.replicate PERMLEN 0#8⟩, 0, threads⟩)]
  pgMembers := fun _ => [1#32]
  calls := 0

/-- The process signals its thread `tid`, with the given attempts. -/
def signalSelf (tid : ULong) (busy : List Bool) : Call :=
  ⟨1#32, 0#32, tid, hello, false, fun _ => busy⟩

/-- The process sends itself an event and takes it. -/
theorem notify_events_lone :
    ∃ w, Transition.Reaches Step Quiet (lone [sleeper 2#32 none]) w ∧
      w.Has ⟨2#32, none, none, .run, false, [.taken hello, .placed 0 hello]⟩ ∧
      Orderly [.taken hello, .placed 0 hello] none := by
  have start : (lone [sleeper 2#32 none]).Fresh := by
    rintro t ⟨node, member, inside⟩
    obtain rfl := List.mem_singleton.mp member
    obtain rfl := List.mem_singleton.mp inside
    exact ⟨rfl, rfl⟩
  have quiet : Quiet (lone [sleeper 2#32 none]) (.notify (signalSelf 0#32 [])) :=
    fun _ => List.not_mem_nil
  have sent : Transition.Reaches Step Quiet (lone [sleeper 2#32 none]) _ :=
    (Transition.Reaches.refl _).tail quiet rfl
  have alone : ∀ w, Quiet w (.checkEvents 1#32 0) := fun _ => trivial
  have run : Transition.Reaches Step Quiet (lone [sleeper 2#32 none]) _ :=
    sent.tail (alone _) ⟨_, _, rfl, rfl, rfl⟩
  refine ⟨_, run, ⟨_, List.mem_cons_self, List.mem_cons_self⟩, ?_⟩
  exact (notify_events _).2 _ start run _ ⟨_, List.mem_cons_self, List.mem_cons_self⟩

/-- **An event that is placed, and an error.** The thread is there and its slot is empty. The
event is placed, and the call fails. The second call fails with the first of two slots filled. In
the third the thread takes the event, and it is placed again. -/
theorem placed_and_lost :
    ¬Meets (lone [sleeper 2#32 none]) (signalSelf 2#32 []) ∧
      ¬Meets (lone [sleeper 2#32 none, sleeper 3#32 (some hello)]) (signalSelf 0#32 []) ∧
      ∃ t, ((lone [sleeper 2#32 none]).notify2 (signalSelf 0#32 [true])).1.Has t ∧
        t.slotLog = [.placed 0 hello, .taken hello, .placed 0 hello] := by
  refine ⟨fun meets => ?_, fun meets => ?_,
    ⟨2#32, some hello, none, .onproc, false, [.placed 0 hello, .taken hello, .placed 0 hello]⟩,
    ⟨_, List.mem_cons_self, List.mem_cons_self⟩, rfl⟩
  · have same := meets.2 (fun ok => nomatch ok) 1#32
    exact absurd same (by decide)
  · have same := meets.2 (fun ok => nomatch ok) 1#32
    exact absurd same (by decide)

end Vsta.Events
