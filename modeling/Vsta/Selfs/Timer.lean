import Vsta.Selfs.Events
import Vsta.Library.Runs
import Mathlib.Data.List.Nodup
import Mathlib.Tactic.SplitIfs

/-!
# The timer of the select server

One thread sleeps for all the clients that wait for a time. A client that begins to wait wakes the
thread where it is parked, or has it killed and started anew where none of the others is to be woken
before. When its sleep is over the thread sends `SEL_TIME`, and the answer tells it how long to
sleep next; it is parked by not being answered.

Beside the server's own state is when the sleep ends. `on_time` is about the runs in which each
`SEL_TIME` comes when the last of the clients is to be woken: in those no client sleeps past its
time. Where one is left, `selfs_timeout` does not find it. It looks for a time that is not after
`next`, which is 0 from the start, and would take the time of day for it: the thread is parked.
-/

set_option autoImplicit false

namespace Vsta.Selfs

open Service Vstafs

/-! ## Sleeping -/

/-- An instant, in microseconds. -/
def Time.micros (t : Time) : ℤ := t.tSec * 1000000 + t.tUsec

/-- `__msleep`, by `__usleep`: when a sleep ends that begins now. -/
def msleep (now : Time) (ms : ℤ) : ℤ :=
  now.tSec * 1000000 + (BitVec.ofInt 32 (now.tUsec + ms * 1000)).toInt

/-- What a message has the timer thread do: nothing, sleep on being answered, sleep on being started
in place of the one there was, or wait for an answer. -/
inductive Order where
  | leave
  | wake (ms : ℤ)
  | fork (ms : ℤ)
  | park

/-- A read begins to wait for a time. -/
def File.Begins (f : File) (mArg mArg1 : ℤ) : Prop :=
  f.fMode = .CLIENT ∧ 1 ≤ mArg ∧ mArg ≤ MAXIO ∧ f.fEvents = some [] ∧ mArg1 ≠ -1 ∧ mArg1 ≠ 0

instance (f : File) (mArg mArg1 : ℤ) : Decidable (f.Begins mArg mArg1) :=
  inferInstanceAs (Decidable (_ ∧ _))

namespace State

/-- The timer thread in `selfs_read`, when a client begins to wait. -/
def waitOrder (s : State) (x : Outcome) (mArg1 : ℤ) : Except Fault Order :=
  match s.timerHandle with
  | some _ => .ok (.wake mArg1)
  | none =>
      if s.timerTid then do
        if ← s.soonest (x.now.later mArg1) s.timeWaiters then return .fork mArg1
        else return .leave
      else .ok (.fork mArg1)

/-- The timer thread in `selfs_timeout`. -/
def timeoutOrder (s : State) (x : Outcome) : Except Fault Order := do
  let (_, _, next) ← expire x.now s.timeWaiters s ⟨0, 0⟩
  if next = ⟨0, 0⟩ then return .park
  else return .wake ((next.tSec - x.now.tSec) * 1000 + (next.tUsec - x.now.tUsec).tdiv 1000)

/-- What a message has the timer thread do. -/
def order (s : State) (x : Outcome) (h : Handle) : Request → Except Fault Order
  | .read mArg mArg1 =>
      match s.filehash.lookup h with
      | none => .ok .leave
      | some f => if f.Begins mArg mArg1 then s.waitOrder x mArg1 else .ok .leave
  | .time => s.timeoutOrder x
  | _ => .ok .leave

/-- A client waits for a time. -/
def Waits (s : State) (h : Handle) (f : File) : Prop :=
  h ∈ s.timeWaiters ∧ s.filehash.lookup h = some f

end State

/-- The server, and when the sleep of the timer thread ends. -/
structure World where
  server : State
  alarm : Option ℤ

/-- No client, and no thread. -/
def World.start : World := ⟨Selfs.start, none⟩

/-- A message with its sender and what it finds, and whether a thread can be started. -/
structure Turn where
  x : Outcome
  sender : Handle
  request : Request
  forks : Bool

/-- The timer thread does as it is told. -/
def obey (now : Time) (forks : Bool) (alarm : Option ℤ) : Order → Option ℤ
  | .leave => alarm
  | .wake ms => some (msleep now ms)
  | .fork ms => if forks then some (msleep now ms) else none
  | .park => none

/-- A message that can come: the clock is read with less than a million microseconds, and `SEL_TIME`
is sent when the sleep is over. -/
def Turn.Comes (w : World) (turn : Turn) : Prop :=
  0 ≤ turn.x.now.tUsec ∧ turn.x.now.tUsec < 1000000 ∧ Legal w.server turn.sender turn.request ∧
    match turn.request with
    | .time => ∃ e, w.alarm = some e ∧ e ≤ turn.x.now.micros
    | _ => True

/-- One message, with the answers to it. -/
structure Taken (w : World) (turn : Turn) (sent : List Reply) (w' : World) : Prop where
  comes : turn.Comes w
  exec : w.server.exec turn.x turn.sender turn.request = .ok (w'.server, sent)
  thread : ∃ order, w.server.order turn.x turn.sender turn.request = .ok order ∧
    w'.alarm = obey turn.x.now turn.forks w.alarm order

/-- One message. -/
def World.Step (w : World) (turn : Turn) (w' : World) : Prop := ∃ sent, Taken w turn sent w'

/-! ## What it is for -/

/-- **No client sleeps past its time**: the running timer ends its sleep no later than each client
that waits is to be woken. -/
def World.Watched (w : World) : Prop :=
  ∀ h f, w.server.Waits h f → ∃ e, w.alarm = some e ∧ e ≤ f.fTime.micros

/-- **A timeout**: those whose time has passed are answered, and no other; and the thread sleeps, to
the millisecond, for the first of the others, or is parked when there is none. -/
structure Served (w : World) (turn : Turn) (sent : List Reply) (w' : World) : Prop where
  answered : ∀ h f, w.server.Waits h f → f.fTime.micros ≤ turn.x.now.micros →
    ⟨h, .plain⟩ ∈ sent ∧ h ∉ w'.server.timeWaiters
  others : ∀ h f, w.server.Waits h f → turn.x.now.micros < f.fTime.micros →
    (∀ body, ⟨h, body⟩ ∉ sent) ∧ w'.server.Waits h f
  parked : w'.server.timerHandle = some turn.sender ↔ w'.server.timeWaiters = []
  armed : w'.server.timeWaiters ≠ [] → ∃ h f e, w'.server.Waits h f ∧
    (∀ h' f', w'.server.Waits h' f' → f.fTime.micros ≤ f'.fTime.micros) ∧
    w'.alarm = some e ∧ e ≤ f.fTime.micros ∧ f.fTime.micros < e + 1000

/-- **When it is on time.** No client is left to be woken when the timer thread asks; a client that
begins to wait does so for a positive time, and there is memory and a thread for it; and none goes
that waits. -/
def World.Fits (w : World) (turn : Turn) : Prop :=
  match turn.request with
  | .time => ∀ h f, w.server.Waits h f → f.fTime.micros ≤ turn.x.now.micros
  | .read mArg mArg1 => ∀ f, w.server.filehash.lookup turn.sender = some f →
      f.Begins mArg mArg1 → 0 < mArg1 ∧ turn.x.mem = true ∧ turn.forks = true
  | .disconnect => ∀ f, w.server.filehash.lookup turn.sender = some f → f.fTimeq = false
  | _ => True

/-! ## Times -/

/-- The fields of a time that was normalised. -/
def Time.Normal (t : Time) : Prop := 0 ≤ t.tUsec ∧ t.tUsec ≤ 1000000

theorem Time.micros_of_atMost {t tp : Time} (normal : t.Normal) (normal' : tp.Normal)
    (before : t.atMost tp = true) : t.micros ≤ tp.micros := by
  simp only [atMost, Bool.or_eq_true, Bool.and_eq_true, decide_eq_true_eq] at before
  obtain ⟨low, high⟩ := normal
  obtain ⟨low', high'⟩ := normal'
  simp only [micros]
  omega

theorem Time.atMost_of_micros {t tp : Time} (normal : t.Normal) (high : tp.tUsec < 1000000)
    (before : t.micros ≤ tp.micros) : t.atMost tp = true := by
  simp only [atMost, Bool.or_eq_true, Bool.and_eq_true, decide_eq_true_eq]
  obtain ⟨low, high⟩ := normal
  simp only [micros] at before
  omega

/-- Of two times the one is before the other, or the other way round. -/
theorem Time.micros_of_not_atMost {t tp : Time} (normal : t.Normal) (normal' : tp.Normal)
    (after : t.atMost tp = false) : tp.micros ≤ t.micros := by
  simp only [atMost, Bool.or_eq_false_iff, Bool.and_eq_false_iff, decide_eq_false_iff_not] at after
  obtain ⟨low, high⟩ := normal
  obtain ⟨low', high'⟩ := normal'
  simp only [micros]
  omega

section Later

variable {now : Time} (low : 0 ≤ now.tUsec) (high : now.tUsec < 1000000) {ms : ℤ}
  (positive : 0 < ms)

include low high positive

theorem Time.later_normal : (now.later ms).Normal := by
  have quot : ms.tmod 1000 = ms % 1000 := Int.tmod_eq_emod_of_nonneg positive.le
  simp only [later, Normal, quot]
  split_ifs
  · constructor <;> dsimp only <;> omega
  · constructor <;> dsimp only <;> omega

/-- A client is woken so many milliseconds later. -/
theorem Time.later_micros : (now.later ms).micros = now.micros + ms * 1000 := by
  have quot : ms.tmod 1000 = ms % 1000 := Int.tmod_eq_emod_of_nonneg positive.le
  have div : ms.tdiv 1000 = ms / 1000 := Int.tdiv_eq_ediv_of_nonneg positive.le
  simp only [later, micros, quot, div]
  split_ifs
  · dsimp only
    omega
  · dsimp only
    omega

/-- A sleep ends no later, and sooner where the microseconds do not fit in a word. -/
theorem msleep_le : msleep now ms ≤ (now.later ms).micros := by
  rw [Time.later_micros low high positive, msleep, BitVec.toInt_ofInt, Time.micros]
  have small : (now.tUsec + ms * 1000).bmod (2 ^ 32) ≤ now.tUsec + ms * 1000 := by
    rw [Int.bmod_def]
    split_ifs <;> omega
  omega

end Later

/-! ## The list of those that wait -/

/-- The list is that of the clients whose struct says so. -/
structure Listed (s : State) : Prop where
  keys : s.filehash.Distinct
  timed : ∀ h f, s.filehash.lookup h = some f → (f.fTimeq = true ↔ h ∈ s.timeWaiters)
  sender : ∀ h f, s.filehash.lookup h = some f → f.fSender = h
  busy : ∀ h f, s.filehash.lookup h = some f → f.fTimeq = true → f.fSize ≠ 0
  there : ∀ h ∈ s.timeWaiters, s.filehash.lookup h ≠ none
  once : s.timeWaiters.Nodup

/-- Nobody begins to wait, and the note of the timer thread is as it was. -/
structure Calm (s t : State) : Prop where
  listed : Listed t
  fewer : ∀ h f, t.Waits h f → ∃ f₀, s.Waits h f₀ ∧ f₀.fTime = f.fTime
  handle : t.timerHandle = s.timerHandle
  thread : t.timerTid = s.timerTid

variable {s t u : State} {x : Outcome} {h h' : Handle} {f f' : File} {sent : List Reply}

theorem Calm.refl (listed : Listed s) : Calm s s := ⟨listed, fun _ f waits => ⟨f, waits, rfl⟩, rfl, rfl⟩

theorem Calm.trans (first : Calm s t) (second : Calm t u) : Calm s u := by
  refine ⟨second.listed, fun h f waits => ?_, second.handle.trans first.handle,
    second.thread.trans first.thread⟩
  obtain ⟨f₁, waits₁, same₁⟩ := second.fewer h f waits
  obtain ⟨f₀, waits₀, same₀⟩ := first.fewer h f₁ waits₁
  exact ⟨f₀, waits₀, same₀.trans same₁⟩

/-- What is posted and delivered does not matter. -/
theorem Calm.box (calm : Calm s t) (box : Mailbox Handle Uint Event) :
    Calm s { t with box := box } :=
  ⟨⟨calm.listed.keys, calm.listed.timed, calm.listed.sender, calm.listed.busy, calm.listed.there,
    calm.listed.once⟩, calm.fewer, calm.handle, calm.thread⟩

theorem lookup_put (is : s.filehash.lookup h = some f) (f' : File) (h' : Handle) :
    (s.put h f').filehash.lookup h' = if h' = h then some f' else s.filehash.lookup h' := by
  rw [State.put, Hash.lookup_modify, is]
  rfl

/-- A struct is changed, and not what the list is about. -/
theorem put_calm (listed : Listed s) (is : s.filehash.lookup h = some f)
    (timeq : f'.fTimeq = f.fTimeq) (sender : f'.fSender = f.fSender) (time : f'.fTime = f.fTime)
    (busy : f'.fTimeq = true → f'.fSize ≠ 0) : Calm s (s.put h f') := by
  have look := lookup_put is f'
  refine ⟨⟨listed.keys.modify h fun _ => f', fun h' g is' => ?_, fun h' g is' => ?_, fun h' g is' => ?_,
    fun h' waits => ?_, listed.once⟩, fun h' g waits => ?_, rfl, rfl⟩
  · rw [look] at is'
    split_ifs at is' with same
    · obtain rfl := Option.some.inj is'
      rw [timeq, same]
      exact listed.timed h f is
    · exact listed.timed h' g is'
  · rw [look] at is'
    split_ifs at is' with same
    · obtain rfl := Option.some.inj is'
      rw [sender, same]
      exact listed.sender h f is
    · exact listed.sender h' g is'
  · rw [look] at is'
    split_ifs at is' with same
    · obtain rfl := Option.some.inj is'
      exact busy
    · exact listed.busy h' g is'
  · rw [look]
    split_ifs
    · exact Option.some_ne_none _
    · exact listed.there h' waits
  · obtain ⟨inside, is'⟩ := waits
    rw [look] at is'
    split_ifs at is' with same
    · obtain rfl := Option.some.inj is'
      subst same
      exact ⟨f, ⟨inside, is⟩, time.symm⟩
    · exact ⟨g, ⟨inside, is'⟩, rfl⟩

/-- A client is taken off the list. -/
theorem unqueue_calm (listed : Listed s) (is : s.filehash.lookup h = some f)
    (timeq : f'.fTimeq = f.fTimeq) (sender : f'.fSender = f.fSender) :
    Calm s (s.unqueue h f') ∧
      (∀ h', h' ∈ (s.unqueue h f').timeWaiters ↔ h' ∈ s.timeWaiters ∧ h' ≠ h) ∧
      ∀ h', h' ≠ h → (s.unqueue h f').filehash.lookup h' = s.filehash.lookup h' := by
  have timed : f'.fTimeq = true ↔ h ∈ s.timeWaiters := by
    rw [timeq]
    exact listed.timed h f is
  obtain ⟨once, members⟩ := mem_unqueue listed.once timed
  have look : ∀ h', (s.unqueue h f').filehash.lookup h' =
      if h' = h then some { f' with fSize := 0, fTimeq := false } else s.filehash.lookup h' :=
    lookup_put is _
  have others : ∀ h', h' ≠ h → (s.unqueue h f').filehash.lookup h' = s.filehash.lookup h' :=
    fun h' differ => by rw [look, if_neg differ]
  refine ⟨⟨⟨listed.keys.modify h fun _ => _, fun h' g is' => ?_, fun h' g is' => ?_,
    fun h' g is' => ?_, fun h' waits => ?_, once⟩, fun h' g waits => ?_, rfl, rfl⟩, members, others⟩
  · rw [look] at is'
    split_ifs at is' with same
    · obtain rfl := Option.some.inj is'
      exact ⟨nofun, fun inside => absurd same ((members h').mp inside).2⟩
    · refine (listed.timed h' g is').trans ?_
      exact ((members h').trans (and_iff_left same)).symm
  · rw [look] at is'
    split_ifs at is' with same
    · obtain rfl := Option.some.inj is'
      rw [same]
      exact sender.trans (listed.sender h f is)
    · exact listed.sender h' g is'
  · rw [look] at is'
    split_ifs at is' with same
    · obtain rfl := Option.some.inj is'
      exact nofun
    · exact listed.busy h' g is'
  · obtain ⟨before, differ⟩ := (members h').mp waits
    rw [others h' differ]
    exact listed.there h' before
  · obtain ⟨inside, is'⟩ := waits
    obtain ⟨before, differ⟩ := (members h').mp inside
    rw [others h' differ] at is'
    exact ⟨g, ⟨before, is'⟩, rfl⟩

/-- Queued events are delivered. -/
theorem runQueue_calm (listed : Listed s) (is : s.filehash.lookup h = some f)
    (timeq : f'.fTimeq = f.fTimeq) (sender : f'.fSender = f.fSender)
    (ran : s.runQueue x h f' = .ok (t, sent)) : Calm s t := by
  rw [State.runQueue] at ran
  split at ran
  · cases ran
  · rename_i events has
    dsimp only at ran
    split_ifs at ran
    simp only [Except.ok.injEq, Prod.mk.injEq] at ran
    obtain ⟨rfl, -⟩ := ran
    have left : ({ f' with fEvents := some (events.drop (f'.fSize / COMPLETE)) } : File).fTimeq =
        f.fTimeq := timeq
    exact (unqueue_calm listed is left sender).1.box _

/-- An event is queued. -/
theorem queueEvent_calm (listed : Listed s) (is : s.filehash.lookup h = some f)
    (events : List Event) (e : Event) :
    Calm s (s.queueEvent h { f with fEvents := some events } e) ∧
      (s.queueEvent h { f with fEvents := some events } e).filehash.lookup h
        = some { f with fEvents := some events } := by
  have put : Calm s (s.put h { f with fEvents := some events }) :=
    put_calm listed is rfl rfl rfl (listed.busy _ f is)
  exact ⟨put.box _, (lookup_put is _ _).trans (if_pos rfl)⟩

/-- A posted event. -/
theorem post_calm (listed : Listed s) {se : SelectEvent}
    (ran : s.post x se = .ok (some (t, sent))) : Calm s t := by
  rw [State.post] at ran
  split at ran
  · cases ran
  · rename_i f is
    split_ifs at ran with other
    · cases ran
    · split at ran
      · cases ran
      · rename_i events has
        dsimp only at ran
        obtain ⟨queued, found⟩ := queueEvent_calm listed is
          (store ⟨se.seIndex, se.seIocount, se.seMask⟩ events) ⟨se.seIndex, se.seIocount, se.seMask⟩
        split_ifs at ran with nomem size
        · cases result : State.runQueue _ x se.seClid _ with
          | error why =>
            rw [result] at ran
            cases ran
          | ok r =>
            rw [result] at ran
            obtain ⟨rfl⟩ := Option.some.inj (Except.ok.inj ran)
            exact queued.trans (runQueue_calm queued.listed found rfl rfl result)
        · obtain ⟨rfl, -⟩ := Prod.mk.inj (Option.some.inj (Except.ok.inj ran))
          exact queued

/-- The events of a write. -/
theorem postAll_calm {events : List SelectEvent} {all : Bool} (listed : Listed s)
    (ran : s.postAll x events = .ok (t, sent, all)) : Calm s t := by
  induction events generalizing s sent all with
  | nil =>
    cases ran
    exact .refl listed
  | cons se rest ih =>
    rw [State.postAll] at ran
    cases first : s.post x se with
    | error why =>
      rw [first] at ran
      cases ran
    | ok r =>
      rw [first] at ran
      cases r with
      | none =>
        cases ran
        exact .refl listed
      | some r =>
        obtain ⟨s', sent'⟩ := r
        have calm := post_calm listed first
        cases others : s'.postAll x rest with
        | error why =>
          simp only [bind, Except.bind, others] at ran
          cases ran
        | ok r =>
          obtain ⟨u, sent'', all'⟩ := r
          simp only [bind, Except.bind, others] at ran
          cases ran
          exact calm.trans (ih calm.listed others)

/-- A read that does not begin to wait for a time. -/
theorem selfsRead_calm (listed : Listed s) (is : s.filehash.lookup h = some f)
    (idle : f.fSize = 0) {mArg mArg1 : ℤ} (stays : ¬f.Begins mArg mArg1)
    (ran : s.selfsRead x h f mArg mArg1 = .ok (t, sent)) : Calm s t := by
  have off : f.fTimeq ≠ true := fun on => listed.busy h f is on idle
  rw [State.selfsRead] at ran
  dsimp only at ran
  split_ifs at ran with refused some_ poll timed
  · cases ran
    exact .refl listed
  · have timeq : ({ f with fSize := mArg.toNat } : File).fTimeq = f.fTimeq := rfl
    exact runQueue_calm listed is timeq rfl ran
  · cases ran
    exact put_calm listed is rfl rfl rfl fun on => absurd on off
  · refine absurd ⟨?_, ?_, ?_, not_not.mp some_, poll, timed⟩ stays
    · by_contra other
      exact refused (.inl other)
    · by_contra low
      exact refused (.inr (.inl (not_le.mp low)))
    · by_contra high
      exact refused (.inr (.inr (not_le.mp high)))
  · cases ran
    exact put_calm listed is rfl rfl rfl fun on => absurd on off

/-! ## Connections -/

/-- A connection is added that does not wait. -/
theorem insert_calm (listed : Listed s) (fresh : s.filehash.lookup h = none)
    (sender : f.fSender = h) (off : f.fTimeq = false) :
    Calm s { s with filehash := s.filehash.insert h f } := by
  have absent : h ∉ s.timeWaiters := fun inside => listed.there h inside fresh
  refine ⟨⟨listed.keys.insert fresh, fun h' g is => ?_, fun h' g is => ?_, fun h' g is => ?_,
    fun h' inside => ?_, listed.once⟩, fun h' g waits => ?_, rfl, rfl⟩
  · rw [Hash.lookup_insert] at is
    split_ifs at is with same
    · obtain rfl := Option.some.inj is
      simp [off, same, absent]
    · exact listed.timed h' g is
  · rw [Hash.lookup_insert] at is
    split_ifs at is with same
    · obtain rfl := Option.some.inj is
      rw [same]
      exact sender
    · exact listed.sender h' g is
  · rw [Hash.lookup_insert] at is
    split_ifs at is with same
    · obtain rfl := Option.some.inj is
      simp [off]
    · exact listed.busy h' g is
  · rw [Hash.lookup_insert]
    split_ifs
    · exact Option.some_ne_none f
    · exact listed.there h' inside
  · obtain ⟨inside, is⟩ := waits
    have differ : h' ≠ h := by
      rintro rfl
      exact absent inside
    rw [Hash.lookup_insert, if_neg differ] at is
    exact ⟨g, ⟨inside, is⟩, rfl⟩

/-- A connection goes that does not wait. -/
theorem deadClient_calm (listed : Listed s) (is : s.filehash.lookup h = some f)
    (off : f.fTimeq = false) : Calm s (s.deadClient h) := by
  have absent : h ∉ s.timeWaiters := fun inside => by
    simpa [off] using (listed.timed h f is).mpr inside
  have look : ∀ h' g, (s.deadClient h).filehash.lookup h' = some g →
      h' ≠ h ∧ s.filehash.lookup h' = some g := by
    intro h' g is'
    rw [State.deadClient, listed.keys.lookup_delete] at is'
    split_ifs at is' with same
    exact ⟨same, is'⟩
  refine ⟨⟨listed.keys.delete h, fun h' g is' => listed.timed h' g (look h' g is').2,
    fun h' g is' => listed.sender h' g (look h' g is').2,
    fun h' g is' => listed.busy h' g (look h' g is').2, fun h' inside => ?_, listed.once⟩,
    fun h' g waits => ⟨g, ⟨waits.1, (look h' g waits.2).2⟩, rfl⟩, rfl, rfl⟩
  have differ : h' ≠ h := by
    rintro rfl
    exact absent inside
  rw [State.deadClient, listed.keys.lookup_delete, if_neg differ]
  exact listed.there h' inside

/-- **A message that is no timeout and begins no wait** leaves those that wait with their times, or
takes them off. -/
theorem exec_calm {w : World} {turn : Turn} (listed : Listed w.server) (fits : w.Fits turn)
    (legal : Legal w.server turn.sender turn.request)
    (ran : w.server.exec turn.x turn.sender turn.request = .ok (t, sent))
    (noTime : turn.request ≠ .time)
    (stays : ∀ mArg mArg1 f, turn.request = .read mArg mArg1 →
      w.server.filehash.lookup turn.sender = some f → ¬f.Begins mArg mArg1) :
    Calm w.server t ∧ w.server.order turn.x turn.sender turn.request = .ok .leave := by
  obtain ⟨x, h, m, forks⟩ := turn
  cases m with
  | connect =>
    refine ⟨?_, rfl⟩
    simp only [State.exec, State.newClient] at ran
    split_ifs at ran
    · cases ran
      exact .refl listed
    · cases ran
      exact (insert_calm listed legal rfl rfl).box _
  | time => exact absurd rfl noTime
  | unknown =>
    cases ran
    exact ⟨.refl listed, rfl⟩
  | disconnect =>
    obtain ⟨f, is⟩ := Option.ne_none_iff_exists'.mp legal
    simp only [State.exec, is] at ran
    cases ran
    exact ⟨deadClient_calm listed is (fits f is), rfl⟩
  | dup mArg =>
    obtain ⟨⟨f, is, idle⟩, fresh⟩ := legal
    simp only [State.exec, is, State.dupClient] at ran
    refine ⟨?_, rfl⟩
    split_ifs at ran
    · cases ran
      exact .refl listed
    · cases ran
      have off : f.fTimeq = false := by
        by_contra on
        exact listed.busy h f is (by simpa using on) idle
      have off' : ({ f with fEvents := none, fSender := mArg } : File).fTimeq = false := off
      exact (insert_calm listed fresh rfl off').box _
  | abort =>
    obtain ⟨f, is⟩ := Option.ne_none_iff_exists'.mp legal
    simp only [State.exec, is, State.selfsAbort] at ran
    cases ran
    exact ⟨(unqueue_calm listed is rfl rfl).1, rfl⟩
  | open_ mArg name =>
    obtain ⟨f, is, -⟩ := legal
    refine ⟨?_, rfl⟩
    simp only [State.exec, is, Except.ok.injEq] at ran
    have kept : ∀ mode, Calm w.server (w.server.put h { f with fMode := mode }) := fun mode =>
      put_calm listed is rfl rfl rfl (listed.busy h f is)
    rw [State.selfsOpen.eq_def] at ran
    split_ifs at ran
    · cases ran
      exact .refl listed
    · cases ran
      exact .refl listed
    · cases name with
      | client =>
        cases ran
        exact kept .CLIENT
      | server =>
        cases ran
        exact kept .SERVER
      | other =>
        cases ran
        exact .refl listed
  | read mArg mArg1 =>
    obtain ⟨f, is, idle⟩ := legal
    simp only [State.exec, is] at ran
    have no := stays mArg mArg1 f rfl is
    exact ⟨selfsRead_calm listed is idle no ran, by simp only [State.order, is, if_neg no]⟩
  | write mArg se =>
    obtain ⟨f, is, -⟩ := legal
    refine ⟨?_, rfl⟩
    simp only [State.exec, is, State.selfsWrite] at ran
    split_ifs at ran
    · cases ran
      exact .refl listed
    · cases ran
      exact .refl listed
    · cases posted : w.server.postAll x ((List.range (mArg / EVENT)).map se) with
      | error why =>
        simp only [bind, Except.bind, posted] at ran
        cases ran
      | ok r =>
        obtain ⟨u, sent', all⟩ := r
        simp only [bind, Except.bind, posted] at ran
        cases ran
        exact postAll_calm listed posted
  | stat =>
    obtain ⟨f, is, -⟩ := legal
    simp only [State.exec, is] at ran
    cases ran
    exact ⟨.refl listed, rfl⟩

/-! ## Beginning to wait -/

/-- A time that is not sooner than all the others is not before one of them. -/
theorem soonest_cases {time : Time} {waiters : List Handle} {b : Bool}
    (ran : s.soonest time waiters = .ok b) :
    (b = true ∧ ∀ h ∈ waiters, ∀ f, s.filehash.lookup h = some f → f.fTime.atMost time = false) ∨
      (b = false ∧ ∃ h ∈ waiters, ∃ f, s.filehash.lookup h = some f ∧
        f.fTime.atMost time = true) := by
  induction waiters with
  | nil =>
    cases ran
    exact .inl ⟨rfl, nofun⟩
  | cons l rest ih =>
    rw [State.soonest] at ran
    split at ran
    · cases ran
    · rename_i g is
      split_ifs at ran with before
      · cases ran
        exact .inr ⟨rfl, l, List.mem_cons_self, g, is, before⟩
      · rcases ih ran with ⟨yes, all⟩ | ⟨no, h, inside, f, is', before'⟩
        · refine .inl ⟨yes, fun h inside f is' => ?_⟩
          rcases List.mem_cons.mp inside with rfl | later
          · obtain rfl := Option.some.inj (is.symm.trans is')
            simpa using before
          · exact all h later f is'
        · exact .inr ⟨no, h, List.mem_cons_of_mem _ inside, f, is', before'⟩

/-- A client is put at the end of the list. -/
theorem enlist (listed : Listed s) (is : s.filehash.lookup h = some f)
    (off : h ∉ s.timeWaiters) (sender : f'.fSender = f.fSender) (on : f'.fTimeq = true)
    (busy : f'.fSize ≠ 0) (handle : Option Handle) (thread : Bool)
    (box : Mailbox Handle Uint Event) :
    let t : State := ⟨s.filehash.modify h fun _ => f', s.timeWaiters ++ [h], handle, thread, box⟩
    Listed t ∧ ∀ h' g, t.Waits h' g → s.Waits h' g ∨ g = f' := by
  intro t
  have look : ∀ h', (s.filehash.modify h fun _ => f').lookup h' =
      if h' = h then some f' else s.filehash.lookup h' := lookup_put is f'
  have members : ∀ h', h' ∈ t.timeWaiters ↔ h' ∈ s.timeWaiters ∨ h' = h := fun h' => by simp [t]
  refine ⟨⟨listed.keys.modify h fun _ => f', fun h' g is' => ?_, fun h' g is' => ?_,
    fun h' g is' => ?_, fun h' inside => ?_, ?_⟩, fun h' g waits => ?_⟩
  · rw [look] at is'
    split_ifs at is' with same
    · obtain rfl := Option.some.inj is'
      exact ⟨fun _ => (members h').mpr (.inr same), fun _ => on⟩
    · rw [listed.timed h' g is', members, or_iff_left same]
  · rw [look] at is'
    split_ifs at is' with same
    · obtain rfl := Option.some.inj is'
      rw [same]
      exact sender.trans (listed.sender h f is)
    · exact listed.sender h' g is'
  · rw [look] at is'
    split_ifs at is' with same
    · obtain rfl := Option.some.inj is'
      exact fun _ => busy
    · exact listed.busy h' g is'
  · rw [look]
    split_ifs with same
    · exact Option.some_ne_none _
    · exact listed.there h' (((members h').mp inside).resolve_right same)
  · exact listed.once.append (List.nodup_singleton h) (List.disjoint_singleton.mpr off)
  · obtain ⟨inside, is'⟩ := waits
    rw [look] at is'
    split_ifs at is' with same
    · exact .inr (Option.some.inj is').symm
    · exact .inl ⟨((members h').mp inside).resolve_right same, is'⟩

/-- A client is put on the list with its time, and the timer thread is not parked any more. -/
theorem waitTimed_listed (listed : Listed s) (is : s.filehash.lookup h = some f)
    (idle : f.fSize = 0) {size : ℕ} (some_ : size ≠ 0) (mem : x.mem = true) {mArg1 : ℤ}
    (ran : s.waitTimed x h { f with fSize := size } mArg1 = .ok (t, sent)) :
    Listed t ∧ t.timerHandle = none ∧ t.timerTid = (s.timerTid || s.timerHandle.isNone) ∧
      ∀ h' g, t.Waits h' g → s.Waits h' g ∨ g.fTime = x.now.later mArg1 := by
  have off : h ∉ s.timeWaiters := fun inside =>
    listed.busy h f is ((listed.timed h f is).mpr inside) idle
  have queued := @enlist s h f { f with
    fSize := size, fTime := x.now.later mArg1, fTimeq := true } listed is off rfl rfl some_
  have timed : ∀ {h' g}, (s.Waits h' g ∨ g = { f with
      fSize := size, fTime := x.now.later mArg1, fTimeq := true }) →
      s.Waits h' g ∨ g.fTime = x.now.later mArg1 := by
    rintro h' g (before | rfl)
    · exact .inl before
    · exact .inr rfl
  rw [State.waitTimed] at ran
  simp only [mem, if_true] at ran
  cases timer : s.timerHandle with
  | some timer' =>
    rw [timer] at ran
    cases ran
    obtain ⟨all, waits⟩ := queued none s.timerTid s.box
    exact ⟨all, rfl, (Bool.or_false _).symm, fun h' g waits' => timed (waits h' g waits')⟩
  | none =>
    rw [timer] at ran
    cases thread : s.timerTid with
    | false =>
      simp only [thread, Bool.false_eq_true, if_false] at ran
      cases ran
      obtain ⟨all, waits⟩ := queued none true s.box
      exact ⟨all, rfl, rfl, fun h' g waits' => timed (waits h' g waits')⟩
    | true =>
      cases looked : s.soonest (x.now.later mArg1) s.timeWaiters with
      | error why =>
        simp only [thread, if_true, bind, Except.bind, looked] at ran
        cases ran
      | ok b =>
        simp only [thread, if_true, bind, Except.bind, looked] at ran
        cases ran
        obtain ⟨all, waits⟩ := queued s.timerHandle s.timerTid s.box
        exact ⟨all, timer, thread, fun h' g waits' => timed (waits h' g waits')⟩

/-! ## A timeout -/

/-- Where the time of all has passed, all are answered, and none is left. -/
theorem expire_all {now : Time} {waiters : List Handle} {next next' : Time} (listed : Listed s)
    (once : waiters.Nodup) (inside : ∀ h ∈ waiters, h ∈ s.timeWaiters)
    (passed : ∀ h ∈ waiters, ∀ f, s.filehash.lookup h = some f → f.fTime.atMost now = true)
    (ran : State.expire now waiters s next = .ok (t, sent, next')) :
    Calm s t ∧ next' = next ∧ (∀ h ∈ waiters, ⟨h, .plain⟩ ∈ sent) ∧
      ∀ h, h ∈ t.timeWaiters ↔ h ∈ s.timeWaiters ∧ h ∉ waiters := by
  induction waiters generalizing s sent with
  | nil =>
    cases ran
    exact ⟨.refl listed, rfl, nofun, fun h => by simp⟩
  | cons l rest ih =>
    obtain ⟨fresh, once'⟩ := List.nodup_cons.mp once
    have here := inside l List.mem_cons_self
    obtain ⟨f, is⟩ := Option.ne_none_iff_exists'.mp (listed.there l here)
    rw [State.expire, is] at ran
    simp only [passed l List.mem_cons_self f is, if_true, (listed.timed l f is).mpr here] at ran
    obtain ⟨calm, members, others⟩ := unqueue_calm listed is rfl rfl
    cases looped : State.expire now rest (s.unqueue l f) next with
    | error why =>
      simp only [State.timeout, bind, Except.bind, looped] at ran
      cases ran
    | ok r =>
      obtain ⟨u, sent', next''⟩ := r
      simp only [State.timeout, bind, Except.bind, looped] at ran
      cases ran
      have differ : ∀ h ∈ rest, h ≠ l := fun h later same => fresh (same ▸ later)
      obtain ⟨calm', same, answered, left⟩ := ih calm.listed once'
        (fun h later => (members h).mpr ⟨inside h (List.mem_cons_of_mem _ later), differ h later⟩)
        (fun h later g is' => passed h (List.mem_cons_of_mem _ later) g
          (by rwa [others h (differ h later)] at is')) looped
      refine ⟨calm.trans calm', same, fun h isIn => ?_, fun h => ?_⟩
      · rcases List.mem_cons.mp isIn with rfl | later
        · rw [listed.sender h f is]
          exact List.mem_cons_self
        · exact List.mem_cons_of_mem _ (answered h later)
      · rw [left, members, List.mem_cons, not_or, and_assoc]

/-! ## Every run -/

/-- What holds of the server and the timer thread. -/
structure Watch (w : World) : Prop where
  listed : Listed w.server
  watched : w.Watched
  normal : ∀ h f, w.server.Waits h f → f.fTime.Normal
  parked : w.server.timerHandle ≠ none ∨ w.server.timerTid = false → w.server.timeWaiters = []
  thread : w.server.timerHandle ≠ none ∨ w.alarm ≠ none → w.server.timerTid = true

variable {w w' : World} {turn : Turn}

/-- A message that leaves the timer thread alone. -/
theorem Watch.calm (watch : Watch w) (calm : Calm w.server w'.server) (alarm : w'.alarm = w.alarm) :
    Watch w' := by
  refine ⟨calm.listed, fun h f waits => ?_, fun h f waits => ?_, fun idle => ?_, fun some_ => ?_⟩
  · obtain ⟨f₀, waits₀, same⟩ := calm.fewer h f waits
    rw [alarm, ← same]
    exact watch.watched h f₀ waits₀
  · obtain ⟨f₀, waits₀, same⟩ := calm.fewer h f waits
    rw [← same]
    exact watch.normal h f₀ waits₀
  · rw [calm.handle, calm.thread] at idle
    have none_ := watch.parked idle
    refine List.eq_nil_iff_forall_not_mem.mpr fun h inside => ?_
    obtain ⟨f, is⟩ := Option.ne_none_iff_exists'.mp (calm.listed.there h inside)
    obtain ⟨f₀, waits₀, -⟩ := calm.fewer h f ⟨inside, is⟩
    simpa [none_] using waits₀.1
  · rw [calm.handle, alarm] at some_
    rw [calm.thread]
    exact watch.thread some_

/-- The timer thread after a client began to wait sleeps no longer than for it, and for those that
waited before. -/
theorem Watch.alarm (watch : Watch w) (taken : Taken w turn sent w') {mArg1 : ℤ}
    (positive : 0 < mArg1) (forks : turn.forks = true) {order : Order}
    (ordered : w.server.waitOrder turn.x mArg1 = .ok order) :
    ∃ e, obey turn.x.now turn.forks w.alarm order = some e ∧
      e ≤ (turn.x.now.later mArg1).micros ∧
      ∀ h f, w.server.Waits h f → e ≤ f.fTime.micros := by
  obtain ⟨low, high, -⟩ := taken.comes
  have sleep := msleep_le low high positive
  have normal := Time.later_normal low high positive
  have alone : w.server.timerHandle ≠ none ∨ w.server.timerTid = false → ∀ h f,
      w.server.Waits h f → msleep turn.x.now mArg1 ≤ f.fTime.micros := fun idle h f waits => by
    simpa [watch.parked idle] using waits.1
  rw [State.waitOrder] at ordered
  cases timer : w.server.timerHandle with
  | some timer' =>
    rw [timer] at ordered
    cases ordered
    exact ⟨_, rfl, sleep, alone (.inl (by simp [timer]))⟩
  | none =>
    rw [timer] at ordered
    cases thread : w.server.timerTid with
    | false =>
      simp only [thread, Bool.false_eq_true, if_false] at ordered
      cases ordered
      exact ⟨_, if_pos forks, sleep, alone (.inr thread)⟩
    | true =>
      cases looked : w.server.soonest (turn.x.now.later mArg1) w.server.timeWaiters with
      | error why =>
        simp only [thread, if_true, bind, Except.bind, looked] at ordered
        cases ordered
      | ok b =>
        simp only [thread, if_true, bind, Except.bind, looked] at ordered
        rcases soonest_cases looked with ⟨rfl, all⟩ | ⟨rfl, h, inside, f, is, before⟩
        · cases ordered
          refine ⟨_, if_pos forks, sleep, fun h f waits => sleep.trans ?_⟩
          exact Time.micros_of_not_atMost (watch.normal h f waits) normal (all h waits.1 f waits.2)
        · cases ordered
          obtain ⟨e, running, soon⟩ := watch.watched h f ⟨inside, is⟩
          refine ⟨e, running, soon.trans ?_, fun h' f' waits' => ?_⟩
          · exact Time.micros_of_atMost (watch.normal h f ⟨inside, is⟩) normal before
          · obtain ⟨e', running', soon'⟩ := watch.watched h' f' waits'
            obtain rfl := Option.some.inj (running.symm.trans running')
            exact soon'

/-- A client begins to wait. -/
theorem Watch.wait (watch : Watch w) (taken : Taken w turn sent w') (fits : w.Fits turn)
    {mArg mArg1 : ℤ} (read : turn.request = .read mArg mArg1)
    (is : w.server.filehash.lookup turn.sender = some f) (begins : f.Begins mArg mArg1) :
    Watch w' := by
  obtain ⟨x, sender, request, forks⟩ := turn
  dsimp only at read is
  subst read
  obtain ⟨positive, mem, may⟩ := fits f is begins
  obtain ⟨low, high, ⟨f', is', idle⟩, -⟩ := taken.comes
  obtain rfl := Option.some.inj (is.symm.trans is')
  obtain ⟨mode, least, most, empty, noPoll, timed⟩ := begins
  have ran := taken.exec
  have accepted : ¬(f.fMode ≠ .CLIENT ∨ mArg < 1 ∨ MAXIO < mArg) := by
    rintro (other | less | more)
    · exact other mode
    · exact absurd least (not_le.mpr less)
    · exact absurd most (not_le.mpr more)
  simp only [State.exec, is, State.selfsRead, if_neg accepted, empty, ne_eq, not_true_eq_false,
    if_false, if_neg noPoll, timed, not_false_eq_true, if_true] at ran
  obtain ⟨order, ordered, alarm⟩ := taken.thread
  simp only [State.order, is, if_pos (show f.Begins mArg mArg1 from
    ⟨mode, least, most, empty, noPoll, timed⟩)] at ordered
  have size : mArg.toNat ≠ 0 := by omega
  obtain ⟨listed, handle, thread, waits⟩ := waitTimed_listed watch.listed is idle size mem
    (empty ▸ ran)
  obtain ⟨e, running, own, others⟩ := watch.alarm taken positive may ordered
  have tid : w'.server.timerTid = true := by
    rw [thread]
    cases timer : w.server.timerHandle with
    | none => simp
    | some timer' => simp [watch.thread (.inl (by simp [timer]))]
  refine ⟨listed, fun h g waits' => ⟨e, alarm.trans running, ?_⟩, fun h g waits' => ?_,
    fun idle' => ?_, fun _ => tid⟩
  · rcases waits h g waits' with before | new
    · exact others h g before
    · rw [new]
      exact own
  · rcases waits h g waits' with before | new
    · exact watch.normal h g before
    · rw [new]
      exact Time.later_normal low high positive
  · rcases idle' with some_ | none_
    · exact absurd handle some_
    · rw [tid] at none_
      cases none_

/-- The timer thread asks, and nobody is left to be woken. -/
theorem Watch.timeout (watch : Watch w) (taken : Taken w turn sent w') (fits : w.Fits turn)
    (time : turn.request = .time) : Watch w' ∧ Served w turn sent w' := by
  obtain ⟨x, sender, request, forks⟩ := turn
  dsimp only at time
  subst time
  obtain ⟨low, high, -, running⟩ := taken.comes
  have passed : ∀ h ∈ w.server.timeWaiters, ∀ f, w.server.filehash.lookup h = some f →
      f.fTime.atMost x.now = true := fun h inside f is =>
    Time.atMost_of_micros (watch.normal h f ⟨inside, is⟩) high (fits h f ⟨inside, is⟩)
  have ran := taken.exec
  obtain ⟨order, ordered, alarm⟩ := taken.thread
  simp only [State.exec, State.selfsTimeout] at ran
  simp only [State.order, State.timeoutOrder] at ordered
  cases looped : State.expire x.now w.server.timeWaiters w.server ⟨0, 0⟩ with
  | error why =>
    simp only [bind, Except.bind, looped] at ran
    cases ran
  | ok r =>
    obtain ⟨t, sent', next⟩ := r
    obtain ⟨calm, rfl, answered, left⟩ := expire_all watch.listed watch.listed.once
      (fun _ inside => inside) passed looped
    simp only [bind, Except.bind, looped, if_true] at ran ordered
    obtain ⟨server, rfl⟩ := Prod.mk.inj (Except.ok.inj ran)
    obtain rfl := Except.ok.inj ordered
    have none_ : w'.server.timeWaiters = [] := by
      rw [← server]
      exact List.eq_nil_iff_forall_not_mem.mpr fun h inside =>
        ((left h).mp inside).2 ((left h).mp inside).1
    have nobody : ∀ h f, ¬w'.server.Waits h f := fun h f waits => by
      simpa [none_] using waits.1
    have tid : w'.server.timerTid = true := by
      rw [← server]
      obtain ⟨e, sleeping, -⟩ := running
      exact calm.thread.trans (watch.thread (.inr (by simp [sleeping])))
    have listed : Listed w'.server := by
      rw [← server]
      exact ⟨calm.listed.keys, calm.listed.timed, calm.listed.sender, calm.listed.busy,
        calm.listed.there, calm.listed.once⟩
    refine ⟨⟨listed, fun h f waits => absurd waits (nobody h f),
      fun h f waits => absurd waits (nobody h f), fun _ => none_, fun _ => tid⟩, ?_⟩
    refine ⟨fun h f waits _ => ⟨answered h waits.1, by simp [none_]⟩, fun h f waits later => ?_,
      ⟨fun _ => none_, fun _ => ?_⟩, fun some_ => absurd none_ some_⟩
    · exact absurd (fits h f waits) (not_le.mpr later)
    · rw [← server]

/-- One message. -/
theorem Watch.step (watch : Watch w) (taken : Taken w turn sent w') (fits : w.Fits turn) :
    Watch w' := by
  by_cases time : turn.request = .time
  · exact (watch.timeout taken fits time).1
  · by_cases begins : ∃ mArg mArg1 f, turn.request = .read mArg mArg1 ∧
        w.server.filehash.lookup turn.sender = some f ∧ f.Begins mArg mArg1
    · obtain ⟨mArg, mArg1, f, read, is, begins⟩ := begins
      exact watch.wait taken fits read is begins
    · obtain ⟨calm, leave⟩ := exec_calm watch.listed fits taken.comes.2.2.1 taken.exec time
        fun mArg mArg1 f read is yes => begins ⟨mArg, mArg1, f, read, is, yes⟩
      obtain ⟨order, ordered, alarm⟩ := taken.thread
      obtain rfl := Except.ok.inj (leave.symm.trans ordered)
      exact watch.calm calm alarm

theorem start_watch : Watch World.start := by
  have nobody : ∀ h f, ¬World.start.server.Waits h f := fun _ _ waits =>
    absurd waits.1 List.not_mem_nil
  refine ⟨⟨Hash.distinct_nil, nofun, nofun, nofun, nofun, List.nodup_nil⟩,
    fun h f waits => absurd waits (nobody h f), fun h f waits => absurd waits (nobody h f),
    fun _ => rfl, ?_⟩
  rintro (some_ | some_) <;> exact absurd rfl some_

/-- Runs of messages that meet the condition. -/
abbrev TimelyReaches : World → World → Prop := Transition.Reaches World.Step World.Fits

/-- A message at a time of day. -/
def message (now : Time) (sender : Handle) (request : Request) : Turn :=
  ⟨⟨true, 5, now⟩, sender, request, true⟩

/-- A client that waits until so many seconds have passed. -/
def sleeper (h : Handle) (sec : ℤ) : File := ⟨some [], 5, .CLIENT, h, 24, true, ⟨sec, 0⟩⟩

/-- A connection that was not opened. -/
def fresh (h : Handle) : File := ⟨some [], 5, .ROOT, h, 0, false, ⟨0, 0⟩⟩

/-- One client, which waits for the first second to pass. -/
def oneWaits : World := ⟨⟨[(1, sleeper 1 1)], [1], none, true, quiet⟩, some 1000000⟩

theorem oneWaits_reached : TimelyReaches World.start oneWaits := by
  have connected : World.Step World.start (message ⟨0, 0⟩ 1 .connect) ⟨joined, none⟩ :=
    ⟨[⟨1, .plain⟩], ⟨le_rfl, by decide, rfl, trivial⟩, rfl, _, rfl, rfl⟩
  have opened : World.Step ⟨joined, none⟩ (message ⟨0, 0⟩ 1 (.open_ 0 .client))
      ⟨single [] quiet, none⟩ :=
    ⟨[⟨1, .plain⟩], ⟨le_rfl, by decide, ⟨_, rfl, rfl⟩, trivial⟩, rfl, _, rfl, rfl⟩
  have waited : World.Step ⟨single [] quiet, none⟩ (message ⟨0, 0⟩ 1 (.read 24 1000)) oneWaits :=
    ⟨[], ⟨le_rfl, by decide, ⟨_, rfl, rfl⟩, trivial⟩, rfl, _, rfl, rfl⟩
  have fits : World.Fits ⟨single [] quiet, none⟩ (message ⟨0, 0⟩ 1 (.read 24 1000)) :=
    fun _ _ _ => ⟨by decide, rfl, rfl⟩
  exact (((Transition.Reaches.refl _).tail trivial connected).tail trivial opened).tail fits waited

/-- Another client, which waits for the second second to pass, and the timer thread. -/
def bothWait : World :=
  ⟨⟨[(3, fresh 3), (2, sleeper 2 2), (1, sleeper 1 1)], [1, 2], none, true,
    (quiet.forget 2).forget 3⟩, some 1000000⟩

/-- The first client was woken, and the timer thread is parked. -/
def parked : World :=
  ⟨⟨[(3, fresh 3), (2, sleeper 2 2), (1, { sleeper 1 1 with fSize := 0, fTimeq := false })], [2],
    some 3, true, (quiet.forget 2).forget 3⟩, none⟩

end Vsta.Selfs
