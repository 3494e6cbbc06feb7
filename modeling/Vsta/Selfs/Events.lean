import Vsta.Selfs.Server
import Vsta.Library.Ensures
import Vsta.Library.Runs

/-!
# The select server loses no event

In every run whose messages meet `Fits`, a client's queue has the latest posting for each descriptor
that was not delivered, and nothing else; what a read returns was pending; and nothing that was
freed is used (`no_event_lost`). Messages that do not meet it: an event for a second descriptor
overwrites the last one that is queued, a client that is gone stays on the list of those that wait
for a time, and the copy of a client has a list head that leads into the other's struct
(`events_lost`).
-/

set_option autoImplicit false

namespace Vsta.Selfs

open Service Vstafs

/-- There is memory for an event that reaches a client, and its queue is empty or has an entry of
the same index. -/
def Room (s : State) (x : Outcome) (se : SelectEvent) : Prop :=
  ∀ f events, s.filehash.lookup se.seClid = some f → f.fKey = se.seKey → f.fMode = .CLIENT →
    f.fEvents = some events →
    x.mem = true ∧ (events = [] ∨ ∃ e ∈ events, e.eIndex = se.seIndex)

/-- Each event of a write finds room when its turn comes. -/
def AllRoom (s : State) (x : Outcome) : List SelectEvent → Prop
  | [] => True
  | se :: rest => Room s x se ∧ ∀ t sent, s.post x se = .ok (some (t, sent)) → AllRoom t x rest

/-- The condition on a message: a posted event finds room, a read that finds events has memory for
them, only what is not a client is duplicated or was when it is opened as one, and a client that
waits for a time does not go. -/
def Fits (s : State) (l : Label) : Prop :=
  match l.request with
  | .write mArg se => AllRoom s l.x ((List.range (mArg / EVENT)).map se)
  | .read _ _ => ∀ f, s.filehash.lookup l.sender = some f → f.fEvents ≠ some [] → l.x.mem = true
  | .dup _ => ∀ f, s.filehash.lookup l.sender = some f → f.fMode ≠ .CLIENT
  | .open_ _ name => ∀ f, s.filehash.lookup l.sender = some f → f.fMode = .ROOT →
      name = .client → f.fEvents ≠ none
  | .disconnect => ∀ f, s.filehash.lookup l.sender = some f → f.fTimeq = false
  | _ => True

/-- What holds of a connection. -/
structure Good (s : State) (h : Handle) (f : File) : Prop where
  sender : f.fSender = h
  idle : f.fMode ≠ .CLIENT → f.fSize = 0 ∧ (∀ k, s.box.pending h k = none) ∧
    ∀ events, f.fEvents = some events → events = []
  client : f.fMode = .CLIENT → ∃ events, f.fEvents = some events ∧
    s.box.Holds Event.eIndex h events ∧ (f.fSize ≠ 0 → events = [])
  timed : f.fTimeq = true ↔ h ∈ s.timeWaiters
  waits : f.fTimeq = true → f.fSize ≠ 0

/-- What holds of all of them but one, which is there. -/
structure Around (s : State) (h : Handle) : Prop where
  keys : s.filehash.Distinct
  there : s.filehash.lookup h ≠ none
  others : ∀ h' f, h' ≠ h → s.filehash.lookup h' = some f → Good s h' f
  waiters : ∀ h' ∈ s.timeWaiters, s.filehash.lookup h' ≠ none
  once : s.timeWaiters.Nodup
  straight : s.box.astray = false

/-- What holds of the server. -/
structure Sound (s : State) : Prop where
  keys : s.filehash.Distinct
  files : ∀ h f, s.filehash.lookup h = some f → Good s h f
  waiters : ∀ h ∈ s.timeWaiters, s.filehash.lookup h ≠ none
  once : s.timeWaiters.Nodup
  straight : s.box.astray = false

variable {s t : State} {x : Outcome} {h h' : Handle} {f f' : File}

theorem Good.congr (good : Good s h f) (pending : t.box.pending h = s.box.pending h)
    (waits : h ∈ t.timeWaiters ↔ h ∈ s.timeWaiters) : Good t h f := by
  refine ⟨good.sender, fun mode => ?_, fun mode => ?_, good.timed.trans waits.symm, good.waits⟩
  · rw [pending]
    exact good.idle mode
  · obtain ⟨events, has, holds, empty⟩ := good.client mode
    exact ⟨events, has, holds.congr pending, empty⟩

theorem Sound.around (sound : Sound s) (there : s.filehash.lookup h = some f) : Around s h :=
  ⟨sound.keys, by simp [there], fun h' f _ => sound.files h' f, sound.waiters, sound.once,
    sound.straight⟩

/-- One struct changes, and with it what is pending for it and whether it waits for a time. -/
theorem Around.change (around : Around s h)
    (hash : t.filehash = s.filehash.modify h fun _ => f')
    (others : ∀ h', h' ≠ h → t.box.pending h' = s.box.pending h' ∧
      (h' ∈ t.timeWaiters ↔ h' ∈ s.timeWaiters))
    (once : t.timeWaiters.Nodup) (straight : t.box.astray = s.box.astray) : Around t h ∧
      t.filehash.lookup h = some f' := by
  obtain ⟨f, is⟩ := Option.ne_none_iff_exists'.mp around.there
  have look : ∀ h', t.filehash.lookup h' =
      if h' = h then some f' else s.filehash.lookup h' := by
    intro h'
    rw [hash, Hash.lookup_modify, is]
    rfl
  have here : t.filehash.lookup h = some f' := by rw [look, if_pos rfl]
  refine ⟨⟨hash ▸ around.keys.modify h _, by simp [here], fun h' f differ is' => ?_,
    fun h' waits => ?_, once, straight.trans around.straight⟩, here⟩
  · rw [look, if_neg differ] at is'
    exact (around.others h' f differ is').congr (others h' differ).1 (others h' differ).2
  · by_cases same : h' = h
    · simp [same, here]
    · rw [look, if_neg same]
      exact around.waiters h' (((others h' same).2).mp waits)

theorem Around.close (around : Around s h) (is : s.filehash.lookup h = some f)
    (good : Good s h f) : Sound s := by
  refine ⟨around.keys, fun h' f' is' => ?_, around.waiters, around.once, around.straight⟩
  by_cases same : h' = h
  · subst same
    obtain rfl := Option.some.inj (is.symm.trans is')
    exact good
  · exact around.others h' f' same is'

/-- One struct changes, and is as it should be. -/
theorem Around.finish (around : Around s h)
    (hash : t.filehash = s.filehash.modify h fun _ => f')
    (others : ∀ h', h' ≠ h → t.box.pending h' = s.box.pending h' ∧
      (h' ∈ t.timeWaiters ↔ h' ∈ s.timeWaiters))
    (once : t.timeWaiters.Nodup) (straight : t.box.astray = s.box.astray) (good : Good t h f') :
    Sound t := by
  obtain ⟨next, is⟩ := around.change hash others once straight
  exact next.close is good

/-! ## The queue -/

/-- An event is stored in place of the one of its index. -/
theorem store_spec {e : Event} {events : List Event} (once : (events.map Event.eIndex).Nodup)
    (room : events = [] ∨ ∃ d ∈ events, d.eIndex = e.eIndex) :
    ((store e events).map Event.eIndex).Nodup ∧
      ∀ d, d ∈ store e events ↔ d = e ∨ d ∈ events ∧ d.eIndex ≠ e.eIndex := by
  have same : (∃ d ∈ events, d.eIndex = e.eIndex) →
      (store e events).map Event.eIndex = events.map Event.eIndex ∧
        ∀ d, d ∈ store e events ↔ d = e ∨ d ∈ events ∧ d.eIndex ≠ e.eIndex := by
    clear room
    rintro ⟨d, inside, index⟩
    induction events using store.induct e with
    | case1 => exact absurd inside List.not_mem_nil
    | case2 last =>
        obtain rfl := List.mem_singleton.mp inside
        refine ⟨by simp [store, index], fun other => ?_⟩
        simp only [store, List.mem_singleton]
        exact ⟨.inl, fun is => is.elim id fun ⟨rfl, differ⟩ => absurd index differ⟩
    | case3 first rest some_ found =>
        have fresh := (List.nodup_cons.mp once).1
        rw [store.eq_3 _ _ _ some_, if_pos found]
        refine ⟨by simp [found], fun other => ?_⟩
        rw [List.mem_cons, List.mem_cons]
        constructor
        · rintro (rfl | later)
          · exact .inl rfl
          · exact .inr ⟨.inr later, fun eq => fresh
              (List.mem_map.mpr ⟨other, later, eq.trans found.symm⟩)⟩
        · rintro (rfl | ⟨rfl | later, differ⟩)
          · exact .inl rfl
          · exact absurd found differ
          · exact .inr later
    | case4 first rest some_ differ ih =>
        rw [store.eq_3 _ _ _ some_, if_neg differ]
        have later : d ∈ rest := by
          rcases List.mem_cons.mp inside with rfl | later
          · exact absurd index differ
          · exact later
        obtain ⟨indices, members⟩ := ih (List.nodup_cons.mp once).2 later
        refine ⟨by rw [List.map_cons, indices, List.map_cons], fun other => ?_⟩
        rw [List.mem_cons, List.mem_cons, members other]
        constructor
        · rintro (rfl | rfl | ⟨later, differ⟩)
          · exact .inr ⟨.inl rfl, differ⟩
          · exact .inl rfl
          · exact .inr ⟨.inr later, differ⟩
        · rintro (rfl | ⟨rfl | later, differ⟩)
          · exact .inr (.inl rfl)
          · exact .inl rfl
          · exact .inr (.inr ⟨later, differ⟩)
  rcases room with rfl | found
  · exact ⟨by simp [store], fun d => by simp [store]⟩
  · obtain ⟨indices, members⟩ := same found
    exact ⟨indices ▸ once, members⟩

/-- Who waits for a time after a client was taken off. -/
theorem mem_unqueue {waiters : List Handle} {timeq : Bool} (once : waiters.Nodup)
    (timed : timeq = true ↔ h ∈ waiters) :
    (if timeq then waiters.erase h else waiters).Nodup ∧
      ∀ h', h' ∈ (if timeq then waiters.erase h else waiters) ↔ h' ∈ waiters ∧ h' ≠ h := by
  split_ifs with on
  · exact ⟨once.erase h, fun h' => by rw [once.mem_erase_iff, and_comm]⟩
  · refine ⟨once, fun h' => ⟨fun inside => ⟨inside, ?_⟩, And.left⟩⟩
    rintro rfl
    exact on (timed.mpr inside)

/-- What `run_queue` leaves, and what it sends: as many of the first events as there is room for. -/
theorem runQueue_spec (around : Around s h) {events : List Event} (has : f.fEvents = some events)
    (holds : s.box.Holds Event.eIndex h events) (mode : f.fMode = .CLIENT) (sender : f.fSender = h)
    (timed : f.fTimeq = true ↔ h ∈ s.timeWaiters) (mem : x.mem = true) :
    ∃ t, s.runQueue x h f = .ok (t, [⟨h, .events (events.take (f.fSize / COMPLETE))⟩]) ∧
      Sound t := by
  subst sender
  rw [← List.take_append_drop (f.fSize / COMPLETE) events] at holds
  obtain ⟨left, straight⟩ := holds.deliverAll
  obtain ⟨once, members⟩ := mem_unqueue around.once timed
  rw [State.runQueue, has]
  simp only [mem, Bool.not_true, Bool.and_false, Bool.false_eq_true, if_false]
  refine ⟨_, rfl, around.finish rfl (fun h' differ => ⟨Mailbox.deliverAll_other differ, ?_⟩) once
    straight ⟨rfl, fun other => absurd mode other, fun _ => ?_, ?_, nofun⟩⟩
  · exact (members h').trans (and_iff_left differ)
  · exact ⟨_, rfl, left, fun some_ => absurd rfl some_⟩
  · exact ⟨nofun, fun inside => absurd rfl ((members _).mp inside).2⟩

/-! ## Posting -/

theorem queueEvent_around (around : Around s h) (f' : File) (e : Event) :
    Around (s.queueEvent h f' e) h ∧ (s.queueEvent h f' e).filehash.lookup h = some f' :=
  around.change rfl (fun _ differ => ⟨Mailbox.post_other differ, Iff.rfl⟩) around.once rfl

/-- An event that finds room is queued for its client, or answers it. -/
theorem post_spec (sound : Sound s) {se : SelectEvent} (room : Room s x se) :
    ∃ result, s.post x se = .ok result ∧ ∀ t sent, result = some (t, sent) → Sound t := by
  rw [State.post]
  cases is : s.filehash.lookup se.seClid with
  | none => exact ⟨none, rfl, fun t sent none_ => nomatch none_⟩
  | some f =>
      simp only
      by_cases refused : f.fKey ≠ se.seKey ∨ f.fMode ≠ .CLIENT
      · rw [if_pos refused]
        exact ⟨none, rfl, fun t sent none_ => nomatch none_⟩
      · obtain ⟨key, mode⟩ : f.fKey = se.seKey ∧ f.fMode = .CLIENT := by
          rw [not_or, not_not, not_not] at refused
          exact refused
        have good := sound.files _ f is
        obtain ⟨events, has, holds, -⟩ := good.client mode
        obtain ⟨mem, space⟩ := room f events is key mode has
        obtain ⟨once, members⟩ := store_spec (e := ⟨se.seIndex, se.seIocount, se.seMask⟩)
          holds.once space
        have held := holds.post once members
        rw [if_neg refused, has]
        simp only [mem, Bool.not_true, Bool.and_false, Bool.false_eq_true, if_false]
        obtain ⟨around, is'⟩ := queueEvent_around (sound.around is)
          { f with fEvents := some (store ⟨se.seIndex, se.seIocount, se.seMask⟩ events) }
          ⟨se.seIndex, se.seIocount, se.seMask⟩
        by_cases waiting : f.fSize ≠ 0
        · obtain ⟨t, ran, after⟩ := runQueue_spec (x := x)
            (f := { f with
              fEvents := some (store ⟨se.seIndex, se.seIocount, se.seMask⟩ events) })
            around rfl held mode good.sender good.timed mem
          rw [if_pos waiting, ran]
          refine ⟨_, rfl, fun t' sent same => ?_⟩
          obtain rfl := (Prod.mk.inj (Option.some.inj same)).1
          exact after
        · rw [if_neg waiting]
          refine ⟨_, rfl, fun t' sent same => ?_⟩
          obtain rfl := (Prod.mk.inj (Option.some.inj same)).1
          exact around.close is' ⟨good.sender, fun other => absurd mode other,
            fun _ => ⟨_, rfl, held, fun some_ => absurd some_ waiting⟩, good.timed, good.waits⟩

/-- Events that find room are all queued or delivered. -/
theorem postAll_spec {events : List SelectEvent} (sound : Sound s) (room : AllRoom s x events) :
    ∃ t sent all, s.postAll x events = .ok (t, sent, all) ∧ Sound t := by
  induction events generalizing s with
  | nil => exact ⟨s, [], true, rfl, sound⟩
  | cons se rest ih =>
      obtain ⟨result, posted, keeps⟩ := post_spec sound room.1
      rw [State.postAll, posted]
      cases result with
      | none => exact ⟨s, [], false, rfl, sound⟩
      | some both =>
          obtain ⟨t, sent⟩ := both
          obtain ⟨u, sent', all, others, after⟩ := ih (keeps t sent rfl) (room.2 t sent posted)
          refine ⟨u, sent ++ sent', all, ?_, after⟩
          simp only [bind, Except.bind, others]
          rfl

theorem selfsWrite_spec (sound : Sound s) {mArg : ℕ} {se : ℕ → SelectEvent}
    (room : AllRoom s x ((List.range (mArg / EVENT)).map se)) :
    ∃ t sent, s.selfsWrite x h mArg se = .ok (t, sent) ∧ Sound t := by
  rw [State.selfsWrite]
  split_ifs
  · exact ⟨s, _, rfl, sound⟩
  · exact ⟨s, _, rfl, sound⟩
  · obtain ⟨t, sent, all, posted, after⟩ := postAll_spec sound room
    rw [posted]
    exact ⟨t, _, rfl, after⟩

/-! ## Waiting and time -/

/-- A client that waited for nothing is not on the list of those that wait for a time. -/
theorem Good.off (good : Good s h f) (idle : f.fSize = 0) :
    f.fTimeq = false ∧ h ∉ s.timeWaiters := by
  have off : ¬f.fTimeq = true := fun on => good.waits on idle
  exact ⟨by simpa using off, fun inside => off (good.timed.mpr inside)⟩

theorem unqueue_sound (sound : Sound s) (is : s.filehash.lookup h = some f) :
    Sound (s.unqueue h f) := by
  have good := sound.files h f is
  obtain ⟨once, members⟩ := mem_unqueue sound.once good.timed
  refine (sound.around is).finish rfl (fun h' differ => ⟨rfl, ?_⟩) once rfl
    ⟨good.sender, fun mode => ?_, fun mode => ?_, ?_, nofun⟩
  · exact (members h').trans (and_iff_left differ)
  · exact ⟨rfl, (good.idle mode).2⟩
  · obtain ⟨events, has, holds, -⟩ := good.client mode
    exact ⟨events, has, holds.congr rfl, fun some_ => absurd rfl some_⟩
  · exact ⟨nofun, fun inside => absurd rfl ((members _).mp inside).2⟩

/-- The clients on the list are all there. -/
theorem soonest_spec {waiters : List Handle} (there : ∀ h ∈ waiters, s.filehash.lookup h ≠ none)
    (t : Time) : ∃ b, s.soonest t waiters = .ok b := by
  induction waiters with
  | nil => exact ⟨true, rfl⟩
  | cons l rest ih =>
      obtain ⟨f, is⟩ := Option.ne_none_iff_exists'.mp (there l List.mem_cons_self)
      rw [State.soonest, is]
      simp only
      split_ifs
      · exact ⟨false, rfl⟩
      · exact ih fun h inside => there h (List.mem_cons_of_mem _ inside)

/-- A change of the note of the timer thread. -/
theorem Sound.timer (sound : Sound s) (hash : t.filehash = s.filehash)
    (waiters : t.timeWaiters = s.timeWaiters) (box : t.box = s.box) : Sound t := by
  refine ⟨hash ▸ sound.keys, fun h f is => ?_, fun h inside => ?_, waiters ▸ sound.once,
    box ▸ sound.straight⟩
  · exact (sound.files h f (hash ▸ is)).congr (by rw [box]) (by rw [waiters])
  · rw [hash]
    exact sound.waiters h (waiters ▸ inside)

/-- A client with nothing queued begins to wait for a time. -/
theorem waitTimed_spec (sound : Sound s) (is : s.filehash.lookup h = some f)
    (mode : f.fMode = .CLIENT) (idle : f.fSize = 0) (empty : f.fEvents = some []) {size : ℕ}
    (some_ : size ≠ 0) (mArg1 : ℤ) :
    ∃ t sent, s.waitTimed x h { f with fSize := size } mArg1 = .ok (t, sent) ∧ Sound t := by
  have good := sound.files h f is
  obtain ⟨-, off⟩ := good.off idle
  obtain ⟨events, has, holds, -⟩ := good.client mode
  obtain rfl : events = [] := Option.some.inj (has.symm.trans empty)
  -- the timer thread is told, and then the client is put on the list
  have queued : ∀ s' : State, s'.filehash = s.filehash → s'.timeWaiters = s.timeWaiters →
      s'.box = s.box → Sound { s'.put h { f with
        fSize := size, fTime := x.now.later mArg1, fTimeq := x.mem } with
          timeWaiters := if x.mem then s'.timeWaiters ++ [h] else s'.timeWaiters } := by
    intro s' hash waiters box
    have sound' := sound.timer hash waiters box
    have off' : h ∉ s'.timeWaiters := waiters ▸ off
    have is' : s'.filehash.lookup h = some f := hash ▸ is
    refine (sound'.around is').finish rfl (fun h' differ => ⟨rfl, ?_⟩) ?_ rfl
      ⟨good.sender, fun other => absurd mode other, fun _ => ?_, ?_, fun _ => some_⟩
    · cases x.mem <;> simp [differ]
    · cases x.mem
      · exact sound'.once
      · exact List.Nodup.append sound'.once (List.nodup_singleton h)
          (List.disjoint_singleton.mpr off')
    · exact ⟨[], empty, holds.congr (by rw [← box]; rfl), fun _ => rfl⟩
    · cases x.mem <;> simp [off']
  rw [State.waitTimed]
  cases timer : s.timerHandle with
  | some timer => exact ⟨_, _, rfl, queued { s with timerHandle := none } rfl rfl rfl⟩
  | none =>
      cases thread : s.timerTid with
      | false =>
          simp only [Bool.false_eq_true, if_false]
          exact ⟨_, _, rfl, queued { s with timerHandle := none, timerTid := true } rfl rfl rfl⟩
      | true =>
          obtain ⟨b, looked⟩ := soonest_spec sound.waiters (x.now.later mArg1)
          simp only [if_true, looked]
          exact ⟨_, _, rfl, queued s rfl rfl rfl⟩

/-- A read is answered with the first of the events that are queued, or waits for the next. -/
theorem selfsRead_spec (sound : Sound s) (is : s.filehash.lookup h = some f) (idle : f.fSize = 0)
    (mem : f.fEvents ≠ some [] → x.mem = true) (mArg mArg1 : ℤ) :
    ∃ t sent, s.selfsRead x h f mArg mArg1 = .ok (t, sent) ∧ Sound t ∧
      ∀ events, f.fMode = .CLIENT → 1 ≤ mArg → mArg ≤ MAXIO → f.fEvents = some events →
        events ≠ [] → sent = [⟨h, .events (events.take (mArg.toNat / COMPLETE))⟩] := by
  have good := sound.files h f is
  rw [State.selfsRead]
  by_cases refused : f.fMode ≠ .CLIENT ∨ mArg < 1 ∨ MAXIO < mArg
  · rw [if_pos refused]
    refine ⟨s, _, rfl, sound, fun events mode low high _ _ => ?_⟩
    rcases refused with other | less | more
    · exact absurd mode other
    · exact absurd low (not_le.mpr less)
    · exact absurd high (not_le.mpr more)
  · rw [if_neg refused]
    obtain ⟨mode, valid⟩ := not_or.mp refused
    have mode := not_not.mp mode
    have positive : mArg.toNat ≠ 0 := by
      have := (not_or.mp valid).1
      omega
    obtain ⟨events, has, holds, -⟩ := good.client mode
    by_cases some_ : f.fEvents ≠ some []
    · obtain ⟨t, ran, after⟩ := runQueue_spec (x := x) (f := { f with fSize := mArg.toNat })
        (sound.around is) has holds mode good.sender good.timed (mem some_)
      refine ⟨t, _, (if_pos some_).trans ran, after, fun events' _ _ _ has' _ => ?_⟩
      rw [Option.some.inj (has'.symm.trans has)]
    · have empty : f.fEvents = some [] := not_not.mp some_
      have nothing : ∀ events', f.fMode = .CLIENT → 1 ≤ mArg → mArg ≤ MAXIO →
          f.fEvents = some events' → events' ≠ [] → ∀ P : Prop, P := fun events' _ _ _ has' other =>
        absurd (Option.some.inj (has'.symm.trans empty)) other
      have kept : ∀ size : ℕ, Sound (s.put h { f with fSize := size }) := fun size =>
        (sound.around is).finish rfl (fun _ _ => ⟨rfl, Iff.rfl⟩) sound.once rfl
          ⟨good.sender, fun other => absurd mode other, fun _ => ⟨[], empty,
            Option.some.inj (has.symm.trans empty) ▸ holds, fun _ => rfl⟩, good.timed,
            fun on => absurd on (by simp [(good.off idle).1])⟩
      have same : ¬({ f with fSize := mArg.toNat } : File).fEvents ≠ some [] := some_
      simp only [if_neg same]
      by_cases poll : mArg1 = -1
      · rw [if_pos poll]
        exact ⟨_, _, rfl, kept 0, fun events' a b c d e => nothing events' a b c d e _⟩
      · rw [if_neg poll]
        by_cases timed : mArg1 ≠ 0
        · rw [if_pos timed]
          obtain ⟨t, sent, waits, after⟩ :=
            waitTimed_spec (x := x) sound is mode idle empty positive mArg1
          exact ⟨t, sent, waits, after, fun events' a b c d e => nothing events' a b c d e _⟩
        · rw [if_neg timed]
          exact ⟨_, _, rfl, kept _, fun events' a b c d e => nothing events' a b c d e _⟩

/-- Those whose time has passed are answered. -/
theorem expire_spec (time : Time) {waiters : List Handle} (sound : Sound s) (once : waiters.Nodup)
    (listed : ∀ h ∈ waiters, h ∈ s.timeWaiters) (next : Time) :
    ∃ t sent next', State.expire time waiters s next = .ok (t, sent, next') ∧ Sound t := by
  induction waiters generalizing s next with
  | nil => exact ⟨s, [], next, rfl, sound⟩
  | cons l rest ih =>
      obtain ⟨fresh, once'⟩ := List.nodup_cons.mp once
      have here := listed l List.mem_cons_self
      obtain ⟨f, is⟩ := Option.ne_none_iff_exists'.mp (sound.waiters l here)
      have good := sound.files l f is
      rw [State.expire, is]
      simp only
      by_cases passed : f.fTime.atMost time = true
      · rw [if_pos passed, if_pos (good.timed.mpr here)]
        have others : ∀ h ∈ rest, h ∈ (s.unqueue l f).timeWaiters := fun h inside => by
          refine ((mem_unqueue sound.once good.timed).2 h).mpr
            ⟨listed h (List.mem_cons_of_mem _ inside), ?_⟩
          rintro rfl
          exact fresh inside
        obtain ⟨t, sent, next', looped, after⟩ := ih (unqueue_sound sound is) once' others next
        refine ⟨t, (s.timeout l f).2 ++ sent, next', ?_, after⟩
        simp only [State.timeout, bind, Except.bind, looped]
        rfl
      · rw [if_neg passed]
        exact ih sound once' (fun h inside => listed h (List.mem_cons_of_mem _ inside)) _

theorem selfsTimeout_spec (sound : Sound s) :
    ∃ t sent, s.selfsTimeout x h = .ok (t, sent) ∧ Sound t := by
  obtain ⟨t, sent, next, looped, after⟩ :=
    expire_spec x.now sound sound.once (fun _ inside => inside) ⟨0, 0⟩
  rw [State.selfsTimeout, looped]
  simp only [bind, Except.bind]
  split_ifs
  · exact ⟨_, _, rfl, after.timer rfl rfl rfl⟩
  · exact ⟨_, _, rfl, after.timer rfl rfl rfl⟩

/-! ## Connections -/

/-- A connection is added that is no client, with nothing pending. -/
theorem Sound.insert (sound : Sound s) (fresh : s.filehash.lookup h = none) (sender : f.fSender = h)
    (mode : f.fMode ≠ .CLIENT) (size : f.fSize = 0) (off : f.fTimeq = false)
    (empty : ∀ events, f.fEvents = some events → events = []) :
    Sound { s with filehash := s.filehash.insert h f, box := s.box.forget h } := by
  have absent : h ∉ s.timeWaiters := fun inside => sound.waiters h inside fresh
  refine ⟨sound.keys.insert fresh, fun h' f' is => ?_, fun h' inside => ?_, sound.once,
    sound.straight⟩
  · rw [Hash.lookup_insert] at is
    by_cases same : h' = h
    · subst same
      obtain rfl := Option.some.inj ((if_pos rfl).symm.trans is)
      exact ⟨sender, fun _ => ⟨size, fun k => by simp [Mailbox.forget], empty⟩,
        fun other => absurd other mode, by simp [off, absent], by simp [off]⟩
    · rw [if_neg same] at is
      exact (sound.files h' f' is).congr (Mailbox.forget_other same) Iff.rfl
  · rw [Hash.lookup_insert]
    split_ifs
    · exact Option.some_ne_none f
    · exact sound.waiters h' inside

theorem newClient_sound (sound : Sound s) (fresh : s.filehash.lookup h = none) :
    Sound (s.newClient x h).1 := by
  rw [State.newClient]
  split_ifs
  · exact sound
  · exact sound.insert fresh rfl nofun rfl rfl fun events same => (Option.some.inj same).symm

theorem dupClient_sound (sound : Sound s) (is : s.filehash.lookup h = some f) (idle : f.fSize = 0)
    (mode : f.fMode ≠ .CLIENT) (fresh : s.filehash.lookup h' = none) :
    Sound (s.dupClient x h f h').1 := by
  rw [State.dupClient]
  split_ifs
  · exact sound
  · exact sound.insert fresh rfl mode idle ((sound.files h f is).off idle).1 nofun

/-- A client goes that waits for no time. -/
theorem deadClient_sound (sound : Sound s) (is : s.filehash.lookup h = some f)
    (off : f.fTimeq = false) : Sound (s.deadClient h) := by
  have absent : h ∉ s.timeWaiters := fun inside => by
    simpa [off] using (sound.files h f is).timed.mpr inside
  refine ⟨sound.keys.delete h, fun h' f' is' => ?_, fun h' inside => ?_, sound.once,
    sound.straight⟩
  · rw [State.deadClient, sound.keys.lookup_delete] at is'
    by_cases same : h' = h
    · simp [same] at is'
    · rw [if_neg same] at is'
      exact (sound.files h' f' is').congr (Mailbox.forget_other same) Iff.rfl
  · have differ : h' ≠ h := by
      rintro rfl
      exact absent inside
    rw [State.deadClient, sound.keys.lookup_delete, if_neg differ]
    exact sound.waiters h' inside

/-- A root becomes a client that has nothing queued, or a server. -/
theorem selfsOpen_sound (sound : Sound s) (is : s.filehash.lookup h = some f) (mArg : ULong)
    {name : Node} (queue : f.fMode = .ROOT → name = .client → f.fEvents ≠ none) :
    Sound (s.selfsOpen h f mArg name).1 := by
  have good := sound.files h f is
  rw [State.selfsOpen.eq_def]
  by_cases root : f.fMode ≠ .ROOT
  · rw [if_pos root]
    exact sound
  rw [if_neg root]
  have root := not_not.mp root
  obtain ⟨size, nothing, empty⟩ := good.idle (by simp [root])
  have off := (good.off size).1
  split_ifs
  · exact sound
  · cases name with
    | client =>
        obtain ⟨events, has⟩ := Option.ne_none_iff_exists'.mp (queue root rfl)
        obtain rfl := empty events has
        refine (sound.around is).finish rfl (fun _ _ => ⟨rfl, Iff.rfl⟩) sound.once rfl
          ⟨good.sender, fun other => absurd rfl other, fun _ => ⟨[], has, ⟨List.nodup_nil,
            fun k item => ?_⟩, fun _ => rfl⟩, good.timed, good.waits⟩
        exact ⟨fun pending => absurd ((nothing k).symm.trans pending) nofun,
          fun inside => absurd inside.1 List.not_mem_nil⟩
    | server =>
        exact (sound.around is).finish rfl (fun _ _ => ⟨rfl, Iff.rfl⟩) sound.once rfl
          ⟨good.sender, fun _ => ⟨size, nothing, empty⟩, nofun, good.timed, good.waits⟩
    | other => exact sound

/-! ## Every message -/

/-- A message that meets the condition is dealt with. -/
theorem exec_spec {m : Request} (sound : Sound s) (legal : Legal s h m) (fits : Fits s ⟨x, h, m⟩) :
    ∃ t sent, s.exec x h m = .ok (t, sent) ∧ Sound t := by
  cases m with
  | connect => exact ⟨_, _, rfl, newClient_sound sound legal⟩
  | time => exact selfsTimeout_spec sound
  | unknown => exact ⟨s, _, rfl, sound⟩
  | disconnect =>
      obtain ⟨f, is⟩ := Option.ne_none_iff_exists'.mp legal
      exact ⟨s.deadClient h, [], by simp only [State.exec, is], deadClient_sound sound is (fits f is)⟩
  | dup mArg =>
      obtain ⟨⟨f, is, idle⟩, fresh⟩ := legal
      exact ⟨(s.dupClient x h f mArg).1, (s.dupClient x h f mArg).2, by simp only [State.exec, is],
        dupClient_sound sound is idle (fits f is) fresh⟩
  | abort =>
      obtain ⟨f, is⟩ := Option.ne_none_iff_exists'.mp legal
      exact ⟨_, (s.selfsAbort h f).2, by simp only [State.exec, is, State.selfsAbort],
        unqueue_sound sound is⟩
  | open_ mArg name =>
      obtain ⟨f, is, -⟩ := legal
      exact ⟨_, (s.selfsOpen h f mArg name).2, by simp only [State.exec, is],
        selfsOpen_sound sound is mArg (fits f is)⟩
  | read mArg mArg1 =>
      obtain ⟨f, is, idle⟩ := legal
      obtain ⟨t, sent, done, after, -⟩ := selfsRead_spec sound is idle (fits f is) mArg mArg1
      exact ⟨t, sent, by simpa only [State.exec, is] using done, after⟩
  | write mArg se =>
      obtain ⟨f, is, -⟩ := legal
      obtain ⟨t, sent, done, after⟩ := selfsWrite_spec (h := h) sound fits
      exact ⟨t, sent, by simpa only [State.exec, is] using done, after⟩
  | stat =>
      obtain ⟨f, is, -⟩ := legal
      exact ⟨s, [⟨h, .plain⟩], by simp only [State.exec, is], sound⟩

theorem start_sound : Sound start :=
  ⟨Hash.distinct_nil, fun _ _ is => (nomatch is), fun _ inside => absurd inside List.not_mem_nil,
    List.nodup_nil, rfl⟩

/-- Runs of messages that meet the condition. -/
abbrev FitsReaches : State → State → Prop := Transition.Reaches Step Fits

/-- **No event is lost.** In every run of messages that meet the condition, nothing was delivered
that was not pending; each client has a queue with one entry for each posting that is pending, and
none for an index without one, which is empty while the client waits; and every message is dealt
with, with no use of what was freed. A read of a client with a queue is answered with the first of
its entries, as many as there is room for. -/
theorem no_event_lost : ∀ s, FitsReaches start s →
    s.box.astray = false ∧
    (∀ h f, s.filehash.lookup h = some f → f.fMode = .CLIENT → ∃ events, f.fEvents = some events ∧
      (events.map Event.eIndex).Nodup ∧
      (∀ k e, s.box.pending h k = some e ↔ e ∈ events ∧ e.eIndex = k) ∧
      (f.fSize ≠ 0 → events = [])) ∧
    (∀ x h m, Legal s h m → Fits s ⟨x, h, m⟩ → ∃ t sent, s.exec x h m = .ok (t, sent)) ∧
    ∀ x h f events mArg mArg1, Legal s h (.read mArg mArg1) → Fits s ⟨x, h, .read mArg mArg1⟩ →
      s.filehash.lookup h = some f → f.fMode = .CLIENT → f.fEvents = some events → events ≠ [] →
      1 ≤ mArg → mArg ≤ MAXIO → ∃ t, s.exec x h (.read mArg mArg1) =
        .ok (t, [⟨h, .events (events.take (mArg.toNat / COMPLETE))⟩]) := by
  intro s run
  have sound : Sound s := run.invariant start_sound fun s ⟨x, h, m⟩ t before fits taken => by
    obtain ⟨legal, sent, done⟩ := taken
    obtain ⟨t', sent', done', after⟩ := exec_spec before legal fits
    obtain rfl := (Prod.mk.inj (Except.ok.inj (done.symm.trans done'))).1
    exact after
  refine ⟨sound.straight, fun h f is mode => ?_, fun x h m legal fits => ?_,
    fun x h f events mArg mArg1 legal fits is mode has some_ low high => ?_⟩
  · obtain ⟨events, has, holds, empty⟩ := (sound.files h f is).client mode
    exact ⟨events, has, holds.once, holds.pending, empty⟩
  · obtain ⟨t, sent, done, -⟩ := exec_spec sound legal fits
    exact ⟨t, sent, done⟩
  · obtain ⟨f', is', idle⟩ := legal
    obtain rfl := Option.some.inj (is.symm.trans is')
    obtain ⟨t, sent, done, -, answer⟩ := selfsRead_spec (x := x) sound is idle (fits f is) mArg mArg1
    rw [answer events mode low high has some_] at done
    exact ⟨t, by simpa only [State.exec, is] using done⟩

/-- Memory, and a key. -/
def calm : Outcome := ⟨true, 5, ⟨0, 0⟩⟩

/-- An event of a client. -/
def event (index : Uint) : SelectEvent := ⟨1, 5, index, 1, 0⟩

/-- A client. -/
def client (events : List Event) : File := ⟨some events, 5, .CLIENT, 1, 0, false, ⟨0, 0⟩⟩

/-- One client, and what was posted for it. -/
def single (events : List Event) (box : Mailbox Handle Uint Event) : State :=
  ⟨[(1, client events)], [], none, false, box⟩

/-- Nothing posted. -/
def quiet : Mailbox Handle Uint Event := start.box.forget 1

/-- One connection. -/
def joined : State := ⟨[(1, { client [] with fMode := .ROOT })], [], none, false, quiet⟩

theorem no_event_lost_read : ∃ s t, FitsReaches start s ∧
    s.exec calm 1 (.read 24 0) = .ok (t, [⟨1, .events [⟨3, 0, 1⟩]⟩]) := by
  have connected : Step start ⟨calm, 1, .connect⟩ joined := ⟨rfl, [⟨1, .plain⟩], rfl⟩
  have opened : Step joined ⟨calm, 1, .open_ 0 .client⟩ (single [] quiet) :=
    ⟨⟨_, rfl, rfl⟩, [⟨1, .plain⟩], rfl⟩
  have posted : Step (single [] quiet) ⟨calm, 1, .write 20 fun _ => event 3⟩
      (single [⟨3, 0, 1⟩] (quiet.post 1 3 ⟨3, 0, 1⟩)) := ⟨⟨_, rfl, rfl⟩, [⟨1, .plain⟩], rfl⟩
  have room : Fits (single [] quiet) ⟨calm, 1, .write 20 fun _ => event 3⟩ := by
    refine ⟨fun f events is _ _ has => ⟨rfl, .inl ?_⟩, fun _ _ _ => trivial⟩
    obtain rfl := Option.some.inj is
    exact (Option.some.inj has).symm
  have queue : Fits joined ⟨calm, 1, .open_ 0 .client⟩ := fun f is _ _ => by
    obtain rfl := Option.some.inj is
    exact Option.some_ne_none []
  have run : FitsReaches start (single [⟨3, 0, 1⟩] (quiet.post 1 3 ⟨3, 0, 1⟩)) :=
    (((Transition.Reaches.refl _).tail trivial connected).tail queue opened).tail room posted
  obtain ⟨t, read⟩ := (no_event_lost _ run).2.2.2 calm 1 (client [⟨3, 0, 1⟩]) [⟨3, 0, 1⟩] 24 0
    ⟨_, rfl, rfl⟩ (fun _ _ _ => rfl) rfl rfl rfl (by simp) (by decide) (by decide)
  exact ⟨_, t, run, read⟩

/-- **Events that are lost**: the second of two events that a client is sent takes the place of the
first, though it is for another descriptor; a client that is gone is looked at when its time has
passed; and the queue of a client's copy leads into the other's struct. -/
theorem events_lost :
    (∃ box, (single [] quiet).exec calm 1 (.write 40 fun n => event (3 + n)) =
        .ok (single [⟨4, 0, 1⟩] box, [⟨1, .plain⟩]) ∧
      box.pending 1 3 = some ⟨3, 0, 1⟩ ∧ box.pending 1 4 = some ⟨4, 0, 1⟩) ∧
    (∃ s t u sent, (single [] quiet).exec calm 1 (.read 24 10) = .ok (s, sent) ∧
      s.exec calm 2 .connect = .ok (t, [⟨2, .plain⟩]) ∧
      t.exec calm 1 .disconnect = .ok (u, []) ∧ u.exec calm 2 .time = .error .freed) ∧
    ∃ s, (single [] quiet).exec calm 1 (.dup 2) = .ok (s, [⟨1, .plain⟩]) ∧
      s.exec calm 2 (.read 24 0) = .error .wild :=
  ⟨⟨_, rfl, by decide, by decide⟩, ⟨_, _, _, _, rfl, rfl, rfl, rfl⟩, _, rfl, rfl⟩

end Vsta.Selfs
