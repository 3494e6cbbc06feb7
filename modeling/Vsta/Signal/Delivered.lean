import Vsta.Signal.Calls
import Mathlib.Data.Finset.SDiff
import Mathlib.Order.Disjoint
import Mathlib.Tactic.SplitIfs

/-!
# Masks and pending signals over whole runs

What is promised is said of the observations of a run: a handler starts under a mask that does not
have its signal, and leaves the mask that it found; so does a `sigsuspend`; a signal that is raised
under a mask that has it is owed until it is delivered late, once. Of each state it is said that
the mask has the signals of the handlers that run, and none that is marked unblockable, that what is
owed is pending, and that what is owed and not in the mask is what a loop under way has yet to come
to.

`signal_event_handler` puts the old mask back and looks at nothing that became pending meanwhile,
which `sigprocmask` does; `sigaction` takes an unblockable signal in a `sa_mask`, which `sigprocmask`
does not; and a handler may lower the mask itself. `signals_right` is about the runs whose steps do
nothing of that.
-/

set_option autoImplicit false

namespace Vsta.Signal

/-! ## What is promised -/

/-- A handler that runs, with the mask before it and the signals that it holds, or a `sigsuspend`
with the mask before it. -/
inductive Mark where
  | handler (n : Signo) (mask held : Sigset)
  | suspended (mask : Sigset)

/-- What runs, innermost first, what is owed, and whether all was kept so far. -/
structure Promise where
  running : List Mark
  owed : Sigset
  kept : Prop

def Promise.take (p : Promise) : Obs → Promise
  | .raised n mask => if n ∈ mask then { p with owed := insert n p.owed } else p
  | .begins n mask saMask late =>
    { running := .handler n mask (insert n saMask) :: p.running
      owed := if late then p.owed.erase n else p.owed
      kept := p.kept ∧ n ∉ mask ∧ (late → n ∈ p.owed) }
  | .ends n mask =>
    match p.running with
    | .handler n' mask' _ :: rest =>
      { p with running := rest, kept := p.kept ∧ n = n' ∧ mask = mask' }
    | _ => { p with kept := False }
  | .suspends mask => { p with running := .suspended mask :: p.running }
  | .resumes mask =>
    match p.running with
    | .suspended mask' :: rest => { p with running := rest, kept := p.kept ∧ mask = mask' }
    | _ => { p with kept := False }
  | .oset _ | .oact _ | .returned _ => p

def Promise.takeAll (p : Promise) (obs : List Obs) : Promise := obs.foldl Promise.take p

structure World where
  state : State
  promise : Promise

def World.start (from_ : Start) : World :=
  ⟨.start from_, [], (State.start from_).pendingSignals, True⟩

def World.step (w : World) (i : Input) : Option World :=
  (Signal.step w.state i).map fun r => ⟨r.1, w.promise.takeAll r.2⟩

/-- The worlds that are reached by steps that meet a condition. -/
inductive Reaches (cond : World → Input → Prop) (w₀ : World) : World → Prop
  | start : Reaches cond w₀ w₀
  | step {w w' : World} {i : Input} (reached : Reaches cond w₀ w) (met : cond w i)
      (step : w.step i = some w') : Reaches cond w₀ w'

/-- A loop that is under way has yet to come to the signal, and will find it unblocked. -/
def Due (fs : List Frame) (n : Signo) : Prop :=
  ∃ m body save rest, .handler m body save (.loop rest) ∈ fs ∧ n ∈ rest ∧ n ∉ save

structure Right (w : World) : Prop where
  /-- Handlers start unblocked and leave the mask as it was, `sigsuspend` leaves it as it was, and
  what is delivered late was owed. -/
  kept : w.promise.kept
  /-- While a handler runs, its signal and its `sa_mask` are blocked. -/
  held : ∀ n mask held, .handler n mask held ∈ w.promise.running → held ⊆ w.state.signalMask
  /-- What is owed is pending. -/
  stays : w.promise.owed = w.state.pendingSignals
  /-- What is owed is blocked, or a call under way is about to deliver it. -/
  delivered : ∀ n ∈ w.promise.owed, n ∈ w.state.signalMask ∨ Due w.state.frames n
  unblockable : Disjoint w.state.signalMask unblockable

/-! ## The condition -/

/-- A signal that is pending while the frames are under way stays blocked whenever a handler
returns, or the loop that called the handler has yet to come to it. -/
def Ends : List Frame → Signo → Prop
  | [], _ => True
  | .handler _ _ save caller :: fs, n =>
    (n ∈ caller.rest ∧ n ∉ save) ∨ ((n ∈ save ∨ Due fs n) ∧ Ends fs n)
  | .suspended _ .restoring :: fs, n => Ends fs n
  | .suspended old _ :: fs, n => n ∉ old ∨ Ends fs n

/-- The handlers that run hold no signal that a mask does not have. -/
def Covers (mask : Sigset) (marks : List Mark) : Prop :=
  ∀ n before held, .handler n before held ∈ marks → held ⊆ mask

/-- The signal that an input raises. -/
def Input.raises (n : Signo) : Input → Prop
  | .call (.raise signo) => signo? signo = some n
  | .event name => signalOf name = some n
  | _ => False

/-- A blocked signal is not raised where a handler would return to a mask that does not have it; a
handler does not lower the mask under what it holds; and no `sa_mask` has an unblockable signal. -/
def Meets (w : World) (i : Input) : Prop :=
  (∀ n, i.raises n → n ∈ w.state.signalMask → Ends w.state.frames n) ∧
    match i with
    | .call (.sigaction _ (some act)) => Disjoint act.saMask unblockable
    | .call (.sigprocmask how nset) =>
      ∀ mask, newMask w.state.signalMask how nset = some mask → Covers mask w.promise.running
    | .call (.sigsuspend (some set)) =>
      sigpending w.state (w.state.signalMask \ set) = false →
        Covers (set \ Signal.unblockable) w.promise.running
    | _ => True

/-- The state that a process restores has no unblockable signal blocked. -/
def Start.Plain : Start → Prop
  | .restored (some p) => ∀ n ∈ unblockable, p n ∉ ['a', 'c', 'e', 'f']
  | _ => True

/-! ## The invariant -/

/-- What becomes of a pending signal: the loop that runs has yet to come to it and finds it
unblocked, or it is all right as it is and whenever a handler returns. -/
def Settled (mask : Sigset) (rest : List Signo) (fs : List Frame) (n : Signo) : Prop :=
  (n ∈ rest ∧ n ∉ mask) ∨ ((n ∈ mask ∨ Due fs n) ∧ Ends fs n)

theorem ends_handler {m n : Signo} {body : Voidfun} {save : Sigset} {caller : Caller}
    {fs : List Frame} :
    Ends (.handler m body save caller :: fs) n ↔ Settled save caller.rest fs n := Iff.rfl

theorem settled_nil {mask : Sigset} {fs : List Frame} {n : Signo} :
    Settled mask [] fs n ↔ (n ∈ mask ∨ Due fs n) ∧ Ends fs n := by
  simp [Settled]

theorem Due.cons {fs : List Frame} {n : Signo} (due : Due fs n) (f : Frame) : Due (f :: fs) n := by
  obtain ⟨m, body, save, rest, member, rest_, save_⟩ := due
  exact ⟨m, body, save, rest, List.mem_cons_of_mem f member, rest_, save_⟩

theorem due_suspended {old : Sigset} {phase : Phase} {fs : List Frame} {n : Signo} :
    Due (.suspended old phase :: fs) n ↔ Due fs n := by
  simp [Due]

/-- The mask under a `sigsuspend` that is over but for its return. -/
def Level (mask : Sigset) : List Frame → Prop
  | .suspended old .restoring :: _ => mask = old
  | .suspended _ (.passing _) :: _ => False
  | _ => True

/-- No `sigsuspend` is innermost. -/
def Calls : List Frame → Prop
  | .suspended _ _ :: _ => False
  | _ => True

theorem Calls.level {fs : List Frame} (calls : Calls fs) (mask : Sigset) : Level mask fs := by
  match fs, calls with
  | [], _ => trivial
  | .handler _ _ _ _ :: _, _ => trivial

/-- The frames are those of the marks, and each mask that is put back has what the handlers outside
hold, and nothing unblockable. -/
def Matches : List Frame → List Mark → Prop
  | [], [] => True
  | .handler n _ save _ :: fs, .handler n' mask _ :: ms =>
    n = n' ∧ save = mask ∧ Covers save ms ∧ Level save fs ∧ Disjoint save unblockable ∧
      Matches fs ms
  | .suspended old _ :: fs, .suspended mask :: ms =>
    old = mask ∧ Covers old ms ∧ Disjoint old unblockable ∧ Calls fs ∧ Matches fs ms
  | _, _ => False

theorem matches_handler {n : Signo} {body : Voidfun} {save : Sigset} {caller : Caller}
    {fs : List Frame} {marks : List Mark} :
    Matches (.handler n body save caller :: fs) marks ↔
      ∃ held ms, marks = .handler n save held :: ms ∧ Covers save ms ∧ Level save fs ∧
        Disjoint save unblockable ∧ Matches fs ms := by
  constructor
  · intro is
    match marks, is with
    | .handler _ _ held :: ms, ⟨same, save_, is⟩ =>
      subst same save_
      exact ⟨held, ms, rfl, is⟩
  · rintro ⟨held, ms, rfl, is⟩
    exact ⟨rfl, rfl, is⟩

theorem matches_suspended {old : Sigset} {phase : Phase} {fs : List Frame} {marks : List Mark} :
    Matches (.suspended old phase :: fs) marks ↔
      ∃ ms, marks = .suspended old :: ms ∧ Covers old ms ∧ Disjoint old unblockable ∧
        Calls fs ∧ Matches fs ms := by
  constructor
  · intro is
    match marks, is with
    | .suspended _ :: ms, ⟨same, is⟩ =>
      subst same
      exact ⟨ms, rfl, is⟩
  · rintro ⟨ms, rfl, is⟩
    exact ⟨rfl, is⟩

/-- What holds while the loop over the pending signals has the given ones left; with none left, what
holds when other code runs. -/
structure Inv (s : State) (p : Promise) (rest : List Signo) : Prop where
  covers : Covers s.signalMask p.running
  level : Level s.signalMask s.frames
  frames : Matches s.frames p.running
  mask : Disjoint s.signalMask unblockable
  pending : Disjoint s.pendingSignals unblockable
  actions : ∀ n, Disjoint (s.actions n).sigCurrentMask unblockable
  owed : p.owed = s.pendingSignals
  kept : p.kept
  settled : ∀ n ∈ s.pendingSignals, Settled s.signalMask rest s.frames n
  fresh : s.initDone = false → s.ended = true ∨
    (s.frames = [] ∧ s.signalMask = ∅ ∧ s.pendingSignals = ∅ ∧ ∀ n, (s.actions n).sigCurrent = .null)

variable {s : State} {p : Promise} {rest : List Signo}

theorem Inv.right (inv : Inv s p []) : Right ⟨s, p⟩ where
  kept := inv.kept
  held := inv.covers
  stays := inv.owed
  delivered := fun n owed => (settled_nil.mp (inv.settled n (inv.owed ▸ owed))).1
  unblockable := inv.mask

theorem Covers.mono {mask mask' : Sigset} {marks : List Mark} (covers : Covers mask marks)
    (le : mask ⊆ mask') : Covers mask' marks :=
  fun n before held member => (covers n before held member).trans le

theorem Covers.tail {mask : Sigset} {mark : Mark} {marks : List Mark}
    (covers : Covers mask (mark :: marks)) : Covers mask marks :=
  fun n before held member => covers n before held (List.mem_cons_of_mem _ member)

theorem Covers.handler {mask before held : Sigset} {n : Signo} {marks : List Mark}
    (covers : Covers mask marks) (le : held ⊆ mask) :
    Covers mask (.handler n before held :: marks) := by
  intro n' before' held' member
  rcases List.mem_cons.mp member with eq | member
  · cases eq
    exact le
  · exact covers n' before' held' member

theorem Covers.suspended {mask old : Sigset} {marks : List Mark} (covers : Covers mask marks) :
    Covers mask (.suspended old :: marks) := by
  intro n before held member
  rcases List.mem_cons.mp member with eq | member
  · cases eq
  · exact covers n before held member

/-! ## The handlers -/

/-- A handler is called for a signal that is not blocked. -/
theorem Inv.call (inv : Inv s p rest) (alive : s.ended = false) {n : Signo} {caller : Caller}
    {late : Bool} {left : Sigset} (free : n ∉ s.signalMask) (plain : n ∉ unblockable)
    (less : left ⊆ s.pendingSignals)
    (settled : ∀ m ∈ left, Settled s.signalMask caller.rest s.frames m)
    (owed : (if late then p.owed.erase n else p.owed) = left) (owes : late → n ∈ p.owed) :
    Inv (call { s with pendingSignals := left } n caller late).1
      (p.takeAll (call { s with pendingSignals := left } n caller late).2) [] where
  covers := by
    refine Covers.handler (inv.covers.mono ?_) ?_
    · exact (Finset.subset_union_left).trans (Finset.subset_insert _ _)
    · exact Finset.insert_subset_insert n Finset.subset_union_right
  level := trivial
  frames := ⟨rfl, rfl, inv.covers, inv.level, inv.mask, inv.frames⟩
  mask := Finset.disjoint_insert_left.mpr
    ⟨plain, Finset.disjoint_union_left.mpr ⟨inv.mask, inv.actions n⟩⟩
  pending := Finset.disjoint_of_subset_left less inv.pending
  actions := inv.actions
  owed := owed
  kept := ⟨inv.kept, free, owes⟩
  settled := by
    intro m member
    refine settled_nil.mpr ⟨?_, settled m member⟩
    rcases settled m member with ⟨later, free_⟩ | ⟨blocked | due, -⟩
    · cases caller with
      | raise | event => exact absurd later List.not_mem_nil
      | loop rest' => exact .inr ⟨n, _, s.signalMask, rest', List.mem_cons_self, later, free_⟩
    · exact .inl (Finset.mem_insert_of_mem (Finset.mem_union_left _ blocked))
    · exact .inr (due.cons _)
  fresh := by
    intro none_
    rcases inv.fresh none_ with ended | ⟨-, -, -, null⟩
    · exact absurd ended (by simp [alive])
    · exact .inl (by simp [Signal.call, null n, Voidfun.deadly])

/-- The end of a loop: what it was for goes on. -/
theorem Inv.done (inv : Inv s p []) : Inv (done s).1 (p.takeAll (done s).2) [] := by
  have fresh : s.initDone = false → s.ended = true ∨ s.frames = [] := fun none_ =>
    (inv.fresh none_).imp_right And.left
  rw [Signal.done]
  split
  next old set fs frames =>
    have level := inv.level
    rw [frames] at level
    exact level.elim
  next old fs frames =>
    have settled : ∀ n ∈ s.pendingSignals,
        Settled s.signalMask [] (.suspended old .waiting :: fs) n := by
      intro n member
      have is := settled_nil.mp (inv.settled n member)
      rw [frames, due_suspended] at is
      exact settled_nil.mpr ⟨is.1.imp_right due_suspended.mpr, is.2⟩
    have marks : Matches (.suspended old .waiting :: fs) p.running :=
      matches_suspended.mpr (matches_suspended.mp (frames ▸ inv.frames))
    exact { inv with
      level := trivial
      frames := marks
      settled := settled
      fresh := fun none_ => (fresh none_).imp_right fun is => absurd is (by simp [frames]) }
  next old fs frames =>
    obtain ⟨ms, running, covers, -, calls, marks⟩ := matches_suspended.mp (frames ▸ inv.frames)
    have level : s.signalMask = old := by
      have is := inv.level
      rwa [frames] at is
    have settled : ∀ n ∈ s.pendingSignals, Settled s.signalMask [] fs n := by
      intro n member
      have is := settled_nil.mp (inv.settled n member)
      rw [frames, due_suspended] at is
      exact settled_nil.mpr is
    have promise : p.takeAll [.resumes s.signalMask, .returned (.ok 0)] =
        { p with running := ms, kept := p.kept ∧ s.signalMask = old } := by
      simp [Promise.takeAll, Promise.take, running]
    rw [promise]
    exact { inv with
      covers := level ▸ covers
      level := calls.level _
      frames := marks
      kept := ⟨inv.kept, level⟩
      settled := settled
      fresh := fun none_ => (fresh none_).imp_right fun is => absurd is (by simp [frames]) }
  next => exact inv

/-- A loop over the pending signals. -/
theorem Inv.deliver (inv : Inv s p rest) (alive : s.ended = false) :
    Inv (deliver s rest).1 (p.takeAll (deliver s rest).2) [] := by
  induction rest with
  | nil => exact inv.done
  | cons n rest ih =>
    have selects_iff : selects s n = true ↔ n ∈ s.pendingSignals ∧ n ∉ s.signalMask := by
      have level := inv.level
      rw [selects]
      split
      next frames =>
        rw [frames] at level
        exact level.elim
      next => simp
    rw [Signal.deliver]
    split_ifs with selected
    · obtain ⟨pending, free⟩ := selects_iff.mp selected
      refine inv.call alive free (Finset.disjoint_left.mp inv.pending pending)
        (Finset.erase_subset _ _) ?_ (by rw [if_pos rfl, inv.owed]) fun _ => inv.owed ▸ pending
      intro m member
      obtain ⟨other, member⟩ := Finset.mem_erase.mp member
      exact (inv.settled m member).imp_left fun is =>
        ⟨(List.mem_cons.mp is.1).resolve_left other, is.2⟩
    · refine ih { inv with settled := ?_ }
      intro m member
      refine (inv.settled m member).imp_left fun is => ⟨?_, is.2⟩
      refine (List.mem_cons.mp is.1).resolve_left ?_
      rintro rfl
      exact selected (selects_iff.mpr ⟨member, is.2⟩)

theorem Inv.siginit (inv : Inv s p []) (alive : s.ended = false) : Inv (siginit s) p [] := by
  rw [Signal.siginit]
  split_ifs with init
  · exact inv
  · obtain ⟨frames, mask, pending, -⟩ :=
      (inv.fresh (by simpa using init)).resolve_left (by simp [alive])
    exact { inv with
      covers := mask ▸ inv.covers
      level := by simp [frames, Level]
      mask := Finset.disjoint_empty_left _
      pending := Finset.disjoint_empty_left _
      actions := fun _ => Finset.disjoint_empty_left _
      owed := by rw [inv.owed, pending]
      settled := fun _ member => absurd member (Finset.notMem_empty _)
      fresh := fun none_ => absurd none_ (by simp) }

theorem siginit_frames : (siginit s).frames = s.frames := by
  rw [siginit]
  split_ifs <;> rfl

theorem siginit_ended : (siginit s).ended = s.ended := by
  rw [siginit]
  split_ifs <;> rfl

theorem newMask_disjoint {mask mask' : Sigset} {how : ℤ} {nset : Option Sigset}
    (plain : Disjoint mask unblockable) (is : newMask mask how nset = some mask') :
    Disjoint mask' unblockable := by
  cases nset with
  | none =>
    cases is
    exact plain
  | some nset =>
    rw [newMask] at is
    split_ifs at is with block unblock set_
    all_goals cases is
    · exact Finset.disjoint_union_left.mpr ⟨plain, Finset.sdiff_disjoint⟩
    · exact Finset.disjoint_of_subset_left Finset.sdiff_subset plain
    · exact Finset.sdiff_disjoint

theorem Inv.siginit_mask (inv : Inv s p []) (alive : s.ended = false) :
    (Signal.siginit s).signalMask = s.signalMask := by
  rw [Signal.siginit]
  split_ifs with init
  · rfl
  · obtain ⟨-, mask, -⟩ := (inv.fresh (by simpa using init)).resolve_left (by simp [alive])
    exact mask.symm

theorem siginit_initDone : (siginit s).initDone = true := by
  rw [siginit]
  split_ifs with init
  · exact init
  · rfl

/-- A mask is set, and the loop over all signals is to come. -/
theorem Inv.set (inv : Inv s p []) (init : s.initDone = true) {mask : Sigset} {fs : List Frame}
    {ms : List Mark} (covers : Covers mask ms) (level : Level mask fs) (frames : Matches fs ms)
    (plain : Disjoint mask unblockable)
    (ends : ∀ n ∈ s.pendingSignals, n ∈ mask → Ends fs n) :
    Inv { s with signalMask := mask, frames := fs } { p with running := ms }
      (List.finRange NSIG) :=
  { inv with
    covers := covers
    level := level
    frames := frames
    mask := plain
    settled := by
      intro n member
      by_cases blocked : n ∈ mask
      · exact .inr ⟨.inl blocked, ends n member blocked⟩
      · exact .inl ⟨List.mem_finRange n, blocked⟩
    fresh := fun none_ => absurd (init.symm.trans none_) (by simp) }

theorem Inv.ends (inv : Inv s p []) {n : Signo} (pending : n ∈ s.pendingSignals) :
    Ends s.frames n :=
  (settled_nil.mp (inv.settled n pending)).2

/-- `sigprocmask`, called by the code that runs. -/
theorem Inv.sigprocmask (inv : Inv s p []) (alive : s.ended = false) (calls : Calls s.frames)
    {how : ℤ} {nset : Option Sigset}
    (covers : ∀ mask, newMask s.signalMask how nset = some mask → Covers mask p.running) :
    Inv (sigprocmask s how nset).1 (p.takeAll (sigprocmask s how nset).2) [] := by
  rw [Signal.sigprocmask, inv.siginit_mask alive]
  have inv' := inv.siginit alive
  cases new : newMask s.signalMask how nset with
  | none => exact inv'
  | some mask =>
    rw [← siginit_frames] at calls
    exact (inv'.set siginit_initDone (covers mask new) (calls.level mask) inv'.frames
      (newMask_disjoint inv.mask new) fun n pending _ => inv'.ends pending).deliver
        (siginit_ended.trans alive)

theorem deliver_of_not_selects (rest : List Signo) (none_ : ∀ n ∈ rest, selects s n = false) :
    deliver s rest = done s := by
  induction rest with
  | nil => rfl
  | cons n rest ih =>
    rw [deliver, if_neg (by simp [none_ n List.mem_cons_self])]
    exact ih fun m member => none_ m (List.mem_cons_of_mem n member)

/-- The loop of `sigsuspend` finds no signal: it runs when none of them is pending. -/
theorem sigsuspend_pass {set : Sigset} (pass : sigpending s (s.signalMask \ set) = true) :
    sigsuspend s set =
      (s, [.suspends s.signalMask, .resumes s.signalMask, .returned (.ok 1)]) := by
  have empty : s.pendingSignals ∩ (s.signalMask \ set) = ∅ := by
    simpa [sigpending] using pass
  rw [sigsuspend, if_pos pass, deliver_of_not_selects]
  · rfl
  · intro n member
    have apart : n ∉ s.pendingSignals ∩ (s.signalMask \ set) := empty ▸ Finset.notMem_empty n
    rw [Finset.mem_inter] at apart
    simpa [selects] using apart

theorem Inv.initDone (inv : Inv s p []) (alive : s.ended = false)
    (used : s.frames ≠ [] ∨ s.pendingSignals ≠ ∅) : s.initDone = true := by
  by_contra none_
  obtain ⟨frames, -, pending, -⟩ :=
    (inv.fresh (by simpa using none_)).resolve_left (by simp [alive])
  exact used.elim (fun is => is frames) fun is => is pending

theorem newMask_setmask (mask set : Sigset) :
    newMask mask SIG_SETMASK (some set) = some (set \ unblockable) := rfl

/-- `sigsuspend`. -/
theorem Inv.sigsuspend (inv : Inv s p []) (alive : s.ended = false) (calls : Calls s.frames)
    {set : Sigset}
    (covers : sigpending s (s.signalMask \ set) = false →
      Covers (set \ unblockable) p.running) :
    Inv (sigsuspend s set).1 (p.takeAll (sigsuspend s set).2) [] := by
  cases pass : sigpending s (s.signalMask \ set) with
  | true =>
    rw [sigsuspend_pass pass]
    exact { inv with kept := ⟨inv.kept, rfl⟩ }
  | false =>
    have init : s.initDone = true := by
      refine inv.initDone alive (.inr ?_)
      rintro empty
      simp [sigpending, empty] at pass
    rw [Signal.sigsuspend, if_neg (by simp [pass]), Signal.sigprocmask, Signal.siginit,
      if_pos init]
    have set_ : Inv { s with
          signalMask := set \ unblockable, frames := .suspended s.signalMask .setting :: s.frames }
        { p with running := .suspended s.signalMask :: p.running } (List.finRange NSIG) :=
      inv.set init (covers pass).suspended trivial
        (matches_suspended.mpr ⟨p.running, rfl, inv.covers, inv.mask, calls, inv.frames⟩)
        Finset.sdiff_disjoint fun n pending _ => .inr (inv.ends pending)
    exact set_.deliver alive

/-- A sleep of `sigsuspend` is over. -/
theorem Inv.wake (inv : Inv s p []) (alive : s.ended = false) {old : Sigset} {fs : List Frame}
    (frames : s.frames = .suspended old .waiting :: fs) :
    Inv (wake s old fs).1 (p.takeAll (wake s old fs).2) [] := by
  have init : s.initDone = true := inv.initDone alive (.inl (by simp [frames]))
  obtain ⟨ms, running, covers, plain, calls, marks⟩ := matches_suspended.mp (frames ▸ inv.frames)
  rw [Signal.wake]
  split_ifs with woken
  · rw [Signal.sigprocmask, Signal.siginit, if_pos init]
    have same : old \ unblockable = old := Finset.sdiff_eq_self_of_disjoint plain
    have set_ : Inv { s with signalMask := old, frames := .suspended old .restoring :: fs }
        { p with running := .suspended old :: ms } (List.finRange NSIG) := by
      refine inv.set init covers.suspended rfl
        (matches_suspended.mpr ⟨ms, rfl, covers, plain, calls, marks⟩) plain
        fun n pending blocked => ?_
      have ends := inv.ends pending
      rw [frames] at ends
      exact ends.resolve_left fun free => free blocked
    rw [← running] at set_
    simpa only [newMask_setmask, same] using set_.deliver alive
  · exact inv

/-- A handler returns. -/
theorem Inv.ret (inv : Inv s p []) (alive : s.ended = false) {n : Signo} {body : Voidfun}
    {save : Sigset} {caller : Caller} {fs : List Frame}
    (frames : s.frames = .handler n body save caller :: fs) :
    Inv (ret s n save caller fs).1 (p.takeAll (ret s n save caller fs).2) [] := by
  have init : s.initDone = true := inv.initDone alive (.inl (by simp [frames]))
  obtain ⟨held, ms, running, covers, level, plain, marks⟩ :=
    matches_handler.mp (frames ▸ inv.frames)
  have promise : p.take (.ends n save) =
      { p with running := ms, kept := p.kept ∧ n = n ∧ save = save } := by
    rw [Promise.take, running]
  have back : Inv { s with signalMask := save, frames := fs } (p.take (.ends n save))
      caller.rest := by
    rw [promise]
    exact { inv with
      covers := covers
      level := level
      frames := marks
      mask := plain
      kept := ⟨inv.kept, rfl, rfl⟩
      settled := by
        intro m pending
        have ends := inv.ends pending
        rw [frames] at ends
        exact ends_handler.mp ends
      fresh := fun none_ => absurd (init.symm.trans none_) (by simp) }
  cases caller with
  | raise | event => exact { back with }
  | loop rest => exact back.deliver alive

theorem noBlock_of_unblockable : ∀ n ∈ unblockable, .NOT_SUP ∈ n.flags ∨ n = SIGKILL := by
  decide

theorem signalOf_event :
    ∀ n : Signo, .NOT_SUP ∉ n.flags → signalOf (signals.get n).sigEvent = some n := by
  decide

theorem signalOf_kill : ∀ n : Signo, (signals.get n).sigEvent = EKILL → n = SIGKILL := by
  decide

theorem event_of_signalOf {name : EventName} {n : Signo} (is : signalOf name = some n) :
    (signals.get n).sigEvent = name := by
  simpa using List.find?_some is

/-- The event of a signal is handled: the handler runs, or the signal is pending. -/
theorem Inv.handle (inv : Inv s p []) (alive : s.ended = false) {name : EventName}
    (other : name ≠ EKILL) {caller : Caller} (now : caller.rest = [])
    (ends : ∀ n, signalOf name = some n → n ∈ s.signalMask → Ends s.frames n) :
    Inv (signalEventHandler s name caller).1
      (p.takeAll (signalEventHandler s name caller).2) [] := by
  have back : ∀ q : Promise, q.takeAll caller.back = q := by
    intro q
    cases caller <;> rfl
  rw [signalEventHandler]
  cases is : signalOf name with
  | none => simpa only [back] using inv
  | some n =>
    dsimp only
    split_ifs with unsupported blocked
    · simpa only [back] using inv
    · have plain : n ∉ unblockable := fun member =>
        Finset.disjoint_left.mp inv.mask blocked member
      have promise : p.take (.raised n s.signalMask) = { p with owed := insert n p.owed } := by
        rw [Promise.take, if_pos blocked]
      simp only [Promise.takeAll, List.foldl_cons, promise]
      rw [← Promise.takeAll, back]
      exact { inv with
        pending := Finset.disjoint_insert_left.mpr ⟨plain, inv.pending⟩
        owed := congrArg (insert n) inv.owed
        settled := by
          intro m member
          rcases Finset.mem_insert.mp member with rfl | member
          · exact settled_nil.mpr ⟨.inl blocked, ends m is blocked⟩
          · exact inv.settled m member
        fresh := fun none_ => (inv.fresh none_).imp_right fun is =>
          absurd blocked (by simp [is.2.1]) }
    · have plain : n ∉ unblockable := by
        intro member
        rcases noBlock_of_unblockable n member with no | rfl
        · exact unsupported no
        · exact other ((event_of_signalOf is).symm.trans rfl)
      have promise : p.take (.raised n s.signalMask) = p := by
        rw [Promise.take, if_neg blocked]
      simp only [Promise.takeAll, List.foldl_cons, promise]
      exact inv.call alive blocked plain (subset_refl _)
        (fun m pending => now ▸ inv.settled m pending) inv.owed (by simp)

theorem Inv.end_ (inv : Inv s p []) : Inv { s with ended := true } p [] :=
  { inv with fresh := fun _ => .inl rfl }

/-- An event arrives. -/
theorem Inv.event (inv : Inv s p []) (alive : s.ended = false) {name : EventName}
    (ends : ∀ n, signalOf name = some n → n ∈ s.signalMask → Ends s.frames n) :
    Inv (event s name).1 (p.takeAll (event s name).2) [] := by
  rw [Signal.event]
  split_ifs with over_
  · exact inv.end_
  · exact inv.handle alive (fun is => over_ (.inl is)) rfl ends

theorem signo?_val (n : Signo) : signo? n = some n := by
  rw [signo?, dif_pos ⟨Int.natCast_nonneg _, Int.ofNat_lt.mpr n.isLt⟩]
  simp

/-- `raise`. -/
theorem Inv.raise (inv : Inv s p []) (alive : s.ended = false) {signo : ℤ}
    (ends : ∀ n, signo? signo = some n → n ∈ s.signalMask → Ends s.frames n) :
    Inv (raise s signo).1 (p.takeAll (raise s signo).2) [] := by
  rw [Signal.raise]
  cases is : signo? signo with
  | none => exact inv
  | some n =>
    dsimp only
    split_ifs with unsupported kill
    · exact inv
    · exact inv.end_
    · refine inv.handle alive (fun is => kill (signalOf_kill n is)) rfl fun m is' => ?_
      rw [signalOf_event n unsupported] at is'
      cases is'
      exact ends n is

/-- `sigaction`. -/
theorem Inv.sigaction (inv : Inv s p []) (alive : s.ended = false) {sig : ℤ}
    {act : Option Sigaction} (plain : ∀ a, act = some a → Disjoint a.saMask unblockable) :
    Inv (sigaction s sig act).1 (p.takeAll (sigaction s sig act).2) [] := by
  have inv' := inv.siginit alive
  have set_ : ∀ (n : Signo) (h : Voidfun) (a : Sigaction), act = some a →
      Inv { Signal.siginit s with
        actions := Function.update (Signal.siginit s).actions n ⟨h, a.saMask⟩ } p [] := by
    intro n h a is
    refine { inv' with
      actions := fun m => ?_
      fresh := fun none_ => absurd (siginit_initDone.symm.trans none_) (by simp) }
    by_cases same : m = n
    · subst same
      simpa using plain a is
    · simpa [Function.update_of_ne same] using inv'.actions m
  rw [Signal.sigaction]
  cases signo? sig with
  | none => exact inv
  | some n =>
    by_cases unsupported : .NOT_SUP ∈ n.flags
    · simp only [if_pos unsupported]
      exact inv
    · simp only [if_neg unsupported]
      cases act with
      | none => exact inv'
      | some a =>
        by_cases fixed : .NO_CHANGE ∈ n.flags
        · simp only [if_pos fixed]
          exact inv'
        · simp only [if_neg fixed]
          cases a.saHandler with
          | SIG_IGN =>
            by_cases never : .NO_IGNORE ∈ n.flags
            · simp only [if_pos never]
              exact inv'
            · simp only [if_neg never]
              exact set_ n _ a rfl
          | SIG_DFL => exact set_ n _ a rfl
          | func f => exact set_ n _ a rfl

theorem calls_of_userRuns (runs : s.userRuns = true) : Calls s.frames := by
  rw [State.userRuns] at runs
  split at runs
  next frames => rw [frames]; trivial
  next frames => rw [frames]; trivial
  next => cases runs

/-- **Each step keeps the invariant.** -/
theorem Inv.step (inv : Inv s p []) {i : Input} (met : Meets ⟨s, p⟩ i) {r : Result}
    (is : step s i = some r) : Inv r.1 (p.takeAll r.2) [] := by
  have alive : s.ended = false := by
    by_contra ended
    simp [Signal.step, ended] at is
  simp only [Signal.step, alive, Bool.false_eq_true, if_false] at is
  cases i with
  | call c =>
    simp only [Option.ite_none_right_eq_some, Option.some.injEq] at is
    obtain ⟨runs, rfl⟩ := is
    have calls := calls_of_userRuns runs
    cases c with
    | raise signo => exact inv.raise alive met.1
    | sigaction sig act =>
      refine inv.sigaction alive fun a is => ?_
      subst is
      exact met.2
    | sigprocmask how nset => exact inv.sigprocmask alive calls met.2
    | sigpending set => cases set <;> exact inv
    | sigsuspend set =>
      cases set with
      | none => exact inv
      | some set => exact inv.sigsuspend alive calls met.2
    | pause =>
      refine inv.sigsuspend alive calls fun pass => absurd pass ?_
      simp [sigpending]
  | event name =>
    simp only [Option.ite_none_right_eq_some, Option.some.injEq] at is
    obtain ⟨-, rfl⟩ := is
    exact inv.event alive met.1
  | ret =>
    dsimp only at is
    split at is
    next frames => cases is; exact inv.ret alive frames
    next => cases is
  | wake =>
    dsimp only at is
    split at is
    next frames => cases is; exact inv.wake alive frames
    next => cases is

/-! ## Whole runs -/

/-- A process that starts: nothing runs, and what is pending is blocked. -/
structure Begun (s : State) : Prop where
  frames : s.frames = []
  blocked : s.pendingSignals ⊆ s.signalMask
  mask : Disjoint s.signalMask unblockable
  actions : ∀ n, (s.actions n).sigCurrentMask = ∅

theorem Begun.inv (begun : Begun s)
    (fresh : s.initDone = false → s.ended = true ∨ s.frames = [] ∧ s.signalMask = ∅ ∧
      s.pendingSignals = ∅ ∧ ∀ n, (s.actions n).sigCurrent = .null) :
    Inv s ⟨[], s.pendingSignals, True⟩ [] where
  covers := fun _ _ _ member => absurd member List.not_mem_nil
  level := by rw [begun.frames]; trivial
  frames := by rw [begun.frames]; trivial
  mask := begun.mask
  pending := Finset.disjoint_of_subset_left begun.blocked begun.mask
  actions := fun n => by
    rw [begun.actions n]
    exact Finset.disjoint_empty_left _
  owed := rfl
  kept := trivial
  settled := fun n pending => settled_nil.mpr
    ⟨.inl (begun.blocked pending), by rw [begun.frames]; trivial⟩
  fresh := fresh

theorem Begun.acts (begun : Begun s) (n : Signo) (h : Voidfun) :
    Begun { s with
      actions := Function.update s.actions n { s.actions n with sigCurrent := h } } :=
  { begun with
    actions := by
      intro m
      by_cases same : m = n
      · subst same
        simpa using begun.actions m
      · simpa [Function.update_of_ne same] using begun.actions m }

theorem Begun.blocks (begun : Begun s) {n : Signo} (plain : n ∉ unblockable) :
    Begun { s with signalMask := insert n s.signalMask } :=
  { begun with
    blocked := begun.blocked.trans (Finset.subset_insert _ _)
    mask := Finset.disjoint_insert_left.mpr ⟨plain, begun.mask⟩ }

theorem Begun.pends (begun : Begun s) {n : Signo} (plain : n ∉ unblockable) :
    Begun { s with
      pendingSignals := insert n s.pendingSignals, signalMask := insert n s.signalMask } :=
  { begun.blocks plain with blocked := Finset.insert_subset_insert n begun.blocked }

theorem Begun.decodeSig (begun : Begun s) {n : Signo} {c : Char}
    (plain : n ∈ unblockable → c ∉ ['a', 'c', 'e', 'f']) : Begun (decodeSig s n c) := by
  unfold Signal.decodeSig
  split
  next => exact (begun.pends fun member => plain member (by decide)).acts n _
  next => exact (begun.blocks fun member => plain member (by decide)).acts n _
  next => exact begun.acts n _
  next => exact (begun.pends fun member => plain member (by decide)).acts n _
  next => exact (begun.blocks fun member => plain member (by decide)).acts n _
  next => exact begun.acts n _

theorem decodeSig_initDone (s : State) (n : Signo) (c : Char) :
    (decodeSig s n c).initDone = s.initDone := by
  unfold decodeSig
  split <;> rfl

theorem decodeAll (ns : List Signo) {q : Signo → Char} (begun : Begun s)
    (init : s.initDone = true) (plain : ∀ n ∈ unblockable, q n ∉ ['a', 'c', 'e', 'f']) :
    Begun (ns.foldl (fun s n => decodeSig s n (q n)) s) ∧
      (ns.foldl (fun s n => decodeSig s n (q n)) s).initDone = true := by
  induction ns generalizing s with
  | nil => exact ⟨begun, init⟩
  | cons n ns ih => exact ih (begun.decodeSig (plain n)) ((decodeSig_initDone s n _).trans init)

theorem begun_zero : Begun .zero :=
  ⟨rfl, subset_refl _, Finset.disjoint_empty_left _, fun _ => rfl⟩

theorem begun_siginit : Begun (siginit .zero) :=
  ⟨rfl, subset_refl _, Finset.disjoint_empty_left _, fun _ => rfl⟩

theorem inv_start {from_ : Start} (plain : from_.Plain) :
    Inv (World.start from_).state (World.start from_).promise [] := by
  have init : ∀ {t : State}, t.initDone = true → t.initDone = false → t.ended = true ∨
      t.frames = [] ∧ t.signalMask = ∅ ∧ t.pendingSignals = ∅ ∧
        ∀ n, (t.actions n).sigCurrent = .null :=
    fun done_ none_ => absurd (done_.symm.trans none_) (by simp)
  cases from_ with
  | bare => exact begun_zero.inv fun _ => .inr ⟨rfl, rfl, rfl, fun _ => rfl⟩
  | restored saved =>
    cases saved with
    | none => exact begun_siginit.inv (init rfl)
    | some q =>
      have whole := decodeAll (List.finRange NSIG) begun_siginit rfl plain
      by_cases empty : q 0 = '\x00'
      · have same : State.start (.restored (some q)) = siginit .zero := if_pos empty
        rw [World.start, same]
        exact begun_siginit.inv (init rfl)
      · have same : State.start (.restored (some q)) =
            (List.finRange NSIG).foldl (fun s n => decodeSig s n (q n)) (siginit .zero) :=
          if_neg empty
        rw [World.start, same]
        exact whole.1.inv (init whole.2)

/-- **Signals are delivered as promised in the runs whose steps meet the condition.** -/
theorem signals_right {from_ : Start} (plain : from_.Plain) {w : World}
    (reached : Reaches Meets (World.start from_) w) : Right w := by
  suffices inv : Inv w.state w.promise [] from inv.right
  induction reached with
  | start => exact inv_start plain
  | step reached met step ih =>
    obtain ⟨r, is, rfl⟩ := Option.map_eq_some_iff.mp step
    exact ih.step met is

/-- `SIGUSR1` is blocked and raised. -/
theorem signals_right_raised : ∃ w : World, 10 ∈ w.state.pendingSignals ∧ Right w := by
  have blocks := @Reaches.step Meets (World.start (.restored none)) _ _
    (.call (.sigprocmask SIG_BLOCK (some {10}))) .start
    ⟨fun _ is => is.elim, fun _ _ _ _ _ member => absurd member List.not_mem_nil⟩ rfl
  have raises := @Reaches.step Meets (World.start (.restored none)) _ _ (.call (.raise 10)) blocks
    ⟨fun _ _ _ => trivial, trivial⟩ rfl
  exact ⟨_, by decide, @signals_right (.restored none) trivial _ raises⟩

/-- The worlds that a list of inputs leads to. -/
def World.run : World → List Input → Option World
  | w, [] => some w
  | w, i :: is => (w.step i).bind fun w' => World.run w' is

theorem Reaches.run {w₀ w w' : World} {is : List Input}
    (reached : Reaches (fun _ _ => True) w₀ w) (run : w.run is = some w') :
    Reaches (fun _ _ => True) w₀ w' := by
  induction is generalizing w with
  | nil =>
    cases run
    exact reached
  | cons i is ih =>
    obtain ⟨v, step, run⟩ := Option.bind_eq_some_iff.mp run
    exact ih (reached.step trivial step) run

/-- A program sets a handler for `SIGUSR1`, which raises `SIGUSR1` again when it runs, and
returns. -/
def again : List Input :=
  [.call (.sigaction 10 (some ⟨.func 1, ∅⟩)), .call (.raise 10), .call (.raise 10), .ret]

/-- **The second `SIGUSR1` stays pending and is not delivered, though nothing blocks it.** -/
theorem stays_pending : ¬ ∀ w : World,
    Reaches (fun _ _ => True) (World.start (.restored none)) w → Right w := by
  intro right
  have runs : ((World.start (.restored none)).run again).any (fun w =>
      10 ∈ w.promise.owed && 10 ∉ w.state.signalMask && w.state.frames.isEmpty) = true := by
    decide
  obtain ⟨w, run, is⟩ := (Option.any_eq_true _ _).mp runs
  simp only [Bool.and_eq_true, decide_eq_true_eq, List.isEmpty_iff] at is
  obtain ⟨⟨owed, free⟩, frames⟩ := is
  rcases (right w (Reaches.start.run run)).delivered 10 owed with blocked | due
  · exact free blocked
  · simp [Due, frames] at due

end Vsta.Signal
