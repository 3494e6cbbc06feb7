import Vsta.Basic
import Mathlib.Data.Fintype.Basic
import Mathlib.Data.List.Count
import Mathlib.Logic.Function.Basic
import Mathlib.Tactic.SplitIfs

/-!
# The call of `select`

`lib/select.c` has each descriptor's server post to the select server what happens, and waits for
completions. It keeps what it last got for a descriptor, and answers from there when nothing was
read or written since. A descriptor whose server does not take this is always ready, and then only
such descriptors are.

The loop over the completions never goes on to the next one, so that the first of them is handled as
often as there are completions. `select_right_iff` says what follows: the sets and the count are
right just when the reply whose first completion counts has no other, and no reply before it had one
behind its first that counts.

A set is the function of its bits, and three sets are three memories. The timeout is left out: what
comes after it is in the replies.
-/

set_option autoImplicit false

namespace Vsta.Select

abbrev ACC_UNSUPP : Uint := 8

/-- The elements of `events`. -/
abbrev EVENTS : ℕ := 20

/-- What a descriptor is looked at for. -/
inductive Event where
  | read | write | excep
  deriving DecidableEq

instance : Fintype Event := ⟨{.read, .write, .excep}, fun e => by cases e <;> decide⟩

/-- `ACC_READ`, `ACC_WRITE` and `ACC_EXCEP`. -/
def Event.acc : Event → Uint
  | .read => 4
  | .write => 2
  | .excep => 1

/-- `struct select_complete`. -/
structure SelectComplete where
  scIndex : Uint
  scMask : Uint
  scIocount : ULong
  deriving DecidableEq

/-- `struct cache`. -/
structure Cache where
  cMask : Uint
  cEvent : SelectComplete
  deriving DecidableEq

/-- An entry that was cleared. -/
def Cache.clear : Cache := ⟨0, 0, 0, 0⟩

abbrev FdSet := ℕ → Bool

/-- `rfds`, `wfds` and `efds`. -/
abbrev Sets := Event → Option FdSet

/-- `FD_ISSET`, where there is a set. -/
def Sets.isSet (sets : Sets) (e : Event) (x : ℕ) : Bool :=
  match sets e with
  | some s => s x
  | none => false

/-- `zero`: whole words are cleared. -/
def zero (s : FdSet) (nfd : ℕ) : FdSet := fun x => if x < (nfd + 31) / 32 * 32 then false else s x

/-- The array `events`, as far as it is filled. -/
abbrev Batch := { events : List SelectComplete // events.length ≤ EVENTS }

/-- A message to the select server that fails, or its reply. -/
abbrev Reply := Option Batch

/-- A call: its arguments, the cache, whether the process is new after a fork, the port of each
descriptor with its I/O count, which descriptors have data buffered, which take a `select` message,
and the replies of the select server. -/
structure Call where
  nfd : ℕ
  sets : Sets
  cacheNfd : ℕ
  cache : ℕ → Cache
  forked : Bool
  port : ℕ → Option ℕ
  iocount : ℕ → ULong
  readcount : ℕ → Bool
  setup : ℕ → Bool
  replies : List Reply

/-- An element of `events` outside the array. -/
inductive Fault where
  | outside

abbrev M := Except Fault

/-- The first walk over the descriptors. -/
structure Look where
  cache : ℕ → Cache
  iocount : ℕ → ULong
  unsupp : ℕ
  events : Batch

/-- The walk over a result. -/
structure Scan where
  cache : ℕ → Cache
  iocount : ℕ → ULong
  sets : Sets
  count : ℕ

/-- What a call comes to, with the completions that it has seen. -/
inductive Result where
  | fault
  | slept
  | waiting
  | returned (count : ℤ) (left : Scan) (seen : List SelectComplete)

/-! ## The functions -/

abbrev ULONG_MAX : ℕ := 2 ^ 32 - 1

/-- `within_range`. -/
def withinRange (ours new : ULong) : Bool :=
  if ours ≤ new then (new - ours).toNat < ULONG_MAX / 4
  else (new + (4294967295#32 - ours)).toNat < ULONG_MAX / 4

/-- A count is taken for one that is ahead by less than a quarter of all; of those that have
wrapped, also by a quarter. -/
theorem withinRange_iff (ours new : ULong) : withinRange ours new = true ↔
    (new - ours).toNat < ULONG_MAX / 4 ∨ new < ours ∧ (new - ours).toNat = ULONG_MAX / 4 := by
  rw [withinRange]
  split_ifs with ahead
  · simp only [decide_eq_true_eq]
    bv_omega
  · simp only [decide_eq_true_eq]
    bv_omega

namespace Call

/-- The mask of the events that are asked for. -/
def newmask (call : Call) (x : ℕ) : Uint :=
  (if call.sets.isSet .read x then Event.read.acc else 0) |||
    (if call.sets.isSet .write x then Event.write.acc else 0) |||
    (if call.sets.isSet .excep x then Event.excep.acc else 0)

/-- `__fd_iocount`. -/
def fdIocount (call : Call) (iocount : ℕ → ULong) (fd : ℕ) : ULong :=
  match call.port fd with
  | some p => iocount p
  | none => -1

/-- `__fd_set_iocount`. -/
def fdSetIocount (call : Call) (iocount : ℕ → ULong) (fd : ℕ) (val : ULong) : ℕ → ULong :=
  match call.port fd with
  | some p => Function.update iocount p val
  | none => iocount

/-- `clear_cache` in a new process. -/
def cleared (call : Call) (x : ℕ) : Cache :=
  if call.forked ∧ x < call.cacheNfd then .clear else call.cache x

/-- The cache with the size of the call: the entries above are cleared, or new ones are. -/
def resized (call : Call) (x : ℕ) : Cache :=
  if call.nfd ≤ x ∧ x < call.cacheNfd ∨ call.cacheNfd ≤ x ∧ x < call.nfd then .clear
  else call.cleared x

/-- `events[count++]`. -/
def push (events : Batch) (event : SelectComplete) : M Batch :=
  if room : events.val.length < EVENTS then
    .ok ⟨events.val ++ [event], by rw [List.length_append, List.length_singleton]; exact room⟩
  else .error .outside

/-- The walk, at a descriptor. -/
def look (call : Call) (x : ℕ) (l : Look) : M Look :=
  let newmask := call.newmask x
  let c := l.cache x
  if c.cMask ≠ newmask then
    if newmask = 0 then .ok { l with cache := Function.update l.cache x .clear }
    else if call.setup x then
      .ok { l with
        cache := Function.update l.cache x { c with cMask := newmask }
        iocount := call.fdSetIocount l.iocount x 0 }
    else .ok { l with
      cache := Function.update l.cache x { c with cMask := c.cMask ||| ACC_UNSUPP }
      unsupp := l.unsupp + 1 }
  else if c.cEvent.scMask ≠ 0 ∧ c.cEvent.scIocount = call.fdIocount l.iocount x then do
    let events ← push l.events c.cEvent
    return { l with events := events }
  else if c.cMask &&& Event.read.acc ≠ 0 then
    if call.readcount x then do
      let events ← push l.events
        ⟨BitVec.ofNat 32 x, Event.read.acc, call.fdIocount l.iocount x⟩
      return { l with events := events }
    else .ok l
  else .ok l

/-- The walk, over so many descriptors. -/
def lookTo (call : Call) : ℕ → M Look
  | 0 => .ok ⟨call.resized, call.iocount, 0, ⟨[], Nat.zero_le _⟩⟩
  | x + 1 => do call.look x (← call.lookTo x)

/-- The sets with the descriptors cleared that take `select`. -/
def unsupported (call : Call) (l : Look) : Sets := fun e =>
  (call.sets e).map fun s x =>
    if x < call.nfd ∧ (l.cache x).cMask &&& ACC_UNSUPP = 0 then false else s x

/-- The sets cleared. -/
def zeroed (call : Call) (sets : Sets) : Sets := fun e => (sets e).map fun s => zero s call.nfd

/-- The walk over a result, at a completion. -/
def post (call : Call) (sc : SelectComplete) (s : Scan) : Scan :=
  let fd := sc.scIndex.toNat
  let c := s.cache fd
  let iocount := call.fdIocount s.iocount fd
  if call.nfd ≤ fd then s
  else if sc.scMask &&& c.cMask = 0 then s
  else if sc.scIocount ≠ iocount ∧ !withinRange iocount sc.scIocount then s
  else
    let sets := if s.count = 0 then call.zeroed s.sets else s.sets
    { cache := Function.update s.cache fd { c with cEvent := sc }
      iocount :=
        if sc.scIocount ≠ iocount then call.fdSetIocount s.iocount fd sc.scIocount else s.iocount
      sets := fun e => (sets e).map fun set =>
        if sc.scMask &&& c.cMask &&& e.acc ≠ 0 then Function.update set fd true else set
      count := s.count + 1 }

/-- The walk over a result. `sc` stays at the first completion. -/
def tally (call : Call) (batch : Batch) (s : Scan) : Scan :=
  match batch.val with
  | [] => s
  | sc :: _ => (call.post sc)^[batch.val.length] s

/-- From `retry` on. -/
def retry (call : Call) (s : Scan) (seen : List SelectComplete) : List Reply → Result
  | [] => .waiting
  | none :: _ => .returned (-1) s seen
  | some batch :: rest =>
      if batch.val = [] then .returned 0 { s with sets := call.zeroed s.sets } seen
      else
        let s' := call.tally batch s
        if 0 < s'.count then .returned s'.count s' (seen ++ batch.val)
        else call.retry s' (seen ++ batch.val) rest

/-- `select`. -/
def select (call : Call) : Result :=
  if call.nfd = 0 ∨ ∀ e, call.sets e = none then .slept
  else match call.lookTo call.nfd with
    | .error _ => .fault
    | .ok l =>
        let s : Scan := ⟨l.cache, l.iocount, call.sets, 0⟩
        if 0 < l.unsupp then .returned l.unsupp { s with sets := call.unsupported l } []
        else if l.events.val = [] then call.retry s [] call.replies
        else call.retry s [] (some l.events :: call.replies)

/-! ## What a call should come to -/

/-- The descriptor's mask is not the one its server was told. -/
def Changed (call : Call) (x : ℕ) : Prop := (call.resized x).cMask ≠ call.newmask x

/-- The descriptor is set up anew. -/
def Renewed (call : Call) (x : ℕ) : Prop :=
  call.Changed x ∧ call.newmask x ≠ 0 ∧ call.setup x = true

/-- The descriptor is to be set up, and its server does not take that. -/
def Refused (call : Call) (x : ℕ) : Prop :=
  call.Changed x ∧ call.newmask x ≠ 0 ∧ call.setup x = false

instance (call : Call) (x : ℕ) : Decidable (call.Changed x) := inferInstanceAs (Decidable (_ ≠ _))

instance (call : Call) (x : ℕ) : Decidable (call.Renewed x) := inferInstanceAs (Decidable (_ ∧ _))

instance (call : Call) (x : ℕ) : Decidable (call.Refused x) := inferInstanceAs (Decidable (_ ∧ _))

/-- The I/O counts of the ports after so many descriptors: those set up anew count from 0. -/
def counts (call : Call) (x p : ℕ) : ULong :=
  if ∃ y < x, call.Renewed y ∧ call.port y = some p then 0 else call.iocount p

/-- What is known of a descriptor beforehand: the event it had before, where it is asked for the
same and nothing was read or written since; or that it has data buffered. -/
def cached (call : Call) (x : ℕ) : Option SelectComplete :=
  let event := (call.resized x).cEvent
  let iocount := call.fdIocount (call.counts x) x
  if call.Changed x then none
  else if event.scMask ≠ 0 ∧ event.scIocount = iocount then some event
  else if call.newmask x &&& Event.read.acc ≠ 0 ∧ call.readcount x then
    some ⟨BitVec.ofNat 32 x, Event.read.acc, iocount⟩
  else none

/-- A completion counts for an event: that is asked for, and the completion's count is the one of
its descriptor, or ahead of it. -/
def Reports (call : Call) (sc : SelectComplete) (e : Event) : Prop :=
  sc.scIndex.toNat < call.nfd ∧ call.sets.isSet e sc.scIndex.toNat = true ∧
    sc.scMask &&& e.acc ≠ 0 ∧
    (sc.scIocount = call.fdIocount (call.counts call.nfd) sc.scIndex.toNat ∨
      withinRange (call.fdIocount (call.counts call.nfd) sc.scIndex.toNat) sc.scIocount = true)

/-- A descriptor is ready for an event that is asked for. Where some descriptors do not take
`select`, those are; else those of which a completion says so. -/
def Ready (call : Call) (seen : List SelectComplete) (x : ℕ) (e : Event) : Prop :=
  call.sets.isSet e x = true ∧
    if ∃ y < call.nfd, call.Refused y then call.Refused x
    else ∃ sc ∈ seen, sc.scIndex.toNat = x ∧ call.Reports sc e

instance (call : Call) (sc : SelectComplete) (e : Event) : Decidable (call.Reports sc e) :=
  inferInstanceAs (Decidable (_ ∧ _))

instance (call : Call) (seen : List SelectComplete) (x : ℕ) (e : Event) :
    Decidable (call.Ready seen x e) := inferInstanceAs (Decidable (_ ∧ _))

/-- A call that returns a positive count has in its sets the descriptors that are ready, and has
counted them; and it keeps to the array. -/
def Right (call : Call) : Result → Prop
  | .fault => False
  | .slept | .waiting => True
  | .returned count left seen => 0 < count →
      (∀ e x, left.sets.isSet e x = true → call.sets.isSet e x = true) ∧
      (∀ e, ∀ x < call.nfd, left.sets.isSet e x = true ↔ call.Ready seen x e) ∧
      count = ((List.range call.nfd).countP fun x => ∃ e, call.Ready seen x e : ℕ)

/-- What is known beforehand. -/
def known (call : Call) (x : ℕ) : List SelectComplete := (List.range x).filterMap call.cached

/-- What is known beforehand, if anything is, and then the replies. -/
def batches (call : Call) : List (Option (List SelectComplete)) :=
  (if call.known call.nfd = [] then [] else [some (call.known call.nfd)]) ++
    call.replies.map (Option.map Subtype.val)

/-- The first result whose first completion counts has no other, and in those before it what counts
is no more than what this one reports. -/
def Single (call : Call) (seen : List SelectComplete) :
    List (Option (List SelectComplete)) → Prop
  | [] | none :: _ | some [] :: _ => True
  | some (sc :: more) :: rest =>
      if ∃ e, call.Reports sc e then
        more = [] ∧ ∀ c ∈ seen, ∀ e, call.Reports c e →
          c.scIndex = sc.scIndex ∧ sc.scMask &&& e.acc ≠ 0
      else call.Single (seen ++ sc :: more) rest

/-- The call only sleeps; or no more is known beforehand than the array holds, and some descriptor
does not take `select`, or the results are single. -/
def Fits (call : Call) : Prop :=
  (call.nfd = 0 ∨ ∀ e, call.sets e = none) ∨
    (call.known call.nfd).length ≤ EVENTS ∧
      ((∃ x < call.nfd, call.Refused x) ∨ call.Single [] call.batches)


/-! ## The first walk -/

variable {call : Call}

/-- What the walk leaves of an entry. -/
def kept (call : Call) (x : ℕ) : Cache :=
  let c := call.resized x
  if call.Changed x then
    if call.newmask x = 0 then .clear
    else if call.setup x then { c with cMask := call.newmask x }
    else { c with cMask := c.cMask ||| ACC_UNSUPP }
  else c

/-- What the walk leaves of the cache, after so many descriptors. -/
def cacheTo (call : Call) (n x : ℕ) : Cache := if x < n then call.kept x else call.resized x

theorem cacheTo_self (call : Call) (x : ℕ) : call.cacheTo x x = call.resized x :=
  if_neg (Nat.lt_irrefl x)

theorem cacheTo_succ (call : Call) (x : ℕ) :
    call.cacheTo (x + 1) = Function.update (call.cacheTo x) x (call.kept x) := by
  funext y
  by_cases same : y = x
  · subst same
    rw [Function.update_self, cacheTo, if_pos (Nat.lt_succ_self y)]
  · have iff : y < x + 1 ↔ y < x := by omega
    simp only [Function.update_of_ne same, cacheTo, iff]

theorem kept_unchanged {x : ℕ} (same : ¬ call.Changed x) :
    Function.update (call.cacheTo x) x (call.kept x) = call.cacheTo x := by
  rw [kept, if_neg same, ← call.cacheTo_self x, Function.update_eq_self]

theorem counts_succ (call : Call) (x : ℕ) :
    call.counts (x + 1) =
      if call.Renewed x then call.fdSetIocount (call.counts x) x 0 else call.counts x := by
  funext p
  have split : (∃ y < x + 1, call.Renewed y ∧ call.port y = some p) ↔
      (∃ y < x, call.Renewed y ∧ call.port y = some p) ∨
        call.Renewed x ∧ call.port x = some p := by
    constructor
    · rintro ⟨y, below, renewed⟩
      rcases Nat.lt_succ_iff_lt_or_eq.mp below with before | rfl
      · exact .inl ⟨y, before, renewed⟩
      · exact .inr renewed
    · rintro (⟨y, before, renewed⟩ | renewed)
      · exact ⟨y, by omega, renewed⟩
      · exact ⟨x, by omega, renewed⟩
  simp only [counts, split]
  by_cases renewed : call.Renewed x
  · rw [if_pos renewed, fdSetIocount]
    cases port : call.port x with
    | none => simp [counts]
    | some q =>
        by_cases same : p = q
        · simp [renewed, same]
        · have other : some q ≠ some p := fun eq => same (Option.some.inj eq).symm
          simp [other, Function.update_of_ne same, counts]
  · simp [renewed, counts]

theorem known_succ (call : Call) (x : ℕ) :
    call.known (x + 1) = call.known x ++ (call.cached x).toList := by
  rw [known, List.range_succ, List.filterMap_append, ← known]
  cases h : call.cached x <;> simp [h]

/-- The walk, at a descriptor: what is known of it is pushed. -/
theorem look_eq (call : Call) (x unsupp : ℕ) (events : Batch) :
    call.look x ⟨call.cacheTo x, call.counts x, unsupp, events⟩ =
      (match call.cached x with
        | none => .ok events
        | some event => push events event : M Batch).map
        fun events => ⟨call.cacheTo (x + 1), call.counts (x + 1),
          unsupp + if call.Refused x then 1 else 0, events⟩ := by
  have entry := call.cacheTo_self x
  rw [cacheTo_succ, counts_succ]
  by_cases changed : call.Changed x
  · have differs : (call.resized x).cMask ≠ call.newmask x := changed
    simp only [look, entry, differs, ne_eq, not_false_eq_true, if_true, cached, changed, Except.map,
      kept]
    by_cases nothing : call.newmask x = 0
    · have idle : ¬ call.Renewed x := fun renewed => renewed.2.1 nothing
      have takes : ¬ call.Refused x := fun refused => refused.2.1 nothing
      simp only [nothing, if_true, idle, takes, if_false, Nat.add_zero]
    · by_cases taken : call.setup x = true
      · have renewed : call.Renewed x := ⟨changed, nothing, taken⟩
        have takes : ¬ call.Refused x := fun refused => by simp [Refused, taken] at refused
        simp only [nothing, if_false, taken, if_true, renewed, takes, Nat.add_zero]
      · have idle : ¬ call.Renewed x := fun renewed => taken renewed.2.2
        have refused : call.Refused x := ⟨changed, nothing, by simpa using taken⟩
        simp only [nothing, if_false, taken, idle, refused, if_true, Bool.false_eq_true]
  · have same : (call.resized x).cMask = call.newmask x := by simpa [Changed] using changed
    have idle : ¬ call.Renewed x := fun renewed => changed renewed.1
    have takes : ¬ call.Refused x := fun refused => changed refused.1
    simp only [look, entry, same, ne_eq, not_true_eq_false, if_false, cached, changed,
      kept_unchanged changed, idle, takes, Nat.add_zero]
    by_cases had : ¬ (call.resized x).cEvent.scMask = 0 ∧
        (call.resized x).cEvent.scIocount = call.fdIocount (call.counts x) x
    · simp only [if_pos had]
      cases push events (call.resized x).cEvent <;> rfl
    simp only [if_neg had]
    by_cases buffered : call.newmask x &&& Event.read.acc = 0
    · simp only [buffered, not_true_eq_false, false_and, if_false]
      rfl
    by_cases data : call.readcount x = true
    · simp only [buffered, data, not_false_eq_true, and_self, if_true]
      cases push events ⟨BitVec.ofNat 32 x, Event.read.acc, call.fdIocount (call.counts x) x⟩ <;>
        rfl
    · simp only [buffered, data, not_false_eq_true, and_false, if_false, if_true]
      rfl

/-- The walk collects what is known, as far as there is room. -/
theorem lookTo_eq (call : Call) (x : ℕ) :
    call.lookTo x =
      if room : (call.known x).length ≤ EVENTS then
        .ok ⟨call.cacheTo x, call.counts x, (List.range x).countP fun y => call.Refused y,
          ⟨call.known x, room⟩⟩
      else .error .outside := by
  induction x with
  | zero =>
      have none_ : call.counts 0 = call.iocount := by
        funext p
        simp [counts]
      have all : call.cacheTo 0 = call.resized := by
        funext y
        simp [cacheTo]
      have empty : (call.known 0).length ≤ EVENTS := Nat.zero_le _
      rw [dif_pos empty, none_, all]
      rfl
  | succ x ih =>
      rw [lookTo, ih]
      have size := congrArg List.length (call.known_succ x)
      rw [List.length_append] at size
      by_cases room : (call.known x).length ≤ EVENTS
      swap
      · rw [dif_neg room, dif_neg (by omega)]
        rfl
      rw [dif_pos room]
      have number : ((List.range x).countP fun y => call.Refused y) +
          (if call.Refused x then 1 else 0) =
          (List.range (x + 1)).countP fun y => call.Refused y := by
        rw [List.range_succ, List.countP_append]
        simp [List.countP_cons]
      show call.look x _ = _
      rw [look_eq, number]
      cases is : call.cached x with
      | none =>
          rw [is] at size
          have more : call.known (x + 1) = call.known x := by simp [known_succ, is]
          rw [dif_pos (by rw [more]; exact room)]
          simp only [Except.map, more]
      | some event =>
          rw [is, Option.toList_some, List.length_singleton] at size
          have more : call.known (x + 1) = call.known x ++ [event] := by simp [known_succ, is]
          simp only [push]
          by_cases full : (call.known x).length < EVENTS
          · rw [dif_pos full, dif_pos (by omega)]
            simp only [Except.map, more]
          · rw [dif_neg full, dif_neg (by omega)]
            rfl

/-! ## Masks -/

/-- The mask has the bits of what is asked for. -/
theorem newmask_and (call : Call) (x : ℕ) (e : Event) :
    call.newmask x &&& e.acc = if call.sets.isSet e x then e.acc else 0 := by
  rw [newmask]
  have bits : ∀ r w s : Bool,
      ((if r then Event.read.acc else 0) ||| (if w then Event.write.acc else 0) |||
        (if s then Event.excep.acc else 0)) &&& e.acc =
      if (match e with | .read => r | .write => w | .excep => s) then e.acc else 0 := by
    cases e <;> decide
  rw [bits]
  cases e <;> rfl

theorem newmask_unsupp (call : Call) (x : ℕ) : call.newmask x &&& ACC_UNSUPP = 0 := by
  rw [newmask]
  cases call.sets.isSet .read x <;> cases call.sets.isSet .write x <;>
    cases call.sets.isSet .excep x <;> decide

/-- A mask that meets what is asked for has a bit of it. -/
theorem exists_acc (call : Call) (x : ℕ) (mask : Uint) :
    mask &&& call.newmask x ≠ 0 ↔
      ∃ e, call.sets.isSet e x = true ∧ mask &&& e.acc ≠ 0 := by
  constructor
  · intro meets
    by_contra absent
    have bits : ∀ e : Event,
        mask &&& (if call.sets.isSet e x then e.acc else 0) = 0 := by
      intro e
      split_ifs with asked
      · exact not_not.mp fun bit => absent ⟨e, asked, bit⟩
      · exact BitVec.and_zero
    apply meets
    rw [newmask, BitVec.and_or_distrib_left, BitVec.and_or_distrib_left, bits, bits, bits]
    rfl
  · rintro ⟨e, asked, bit⟩ none_
    apply bit
    have both := call.newmask_and x e
    rw [if_pos asked] at both
    rw [← both, ← BitVec.and_assoc, none_]
    exact BitVec.zero_and

/-- The bits of a completion that are asked for. -/
theorem and_newmask (call : Call) (x : ℕ) (mask : Uint) (e : Event) :
    mask &&& call.newmask x &&& e.acc ≠ 0 ↔
      call.sets.isSet e x = true ∧ mask &&& e.acc ≠ 0 := by
  rw [BitVec.and_assoc, newmask_and]
  split_ifs with asked
  · simp [asked]
  · simp [asked]

theorem kept_refused {x : ℕ} : (call.kept x).cMask &&& ACC_UNSUPP = 0 ↔ ¬ call.Refused x := by
  rw [kept]
  split_ifs with changed nothing taken
  · exact iff_of_true (by decide) fun refused => refused.2.1 nothing
  · exact iff_of_true (call.newmask_unsupp x) fun refused => by simp [Refused, taken] at refused
  · refine iff_of_false ?_ (not_not.mpr ⟨changed, nothing, by simpa using taken⟩)
    rw [BitVec.and_comm, BitVec.and_or_distrib_left, BitVec.and_self]
    intro none_
    exact absurd (BitVec.or_eq_zero_iff.mp none_).2 (by decide)
  · have same : (call.resized x).cMask = call.newmask x := by simpa [Changed] using changed
    exact iff_of_true (same ▸ call.newmask_unsupp x) fun refused => changed refused.1

/-- Where it is not refused, a descriptor's server knows what is asked for. -/
theorem kept_mask {x : ℕ} (takes : ¬ call.Refused x) : (call.kept x).cMask = call.newmask x := by
  rw [kept]
  split_ifs with changed nothing taken
  · exact nothing.symm
  · rfl
  · exact absurd ⟨changed, nothing, by simpa using taken⟩ takes
  · simpa [Changed] using changed

/-! ## The walk over a result -/

/-- What a completion counts as, in a walk that has begun. -/
structure Takes (call : Call) (sc : SelectComplete) (s : Scan) : Prop where
  inside : sc.scIndex.toNat < call.nfd
  mask : (s.cache sc.scIndex.toNat).cMask = call.newmask sc.scIndex.toNat
  asked : sc.scMask &&& call.newmask sc.scIndex.toNat ≠ 0
  ahead : sc.scIocount = call.fdIocount s.iocount sc.scIndex.toNat ∨
    withinRange (call.fdIocount s.iocount sc.scIndex.toNat) sc.scIocount = true

/-- A set with a completion in it, where it counts for the event. -/
def mark (call : Call) (sc : SelectComplete) (e : Event) (set : FdSet) : FdSet :=
  if sc.scMask &&& call.newmask sc.scIndex.toNat &&& e.acc ≠ 0 then
    Function.update set sc.scIndex.toNat true
  else set

/-- The sets with the events of one completion. -/
def only (call : Call) (sc : SelectComplete) : Sets := fun e =>
  (call.sets e).map fun set => call.mark sc e (zero set call.nfd)

/-- The walk before it has come to something. -/
def fresh (call : Call) : Scan := ⟨call.cacheTo call.nfd, call.counts call.nfd, call.sets, 0⟩

variable {sc : SelectComplete} {s : Scan}

theorem fdIocount_set (call : Call) (iocount : ℕ → ULong) (fd : ℕ) (val : ULong) :
    call.fdIocount (call.fdSetIocount iocount fd val) fd =
      if call.port fd = none then call.fdIocount iocount fd else val := by
  cases port : call.port fd with
  | none => simp [fdIocount, fdSetIocount, port]
  | some p => simp [fdIocount, fdSetIocount, port]

/-- A completion that is taken is taken again. -/
theorem Takes.post (takes : call.Takes sc s) :
    call.Takes sc (call.post sc s) ∧ (call.post sc s).count = s.count + 1 ∧
      (call.post sc s).sets = fun e =>
        ((if s.count = 0 then call.zeroed s.sets else s.sets) e).map (call.mark sc e) := by
  have accepted : ¬ (sc.scIocount ≠ call.fdIocount s.iocount sc.scIndex.toNat ∧
      (!withinRange (call.fdIocount s.iocount sc.scIndex.toNat) sc.scIocount) = true) := by
    rintro ⟨differs, behind⟩
    rcases takes.ahead with same | within
    · exact differs same
    · simp [within] at behind
  have inside : ¬ call.nfd ≤ sc.scIndex.toNat := Nat.not_le.mpr takes.inside
  have ahead : ∀ iocount : ℕ → ULong, iocount = (
      if sc.scIocount ≠ call.fdIocount s.iocount sc.scIndex.toNat then
        call.fdSetIocount s.iocount sc.scIndex.toNat sc.scIocount
      else s.iocount) → sc.scIocount = call.fdIocount iocount sc.scIndex.toNat ∨
        withinRange (call.fdIocount iocount sc.scIndex.toNat) sc.scIocount = true := by
    rintro _ rfl
    split_ifs with differs
    · rw [fdIocount_set]
      split_ifs with none_
      · exact takes.ahead
      · exact .inl rfl
    · exact takes.ahead
  refine ⟨⟨takes.inside, ?_, takes.asked, ahead _ ?_⟩, ?_, ?_⟩ <;>
    simp only [Call.post, inside, if_false, takes.mask, takes.asked, accepted, Function.update_self]
  rfl

/-- What one completion does to a set once it was taken, it does not do again. -/
theorem mark_mark (call : Call) (sc : SelectComplete) (e : Event) (set : FdSet) :
    call.mark sc e (call.mark sc e set) = call.mark sc e set := by
  by_cases bit : sc.scMask &&& call.newmask sc.scIndex.toNat &&& e.acc ≠ 0
  · simp only [mark, if_pos bit, Function.update_idem]
  · simp only [mark, if_neg bit]

/-- The walk over a result whose first completion is taken. -/
theorem iterate_post (takes : call.Takes sc call.fresh) (n : ℕ) :
    call.Takes sc ((call.post sc)^[n + 1] call.fresh) ∧
      ((call.post sc)^[n + 1] call.fresh).count = n + 1 ∧
      ((call.post sc)^[n + 1] call.fresh).sets = call.only sc := by
  induction n with
  | zero =>
      obtain ⟨again, count, sets⟩ := takes.post
      refine ⟨again, count, sets.trans ?_⟩
      funext e
      show ((call.sets e).map fun set => zero set call.nfd).map (call.mark sc e) = _
      rw [Option.map_map]
      rfl
  | succ n ih =>
      obtain ⟨again, count, sets⟩ := ih
      obtain ⟨again', count', sets'⟩ := again.post
      rw [Function.iterate_succ_apply']
      refine ⟨again', by rw [count', count], sets'.trans ?_⟩
      funext e
      rw [if_neg (by omega), sets, only, Option.map_map]
      refine congrFun (congrArg Option.map ?_) (call.sets e)
      funext set
      exact call.mark_mark sc e _

/-- A completion is taken just when it counts for an event. -/
theorem takes_fresh (all : ∀ x < call.nfd, ¬ call.Refused x) :
    call.Takes sc call.fresh ↔ ∃ e, call.Reports sc e := by
  constructor
  · intro takes
    obtain ⟨e, asked, bit⟩ := (call.exists_acc _ _).mp takes.asked
    exact ⟨e, takes.inside, asked, bit, takes.ahead⟩
  · rintro ⟨e, inside, asked, bit, ahead⟩
    refine ⟨inside, ?_, (call.exists_acc _ _).mpr ⟨e, asked, bit⟩, ahead⟩
    show (call.cacheTo call.nfd _).cMask = _
    rw [cacheTo, if_pos inside, kept_mask (all _ inside)]

/-- A completion that does not count changes nothing. -/
theorem post_skip (all : ∀ x < call.nfd, ¬ call.Refused x) (skips : ¬ ∃ e, call.Reports sc e) :
    call.post sc call.fresh = call.fresh := by
  have leaves := mt (takes_fresh all).mp skips
  by_cases outside : call.nfd ≤ sc.scIndex.toNat
  · simp only [Call.post, outside, if_true]
  have inside := Nat.not_le.mp outside
  have mask : (call.fresh.cache sc.scIndex.toNat).cMask = call.newmask sc.scIndex.toNat := by
    show (call.cacheTo call.nfd _).cMask = _
    rw [cacheTo, if_pos inside, kept_mask (all _ inside)]
  by_cases nothing : sc.scMask &&& call.newmask sc.scIndex.toNat = 0
  · simp only [Call.post, outside, if_false, mask, nothing, if_true]
  have late : sc.scIocount ≠ call.fdIocount call.fresh.iocount sc.scIndex.toNat ∧
      (!withinRange (call.fdIocount call.fresh.iocount sc.scIndex.toNat) sc.scIocount) = true := by
    by_contra ahead
    refine leaves ⟨inside, mask, nothing, ?_⟩
    by_contra stale
    obtain ⟨differs, behind⟩ := not_or.mp stale
    exact ahead ⟨differs, by simpa using behind⟩
  simp only [Call.post, outside, if_false, mask, nothing, late, and_self, if_true, ne_eq,
    not_false_eq_true]

/-! ## What is returned -/

theorem zero_eq {set : FdSet} {nfd x : ℕ} (below : x < nfd) : zero set nfd x = false :=
  if_pos (by omega)

theorem zero_le {set : FdSet} {nfd x : ℕ} (there : zero set nfd x = true) : set x = true := by
  rw [zero] at there
  split_ifs at there
  exact there

/-- The sets of one completion have its descriptor, for the events it counts for. -/
theorem isSet_only (takes : call.Takes sc call.fresh) (e : Event) {x : ℕ} (below : x < call.nfd) :
    (call.only sc).isSet e x = true ↔ x = sc.scIndex.toNat ∧ call.Reports sc e := by
  have bit := call.and_newmask sc.scIndex.toNat sc.scMask e
  have reports : call.Reports sc e ↔
      sc.scMask &&& call.newmask sc.scIndex.toNat &&& e.acc ≠ 0 := by
    rw [bit]
    exact ⟨fun ⟨_, asked, mask, _⟩ => ⟨asked, mask⟩,
      fun ⟨asked, mask⟩ => ⟨takes.inside, asked, mask, takes.ahead⟩⟩
  rw [reports]
  cases is : call.sets e with
  | none =>
      have unset : (call.only sc).isSet e x = false := by simp [Sets.isSet, only, is]
      have unasked : call.sets.isSet e sc.scIndex.toNat = false := by simp [Sets.isSet, is]
      rw [unset, bit, unasked]
      simp
  | some set =>
      have value : (call.only sc).isSet e x = call.mark sc e (zero set call.nfd) x := by
        simp [Sets.isSet, only, is]
      rw [value, mark]
      split_ifs with counts
      · by_cases same : x = sc.scIndex.toNat
        · rw [same, Function.update_self]
          exact iff_of_true rfl ⟨rfl, counts⟩
        · rw [Function.update_of_ne same, zero_eq below]
          exact iff_of_false Bool.false_ne_true fun both => same both.1
      · rw [zero_eq below]
        exact iff_of_false Bool.false_ne_true fun both => counts both.2

theorem isSet_of_only (e : Event) {x : ℕ} (there : (call.only sc).isSet e x = true) :
    call.sets.isSet e x = true := by
  have bit := call.and_newmask sc.scIndex.toNat sc.scMask e
  cases is : call.sets e with
  | none => simp [Sets.isSet, only, is] at there
  | some set =>
      have value : (call.only sc).isSet e x = call.mark sc e (zero set call.nfd) x := by
        simp [Sets.isSet, only, is]
      rw [value, mark] at there
      split_ifs at there with counts
      · by_cases same : x = sc.scIndex.toNat
        · rw [same]
          exact (bit.mp counts).1
        · rw [Function.update_of_ne same] at there
          simpa [Sets.isSet, is] using zero_le there
      · simpa [Sets.isSet, is] using zero_le there

theorem ready_iff (all : ∀ x < call.nfd, ¬ call.Refused x) (seen : List SelectComplete) (x : ℕ)
    (e : Event) :
    call.Ready seen x e ↔ ∃ sc ∈ seen, sc.scIndex.toNat = x ∧ call.Reports sc e := by
  have takes : ¬ ∃ y < call.nfd, call.Refused y := fun ⟨y, below, refused⟩ => all y below refused
  rw [Ready, if_neg takes]
  refine ⟨And.right, fun reported => ⟨?_, reported⟩⟩
  obtain ⟨sc, -, rfl, reports⟩ := reported
  exact reports.2.1

theorem countP_range_eq {n a : ℕ} {p : ℕ → Prop} [DecidablePred p] (below : a < n)
    (only : ∀ x < n, p x ↔ x = a) : (List.range n).countP (fun x => p x) = 1 := by
  have same : (List.range n).countP (fun x => p x) = (List.range n).count a := by
    refine List.countP_congr fun x member => ?_
    have iff := only x (List.mem_range.mp member)
    simp [iff]
  rw [same, List.count_range, if_pos below]

/-- **What a result comes to** whose first completion counts: it is right where it has no other, and
nothing else that counts was seen. -/
theorem right_returned_iff (all : ∀ x < call.nfd, ¬ call.Refused x)
    (takes : call.Takes sc call.fresh) {left : Scan} {seen more : List SelectComplete}
    (sets : left.sets = call.only sc) :
    call.Right (.returned ((more.length + 1 : ℕ) : ℤ) left (seen ++ sc :: more)) ↔
      more = [] ∧ ∀ c ∈ seen, ∀ e, call.Reports c e →
        c.scIndex = sc.scIndex ∧ sc.scMask &&& e.acc ≠ 0 := by
  obtain ⟨e₀, counts⟩ := (takes_fresh all).mp takes
  have inside := takes.inside
  rw [Right, sets]
  constructor
  · intro right
    obtain ⟨-, exactly, number⟩ := right (Int.natCast_pos.mpr (Nat.succ_pos _))
    have ready : ∀ x < call.nfd, ∀ e, call.Ready (seen ++ sc :: more) x e ↔
        x = sc.scIndex.toNat ∧ call.Reports sc e := fun x below e =>
      (exactly e x below).symm.trans (isSet_only takes e below)
    have one : (List.range call.nfd).countP (fun x => ∃ e, call.Ready (seen ++ sc :: more) x e) =
        1 := by
      refine countP_range_eq inside fun x below =>
        ⟨fun ⟨e, there⟩ => ((ready x below e).mp there).1,
        fun same => ⟨e₀, (ready x below e₀).mpr ⟨same, counts⟩⟩⟩
    rw [one] at number
    refine ⟨List.eq_nil_of_length_eq_zero (by omega), fun c member e reports => ?_⟩
    have there : call.Ready (seen ++ sc :: more) c.scIndex.toNat e :=
      (ready_iff all _ _ e).mpr ⟨c, List.mem_append_left _ member, rfl, reports⟩
    obtain ⟨same, own⟩ := (ready _ reports.1 e).mp there
    exact ⟨BitVec.eq_of_toNat_eq same, own.2.2.1⟩
  · rintro ⟨rfl, within⟩ -
    have ready : ∀ x e, call.Ready (seen ++ [sc]) x e ↔
        x = sc.scIndex.toNat ∧ call.Reports sc e := by
      intro x e
      rw [ready_iff all]
      constructor
      · rintro ⟨c, member, rfl, reports⟩
        rcases List.mem_append.mp member with before | last
        · obtain ⟨same, bit⟩ := within c before e reports
          refine ⟨by rw [same], inside, ?_, bit, takes.ahead⟩
          rw [← same]
          exact reports.2.1
        · obtain rfl := List.mem_singleton.mp last
          exact ⟨rfl, reports⟩
      · rintro ⟨rfl, reports⟩
        exact ⟨sc, List.mem_append_right _ (List.mem_singleton_self sc), rfl, reports⟩
    refine ⟨fun e x => isSet_of_only e, fun e x below => ?_, ?_⟩
    · rw [ready, isSet_only takes e below]
    · rw [countP_range_eq inside fun x _ => ⟨fun ⟨e, there⟩ => ((ready x e).mp there).1,
        fun same => ⟨e₀, (ready x e₀).mpr ⟨same, counts⟩⟩⟩]
      rfl

/-- From `retry` on, a call comes to what is right where its results are single. -/
theorem retry_right_iff (all : ∀ x < call.nfd, ¬ call.Refused x) (replies : List Reply)
    (seen : List SelectComplete) :
    call.Right (call.retry call.fresh seen replies) ↔
      call.Single seen (replies.map (Option.map Subtype.val)) := by
  induction replies generalizing seen with
  | nil => exact iff_of_true trivial trivial
  | cons reply rest ih =>
      cases reply with
      | none => exact iff_of_true (fun positive => absurd positive (by decide)) trivial
      | some batch =>
          obtain ⟨events, few⟩ := batch
          cases events with
          | nil => exact iff_of_true (fun positive => absurd positive (by decide)) trivial
          | cons sc more =>
              have tallied : call.tally ⟨sc :: more, few⟩ call.fresh =
                  (call.post sc)^[more.length + 1] call.fresh := rfl
              simp only [List.map_cons, Option.map_some, Single, retry, tallied,
                List.cons_ne_nil, if_false]
              by_cases counts : ∃ e, call.Reports sc e
              · have takes := (takes_fresh all).mpr counts
                obtain ⟨-, count, sets⟩ := iterate_post takes more.length
                rw [if_pos counts, count, if_pos (Nat.succ_pos _)]
                exact right_returned_iff all takes sets
              · have still := Function.iterate_fixed (post_skip all counts) (more.length + 1)
                rw [if_neg counts, still]
                exact ih _

/-- Where some descriptors do not take `select`, those are returned. -/
theorem right_unsupported {l : Look} {left : Scan} (cache : l.cache = call.cacheTo call.nfd)
    (unsupp : l.unsupp = (List.range call.nfd).countP fun x => call.Refused x)
    (some_ : ∃ x < call.nfd, call.Refused x) (sets : left.sets = call.unsupported l) :
    call.Right (.returned l.unsupp left []) := by
  have value : ∀ e x, left.sets.isSet e x =
      if x < call.nfd ∧ ¬ call.Refused x then false else call.sets.isSet e x := by
    intro e x
    rw [sets]
    have takes : x < call.nfd ∧ (l.cache x).cMask &&& ACC_UNSUPP = 0 ↔
        x < call.nfd ∧ ¬ call.Refused x := by
      refine and_congr_right fun below => ?_
      rw [cache, cacheTo, if_pos below, kept_refused]
    cases is : call.sets e with
    | none => simp [Sets.isSet, unsupported, is]
    | some set => simp only [Sets.isSet, unsupported, is, Option.map_some, takes]
  have ready : ∀ x e, call.Ready [] x e ↔ call.sets.isSet e x = true ∧ call.Refused x := by
    intro x e
    rw [Ready, if_pos some_]
  rw [Right]
  refine fun _ => ⟨fun e x there => ?_, fun e x below => ?_, ?_⟩
  · rw [value] at there
    split_ifs at there
    exact there
  · rw [value, ready]
    by_cases refused : call.Refused x <;> simp [below, refused]
  · rw [unsupp]
    refine congrArg Nat.cast (List.countP_congr fun x _ => ?_)
    simp only [decide_eq_true_eq, ready]
    refine ⟨fun refused => ?_, fun ⟨_, _, refused⟩ => refused⟩
    have asked : (-1 : Uint) &&& call.newmask x ≠ 0 := by
      rw [show (-1 : Uint) = BitVec.allOnes 32 from rfl, BitVec.allOnes_and]
      exact refused.2.1
    obtain ⟨e, is, -⟩ := (call.exists_acc x _).mp asked
    exact ⟨e, is, refused⟩

end Call

/-- **What `select` returns is right** just when its results are single. For every call, with every
cache and all replies of the select server, the sets that are returned with a positive count are the
descriptors that are ready for what was asked, the count is their number, and no element outside the
array of events is used, if and only if: no more is known beforehand than the array holds, and,
where all descriptors take `select`, the first result whose first completion counts has no other,
and no result before it had more that counts than this one reports. -/
theorem select_right_iff (call : Call) : call.Right call.select ↔ call.Fits := by
  rw [Call.select, Call.Fits]
  by_cases sleeps : call.nfd = 0 ∨ ∀ e, call.sets e = none
  · rw [if_pos sleeps]
    exact iff_of_true trivial (.inl sleeps)
  rw [if_neg sleeps, call.lookTo_eq, or_iff_right sleeps]
  by_cases room : (call.known call.nfd).length ≤ EVENTS
  swap
  · rw [dif_neg room]
    exact iff_of_false id fun fits => room fits.1
  rw [dif_pos room, and_iff_right room]
  by_cases some_ : ∃ x < call.nfd, call.Refused x
  · have positive : 0 < (List.range call.nfd).countP fun y => call.Refused y := by
      obtain ⟨x, below, refused⟩ := some_
      exact List.countP_pos_iff.mpr ⟨x, List.mem_range.mpr below, by simpa using refused⟩
    simp only [positive, if_true]
    exact iff_of_true (@Call.right_unsupported call ⟨call.cacheTo call.nfd, call.counts call.nfd, _,
      ⟨call.known call.nfd, room⟩⟩ _ rfl rfl some_ rfl) (.inl some_)
  · have all : ∀ x < call.nfd, ¬ call.Refused x := fun x below refused => some_ ⟨x, below, refused⟩
    have zero_ : ((List.range call.nfd).countP fun y => call.Refused y) = 0 := by
      refine List.countP_eq_zero.mpr fun x member => ?_
      simpa using all x (List.mem_range.mp member)
    rw [or_iff_right some_, Call.batches]
    simp only [zero_, Nat.lt_irrefl, if_false]
    by_cases nothing : call.known call.nfd = []
    · simp only [nothing, if_true, List.nil_append]
      exact Call.retry_right_iff all call.replies []
    · simp only [nothing, if_false, List.singleton_append]
      exact Call.retry_right_iff all (some ⟨_, room⟩ :: call.replies) []

/-- Two descriptors are looked at for reading, as they were before; and both become readable. -/
def both : Call where
  nfd := 2
  sets e := if e = .read then some fun _ => true else none
  cacheNfd := 2
  cache _ := ⟨4, 0, 0, 0⟩
  forked := false
  port := some
  iocount _ := 0
  readcount _ := false
  setup _ := true
  replies := [some ⟨[⟨0, 4, 1⟩, ⟨1, 4, 1⟩], by decide⟩]

/-- **A descriptor that is left out**: the first of two completions is handled twice, and the second
one's descriptor is not in the set, though it is readable and the count is 2. -/
theorem second_left_out : ¬ both.Right both.select := by
  intro right
  have ready : both.Ready [⟨0, 4, 1⟩, ⟨1, 4, 1⟩] 1 .read := by decide
  obtain ⟨-, exactly, -⟩ := right (by decide)
  exact absurd ((exactly .read 1 (by decide)).mpr ready) (by decide)

end Vsta.Select
