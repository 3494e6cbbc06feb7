import Mathlib.Logic.Function.Basic
import Mathlib.Data.List.Nodup
import Mathlib.Tactic.SplitIfs

/-!
# Postings that supersede each other

Items are posted to receivers under a key. A posting replaces the one that is pending under its key,
and a delivery takes a pending one away. `Mailbox` keeps what is pending, and whether something was
delivered that was not. A queue `Holds` a receiver's postings if it has each of them once and
nothing else.
-/

set_option autoImplicit false

namespace Service

/-- What was posted and not delivered. `astray` records a delivery of something else. -/
structure Mailbox (Who Key Item : Type*) where
  pending : Who → Key → Option Item
  astray : Bool

namespace Mailbox

variable {Who Key Item : Type*} [DecidableEq Who] [DecidableEq Key] [DecidableEq Item]
  {box : Mailbox Who Key Item} {who other : Who} {key : Item → Key} {items queue : List Item}
  {item : Item}

/-- A posting takes the place of the one that was pending. -/
def post (box : Mailbox Who Key Item) (who : Who) (k : Key) (item : Item) :
    Mailbox Who Key Item :=
  { box with
    pending := Function.update box.pending who
      (Function.update (box.pending who) k (some item)) }

/-- A delivery. -/
def deliver (key : Item → Key) (who : Who) (box : Mailbox Who Key Item) (item : Item) :
    Mailbox Who Key Item :=
  if box.pending who (key item) = some item then
    { box with
      pending := Function.update box.pending who
        (Function.update (box.pending who) (key item) none) }
  else { box with astray := true }

/-- A receiver goes, or comes. -/
def forget (box : Mailbox Who Key Item) (who : Who) : Mailbox Who Key Item :=
  { box with pending := Function.update box.pending who fun _ => none }

/-- The queue has the pending items of a receiver, each once. -/
structure Holds (box : Mailbox Who Key Item) (key : Item → Key) (who : Who) (queue : List Item) :
    Prop where
  once : (queue.map key).Nodup
  pending : ∀ k item, box.pending who k = some item ↔ item ∈ queue ∧ key item = k

omit [DecidableEq Key] [DecidableEq Item] in
theorem forget_holds : (box.forget who).Holds key who [] := by
  refine ⟨List.nodup_nil, fun k item => ?_⟩
  simp [forget]

omit [DecidableEq Item] in
/-- A posting is held by a queue that has it in place of the items under its key. -/
theorem Holds.post (holds : box.Holds key who queue) {queue' : List Item}
    (once : (queue'.map key).Nodup)
    (members : ∀ d, d ∈ queue' ↔ d = item ∨ d ∈ queue ∧ key d ≠ key item) :
    (box.post who (key item) item).Holds key who queue' := by
  refine ⟨once, fun k d => ?_⟩
  rw [members, Mailbox.post]
  simp only [Function.update_self, Function.update_apply]
  split_ifs with same
  · subst same
    constructor
    · intro is
      exact ⟨.inl (Option.some.inj is).symm, by rw [Option.some.inj is]⟩
    · rintro ⟨rfl | ⟨-, differ⟩, same⟩
      · rfl
      · exact absurd same differ
  · rw [holds.pending]
    constructor
    · rintro ⟨inside, rfl⟩
      exact ⟨.inr ⟨inside, same⟩, rfl⟩
    · rintro ⟨rfl | ⟨inside, -⟩, rfl⟩
      · exact absurd rfl same
      · exact ⟨inside, rfl⟩

/-- The first of the queue is delivered. -/
theorem Holds.deliver (holds : box.Holds key who (item :: queue)) :
    (box.deliver key who item).Holds key who queue ∧
      (box.deliver key who item).astray = box.astray := by
  have here : box.pending who (key item) = some item :=
    (holds.pending _ _).mpr ⟨List.mem_cons_self, rfl⟩
  obtain ⟨fresh, once⟩ := List.nodup_cons.mp holds.once
  rw [Mailbox.deliver, if_pos here]
  refine ⟨⟨once, fun k d => ?_⟩, rfl⟩
  simp only [Function.update_self, Function.update_apply]
  split_ifs with same
  · subst same
    constructor
    · exact nofun
    · rintro ⟨inside, same⟩
      exact absurd (List.mem_map.mpr ⟨d, inside, same⟩) fresh
  · rw [holds.pending]
    constructor
    · rintro ⟨inside, rfl⟩
      rcases List.mem_cons.mp inside with rfl | inside
      · exact absurd rfl same
      · exact ⟨inside, rfl⟩
    · rintro ⟨inside, rfl⟩
      exact ⟨List.mem_cons_of_mem _ inside, rfl⟩

/-- **Items from the front of the queue are delivered, and none of them goes astray.** -/
theorem Holds.deliverAll (holds : box.Holds key who (items ++ queue)) :
    (items.foldl (Mailbox.deliver key who) box).Holds key who queue ∧
      (items.foldl (Mailbox.deliver key who) box).astray = box.astray := by
  induction items generalizing box with
  | nil => exact ⟨holds, rfl⟩
  | cons item items ih =>
      obtain ⟨next, same⟩ := Holds.deliver holds
      obtain ⟨last, same'⟩ := ih next
      exact ⟨last, same'.trans same⟩

/-! ## Other receivers -/

omit [DecidableEq Who] [DecidableEq Key] [DecidableEq Item] in
theorem Holds.congr {box' : Mailbox Who Key Item} (holds : box.Holds key who queue)
    (same : box'.pending who = box.pending who) : box'.Holds key who queue :=
  ⟨holds.once, fun k item => by rw [same]; exact holds.pending k item⟩

omit [DecidableEq Item] in
theorem post_other {k : Key} (differ : other ≠ who) :
    (box.post who k item).pending other = box.pending other :=
  Function.update_of_ne differ _ _

omit [DecidableEq Key] [DecidableEq Item] in
theorem forget_other (differ : other ≠ who) :
    (box.forget who).pending other = box.pending other :=
  Function.update_of_ne differ _ _

theorem deliverAll_other (differ : other ≠ who) :
    (items.foldl (Mailbox.deliver key who) box).pending other = box.pending other := by
  induction items generalizing box with
  | nil => rfl
  | cons item items ih =>
      rw [List.foldl_cons, ih, Mailbox.deliver]
      split_ifs
      · exact Function.update_of_ne differ _ _
      · rfl

end Mailbox

end Service
