import Vsta.ResourceMap.FreeSet

/-!
# Every run of a resource map

A resource map and `lost_elems` under any sequence of `rmap_alloc`, `rmap_free` and
`rmap_grab`. `rmap_grab` adds the size to the offset in 32 bits and compares the sum, so a
range that wraps around is taken for one that is free (`grab_wraps`). In every run whose
ranges do not wrap the map is a set of integers (`rmap_refines_set`).
-/

set_option autoImplicit false

namespace Vsta.ResourceMap

/-- A call on the map. -/
inductive Call where
  | alloc (size : Uint)
  | free (off size : Uint)
  | grab (off size : Uint)
  deriving DecidableEq, Repr

/-- The map and `lost_elems`. -/
structure Store where
  rmap : Rmap
  lostElems : ULong
  deriving DecidableEq, Repr

namespace Store

/-- A map that has just been initialized. -/
def start (size : Uint) : Store := ⟨rmapInit size, 0⟩

/-- The integers that are free. -/
abbrev free (s : Store) : Set ℕ := ResourceMap.free s.rmap.slots

/-- The state a call leaves. -/
def exec (s : Store) : Call → Store
  | .alloc size => { s with rmap := (rmapAlloc s.rmap size).2 }
  | .free off size => ⟨(rmapFree s.rmap s.lostElems off size).1,
      (rmapFree s.rmap s.lostElems off size).2⟩
  | .grab off size => ⟨(rmapGrab s.rmap s.lostElems off size).2.1,
      (rmapGrab s.rmap s.lostElems off size).2.2⟩

/-- The calls a user of the map makes: something is allocated, and what is freed was
not free. -/
def Legal (s : Store) : Call → Prop
  | .alloc size => 0 < size.toNat
  | .free off size => Disjoint (range off size) s.free
  | .grab _ _ => True

/-- A well-formed map: sound slots, at most `r_size` of them. -/
structure WellFormed (s : Store) : Prop where
  sound : Sound s.rmap.slots
  length : s.rmap.slots.length ≤ s.rmap.rSize.toNat

/-- The call does to the free integers what its name says. -/
def Agrees (s : Store) : Call → Prop
  | .alloc size =>
      let idx := (rmapAlloc s.rmap size).1
      (idx = 0 → (∀ r ∈ s.rmap.slots, r.rSize < size) ∧ s.exec (.alloc size) = s) ∧
        (idx ≠ 0 → range idx size ⊆ s.free ∧
          (s.exec (.alloc size)).free = s.free \ range idx size)
  | .free off size =>
      let after := s.exec (.free off size)
      (after.free = s.free ∪ range off size ∧ after.lostElems = s.lostElems) ∨
        (s.rmap.slots.length = s.rmap.rSize.toNat ∧ after.rmap = s.rmap ∧
          after.lostElems = s.lostElems + size)
  | .grab off size =>
      let error := (rmapGrab s.rmap s.lostElems off size).1
      let after := s.exec (.grab off size)
      (error = 0 ↔ range off size ⊆ s.free) ∧
        (error = 0 → ∃ low ≤ off.toNat,
          after.free = s.free \ Set.Ico low (off.toNat + size.toNat) ∧
          after.lostElems = s.lostElems + BitVec.ofNat 32 (off.toNat - low) ∧
          (low < off.toNat → s.rmap.slots.length = s.rmap.rSize.toNat)) ∧
        (error ≠ 0 → after = s)

end Store

/-- One legal call. -/
def Step (s : Store) (call : Call) (t : Store) : Prop := s.Legal call ∧ t = s.exec call

/-- The ranges of the call do not wrap: what is freed lies above 0 and below `2 ^ 32`, as
`rmap_free` asserts, and what is grabbed fits. -/
def Fits (s : Store) : Call → Prop
  | .alloc _ => True
  | .free off size => 0 < off.toNat ∧ 0 < size.toNat ∧ off.toNat + size.toNat ≤ 2 ^ 32
  | .grab off size => GrabFits s.rmap.slots off size

theorem full_iff (rmap : Rmap) : rmap.full = true ↔ rmap.slots.length = rmap.rSize.toNat := by
  rw [Rmap.full, beq_iff_eq, eq_comm]

/-- Room for one more slot, unless the map is full. -/
theorem length_le_of_room (rmap : Rmap) {slots : List Slot}
    (bound : rmap.slots.length ≤ rmap.rSize.toNat)
    (longer : slots.length ≤ rmap.slots.length + (!rmap.full).toNat) :
    slots.length ≤ rmap.rSize.toNat := by
  by_cases full : rmap.full = true
  · simp only [full, Bool.not_true, Bool.toNat_false] at longer
    omega
  · have different := mt (full_iff rmap).mpr full
    simp only [Bool.not_eq_true] at full
    simp only [full, Bool.not_false, Bool.toNat_true] at longer
    omega

theorem wellFormed_start (size : Uint) : (Store.start size).WellFormed :=
  ⟨sound_nil, Nat.zero_le _⟩

theorem alloc_agrees {s : Store} (formed : s.WellFormed) (size : Uint) :
    s.Agrees (.alloc size) ∧ (s.exec (.alloc size)).WellFormed := by
  have spec := allocFrom_spec size formed.sound
  simp only [Store.Agrees, Store.exec, rmapAlloc]
  cases scan : allocFrom size s.rmap.slots with
  | none =>
      rw [scan] at spec
      exact ⟨⟨fun _ => ⟨spec, rfl⟩, fun found => absurd rfl found⟩, formed⟩
  | some result =>
      rw [scan] at spec
      obtain ⟨low, removes⟩ := spec
      refine ⟨⟨fun failed => ?_, fun _ => ⟨removes.free, removes.left⟩⟩, removes.sound,
        removes.length.trans formed.length⟩
      rw [failed] at low
      exact absurd low (by simp)

theorem free_agrees {s : Store} (formed : s.WellFormed) {off size : Uint}
    (legal : s.Legal (.free off size)) (fits : Fits s (.free off size)) :
    s.Agrees (.free off size) ∧ (s.exec (.free off size)).WellFormed := by
  obtain ⟨low, positive, high⟩ := fits
  have spec := freeFrom_spec s.rmap.full formed.sound low positive high legal
  simp only [Store.Agrees, Store.exec, rmapFree]
  cases scan : freeFrom s.rmap.full off size s.rmap.slots with
  | none =>
      rw [scan] at spec
      exact ⟨.inr ⟨(full_iff _).mp spec, rfl, rfl⟩, formed.sound, formed.length⟩
  | some after =>
      rw [scan] at spec
      exact ⟨.inl ⟨spec.free, rfl⟩, spec.sound, length_le_of_room s.rmap formed.length spec.length⟩

theorem grab_agrees {s : Store} (formed : s.WellFormed) {off size : Uint}
    (fits : Fits s (.grab off size)) :
    s.Agrees (.grab off size) ∧ (s.exec (.grab off size)).WellFormed := by
  have spec := grabFrom_spec s.rmap.full formed.sound fits
  simp only [Store.Agrees, Store.exec, rmapGrab]
  cases scan : grabFrom s.rmap.full off size s.rmap.slots with
  | none =>
      rw [scan] at spec
      dsimp only
      exact ⟨⟨⟨fun error => absurd error one_ne_zero, fun inside => absurd inside spec⟩,
        fun error => absurd error one_ne_zero, fun _ => rfl⟩, formed⟩
  | some result =>
      obtain ⟨after, lost⟩ := result
      rw [scan] at spec
      obtain ⟨low, below, removes, space, full⟩ := spec
      have whole : range off size ⊆ s.free := fun x inside =>
        removes.free ⟨below.trans inside.1, inside.2⟩
      refine ⟨⟨⟨fun _ => whole, fun _ => rfl⟩, fun _ => ⟨low, below, removes.left, ?_, ?_⟩,
        fun error => absurd rfl error⟩, removes.sound, length_le_of_room s.rmap formed.length removes.length⟩
      · rw [← space, BitVec.ofNat_toNat, BitVec.setWidth_eq]
      · exact fun less => (full_iff _).mp (full less)

theorem call_agrees {s : Store} (formed : s.WellFormed) {call : Call} (legal : s.Legal call)
    (fits : Fits s call) : s.Agrees call ∧ (s.exec call).WellFormed := by
  cases call with
  | alloc size => exact alloc_agrees formed size
  | free off size => exact free_agrees formed legal fits
  | grab off size => exact grab_agrees formed fits

theorem wellFormed_reaches {size : Uint} {s : Store}
    (run : Transition.Reaches Step Fits (Store.start size) s) : s.WellFormed := by
  refine run.invariant (wellFormed_start size) fun source call target formed fits step => ?_
  obtain ⟨legal, rfl⟩ := step
  exact (call_agrees formed legal fits).2

/-- **A resource map is a set of integers.** In every run whose ranges do not wrap the slots
are non-empty, ascending, disjoint and not adjacent, at most `r_size` of them, and every
call does to the free integers what its name says. -/
theorem rmap_refines_set {size : Uint} {s : Store}
    (run : Transition.Reaches Step Fits (Store.start size) s) :
    s.WellFormed ∧ ∀ call, s.Legal call → Fits s call → s.Agrees call :=
  have formed := wellFormed_reaches run
  ⟨formed, fun _ legal fits => (call_agrees formed legal fits).1⟩

instance (slots : List Slot) (off size : Uint) : Decidable (GrabFits slots off size) :=
  inferInstanceAs (Decidable (_ ∧ ∀ r ∈ slots, _ → _ → _))

/-- A map of 20 elements with the integers from 10 to 29 free. -/
def twenty : Store := (Store.start 20).exec (.free 10 20)

theorem twenty_step : Step (Store.start 20) (.free 10 20) twenty :=
  ⟨by simp [Store.Legal, Store.free, Store.start, rmapInit], rfl⟩

/-- Three integers from the middle of a slot. -/
theorem rmap_refines_set_twenty : twenty.WellFormed ∧ twenty.Agrees (.grab 15 3) := by
  have run : Transition.Reaches Step Fits (Store.start 20) twenty :=
    (Transition.Reaches.refl _).tail
      (show Fits (Store.start 20) (.free 10 20) from ⟨by decide, by decide, by decide⟩) twenty_step
  have refines := rmap_refines_set run
  exact ⟨refines.1, refines.2 (.grab 15 3) trivial
    (show GrabFits twenty.rmap.slots 15 3 by decide)⟩

/-- **A range that wraps around is granted.** From 15 on there are 15 free integers, and a request
for all but ten of the 32-bit integers succeeds and leaves slots that are not ascending. -/
theorem grab_wraps : ∃ s t, Transition.Reaches Step Transition.Any (Store.start 20) s ∧
    Step s (.grab 15 0xfffffff6) t ∧ (rmapGrab s.rmap s.lostElems 15 0xfffffff6).1 = 0 ∧
    ¬range 15 0xfffffff6 ⊆ s.free ∧ ¬t.WellFormed := by
  refine ⟨twenty, twenty.exec (.grab 15 0xfffffff6),
    (Transition.Reaches.refl _).tail trivial twenty_step,
    ⟨trivial, rfl⟩, by decide, fun inside => ?_, fun formed => ?_⟩
  · have last : 100 ∈ range 15 0xfffffff6 := by
      rw [mem_range]; decide
    have held := inside last
    have slots : twenty.rmap.slots = [⟨10, 20⟩] := by decide
    rw [Store.free, slots, free_cons, free_nil, Set.union_empty, mem_slot] at held
    exact absurd held (by decide)
  · have slots : (twenty.exec (.grab 15 0xfffffff6)).rmap.slots = [⟨10, 5⟩, ⟨5, 25⟩] := by decide
    have ascending := formed.sound.apart.2
    rw [slots] at ascending
    exact absurd ascending (by decide)

end Vsta.ResourceMap
