import Mathlib.Data.Set.Card
import Mathlib.Order.Interval.Set.Nat
import Vsta.Library.Extents

/-!
# Runs that are handed out

A list of extents, in no order, whose runs are non-empty and pairwise disjoint (`Separate`). Part of
one run can be given back (`punch`): what is left of the list covers the other points. On the
natural numbers the runs of a list that is `Apart` have as many points as their lengths add up to
(`ncard_cells`).
-/

set_option autoImplicit false

namespace Extents

variable {α : Type*} [LinearOrder α]

/-- Non-empty runs, no two of which meet. -/
def Separate (es : List (Extent α)) : Prop :=
  (∀ e ∈ es, e.start < e.stop) ∧ es.Pairwise fun e f => Disjoint e.cells f.cells

/-- One run lies in another. -/
def Extent.Within (hole e : Extent α) : Prop := e.start ≤ hole.start ∧ hole.stop ≤ e.stop

instance (hole e : Extent α) : Decidable (hole.Within e) := inferInstanceAs (Decidable (_ ∧ _))

/-- What is left of a run in which there is a hole. -/
def Extent.rest (hole e : Extent α) : List (Extent α) :=
  [⟨e.start, hole.start⟩, ⟨hole.stop, e.stop⟩].filter fun piece => piece.start < piece.stop

/-- Part of one run is given back. -/
def punch (hole : Extent α) (es : List (Extent α)) : List (Extent α) :=
  es.flatMap fun e => if hole.Within e then hole.rest e else [e]

variable {hole e : Extent α} {es : List (Extent α)}

theorem separate_nil : Separate ([] : List (Extent α)) := ⟨by simp, .nil⟩

theorem separate_cons :
    Separate (e :: es) ↔ e.start < e.stop ∧ Disjoint e.cells (cells es) ∧ Separate es := by
  rw [Separate, List.pairwise_cons, Separate]
  constructor
  · rintro ⟨nonempty, apart, rest⟩
    refine ⟨nonempty e List.mem_cons_self, Set.disjoint_left.mpr ?_,
      fun f member => nonempty f (List.mem_cons_of_mem _ member), rest⟩
    rintro x here ⟨f, member, there⟩
    exact Set.disjoint_left.mp (apart f member) here there
  · rintro ⟨nonempty, apart, rest⟩
    refine ⟨fun f member => ?_, fun f member => apart.mono_right (mem_cells_of_mem member), rest.2⟩
    rcases List.mem_cons.mp member with rfl | later
    · exact nonempty
    · exact rest.1 f later

theorem Extent.Within.subset (within : hole.Within e) : hole.cells ⊆ e.cells :=
  Set.Ico_subset_Ico within.1 within.2

/-- The pieces of a run cover what the hole does not. -/
theorem cells_rest (nonempty : hole.start < hole.stop) (within : hole.Within e) :
    cells (hole.rest e) = e.cells \ hole.cells := by
  obtain ⟨low, high⟩ := within
  ext x
  simp only [cells, Extent.rest, List.mem_filter, List.mem_cons, List.not_mem_nil, or_false,
    decide_eq_true_eq, Set.mem_ofPred_eq, Set.mem_sdiff, mem_extent, not_and, not_lt]
  constructor
  · rintro ⟨piece, ⟨rfl | rfl, -⟩, from_, below⟩
    · exact ⟨⟨from_, below.trans_le (nonempty.le.trans high)⟩, fun past => absurd below past.not_gt⟩
    · exact ⟨⟨low.trans (nonempty.le.trans from_), below⟩, fun _ => from_⟩
  · rintro ⟨⟨from_, below⟩, outside⟩
    by_cases past : hole.start ≤ x
    · have later := outside past
      exact ⟨_, ⟨.inr rfl, later.trans_lt below⟩, later, below⟩
    · have before := not_le.mp past
      exact ⟨_, ⟨.inl rfl, from_.trans_lt before⟩, from_, before⟩

theorem separate_rest (nonempty : hole.start < hole.stop) : Separate (hole.rest e) := by
  refine ⟨fun piece member => of_decide_eq_true (List.mem_filter.mp member).2, List.Pairwise.filter _ ?_⟩
  simp only [List.pairwise_cons, List.mem_singleton, List.not_mem_nil, false_implies, implies_true,
    List.Pairwise.nil, and_true, forall_eq]
  exact Set.disjoint_left.mpr fun x first second =>
    absurd (first.2.trans nonempty) (not_lt.mpr second.1)

/-- A run that does not meet the hole stays. -/
theorem punch_cons (hole e : Extent α) (es : List (Extent α)) :
    punch hole (e :: es) = (if hole.Within e then hole.rest e else [e]) ++ punch hole es :=
  List.flatMap_cons ..

/-- Every piece is part of a run that was there. -/
theorem mem_punch {piece : Extent α} (member : piece ∈ punch hole es)
    (nonempty : hole.start < hole.stop) : ∃ e ∈ es, piece.cells ⊆ e.cells := by
  obtain ⟨e, inside, among⟩ := List.mem_flatMap.mp member
  refine ⟨e, inside, ?_⟩
  split_ifs at among with within
  · exact (mem_cells_of_mem among).trans ((cells_rest nonempty within).trans_subset Set.sdiff_subset)
  · rw [List.mem_singleton.mp among]

/-- Runs that do not meet the hole stay. -/
theorem punch_disjoint (nonempty : hole.start < hole.stop) (apart : Disjoint hole.cells (cells es)) :
    punch hole es = es := by
  induction es with
  | nil => rfl
  | cons e rest ih =>
      rw [cells_cons, Set.disjoint_union_right] at apart
      have other : ¬hole.Within e := fun within =>
        Set.disjoint_left.mp apart.1 (mem_extent.mpr ⟨le_refl _, nonempty⟩)
          (within.subset (mem_extent.mpr ⟨le_refl _, nonempty⟩))
      rw [punch_cons, if_neg other, ih apart.2, List.singleton_append]

/-- **Part of one run that is given back leaves the other points, in runs that do not meet.** -/
theorem punch_spec (separate : Separate es) (nonempty : hole.start < hole.stop)
    (inside : ∃ e ∈ es, hole.Within e) :
    Separate (punch hole es) ∧ cells (punch hole es) = cells es \ hole.cells := by
  induction es with
  | nil => simp at inside
  | cons e rest ih =>
      obtain ⟨nonempty', apart, separate'⟩ := separate_cons.mp separate
      rw [punch_cons, cells_cons]
      by_cases here : hole.Within e
      · have other : Disjoint hole.cells (cells rest) := apart.mono_left here.subset
        rw [if_pos here, punch_disjoint nonempty other, cells_append, cells_rest nonempty here,
          Set.union_sdiff_distrib, other.symm.sdiff_eq_left]
        refine ⟨⟨fun piece member => ?_, List.pairwise_append.mpr
          ⟨(separate_rest nonempty).2, separate'.2, fun piece member f later => ?_⟩⟩, rfl⟩
        · rcases List.mem_append.mp member with new | old
          · exact (separate_rest nonempty).1 piece new
          · exact separate'.1 piece old
        · have part : piece.cells ⊆ e.cells := (mem_cells_of_mem member).trans
            ((cells_rest nonempty here).trans_subset Set.sdiff_subset)
          exact (apart.mono_left part).mono_right (mem_cells_of_mem later)
      · have later : ∃ f ∈ rest, hole.Within f := by
          obtain ⟨f, member, within⟩ := inside
          rcases List.mem_cons.mp member with rfl | member
          · exact absurd within here
          · exact ⟨f, member, within⟩
        obtain ⟨done, left⟩ := ih separate' later
        obtain ⟨f, member, within⟩ := later
        have other : Disjoint e.cells hole.cells :=
          apart.mono_right (within.subset.trans (mem_cells_of_mem member))
        rw [if_neg here, List.singleton_append, cells_cons, left, Set.union_sdiff_distrib,
          other.sdiff_eq_left]
        refine ⟨separate_cons.mpr ⟨nonempty', ?_, done⟩, rfl⟩
        rw [left]
        exact apart.mono_right Set.sdiff_subset

/-! ## How many points -/

/-- The lengths of the runs, added up. -/
def total (es : List (Extent ℕ)) : ℕ := (es.map fun e => e.stop - e.start).sum

theorem cells_finite (es : List (Extent ℕ)) : (cells es).Finite := by
  induction es with
  | nil =>
      rw [cells_nil]
      exact Set.finite_empty
  | cons e rest ih =>
      rw [cells_cons]
      exact (Set.finite_Ico _ _).union ih

/-- **Runs that are apart have as many points as their lengths add up to.** -/
theorem ncard_cells {es : List (Extent ℕ)} (apart : Apart es) : (cells es).ncard = total es := by
  induction es with
  | nil => simp [total]
  | cons e rest ih =>
      rw [cells_cons, Set.ncard_union_eq apart.disjoint (Set.finite_Ico _ _) (cells_finite _),
        ih apart.tail, Extent.cells, Set.ncard_Ico_nat]
      rfl

end Extents
