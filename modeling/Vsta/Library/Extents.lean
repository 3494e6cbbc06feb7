import Mathlib

/-!
# Sets kept as ascending lists of half-open runs

A list of extents stands for the set of the points its runs cover. A list is `Apart` when
its runs are non-empty and ascending with a gap between neighbours; such a list is the
only one of its set. A condition on a set of points is easier to carry through
a recursion than one on the list, so `apart_cons` says what putting a run in front needs in terms
of the points behind it.
-/

set_option autoImplicit false

namespace Extents

variable {α : Type*} [LinearOrder α]

/-- The half-open run from `start` to `stop`. -/
structure Extent (α : Type*) where
  start : α
  stop : α
  deriving DecidableEq

/-- The points of a run. -/
def Extent.cells (e : Extent α) : Set α := Set.Ico e.start e.stop

/-- The points of a list of runs. -/
def cells (es : List (Extent α)) : Set α := {x | ∃ e ∈ es, x ∈ e.cells}

/-- Non-empty runs, ascending, and no two of them touch. -/
def Apart (es : List (Extent α)) : Prop :=
  (∀ e ∈ es, e.start < e.stop) ∧ es.Pairwise fun e f => e.stop < f.start

theorem mem_extent {e : Extent α} {x : α} : x ∈ e.cells ↔ e.start ≤ x ∧ x < e.stop := Iff.rfl

@[simp] theorem cells_nil : cells ([] : List (Extent α)) = ∅ := by
  ext x
  simp [cells]

@[simp] theorem cells_cons (e : Extent α) (es : List (Extent α)) :
    cells (e :: es) = e.cells ∪ cells es := by
  ext x
  simp [cells]

theorem mem_cells_of_mem {e : Extent α} {es : List (Extent α)} (member : e ∈ es) :
    e.cells ⊆ cells es := fun _ inside => ⟨e, member, inside⟩

theorem apart_nil : Apart ([] : List (Extent α)) := ⟨by simp, .nil⟩

/-- A run goes in front of a list whose points all lie beyond its end. -/
theorem apart_cons {e : Extent α} {es : List (Extent α)} :
    Apart (e :: es) ↔ e.start < e.stop ∧ (∀ x ∈ cells es, e.stop < x) ∧ Apart es := by
  constructor
  · rintro ⟨nonempty, ascending⟩
    rw [List.pairwise_cons] at ascending
    refine ⟨nonempty e (by simp), ?_, fun f member => nonempty f (by simp [member]), ascending.2⟩
    rintro x ⟨f, member, inside⟩
    exact lt_of_lt_of_le (ascending.1 f member) (mem_extent.mp inside).1
  · rintro ⟨nonempty, beyond, rest⟩
    refine ⟨?_, List.pairwise_cons.mpr ⟨fun f member => ?_, rest.2⟩⟩
    · intro f member
      rcases List.mem_cons.mp member with rfl | member
      · exact nonempty
      · exact rest.1 f member
    · exact beyond _ (mem_cells_of_mem member ⟨le_refl _, rest.1 f member⟩)

theorem Apart.tail {e : Extent α} {es : List (Extent α)} (apart : Apart (e :: es)) : Apart es :=
  (apart_cons.mp apart).2.2

theorem Apart.beyond {e : Extent α} {es : List (Extent α)} (apart : Apart (e :: es)) {x : α}
    (inside : x ∈ cells es) : e.stop < x := (apart_cons.mp apart).2.1 x inside

theorem Apart.nonempty {e : Extent α} {es : List (Extent α)} (apart : Apart (e :: es)) :
    e.start < e.stop := (apart_cons.mp apart).1

/-- Putting a run in front of what a recursion left of the rest. -/
theorem Apart.replace {e : Extent α} {es fs : List (Extent α)} (apart : Apart (e :: es))
    (left : Apart fs) (beyond : ∀ x ∈ cells fs, e.stop < x) : Apart (e :: fs) :=
  apart_cons.mpr ⟨apart.nonempty, beyond, left⟩

/-- The points of a run and of the runs behind it are different points. -/
theorem Apart.disjoint {e : Extent α} {es : List (Extent α)} (apart : Apart (e :: es)) :
    Disjoint e.cells (cells es) :=
  Set.disjoint_left.mpr fun _ here behind =>
    absurd (apart.beyond behind) (not_lt.mpr (le_of_lt (mem_extent.mp here).2))

/-- What is taken out of the runs behind a run leaves the run alone. -/
theorem Apart.cells_diff {e : Extent α} {es : List (Extent α)} (apart : Apart (e :: es))
    {taken : Set α} (behind : taken ⊆ cells es) :
    e.cells ∪ (cells es \ taken) = cells (e :: es) \ taken := by
  have outside : e.cells \ taken = e.cells :=
    (apart.disjoint.mono_right behind).sdiff_eq_left
  rw [cells_cons, Set.union_sdiff_distrib, outside]

theorem cells_append (es fs : List (Extent α)) : cells (es ++ fs) = cells es ∪ cells fs := by
  ext x
  simp [cells, or_and_right, exists_or]

/-- A run goes behind a list whose runs all end before it. -/
theorem Apart.snoc {e : Extent α} {es : List (Extent α)} (apart : Apart es)
    (nonempty : e.start < e.stop) (before : ∀ f ∈ es, f.stop < e.start) : Apart (es ++ [e]) := by
  refine ⟨fun f member => ?_, List.pairwise_append.mpr ⟨apart.2, List.pairwise_singleton _ _,
    fun f member g last => ?_⟩⟩
  · rcases List.mem_append.mp member with old | new
    · exact apart.1 f old
    · rw [List.mem_singleton.mp new]
      exact nonempty
  · rw [List.mem_singleton.mp last]
    exact before f member

/-- No run ends behind the last one. -/
theorem Apart.le_last {e f : Extent α} {es : List (Extent α)} (apart : Apart es)
    (last : es.getLast? = some e) (member : f ∈ es) : f.stop ≤ e.stop := by
  induction es generalizing f with
  | nil => cases member
  | cons g rest ih =>
      cases rest with
      | nil =>
          obtain rfl : g = e := by simpa using last
          rw [List.mem_singleton.mp member]
      | cons h rest =>
          rw [List.getLast?_cons_cons] at last
          rcases List.mem_cons.mp member with rfl | later
          · have behind := ih apart.tail last List.mem_cons_self
            have second := List.rel_of_pairwise_cons apart.2 List.mem_cons_self
            exact (second.le.trans (apart.tail.nonempty).le).trans behind
          · exact ih apart.tail last later

/-- **A run that lies in the runs of a list lies in one of them**, because there is a gap between
neighbours. -/
theorem Apart.run_inside {e : Extent α} {es : List (Extent α)} (apart : Apart es)
    (nonempty : e.start < e.stop) (inside : e.cells ⊆ cells es) :
    ∃ f ∈ es, e.cells ⊆ f.cells := by
  induction es with
  | nil =>
      have nothing := inside (mem_extent.mpr ⟨le_refl _, nonempty⟩)
      rw [cells_nil] at nothing
      exact nothing.elim
  | cons f rest ih =>
      rw [cells_cons] at inside
      rcases inside (mem_extent.mpr ⟨le_refl _, nonempty⟩) with here | behind
      · refine ⟨f, List.mem_cons_self, fun x member => (inside member).resolve_right fun later => ?_⟩
        -- the end of the first run would be a point of the list
        have past : f.stop < x := apart.beyond later
        have gap := inside (mem_extent.mpr ⟨(mem_extent.mp here).2.le,
          past.trans (mem_extent.mp member).2⟩)
        exact gap.elim (fun end_ => lt_irrefl _ (mem_extent.mp end_).2)
          fun end_ => lt_irrefl _ (apart.beyond end_)
      · have later : e.cells ⊆ cells rest := fun x member => (inside member).resolve_left fun end_ =>
          absurd (mem_extent.mp end_).2 (not_lt.mpr
            ((apart.beyond behind).le.trans (mem_extent.mp member).1))
        obtain ⟨g, member, among⟩ := ih apart.tail later
        exact ⟨g, List.mem_cons_of_mem _ member, among⟩

end Extents
