import Mathlib.Logic.Relation

/-!
# Guarded runs of a labelled step relation

A system is a step relation `step : State → Label → State → Prop`. A guard is a
condition on a state and the label of the step taken from it. `Reaches` follows
steps that meet the guard, so a theorem about `Reaches` with the trivial guard is
a theorem about every run, and a theorem about `Reaches` with a guard is a theorem
about every run whose steps all meet it.

The one induction over runs is `Reaches.invariant_on_run`. Every run result of a system
is then two small goals: the start and one step.
-/

set_option autoImplicit false

namespace Transition

variable {State Label : Type*}

/-- Reachability through steps that meet the guard. -/
def Reaches (step : State → Label → State → Prop) (guard : State → Label → Prop) :
    State → State → Prop :=
  Relation.ReflTransGen fun source target =>
    ∃ label, guard source label ∧ step source label target

/-- The guard that admits every step. -/
def Any (_ : State) (_ : Label) : Prop := True

variable {step : State → Label → State → Prop} {guard : State → Label → Prop}

theorem Reaches.refl (state : State) : Reaches step guard state state :=
  Relation.ReflTransGen.refl

theorem Reaches.tail {start middle finish : State} {label : Label}
    (run : Reaches step guard start middle) (meets : guard middle label)
    (last : step middle label finish) : Reaches step guard start finish :=
  Relation.ReflTransGen.tail run ⟨label, meets, last⟩

/-- A property of the start that every guarded step from a reached state preserves holds
in every state the run reaches. What is known of reached states can be used at the step. -/
theorem Reaches.invariant_on_run {holds : State → Prop} {start finish : State}
    (run : Reaches step guard start finish) (base : holds start)
    (preserved : ∀ source label target, Reaches step guard start source → holds source →
      guard source label → step source label target → holds target) : holds finish := by
  induction run with
  | refl => exact base
  | tail before last ih =>
      obtain ⟨label, meets, taken⟩ := last
      exact preserved _ label _ before ih meets taken

/-- A property of the start that every guarded step preserves holds in every
state the run reaches. -/
theorem Reaches.invariant {holds : State → Prop} {start finish : State}
    (run : Reaches step guard start finish) (base : holds start)
    (preserved : ∀ source label target, holds source → guard source label →
      step source label target → holds target) : holds finish :=
  run.invariant_on_run base fun source label target _ => preserved source label target

/-- A run under a stronger guard is a run under a weaker one. -/
theorem Reaches.mono {weaker : State → Label → Prop} {start finish : State}
    (run : Reaches step guard start finish)
    (implies : ∀ state label, guard state label → weaker state label) :
    Reaches step weaker start finish := by
  induction run with
  | refl => exact .refl _
  | tail _ last ih =>
      obtain ⟨label, meets, taken⟩ := last
      exact ih.tail (implies _ label meets) taken

/-! ## Runs of a step function -/

/-- Labels taken one after the other, each in a state where it is `ok`. -/
def follow (exec : State → Label → Option State) (ok : State → Label → Bool) :
    State → List Label → Option State
  | state, [] => some state
  | state, label :: rest =>
      if ok state label then (exec state label).bind fun next => follow exec ok next rest else none

/-- What is followed is a run, of steps that the function takes. -/
theorem Reaches.followed {exec : State → Label → Option State} {ok : State → Label → Bool}
    {start middle finish : State} {labels : List Label}
    (run : Reaches step guard start middle)
    (meets : ∀ state label, ok state label = true → guard state label)
    (steps : ∀ state label next, ok state label = true → exec state label = some next →
      step state label next)
    (followed : Transition.follow exec ok middle labels = some finish) :
    Reaches step guard start finish := by
  induction labels generalizing middle with
  | nil =>
      obtain rfl := Option.some.inj followed
      exact run
  | cons label rest ih =>
      rw [Transition.follow] at followed
      obtain ⟨good, followed⟩ := Option.ite_none_right_eq_some.mp followed
      obtain ⟨next, taken, followed⟩ := Option.bind_eq_some_iff.mp followed
      exact ih (run.tail (meets _ _ good) (steps _ _ _ good taken)) followed

/-- What is followed under a guard is a run. -/
theorem Reaches.follow {exec : State → Label → Option State} {ok : State → Label → Bool}
    {start middle finish : State} {labels : List Label}
    (run : Reaches (fun s l s' => exec s l = some s') guard start middle)
    (meets : ∀ state label, ok state label = true → guard state label)
    (followed : Transition.follow exec ok middle labels = some finish) :
    Reaches (fun s l s' => exec s l = some s') guard start finish :=
  run.followed meets (fun _ _ _ _ taken => taken) followed

end Transition
