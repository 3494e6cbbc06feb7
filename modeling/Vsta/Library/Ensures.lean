import Mathlib.Tactic.Common

/-!
# Postconditions of computations that can fail

A computation in `Except` either returns or fails. `Ensures` says what holds of the result, and
which failures there can be, in one statement, so that a rule for each construct of a program
carries both.
-/

set_option autoImplicit false

namespace Except

universe u v

variable {ε : Type u} {α β : Type v} {allowed : ε → Prop}

/-- What is returned meets `post`, and a failure is `allowed`. -/
def Ensures (allowed : ε → Prop) (result : Except ε α) (post : α → Prop) : Prop :=
  match result with
  | .ok value => post value
  | .error failure => allowed failure

@[simp] theorem ensures_ok {value : α} {post : α → Prop} :
    Ensures allowed (.ok value) post ↔ post value := Iff.rfl

@[simp] theorem ensures_pure {value : α} {post : α → Prop} :
    Ensures allowed (pure value : Except ε α) post ↔ post value := Iff.rfl

@[simp] theorem ensures_error {failure : ε} {post : α → Prop} :
    Ensures allowed (.error failure : Except ε α) post ↔ allowed failure := Iff.rfl

/-- What is returned is passed on. -/
theorem ok_bind {value : α} {next : α → Except ε β} : (.ok value >>= next) = next value := rfl

/-- A weaker postcondition. -/
theorem Ensures.mono {result : Except ε α} {post weaker : α → Prop}
    (ensures : Ensures allowed result post) (implies : ∀ value, post value → weaker value) :
    Ensures allowed result weaker := by
  cases result with
  | ok value => exact implies value ensures
  | error failure => exact ensures

/-- More failures. -/
theorem Ensures.allow {more : ε → Prop} {result : Except ε α} {post : α → Prop}
    (ensures : Ensures allowed result post) (implies : ∀ failure, allowed failure → more failure) :
    Ensures more result post := by
  cases result with
  | ok value => exact ensures
  | error failure => exact implies failure ensures

/-- One computation after the other. -/
theorem Ensures.bind {result : Except ε α} {next : α → Except ε β} {middle : α → Prop}
    {post : β → Prop} (first : Ensures allowed result middle)
    (second : ∀ value, middle value → Ensures allowed (next value) post) :
    Ensures allowed (result >>= next) post := by
  cases result with
  | ok value => exact second value first
  | error failure => exact first

/-- A choice. -/
theorem Ensures.ite {condition : Prop} [Decidable condition] {left right : Except ε α}
    {post : α → Prop} (first : condition → Ensures allowed left post)
    (second : ¬condition → Ensures allowed right post) :
    Ensures allowed (if condition then left else right) post := by
  split_ifs with holds
  · exact first holds
  · exact second holds

/-- A loop over a list: an invariant that each round keeps. -/
theorem Ensures.foldlM {round : β → α → Except ε β} {inv : β → Prop} {items : List α} {start : β}
    (base : inv start)
    (keeps : ∀ state, inv state → ∀ item ∈ items, Ensures allowed (round state item) inv) :
    Ensures allowed (items.foldlM round start) inv := by
  induction items generalizing start with
  | nil => exact base
  | cons item rest ih =>
      rw [List.foldlM_cons]
      refine (keeps start base item List.mem_cons_self).bind fun next holds => ?_
      exact ih holds fun state before other among =>
        keeps state before other (List.mem_cons_of_mem _ among)

/-- What holds of the result, when there is one. -/
theorem Ensures.of_eq_ok {result : Except ε α} {post : α → Prop} {value : α}
    (ensures : Ensures allowed result post) (done : result = .ok value) : post value := by
  subst done
  exact ensures

theorem toOption_eq_some {result : Except ε α} {value : α} :
    result.toOption = some value ↔ result = .ok value := by
  cases result with
  | ok other => exact ⟨fun same => congrArg _ (Option.some.inj same), fun same => by cases same; rfl⟩
  | error failure => exact ⟨fun same => absurd same nofun, fun same => absurd same nofun⟩

/-- A failure is one that is allowed. -/
theorem Ensures.of_eq_error {result : Except ε α} {post : α → Prop} {failure : ε}
    (ensures : Ensures allowed result post) (failed : result = .error failure) :
    allowed failure := by
  subst failed
  exact ensures

end Except
