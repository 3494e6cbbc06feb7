import Mathlib.Data.List.Basic

/-!
# Lists in which some elements cancel

The elements of a list are kept, skipped, or take back the last element that was kept before them.
`reduce` is what is left, when there is nothing to take back in front of the first element; in
`reduceFrom` there is a list in front. A reduced list has nothing but elements that are kept, in the
order in which they were, and reducing it again changes nothing.
-/

set_option autoImplicit false

namespace Components

variable {α β : Type*}

/-- What an element does. -/
inductive Kind where
  | skip | up | keep
  deriving DecidableEq, Repr

variable (kind : α → Kind)

/-- The list that is kept, after one more element. -/
def push (kept : List α) (c : α) : List α :=
  match kind c with
  | .skip => kept
  | .up => kept.dropLast
  | .keep => kept ++ [c]

/-- The list that is kept, after more elements. -/
def reduceFrom (kept rest : List α) : List α := rest.foldl (push kind) kept

/-- What is left of a list. -/
def reduce (cs : List α) : List α := reduceFrom kind [] cs

variable {kind} {kept cs more : List α} {c : α}

@[simp] theorem reduceFrom_nil : reduceFrom kind kept [] = kept := rfl

@[simp] theorem reduceFrom_cons :
    reduceFrom kind kept (c :: cs) = reduceFrom kind (push kind kept c) cs := rfl

theorem reduceFrom_append :
    reduceFrom kind kept (cs ++ more) = reduceFrom kind (reduceFrom kind kept cs) more :=
  List.foldl_append ..

theorem reduce_append : reduce kind (cs ++ more) = reduceFrom kind (reduce kind cs) more :=
  reduceFrom_append

theorem push_skip (skip : kind c = .skip) : push kind kept c = kept := by rw [push, skip]

theorem push_up (up : kind c = .up) : push kind kept c = kept.dropLast := by rw [push, up]

theorem push_keep (keep : kind c = .keep) : push kind kept c = kept ++ [c] := by rw [push, keep]

/-- Elements that are kept. -/
theorem reduceFrom_of_keep (all : ∀ c ∈ cs, kind c = .keep) :
    reduceFrom kind kept cs = kept ++ cs := by
  induction cs generalizing kept with
  | nil => rw [reduceFrom_nil, List.append_nil]
  | cons c cs ih =>
      obtain ⟨first, others⟩ := List.forall_mem_cons.mp all
      rw [reduceFrom_cons, push_keep first, ih others, List.append_assoc, List.singleton_append]

theorem reduce_of_keep (all : ∀ c ∈ cs, kind c = .keep) : reduce kind cs = cs :=
  reduceFrom_of_keep all

theorem push_sublist : (push kind kept c).Sublist (kept ++ [c]) := by
  rw [push]
  split
  · exact List.sublist_append_left kept [c]
  · exact (List.dropLast_sublist kept).trans (List.sublist_append_left kept [c])
  · exact List.Sublist.refl _

/-- What is left is in the order in which it was. -/
theorem reduceFrom_sublist : (reduceFrom kind kept cs).Sublist (kept ++ cs) := by
  induction cs generalizing kept with
  | nil => rw [reduceFrom_nil, List.append_nil]
  | cons c cs ih =>
      rw [reduceFrom_cons, ← List.singleton_append, ← List.append_assoc]
      exact ih.trans (push_sublist.append_right cs)

theorem reduce_sublist : (reduce kind cs).Sublist cs := reduceFrom_sublist

/-- **What is left is kept.** -/
theorem keep_of_mem_reduceFrom (all : ∀ c ∈ kept, kind c = .keep) :
    ∀ c ∈ reduceFrom kind kept cs, kind c = .keep := by
  induction cs generalizing kept with
  | nil => exact all
  | cons first cs ih =>
      refine ih fun c member => ?_
      cases does : kind first with
      | skip => exact all c (by rwa [push_skip does] at member)
      | up =>
          rw [push_up does] at member
          exact all c ((List.dropLast_sublist kept).subset member)
      | keep =>
          rw [push_keep does] at member
          rcases List.mem_append.mp member with before | last
          · exact all c before
          · rwa [List.mem_singleton.mp last]

theorem keep_of_mem_reduce : ∀ c ∈ reduce kind cs, kind c = .keep :=
  keep_of_mem_reduceFrom nofun

/-- **Reducing twice is reducing once.** -/
theorem reduce_reduce : reduce kind (reduce kind cs) = reduce kind cs :=
  reduce_of_keep keep_of_mem_reduce

variable (kind) in
/-- How many elements in front of a list it takes back. There are `depth` more in between. -/
def climb : ℕ → List α → ℕ
  | _, [] => 0
  | depth, c :: cs =>
      match kind c with
      | .skip => climb depth cs
      | .up => if depth = 0 then climb 0 cs + 1 else climb (depth - 1) cs
      | .keep => climb (depth + 1) cs

/-- **A list behind another takes elements back from its end, and what is left of it follows.** -/
theorem reduceFrom_eq (front kept : List α) : reduceFrom kind (front ++ kept) cs =
    front.take (front.length - climb kind kept.length cs) ++ reduceFrom kind kept cs := by
  induction cs generalizing front kept with
  | nil => rw [climb, Nat.sub_zero, List.take_length, reduceFrom_nil, reduceFrom_nil]
  | cons c cs ih =>
      rw [reduceFrom_cons, reduceFrom_cons, climb]
      cases does : kind c with
      | skip => rw [push_skip does, push_skip does, ih]
      | keep =>
          rw [push_keep does, push_keep does, List.append_assoc, ih, List.length_append,
            List.length_singleton]
      | up =>
          rw [push_up does, push_up does]
          dsimp only
          rcases List.eq_nil_or_concat' kept with rfl | ⟨before, last, rfl⟩
          · have whole := ih front.dropLast []
            rw [List.append_nil, List.length_nil] at whole
            rw [List.append_nil, List.length_nil, if_pos rfl, List.dropLast_nil, whole,
              List.length_dropLast, List.dropLast_eq_take, List.take_take,
              Nat.min_eq_left (Nat.sub_le _ _), Nat.sub_sub, Nat.add_comm]
          · rw [← List.append_assoc, List.dropLast_concat, List.dropLast_concat, ih,
              List.length_append, List.length_singleton, if_neg (Nat.succ_ne_zero _),
              Nat.add_sub_cancel]

/-- Elements and what they stand for. -/
theorem map_reduceFrom (kind : β → Kind) (f : α → β) :
    (reduceFrom (fun a => kind (f a)) kept cs).map f =
      reduceFrom kind (kept.map f) (cs.map f) := by
  induction cs generalizing kept with
  | nil => rfl
  | cons c cs ih =>
      rw [reduceFrom_cons, ih, List.map_cons, reduceFrom_cons]
      congr 1
      rw [push, push]
      split
      · rfl
      · rw [List.map_dropLast]
      · rw [List.map_append, List.map_singleton]

end Components
