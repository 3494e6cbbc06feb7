import Mathlib.Data.Set.Card
import Mathlib.Data.List.Count
import Mathlib.Logic.Function.Basic

/-!
# Objects that are counted by the keys that name them

A table maps keys to objects, and each object counts the keys that name it. While a store is
`Counted`, the count of an object is the number of its `holders`, an object that is named is there,
and an object was closed once if its last name is gone and never before.

A store stays counted when an object is made under a key (`Counted.make`), a free key names an
object that is there (`Counted.hold`), and a key is given up, by which the count falls
(`Counted.drop`) or the object is closed (`Counted.last`).
-/

set_option autoImplicit false

namespace RefCount

variable {Key Obj : Type*}

/-- The keys that name an object. -/
def holders (map : Key → Option Obj) (o : Obj) : Set Key := {k | map k = some o}

/-- The counts of the objects that are there, which objects were ever made, and which were closed,
with each time it was done. -/
structure Store (Obj : Type*) where
  refs : Obj → Option ℕ
  made : Obj → Bool
  closed : List Obj

variable {map : Key → Option Obj} {k : Key} {o other : Obj}

/-- Counts agree with the table. -/
structure Counted [DecidableEq Obj] (map : Key → Option Obj) (store : Store Obj) : Prop where
  finite : {k | map k ≠ none}.Finite
  refs : ∀ o n, store.refs o = some n → 0 < n ∧ n = (holders map o).ncard
  live : ∀ k o, map k = some o → store.refs o ≠ none
  made : ∀ o, store.refs o ≠ none → store.made o = true
  once : ∀ o, store.closed.count o =
    if store.made o = true ∧ store.refs o = none then 1 else 0

/-! ## Holders after a change of the table -/

theorem holders_finite (finite : {k | map k ≠ none}.Finite) (o : Obj) : (holders map o).Finite :=
  finite.subset fun k (named : map k = some o) => by simp [named]

section Update

variable [DecidableEq Key]

theorem finite_update (finite : {k | map k ≠ none}.Finite) (k : Key) (value : Option Obj) :
    {key | Function.update map k value key ≠ none}.Finite := by
  refine (finite.insert k).subset fun key named => ?_
  by_cases here : key = k
  · exact .inl here
  · exact .inr (by simpa [here] using named)

variable [DecidableEq Obj]

theorem holders_bind (free : map k = none) (other : Obj) :
    holders (Function.update map k (some o)) other =
      if other = o then insert k (holders map other) else holders map other := by
  ext key
  by_cases here : key = k
  · subst here
    split_ifs with same
    · simp [holders, same]
    · simp [holders, free, Ne.symm same]
  · split_ifs <;> simp [holders, here]

theorem holders_unbind (named : map k = some o) (other : Obj) :
    holders (Function.update map k none) other =
      if other = o then holders map other \ {k} else holders map other := by
  ext key
  by_cases here : key = k
  · subst here
    split_ifs with same
    · simp [holders]
    · simp [holders, named, Ne.symm same]
  · split_ifs <;> simp [holders, here]

theorem ncard_bind (finite : {k | map k ≠ none}.Finite) (free : map k = none) (other : Obj) :
    (holders (Function.update map k (some o)) other).ncard =
      (holders map other).ncard + if other = o then 1 else 0 := by
  rw [holders_bind free]
  split_ifs
  · exact Set.ncard_insert_of_notMem (by simp [holders, free]) (holders_finite finite other)
  · rfl

theorem ncard_unbind (finite : {k | map k ≠ none}.Finite) (named : map k = some o) (other : Obj) :
    (holders (Function.update map k none) other).ncard + (if other = o then 1 else 0) =
      (holders map other).ncard := by
  rw [holders_unbind named]
  split_ifs with same
  · exact Set.ncard_sdiff_singleton_add_one (by simp [holders, named, same])
      (holders_finite finite other)
  · rfl

/-- Each name in the table after a key was bound is of an object that is there. -/
theorem live_bind {refs : Obj → Option ℕ} (live : ∀ k o, map k = some o → refs o ≠ none) (n : ℕ)
    (key : Key) (other : Obj) (named : Function.update map k (some o) key = some other) :
    Function.update refs o (some n) other ≠ none := by
  by_cases same : other = o
  · simp [same]
  · rw [Function.update_of_ne same]
    by_cases here : key = k
    · simp [here, Ne.symm same] at named
    · exact live key other (by simpa [here] using named)

end Update

/-! ## Steps that keep a store counted -/

namespace Counted

variable [DecidableEq Obj] {store : Store Obj}

/-- An object is there exactly when a key names it. -/
theorem refs_eq_none_iff (counted : Counted map store) :
    store.refs o = none ↔ holders map o = ∅ := by
  constructor
  · intro gone
    refine Set.eq_empty_iff_forall_notMem.mpr fun key named => ?_
    exact counted.live key o named gone
  · intro empty
    cases there : store.refs o with
    | none => rfl
    | some n =>
        obtain ⟨some_, count⟩ := counted.refs o n there
        rw [empty, Set.ncard_empty] at count
        omega

/-- An object that was made is closed once when no key names it, and not before. -/
theorem closed_once (counted : Counted map store) (made : store.made o = true) :
    store.closed.count o = 1 ∧ holders map o = ∅ ∨
      store.closed.count o = 0 ∧ (holders map o).Nonempty := by
  have once := counted.once o
  by_cases gone : store.refs o = none
  · rw [if_pos ⟨made, gone⟩] at once
    exact .inl ⟨once, counted.refs_eq_none_iff.mp gone⟩
  · rw [if_neg (by simp [gone])] at once
    refine .inr ⟨once, Set.nonempty_iff_ne_empty.mpr fun empty => ?_⟩
    exact gone (counted.refs_eq_none_iff.mpr empty)

variable [DecidableEq Key]

/-- A new object is made under a free key. -/
theorem make (counted : Counted map store) (fresh : store.made o = false) (free : map k = none) :
    Counted (Function.update map k (some o))
      ⟨Function.update store.refs o (some 1), Function.update store.made o true,
        store.closed⟩ := by
  have absent : store.refs o = none := by
    by_contra there
    rw [counted.made o there] at fresh
    exact absurd fresh (by decide)
  have none_ : holders map o = ∅ := counted.refs_eq_none_iff.mp absent
  refine ⟨finite_update counted.finite _ _, fun other n there => ?_, fun key other named => ?_,
    fun other there => ?_, fun other => ?_⟩
  · rw [ncard_bind counted.finite free]
    by_cases same : other = o
    · subst same
      obtain rfl : 1 = n := by simpa using there
      simp [none_]
    · simpa [same] using counted.refs other n (by simpa [same] using there)
  · exact live_bind counted.live _ key other named
  · by_cases same : other = o
    · simp [same]
    · simpa [same] using counted.made other (by simpa [same] using there)
  · have once := counted.once other
    by_cases same : other = o
    · subst same
      simpa [fresh] using once
    · simpa [same] using once

/-- A free key names an object that is there. -/
theorem hold (counted : Counted map store) {n : ℕ} (there : store.refs o = some n)
    (free : map k = none) : Counted (Function.update map k (some o))
      { store with refs := Function.update store.refs o (some (n + 1)) } := by
  refine ⟨finite_update counted.finite _ _, fun other m count => ?_, fun key other named => ?_,
    fun other known => ?_, fun other => ?_⟩
  · rw [ncard_bind counted.finite free]
    by_cases same : other = o
    · subst same
      obtain rfl : n + 1 = m := by simpa using count
      obtain ⟨-, exact_⟩ := counted.refs other n there
      simp [← exact_]
    · simpa [same] using counted.refs other m (by simpa [same] using count)
  · exact live_bind counted.live _ key other named
  · by_cases same : other = o
    · subst same
      exact counted.made other (by simp [there])
    · exact counted.made other (by simpa [same] using known)
  · have once := counted.once other
    by_cases same : other = o
    · subst same
      simpa [there] using once
    · simpa [same] using once

/-- A key that names an object with others is given up. -/
theorem drop (counted : Counted map store) {n : ℕ} (named : map k = some o)
    (there : store.refs o = some n) (more : 0 < n - 1) : Counted (Function.update map k none)
      { store with refs := Function.update store.refs o (some (n - 1)) } := by
  refine ⟨finite_update counted.finite _ _, fun other m count => ?_, fun key other known => ?_,
    fun other known => ?_, fun other => ?_⟩
  · have fewer := ncard_unbind counted.finite named other
    by_cases same : other = o
    · subst same
      obtain rfl : n - 1 = m := by simpa using count
      obtain ⟨-, exact_⟩ := counted.refs other n there
      rw [if_pos rfl] at fewer
      exact ⟨more, by omega⟩
    · rw [if_neg same] at fewer
      obtain ⟨some_, exact_⟩ := counted.refs other m (by simpa [same] using count)
      exact ⟨some_, by omega⟩
  · by_cases here : key = k
    · simp [here] at known
    · have before := counted.live key other (by simpa [here] using known)
      by_cases same : other = o
      · simp [same]
      · simpa [same] using before
  · by_cases same : other = o
    · subst same
      exact counted.made other (by simp [there])
    · exact counted.made other (by simpa [same] using known)
  · have once := counted.once other
    by_cases same : other = o
    · subst same
      simpa [there] using once
    · simpa [same] using once

/-- The last key that names an object is given up, and the object closed. -/
theorem last (counted : Counted map store) (named : map k = some o)
    (there : store.refs o = some 1) : Counted (Function.update map k none)
      ⟨Function.update store.refs o none, store.made, o :: store.closed⟩ := by
  obtain ⟨-, one⟩ := counted.refs o 1 there
  have made := counted.made o (by simp [there])
  refine ⟨finite_update counted.finite _ _, fun other m count => ?_, fun key other known => ?_,
    fun other known => ?_, fun other => ?_⟩
  · have fewer := ncard_unbind counted.finite named other
    by_cases same : other = o
    · simp [same] at count
    · rw [if_neg same] at fewer
      obtain ⟨some_, exact_⟩ := counted.refs other m (by simpa [same] using count)
      exact ⟨some_, by omega⟩
  · have gone : holders (Function.update map k none) o = ∅ := by
      have fewer := ncard_unbind counted.finite named o
      rw [if_pos rfl, ← one] at fewer
      exact (Set.ncard_eq_zero (holders_finite (finite_update counted.finite _ _) o)).mp
        (by omega)
    by_cases same : other = o
    · subst same
      exact absurd known (Set.eq_empty_iff_forall_notMem.mp gone key)
    · by_cases here : key = k
      · simp [here] at known
      · simpa [same] using counted.live key other (by simpa [here] using known)
  · by_cases same : other = o
    · rwa [same]
    · exact counted.made other (by simpa [same] using known)
  · have once := counted.once other
    by_cases same : other = o
    · subst same
      simp [made, there] at once ⊢
      exact once
    · simpa [same, List.count_cons, Ne.symm same] using once

end Counted

end RefCount
