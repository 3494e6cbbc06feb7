import Vsta.Basic
import Mathlib.Data.List.Nodup

/-!
# The hash tables of `lib/hash.c`

A key is looked for in the one chain its index picks, so the nodes of different chains do not
show and one list of nodes stands for the whole table, the newest node in front.
-/

set_option autoImplicit false

namespace Vsta

/-- The nodes of a hash: a key and what is stored under it. -/
abbrev Hash (α : Type) := List (ULong × α)

namespace Hash

variable {α : Type}

/-- `hash_insert`, with memory for the node: an older node of the same key stays behind it. -/
def insert (hash : Hash α) (key : ULong) (val : α) : Hash α := (key, val) :: hash

/-- `hash_lookup`. -/
def lookup (hash : Hash α) (key : ULong) : Option α := List.lookup key hash

/-- `hash_delete`: the newest node of the key is unlinked. -/
def delete (hash : Hash α) (key : ULong) : Hash α := hash.eraseP (·.1 == key)

/-- What is stored is changed in place. -/
def mapVals (hash : Hash α) (change : ULong → α → α) : Hash α :=
  hash.map fun node => (node.1, change node.1 node.2)

/-- What is stored under a key is changed in place. -/
def modify (hash : Hash α) (key : ULong) (change : α → α) : Hash α :=
  hash.mapVals fun other val => if other = key then change val else val

/-- `hashidx`. -/
def hashidx (key mask : ULong) : ULong := (key ^^^ (key >>> 2) ^^^ (key >>> 6)) &&& mask

/-- The nodes in the order of `hash_foreach` and `hash_size`: chain by chain. -/
def foreach (hash : Hash α) (mask : ULong) : Hash α :=
  (List.range (mask.toNat + 1)).flatMap fun x =>
    hash.filter fun node => (hashidx node.1 mask).toNat = x

/-- No key has two nodes. -/
def Distinct (hash : Hash α) : Prop := (hash.map Prod.fst).Nodup

theorem lookup_insert (hash : Hash α) (key : ULong) (val : α) (other : ULong) :
    (hash.insert key val).lookup other = if other = key then some val else hash.lookup other := by
  simp only [lookup, insert, List.lookup_cons]
  by_cases same : other = key
  · simp [same]
  · simp [same, beq_false_of_ne same]

/-- A key that is not found has no node. -/
theorem lookup_eq_none {hash : Hash α} {key : ULong} :
    hash.lookup key = none ↔ key ∉ hash.map Prod.fst := by
  induction hash with
  | nil => simp [lookup]
  | cons node rest ih =>
      have step := lookup_insert rest node.1 node.2 key
      simp only [insert] at step
      rw [step]
      by_cases same : key = node.1
      · simp [same]
      · simp [same, ih]

theorem distinct_nil : Distinct ([] : Hash α) := List.nodup_nil

theorem Distinct.insert {hash : Hash α} (distinct : hash.Distinct) {key : ULong} {val : α}
    (fresh : hash.lookup key = none) : (hash.insert key val).Distinct :=
  List.nodup_cons.mpr ⟨lookup_eq_none.mp fresh, distinct⟩

theorem Distinct.delete {hash : Hash α} (distinct : hash.Distinct) (key : ULong) :
    (hash.delete key).Distinct :=
  distinct.sublist ((List.eraseP_sublist).map Prod.fst)

/-- A key that is found loses one node. -/
theorem length_delete {hash : Hash α} {key : ULong} {val : α} (found : hash.lookup key = some val) :
    (hash.delete key).length + 1 = hash.length := by
  have member : key ∈ hash.map Prod.fst := by
    by_contra absent
    simp [lookup_eq_none.mpr absent] at found
  obtain ⟨node, inside, same⟩ := List.mem_map.mp member
  have erased := List.length_eraseP_of_mem (p := (·.1 == key)) inside (by simp [same])
  have := List.length_pos_of_mem inside
  rw [delete, erased]
  omega

/-- Where no key has two nodes, a deleted key is gone and the others stay. -/
theorem Distinct.lookup_delete {hash : Hash α} (distinct : hash.Distinct) (key other : ULong) :
    (hash.delete key).lookup other = if other = key then none else hash.lookup other := by
  induction hash with
  | nil => simp [Hash.delete, lookup]
  | cons node rest ih =>
      obtain ⟨fresh, distinct'⟩ := List.nodup_cons.mp distinct
      have step := lookup_insert rest node.1 node.2 other
      simp only [Hash.insert] at step
      by_cases here : node.1 = key
      · have gone : Hash.delete (node :: rest) key = rest := by
          simp [Hash.delete, here]
        rw [gone, step, ← here]
        by_cases same : other = node.1
        · simp only [same, if_true]
          exact lookup_eq_none.mpr fresh
        · simp [same]
      · have kept :
            Hash.delete (node :: rest) key = (Hash.delete rest key).insert node.1 node.2 := by
          simp [Hash.delete, Hash.insert, here]
        rw [kept, lookup_insert, ih distinct', step]
        by_cases same : other = node.1
        · simp [same, here]
        · simp [same]

/-- Where no key has two nodes, every node is found. -/
theorem Distinct.lookup_of_mem {hash : Hash α} (distinct : hash.Distinct) {key : ULong} {val : α}
    (member : (key, val) ∈ hash) : hash.lookup key = some val := by
  induction hash with
  | nil => cases member
  | cons node rest ih =>
      obtain ⟨fresh, distinct'⟩ := List.nodup_cons.mp distinct
      have step := lookup_insert rest node.1 node.2 key
      simp only [Hash.insert] at step
      rw [step]
      rcases List.mem_cons.mp member with rfl | later
      · simp
      · have inside : key ∈ rest.map Prod.fst := List.mem_map_of_mem later
        rw [if_neg fun same : key = node.1 => fresh (same ▸ inside)]
        exact ih distinct' later

/-- A node that is found, and the others. -/
theorem perm_delete {hash : Hash α} {key : ULong} {val : α} (found : hash.lookup key = some val) :
    hash.Perm ((key, val) :: hash.delete key) := by
  induction hash with
  | nil => simp [lookup] at found
  | cons node rest ih =>
      obtain ⟨other, stored⟩ := node
      have step := lookup_insert rest other stored key
      simp only [insert] at step
      rw [step] at found
      by_cases same : key = other
      · subst same
        obtain rfl : stored = val := by simpa using found
        simp [delete]
      · rw [if_neg same] at found
        have kept : delete ((other, stored) :: rest) key = (other, stored) :: delete rest key := by
          simp [delete, Ne.symm same]
        rw [kept]
        exact ((ih found).cons _).trans (List.Perm.swap _ _ _)

/-- What is found is in the table. -/
theorem mem_of_lookup {hash : Hash α} {key : ULong} {val : α}
    (found : hash.lookup key = some val) : (key, val) ∈ hash :=
  (perm_delete found).mem_iff.mpr List.mem_cons_self

/-- The parts of a list by the value of a function are the list. -/
theorem perm_parts (hash : Hash α) (index : ULong × α → ℕ) (n : ℕ) :
    ((List.range n).flatMap fun x => hash.filter fun node => index node = x).Perm
      (hash.filter fun node => index node < n) := by
  induction n with
  | zero => simp
  | succ n ih =>
      have below : (hash.filter fun node => index node < n + 1).filter (fun node => index node < n) =
          hash.filter fun node => index node < n := by
        rw [List.filter_filter]
        refine List.filter_congr fun node _ => ?_
        rw [Bool.eq_iff_iff]
        simp only [Bool.and_eq_true, decide_eq_true_eq]
        omega
      have at_ : (hash.filter fun node => index node < n + 1).filter (fun node => !index node < n) =
          hash.filter fun node => index node = n := by
        rw [List.filter_filter]
        refine List.filter_congr fun node _ => ?_
        rw [Bool.eq_iff_iff]
        simp only [Bool.and_eq_true, Bool.not_eq_true', decide_eq_true_eq, decide_eq_false_iff_not]
        omega
      have split := List.filter_append_perm (fun node => decide (index node < n))
        (hash.filter fun node => index node < n + 1)
      rw [below, at_] at split
      rw [List.range_succ, List.flatMap_append, List.flatMap_singleton]
      exact (ih.append_right _).trans split

/-- Every node is walked once. -/
theorem foreach_perm (hash : Hash α) (mask : ULong) : (hash.foreach mask).Perm hash := by
  have all : hash.filter (fun node => (hashidx node.1 mask).toNat < mask.toNat + 1) = hash := by
    refine List.filter_eq_self.mpr fun node _ => ?_
    have below : (hashidx node.1 mask).toNat ≤ mask.toNat := by
      rw [hashidx, BitVec.toNat_and]
      exact Nat.and_le_right
    simpa using Nat.lt_succ_of_le below
  have parts := perm_parts hash (fun node => (hashidx node.1 mask).toNat) (mask.toNat + 1)
  rw [all] at parts
  exact parts

theorem keys_mapVals (hash : Hash α) (change : ULong → α → α) :
    (hash.mapVals change).map Prod.fst = hash.map Prod.fst := by
  rw [mapVals, List.map_map]
  rfl

theorem Distinct.mapVals {hash : Hash α} (distinct : hash.Distinct) (change : ULong → α → α) :
    (hash.mapVals change).Distinct := by
  rw [Distinct, keys_mapVals]
  exact distinct

theorem lookup_mapVals (hash : Hash α) (change : ULong → α → α) (key : ULong) :
    (hash.mapVals change).lookup key = (hash.lookup key).map (change key) := by
  induction hash with
  | nil => rfl
  | cons node rest ih =>
      have here := lookup_insert rest node.1 node.2 key
      have there := lookup_insert (Hash.mapVals rest change) node.1 (change node.1 node.2) key
      simp only [insert] at here there
      have first : Hash.mapVals (node :: rest) change =
          (node.1, change node.1 node.2) :: Hash.mapVals rest change := rfl
      rw [first, there, here, ih]
      split
      · next same => rw [same, Option.map_some]
      · rfl

theorem Distinct.modify {hash : Hash α} (distinct : hash.Distinct) (key : ULong)
    (change : α → α) : (hash.modify key change).Distinct :=
  distinct.mapVals _

theorem keys_modify (hash : Hash α) (key : ULong) (change : α → α) :
    (hash.modify key change).map Prod.fst = hash.map Prod.fst :=
  hash.keys_mapVals _

theorem lookup_modify (hash : Hash α) (key : ULong) (change : α → α) (other : ULong) :
    (hash.modify key change).lookup other =
      if other = key then (hash.lookup key).map change else hash.lookup other := by
  rw [modify, lookup_mapVals]
  by_cases same : other = key
  · simp [same]
  · simp [same]

theorem mapVals_mapVals (hash : Hash α) (first second : ULong → α → α) :
    (hash.mapVals first).mapVals second =
      hash.mapVals fun key val => second key (first key val) := by
  rw [mapVals, mapVals, List.map_map]
  rfl

/-- A value that is replaced twice. -/
theorem modify_modify (hash : Hash α) (key : ULong) (first second : α) :
    ((hash.modify key fun _ => first).modify key fun _ => second) =
      hash.modify key fun _ => second := by
  simp only [modify, mapVals, List.map_map]
  refine List.map_congr_left fun node _ => ?_
  by_cases here : node.1 = key
  · simp [here]
  · simp [here]

/-- The nodes beside one that was changed. -/
theorem Distinct.delete_modify {hash : Hash α} (distinct : hash.Distinct) (key : ULong)
    (change : α → α) : (hash.modify key change).delete key = hash.delete key := by
  rw [Hash.delete, Hash.delete, Hash.modify, Hash.mapVals]
  induction hash with
  | nil => rfl
  | cons node rest ih =>
      obtain ⟨fresh, distinct'⟩ := List.nodup_cons.mp distinct
      rw [List.map_cons]
      by_cases here : node.1 = key
      · have apart : ∀ other ∈ rest, other.1 ≠ key := fun other member same =>
          fresh (here ▸ same ▸ List.mem_map_of_mem member)
        rw [List.eraseP_cons_of_pos (by simpa using here),
          List.eraseP_cons_of_pos (by simpa using here)]
        refine (List.map_congr_left fun other member => ?_).trans (List.map_id _)
        rw [if_neg (apart other member), id]
      · rw [List.eraseP_cons_of_neg (by simpa using here),
          List.eraseP_cons_of_neg (by simpa using here), if_neg here, ih distinct']

end Hash

end Vsta
