import Mathlib.Data.List.Basic
import Mathlib.Data.List.Infix

/-!
# A stream of writes

A log of the writes to a stream, in order, each with what has been read of it and what has not. A
write is pending until its writer is told how much was read, or until it is dropped. Reading
consumes the first write that is pending, so as long as nothing is read behind it (`InOrder`) the
reads are the log in order: what was read and what is still to be read make up the writes, except
for the unread part of those that were dropped (`reads_append_unread`).
-/

set_option autoImplicit false

namespace WriteLog

variable {Id α : Type*}

/-- What became of a write. -/
inductive Fate where
  | pending | told (count : ℕ) | dropped
  deriving DecidableEq, Repr

/-- A write. -/
structure Write (Id α : Type*) where
  who : Id
  read : List α
  unread : List α
  fate : Fate
  deriving DecidableEq, Repr

namespace Write

/-- All that was written. -/
def data (w : Write Id α) : List α := w.read ++ w.unread

/-- What a stream that loses nothing returns of it: all, or what was read before it was dropped. -/
def kept (w : Write Id α) : List α := if w.fate = .dropped then w.read else w.data

/-- The next `k` are read. -/
def consume (k : ℕ) (w : Write Id α) : Write Id α :=
  { w with read := w.read ++ w.unread.take k, unread := w.unread.drop k }

/-- The writer is told a count. -/
def tell (count : ℕ) (w : Write Id α) : Write Id α := { w with fate := .told count }

/-- The write is dropped, if it is pending. -/
def drop (w : Write Id α) : Write Id α :=
  if w.fate = .pending then { w with fate := .dropped } else w

end Write

/-- The first write that is pending changes. -/
def onFirst (change : Write Id α → Write Id α) : List (Write Id α) → List (Write Id α)
  | [] => []
  | w :: rest => if w.fate = .pending then change w :: rest else w :: onFirst change rest

/-- A write comes, and is pending. -/
def put (log : List (Write Id α)) (who : Id) (data : List α) : List (Write Id α) :=
  log ++ [⟨who, [], data, .pending⟩]

/-- The writes of some are dropped. -/
def dropAll (which : Id → Bool) (log : List (Write Id α)) : List (Write Id α) :=
  log.map fun w => if which w.who then w.drop else w

/-- The writes that are pending. -/
def pending (log : List (Write Id α)) : List (Write Id α) := log.filter fun w => w.fate = .pending

/-- A writer that was told a count: all was read, and that is the count. -/
def Write.Honest (w : Write Id α) : Prop :=
  ∀ count, w.fate = .told count → w.unread = [] ∧ count = w.read.length

/-- Nothing is read behind the first write that is pending, and the counts are right. -/
def InOrder : List (Write Id α) → Prop
  | [] => True
  | w :: rest => (w.fate = .pending → ∀ v ∈ rest, v.read = []) ∧ w.Honest ∧ InOrder rest

variable {log : List (Write Id α)}

theorem InOrder.tail {w : Write Id α} (inOrder : InOrder (w :: log)) : InOrder log := inOrder.2.2

theorem InOrder.honest (inOrder : InOrder log) {w : Write Id α} (member : w ∈ log) :
    w.Honest := by
  induction log with
  | nil => cases member
  | cons v rest ih =>
      rcases List.mem_cons.mp member with rfl | later
      · exact inOrder.2.1
      · exact ih inOrder.2.2 later

theorem pending_nil : pending ([] : List (Write Id α)) = [] := rfl

theorem pending_cons (w : Write Id α) :
    pending (w :: log) = if w.fate = .pending then w :: pending log else pending log := by
  by_cases waits : w.fate = .pending
  · simp [pending, waits]
  · simp [pending, waits]

theorem pending_put (who : Id) (data : List α) :
    pending (put log who data) = pending log ++ [⟨who, [], data, .pending⟩] := by
  simp [pending, put]

/-- **What was read, and what is still to be read, are the writes in order, except for the unread
part of those that were dropped.** -/
theorem reads_append_unread (inOrder : InOrder log) :
    log.flatMap Write.read ++ (pending log).flatMap Write.unread = log.flatMap Write.kept := by
  induction log with
  | nil => rfl
  | cons w rest ih =>
      obtain ⟨first, told, tail⟩ := inOrder
      have later := ih tail
      rw [pending_cons, List.flatMap_cons, List.flatMap_cons]
      cases fate : w.fate with
      | pending =>
          -- nothing is read behind it
          have none_ : rest.flatMap Write.read = [] := List.flatMap_eq_nil_iff.mpr (first fate)
          rw [none_, List.nil_append] at later
          rw [if_pos rfl, none_, List.append_nil, List.flatMap_cons, later, Write.kept, Write.data,
            fate, if_neg (by decide), List.append_assoc]
      | told count =>
          rw [if_neg (by simp), List.append_assoc, later, Write.kept, Write.data,
            (told count fate).1, List.append_nil, ite_self]
      | dropped =>
          rw [if_neg (by decide), List.append_assoc, later, Write.kept, if_pos fate]

/-- A write comes of which something was read only if no other is pending. -/
theorem InOrder.append (inOrder : InOrder log) {w : Write Id α} (honest : w.Honest)
    (behind : pending log ≠ [] → w.read = []) : InOrder (log ++ [w]) := by
  induction log with
  | nil => exact ⟨fun _ v member => absurd member List.not_mem_nil, honest, trivial⟩
  | cons v rest ih =>
      obtain ⟨first, told, tail⟩ := inOrder
      rw [pending_cons] at behind
      refine ⟨fun waits u member => ?_, told, ih tail fun some_ => behind ?_⟩
      · rcases List.mem_append.mp member with old | new
        · exact first waits u old
        · rw [List.mem_singleton.mp new]
          exact behind (by rw [if_pos waits]; exact List.cons_ne_nil v _)
      · split_ifs
        · exact List.cons_ne_nil v _
        · exact some_

theorem InOrder.put (inOrder : InOrder log) (who : Id) (data : List α) :
    InOrder (WriteLog.put log who data) :=
  inOrder.append (fun _ told => nomatch told) fun _ => rfl

theorem reads_put (who : Id) (data : List α) :
    (put log who data).flatMap Write.read = log.flatMap Write.read := by
  simp [put]

/-- What is read comes from the first write that is pending. -/
theorem reads_consume (inOrder : InOrder log) {w : Write Id α} {rest : List (Write Id α)}
    (first : pending log = w :: rest) (k : ℕ) :
    (onFirst (Write.consume k) log).flatMap Write.read =
      log.flatMap Write.read ++ w.unread.take k := by
  induction log with
  | nil => cases first
  | cons v log ih =>
      obtain ⟨none_, -, tail⟩ := inOrder
      rw [pending_cons] at first
      rw [onFirst]
      by_cases waits : v.fate = .pending
      · rw [if_pos waits] at first ⊢
        obtain ⟨rfl, -⟩ := List.cons.inj first
        have later : log.flatMap Write.read = [] := List.flatMap_eq_nil_iff.mpr (none_ waits)
        rw [List.flatMap_cons, List.flatMap_cons, later, List.append_nil, List.append_nil]
        rfl
      · rw [if_neg waits] at first ⊢
        rw [List.flatMap_cons, List.flatMap_cons, ih tail first, List.append_assoc]

/-- The first write that is pending changes, and stays pending or not. -/
theorem pending_onFirst {change : Write Id α → Write Id α} {w : Write Id α}
    {rest : List (Write Id α)} (first : pending log = w :: rest) :
    pending (onFirst change log) =
      if (change w).fate = .pending then change w :: rest else rest := by
  induction log with
  | nil => cases first
  | cons v log ih =>
      rw [pending_cons] at first
      rw [onFirst]
      by_cases waits : v.fate = .pending
      · rw [if_pos waits] at first ⊢
        obtain ⟨rfl, rfl⟩ := List.cons.inj first
        rw [pending_cons]
      · rw [if_neg waits] at first ⊢
        rw [pending_cons, if_neg waits, ih first]

theorem InOrder.onFirst (inOrder : InOrder log) {change : Write Id α → Write Id α}
    (told : ∀ w ∈ (pending log).head?, (change w).Honest) :
    InOrder (WriteLog.onFirst change log) := by
  induction log with
  | nil => exact inOrder
  | cons v log ih =>
      obtain ⟨none_, told', tail⟩ := inOrder
      rw [WriteLog.onFirst]
      by_cases waits : v.fate = .pending
      · rw [if_pos waits]
        exact ⟨fun _ => none_ waits, told v (by simp [pending, waits]), tail⟩
      · rw [if_neg waits]
        refine ⟨fun on => absurd on waits, told', ih tail fun w member => told w ?_⟩
        rwa [pending_cons, if_neg waits]

/-- Telling the first writer that is pending changes no read. -/
theorem reads_tell (count : ℕ) :
    (onFirst (Write.tell count) log).flatMap Write.read = log.flatMap Write.read := by
  induction log with
  | nil => rfl
  | cons v log ih =>
      rw [onFirst]
      split
      · rfl
      · rw [List.flatMap_cons, List.flatMap_cons, ih]

theorem drop_read (w : Write Id α) : w.drop.read = w.read := by
  rw [Write.drop]
  split <;> rfl

theorem drop_unread (w : Write Id α) : w.drop.unread = w.unread := by
  rw [Write.drop]
  split <;> rfl

theorem drop_fate (w : Write Id α) : w.drop.fate ≠ .pending := by
  rw [Write.drop]
  split
  · simp
  · assumption

variable (which : Id → Bool)

theorem reads_dropAll : (dropAll which log).flatMap Write.read = log.flatMap Write.read := by
  rw [dropAll, List.flatMap_map]
  refine List.flatMap_congr fun w _ => ?_
  split
  · exact drop_read w
  · rfl

theorem pending_dropAll :
    pending (dropAll which log) = (pending log).filter fun w => !which w.who := by
  induction log with
  | nil => rfl
  | cons w log ih =>
      rw [dropAll, List.map_cons] at *
      rw [pending_cons, pending_cons, ih]
      cases gone : which w.who with
      | true =>
          simp only [if_true, if_neg (drop_fate w)]
          split_ifs
          · rw [List.filter_cons_of_neg (by simp [gone])]
          · rfl
      | false =>
          simp only [Bool.false_eq_true, if_false]
          split_ifs
          · rw [List.filter_cons_of_pos (by simp [gone])]
          · rfl

theorem InOrder.dropAll (inOrder : InOrder log) : InOrder (WriteLog.dropAll which log) := by
  induction log with
  | nil => exact inOrder
  | cons w log ih =>
      obtain ⟨none_, told, tail⟩ := inOrder
      have later : w.fate = .pending → ∀ v ∈ WriteLog.dropAll which log, v.read = [] := by
        intro waits v member
        obtain ⟨u, inside, rfl⟩ := List.mem_map.mp member
        have empty := none_ waits u inside
        split
        · rw [drop_read, empty]
        · exact empty
      rw [WriteLog.dropAll, List.map_cons]
      by_cases gone : which w.who = true
      · rw [if_pos gone]
        refine ⟨fun on => absurd on (drop_fate w), fun count on => ?_, ih tail⟩
        rw [drop_unread, drop_read]
        rw [Write.drop] at on
        split_ifs at on
        exact told count on
      · rw [if_neg gone]
        exact ⟨later, told, ih tail⟩

end WriteLog
