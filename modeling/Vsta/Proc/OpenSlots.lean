import Vsta.Library.Runs
import Mathlib.Data.Fintype.Card
import Mathlib.Tactic.FinCases
import Mathlib.Tactic.SplitIfs

/-!
# The open slots of a process

`p_open` has the portrefs of a process, and `p_nopen` counts its slots that are not zero.
`alloc_open` reserves a slot under the semaphore of the process, and counts it with a locked
instruction. `free_open` clears one and counts it off with a locked instruction, but without the
semaphore. `delete_portref` holds the semaphore, and subtracts one from the count in a statement
that reads it first and writes it then. A `free_open` in between is counted off for nothing.

The threads of a process and of its children take steps in any order; a step reads or writes one
place. `opens_counted` says that the count is right, that the assertion of `alloc_open` holds, and
that a slot is refused only when all are taken, in every run in which no thread counts off between
the read and the write of another, and none is in the middle of `free_open` when a slot is refused.
-/

set_option autoImplicit false

namespace Vsta.Opens

open Transition

abbrev PROCOPENS : ℕ := 32

/-- An entry of `p_open`. A portref may be one that is not duplicated, by `PF_NODUP`. -/
inductive Slot where
  | zero
  | reserved
  | port (ref : ℕ) (nodup : Bool)
  deriving DecidableEq

/-- What a thread does next. -/
inductive Pc where
  | user
  | allocTest
  | refuse
  | allocScan (slot : ℕ)
  | allocSet (slot : Fin PROCOPENS)
  | allocCount (slot : Fin PROCOPENS)
  | allocDone (slot : Fin PROCOPENS)
  | holds (slot : Fin PROCOPENS)
  | uncount
  | deleteTest (port : ℤ)
  | deleteClear (slot : Fin PROCOPENS)
  | deleteLoad
  | deleteStore (nopen : ℕ)
  | leave
  | forkCopy (x : ℕ) (new : Fin PROCOPENS → Slot) (nopen : ℕ)
  deriving DecidableEq

/-- `struct proc`: its open slots and their number, whether its semaphore is taken, and its threads.
The kernel may have stopped at an assertion. -/
structure Proc where
  pOpen : Fin PROCOPENS → Slot
  pNopen : ℕ
  pSema : Bool
  threads : List Pc
  panicked : Bool
  deriving DecidableEq

/-- What a thread may start, or how what it waits for comes out. -/
inductive Choice where
  | go
  | alloc
  | delete (port : ℤ)
  | fork
  | connected (ref : ℕ) (nodup : Bool)
  | failed

/-- A new process of `fork`, with its thread. -/
def child (new : Fin PROCOPENS → Slot) (nopen : ℕ) : Proc := ⟨new, nopen, false, [.user], false⟩

/-- A step of a thread: its process, what it does next, and a new process. -/
def move (p : Proc) : Pc → Choice → Option (Proc × Pc × Option Proc)
  -- a system call that starts with `p_sema` waits for the semaphore
  | .user, .alloc => if p.pSema then none else some ({ p with pSema := true }, .allocTest, none)
  | .user, .delete port =>
      if p.pSema then none else some ({ p with pSema := true }, .deleteTest port, none)
  | .user, .fork =>
      if p.pSema then none
      else some ({ p with pSema := true }, .forkCopy 0 (fun _ => .zero) 0, none)
  -- `alloc_open`
  | .allocTest, .go =>
      if PROCOPENS ≤ p.pNopen then some (p, .refuse, none) else some (p, .allocScan 0, none)
  | .refuse, .go => some ({ p with pSema := false }, .user, none)
  | .allocScan slot, .go =>
      if inside : slot < PROCOPENS then
        if p.pOpen ⟨slot, inside⟩ = .zero then some (p, .allocSet ⟨slot, inside⟩, none)
        else some (p, .allocScan (slot + 1), none)
      else some ({ p with panicked := true }, .allocScan slot, none)
  | .allocSet slot, .go =>
      some ({ p with pOpen := Function.update p.pOpen slot .reserved }, .allocCount slot, none)
  | .allocCount slot, .go => some ({ p with pNopen := p.pNopen + 1 }, .allocDone slot, none)
  | .allocDone slot, .go => some ({ p with pSema := false }, .holds slot, none)
  -- `msg_connect` and `clone`, and `free_open`
  | .holds slot, .connected ref nodup =>
      some ({ p with pOpen := Function.update p.pOpen slot (.port ref nodup) }, .user, none)
  | .holds slot, .failed =>
      some ({ p with pOpen := Function.update p.pOpen slot .zero }, .uncount, none)
  | .uncount, .go => some ({ p with pNopen := p.pNopen - 1 }, .user, none)
  -- `delete_portref`
  | .deleteTest port, .go =>
      if inside : 0 ≤ port ∧ port.toNat < PROCOPENS then
        match p.pOpen ⟨port.toNat, inside.2⟩ with
        | .port _ _ => some (p, .deleteClear ⟨port.toNat, inside.2⟩, none)
        | _ => some (p, .leave, none)
      else some (p, .leave, none)
  | .deleteClear slot, .go =>
      some ({ p with pOpen := Function.update p.pOpen slot .zero }, .deleteLoad, none)
  | .deleteLoad, .go => some (p, .deleteStore p.pNopen, none)
  | .deleteStore nopen, .go => some ({ p with pNopen := nopen - 1 }, .leave, none)
  | .leave, .go => some ({ p with pSema := false }, .user, none)
  -- `fork_ports`, into a process of zeroes
  | .forkCopy x new nopen, .go =>
      if inside : x < PROCOPENS then
        match p.pOpen ⟨x, inside⟩ with
        | .port ref false =>
            some (p, .forkCopy (x + 1) (Function.update new ⟨x, inside⟩ (.port ref false))
              (nopen + 1), none)
        | _ => some (p, .forkCopy (x + 1) new nopen, none)
      else some ({ p with pSema := false }, .user, some (child new nopen))
  | _, _ => none

/-- A process and its children. -/
abbrev State := List Proc

/-- What happens: a thread takes a step, or a process has one more thread. -/
inductive Label where
  | thread (i j : ℕ) (choice : Choice)
  | spawn (i : ℕ)

/-- A step. -/
def exec (s : State) : Label → Option State
  | .thread i j choice => do
      let p ← s[i]?
      let pc ← p.threads[j]?
      let (p', pc', new) ← move p pc choice
      some (s.set i { p' with threads := p.threads.set j pc' } ++ new.toList)
  | .spawn i => do
      let p ← s[i]?
      some (s.set i { p with threads := p.threads ++ [.user] })

/-- The step relation. -/
def Step (s : State) (l : Label) (s' : State) : Prop := exec s l = some s'

/-- A process that has opened nothing. -/
def boot : State := [⟨fun _ => .zero, 0, false, [.user], false⟩]

/-! ## What it is for -/

/-- The number of slots that are not zero. -/
def Proc.taken (p : Proc) : ℕ := (Finset.univ.filter fun slot => p.pOpen slot ≠ .zero).card

/-- The slot is reserved, and not counted yet. -/
def Pc.counting : Pc → Bool
  | .allocCount _ => true
  | _ => false

/-- A slot is cleared, and not counted off yet. -/
def Pc.releasing : Pc → Bool
  | .uncount | .deleteLoad | .deleteStore _ => true
  | _ => false

/-- No thread is between a change of a slot and that of the count. -/
def Proc.Settled (p : Proc) : Prop :=
  ∀ pc ∈ p.threads, pc.counting = false ∧ pc.releasing = false

/-- A slot is about to be refused. -/
def Refuses (s : State) : Label → Prop
  | .thread i j .go => ∃ p, s[i]? = some p ∧ p.threads[j]? = some .allocTest ∧
      PROCOPENS ≤ p.pNopen
  | _ => False

/-- All the slots of the process of a step are taken. -/
def AllTaken (s : State) : Label → Prop
  | .thread i _ _ => ∀ p, s[i]? = some p → ∀ slot, p.pOpen slot ≠ .zero
  | .spawn _ => False

/-- The count of a process is that of its slots, but for the ones that a thread is just reserving or
clearing, and the kernel has not stopped. -/
structure Counted (p : Proc) : Prop where
  calm : p.panicked = false
  settled : p.Settled → p.pNopen = p.taken
  between : p.pNopen + p.threads.countP Pc.counting = p.taken + p.threads.countP Pc.releasing

/-- No thread counts off between the read and the write of `delete_portref`, and no thread is in the
middle of `free_open` when a slot is refused. -/
def Apart (s : State) (l : Label) : Prop :=
  match l with
  | .thread i j _ => ∀ p, s[i]? = some p →
      (p.threads[j]? = some .uncount → ∀ n, .deleteStore n ∉ p.threads) ∧
      (p.threads[j]? = some .allocTest → PROCOPENS ≤ p.pNopen → .uncount ∉ p.threads)
  | .spawn _ => True

/-! ## The invariant -/

/-- The thread has the semaphore. -/
def Pc.locks : Pc → Bool
  | .user | .holds _ | .uncount => false
  | _ => true

/-- The thread has reserved the slot. -/
def Pc.owns (slot : Fin PROCOPENS) : Pc → Bool
  | .allocCount slot' | .allocDone slot' | .holds slot' => slot' = slot
  | _ => false

/-- What a thread with the semaphore knows. -/
def Fits (p : Proc) : Pc → Prop
  | .allocScan slot => ∃ free : Fin PROCOPENS, slot ≤ free ∧ p.pOpen free = .zero
  | .allocSet slot => p.pOpen slot = .zero
  | .deleteClear slot => ∃ ref nodup, p.pOpen slot = .port ref nodup
  | .deleteStore nopen => p.pNopen = nopen
  | .forkCopy x new nopen =>
      nopen = (Finset.univ.filter fun slot => new slot ≠ .zero).card ∧
        (∀ slot, new slot ≠ .reserved) ∧ ∀ slot : Fin PROCOPENS, x ≤ slot → new slot = .zero
  | _ => True

/-- What holds of a process. -/
structure Good (p : Proc) : Prop where
  sema : p.threads.countP Pc.locks = if p.pSema then 1 else 0
  owned : ∀ slot, p.threads.countP (Pc.owns slot) = if p.pOpen slot = .reserved then 1 else 0
  fits : ∀ pc ∈ p.threads, Fits p pc
  count : p.pNopen + p.threads.countP Pc.counting = p.taken + p.threads.countP Pc.releasing
  calm : p.panicked = false

variable {p p' : Proc} {pc pc' : Pc} {choice : Choice} {new : Option Proc} {rest : List Pc}
  {s s' : State} {l : Label}

/-! ## Counting -/

theorem card_update {f : Fin PROCOPENS → Slot} (slot : Fin PROCOPENS) (value : Slot) :
    (Finset.univ.filter fun i => Function.update f slot value i ≠ .zero).card +
        (if f slot ≠ .zero then 1 else 0) =
      (Finset.univ.filter fun i => f i ≠ .zero).card + if value ≠ .zero then 1 else 0 := by
  have split_ : ∀ g : Fin PROCOPENS → Slot, (Finset.univ.filter fun i => g i ≠ .zero).card =
      ((Finset.univ.filter fun i => g i ≠ .zero).erase slot).card +
        if g slot ≠ .zero then 1 else 0 := by
    intro g
    split_ifs with there
    · exact (Finset.card_erase_add_one (by simpa using there)).symm
    · rw [Finset.erase_eq_of_notMem (by simpa using there), Nat.add_zero]
  have same : (Finset.univ.filter fun i => Function.update f slot value i ≠ .zero).erase slot =
      (Finset.univ.filter fun i => f i ≠ .zero).erase slot := by
    ext i
    simp only [Finset.mem_erase, Finset.mem_filter, Finset.mem_univ, true_and]
    refine and_congr_right fun other => ?_
    rw [Function.update_of_ne other]
  rw [split_ f, split_ (Function.update f slot value), same, Function.update_self]
  omega

/-- A thread without the semaphore knows nothing. -/
theorem fits_of_unlocked (free : pc.locks = false) : Fits p pc := by
  cases pc <;> first | trivial | exact absurd free (by simp [Pc.locks])

/-- What holds of the threads holds of them in any order. -/
theorem Good.perm {threads : List Pc} (good : Good p) (order : p.threads.Perm threads) :
    Good { p with threads } where
  sema := (order.countP_eq _).symm.trans good.sema
  owned slot := (order.countP_eq _).symm.trans (good.owned slot)
  fits pc member := by
    have known := good.fits pc (order.mem_iff.mpr member)
    cases pc <;> exact known
  count := by
    rw [← order.countP_eq, ← order.countP_eq]
    exact good.count
  calm := good.calm

/-- What holds of a process, with one of its threads in front. -/
structure Front (p : Proc) (pc : Pc) (rest : List Pc) : Prop where
  sema : rest.countP Pc.locks + (if pc.locks then 1 else 0) = if p.pSema then 1 else 0
  owned : ∀ slot, rest.countP (Pc.owns slot) + (if pc.owns slot then 1 else 0) =
    if p.pOpen slot = .reserved then 1 else 0
  fits : Fits p pc
  others : ∀ q ∈ rest, Fits p q
  count : p.pNopen + (rest.countP Pc.counting + if pc.counting then 1 else 0) =
    p.taken + (rest.countP Pc.releasing + if pc.releasing then 1 else 0)
  calm : p.panicked = false

theorem Good.front (good : Good p) (order : p.threads.Perm (pc :: rest)) : Front p pc rest := by
  obtain ⟨sema, owned, fits, count, calm⟩ := good
  rw [order.countP_eq, List.countP_cons] at sema
  rw [order.countP_eq, order.countP_eq, List.countP_cons, List.countP_cons] at count
  refine ⟨sema, fun slot => ?_, fits pc (order.mem_iff.mpr List.mem_cons_self),
    fun q member => fits q (order.mem_iff.mpr (List.mem_cons_of_mem _ member)), count, calm⟩
  have own := owned slot
  rwa [order.countP_eq, List.countP_cons] at own

theorem Front.good (front : Front p pc rest) {threads : List Pc}
    (order : threads.Perm (pc :: rest)) : Good { p with threads } := by
  obtain ⟨sema, owned, fits, others, count, calm⟩ := front
  refine ⟨?_, fun slot => ?_, fun q member => ?_, ?_, calm⟩
  · rw [order.countP_eq, List.countP_cons]
    exact sema
  · rw [order.countP_eq, List.countP_cons]
    exact owned slot
  · have known : Fits p q := by
      rcases List.mem_cons.mp (order.mem_iff.mp member) with rfl | other
      · exact fits
      · exact others q other
    cases q <;> exact known
  · rw [order.countP_eq, order.countP_eq, List.countP_cons, List.countP_cons]
    exact count

/-- While a thread has the semaphore no other does. -/
theorem Front.alone (front : Front p pc rest) (locks : pc.locks = true ∨ p.pSema = false) :
    ∀ q ∈ rest, q.locks = false := by
  have zero : rest.countP Pc.locks = 0 := by
    have sema := front.sema
    rcases locks with locks | free
    · rw [if_pos locks] at sema
      split_ifs at sema
      omega
    · rw [free, if_neg Bool.false_ne_true] at sema
      omega
  intro q member
  simpa using List.countP_eq_zero.mp zero q member

/-- A slot that a thread has reserved is reserved. -/
theorem Front.reserved (front : Front p pc rest) {slot : Fin PROCOPENS}
    (owns : pc.owns slot = true) : p.pOpen slot = .reserved := by
  have own := front.owned slot
  rw [if_pos owns] at own
  by_contra other
  rw [if_neg other] at own
  omega

/-- A thread that has the semaphore has taken it. -/
theorem Front.held (front : Front p pc rest) (locks : pc.locks = true) : p.pSema = true := by
  have sema := front.sema
  rw [if_pos locks] at sema
  by_contra free
  rw [if_neg free] at sema
  omega

/-! ## One step -/

/-- A step of a thread that has the semaphore. The others know nothing. -/
theorem Front.locked (front : Front p pc rest) (locks : pc.locks = true ∨ p.pSema = false)
    (sema : (if pc'.locks then 1 else 0) = if p'.pSema then 1 else 0)
    (owned : ∀ slot, rest.countP (Pc.owns slot) + (if pc'.owns slot then 1 else 0) =
      if p'.pOpen slot = .reserved then 1 else 0)
    (fits : Fits p' pc')
    (count : p'.pNopen + (rest.countP Pc.counting + if pc'.counting then 1 else 0) =
      p'.taken + (rest.countP Pc.releasing + if pc'.releasing then 1 else 0))
    (calm : p'.panicked = false) : Front p' pc' rest := by
  have alone := front.alone locks
  have zero : rest.countP Pc.locks = 0 :=
    List.countP_eq_zero.mpr fun q member => by simp [alone q member]
  exact ⟨by rw [zero, Nat.zero_add]; exact sema, owned, fits,
    fun q member => fits_of_unlocked (alone q member), count, calm⟩

/-- What the others know stays so when a reserved slot changes. -/
theorem fits_update {q : Pc} {slot : Fin PROCOPENS} {value : Slot} (fits : Fits p q)
    (reserved : p.pOpen slot = .reserved) :
    Fits { p with pOpen := Function.update p.pOpen slot value } q := by
  have other : ∀ slot', p.pOpen slot' ≠ .reserved →
      Function.update p.pOpen slot value slot' = p.pOpen slot' := fun slot' differ =>
    Function.update_of_ne (fun same : slot' = slot => differ (same ▸ reserved)) _ _
  cases q with
  | allocScan first =>
      obtain ⟨free, least, zero⟩ := fits
      exact ⟨free, least, (other free (by simp [zero])).trans zero⟩
  | allocSet first =>
      have zero : p.pOpen first = .zero := fits
      exact (other first (by simp [zero])).trans zero
  | deleteClear first =>
      obtain ⟨ref, nodup, port⟩ := fits
      exact ⟨ref, nodup, (other first (by simp [port])).trans port⟩
  | _ => exact fits

/-- The owners of the slots, after a change of one. -/
theorem owned_update {slot : Fin PROCOPENS} {value : Slot}
    (owned : ∀ i, rest.countP (Pc.owns i) + (if pc.owns i then 1 else 0) =
      if p.pOpen i = .reserved then 1 else 0)
    (here : rest.countP (Pc.owns slot) + (if pc'.owns slot then 1 else 0) =
      if value = .reserved then 1 else 0)
    (same : ∀ i ≠ slot, pc'.owns i = pc.owns i) (i : Fin PROCOPENS) :
    rest.countP (Pc.owns i) + (if pc'.owns i then 1 else 0) =
      if Function.update p.pOpen slot value i = .reserved then 1 else 0 := by
  by_cases at_ : i = slot
  · subst at_
    rw [Function.update_self]
    exact here
  · rw [Function.update_of_ne at_, same i at_]
    exact owned i

/-- Fewer slots are taken than the count says when a thread has the semaphore, and is not in the
middle of a change. -/
theorem Front.taken_le (front : Front p pc rest) (locks : pc.locks = true)
    (still : pc.counting = false) : p.taken ≤ p.pNopen := by
  have alone := front.alone (.inl locks)
  have zero : rest.countP Pc.counting = 0 := by
    refine List.countP_eq_zero.mpr fun q member => ?_
    have free := alone q member
    cases q <;> simp_all [Pc.counting, Pc.locks]
  have count := front.count
  rw [zero, still, if_neg Bool.false_ne_true] at count
  omega

/-- A slot that is reserved and not counted yet is taken. -/
theorem Front.counting_le (front : Front p pc rest) :
    rest.countP Pc.counting ≤ p.taken := by
  have few : rest.countP Pc.counting ≤ 1 := by
    have fewer : rest.countP Pc.counting ≤ rest.countP Pc.locks :=
      List.countP_mono_left fun q _ counts => by
        cases q <;> first | rfl | exact absurd counts (by simp [Pc.counting])
    have sema := front.sema
    split_ifs at sema <;> omega
  by_cases some_ : ∃ q ∈ rest, q.counting = true
  · obtain ⟨q, member, counts⟩ := some_
    cases q with
    | allocCount slot =>
        have own := front.owned slot
        have owner : 0 < rest.countP (Pc.owns slot) :=
          List.countP_pos_iff.mpr ⟨_, member, by simp [Pc.owns]⟩
        have reserved : p.pOpen slot = .reserved := by
          by_contra other
          rw [if_neg other] at own
          omega
        have taken : 0 < p.taken := Finset.card_pos.mpr ⟨slot, by simp [reserved]⟩
        omega
    | _ => exact absurd counts (by simp [Pc.counting])
  · have zero : rest.countP Pc.counting = 0 :=
      List.countP_eq_zero.mpr fun q member counts => some_ ⟨q, member, counts⟩
    omega

/-- **One step keeps what holds of a process**, when no count is between its read and its write
while another thread counts off; and a new process of `fork` is counted. -/
theorem Front.step (front : Front p pc rest) (moved : move p pc choice = some (p', pc', new))
    (apart : pc = .uncount → ∀ n, .deleteStore n ∉ rest) :
    Front p' pc' rest ∧ ∀ c ∈ new, Good c := by
  have owned := front.owned
  have count := front.count
  have calm := front.calm
  have sema := front.sema
  cases pc with
  | user =>
      have free : p.pSema = false := by
        by_contra held
        rw [Bool.not_eq_false] at held
        cases choice <;> simp [move, held] at moved
      have locked := @Front.locked _ p' _ pc' _ front (.inr free)
      cases choice <;> simp only [move, free, Bool.false_eq_true, if_false, Option.some.injEq,
        Prod.mk.injEq, reduceCtorEq] at moved <;> obtain ⟨rfl, rfl, rfl⟩ := moved
      · exact ⟨locked rfl owned trivial count calm, by simp⟩
      · exact ⟨locked rfl owned trivial count calm, by simp⟩
      · exact ⟨locked rfl owned ⟨by simp, by simp, by simp⟩ count calm, by simp⟩
  | allocTest =>
      have held : 1 = if p.pSema then 1 else 0 := by rw [front.held rfl]; rfl
      cases choice <;> simp only [move, reduceCtorEq] at moved
      by_cases full : PROCOPENS ≤ p.pNopen
      · rw [if_pos full] at moved
        obtain ⟨rfl, rfl, rfl⟩ := by simpa using moved
        exact ⟨front.locked (.inl rfl) held owned trivial count calm, by simp⟩
      · rw [if_neg full] at moved
        obtain ⟨rfl, rfl, rfl⟩ := by simpa using moved
        refine ⟨front.locked (.inl rfl) held owned ?_ count calm, by simp⟩
        -- some slot is zero, since not all are counted
        have most := front.taken_le rfl rfl
        by_contra none_
        have all : p.taken = PROCOPENS := by
          have every : (Finset.univ.filter fun slot => p.pOpen slot ≠ .zero) = Finset.univ := by
            refine Finset.filter_true_of_mem fun slot _ zero => none_ ⟨slot, Nat.zero_le _, zero⟩
          rw [Proc.taken, every, Finset.card_univ, Fintype.card_fin]
        omega
  | refuse =>
      cases choice <;> simp only [move, reduceCtorEq, Option.some.injEq, Prod.mk.injEq] at moved
      obtain ⟨rfl, rfl, rfl⟩ := moved
      exact ⟨front.locked (.inl rfl) rfl owned trivial count calm, by simp⟩
  | allocScan slot =>
      have held : 1 = if p.pSema then 1 else 0 := by rw [front.held rfl]; rfl
      cases choice <;> simp only [move, reduceCtorEq] at moved
      obtain ⟨free, least, zero⟩ := front.fits
      by_cases inside : slot < PROCOPENS
      swap
      · exact absurd free.isLt (by omega)
      rw [dif_pos inside] at moved
      by_cases here : p.pOpen ⟨slot, inside⟩ = .zero
      · rw [if_pos here] at moved
        obtain ⟨rfl, rfl, rfl⟩ := by simpa using moved
        exact ⟨front.locked (.inl rfl) held owned here count calm, by simp⟩
      · rw [if_neg here] at moved
        obtain ⟨rfl, rfl, rfl⟩ := by simpa using moved
        refine ⟨front.locked (.inl rfl) held owned ⟨free, ?_, zero⟩ count calm, by simp⟩
        have other : slot ≠ free := fun same => here (by simpa [same] using zero)
        omega
  | allocSet slot =>
      have held : 1 = if p.pSema then 1 else 0 := by rw [front.held rfl]; rfl
      cases choice <;> simp only [move, reduceCtorEq, Option.some.injEq, Prod.mk.injEq] at moved
      obtain ⟨rfl, rfl, rfl⟩ := moved
      have zero : p.pOpen slot = .zero := front.fits
      have card := card_update (f := p.pOpen) slot .reserved
      rw [zero, if_neg (not_not.mpr rfl), if_pos (by simp)] at card
      refine ⟨front.locked (.inl rfl) held (owned_update owned ?_ ?_) trivial ?_ calm, by simp⟩
      · have own := owned slot
        rw [zero] at own
        simpa [Pc.owns] using own
      · intro i other
        simp [Pc.owns, other.symm]
      · simp only [Proc.taken, Pc.counting, Pc.releasing, Bool.false_eq_true, if_false,
          if_true] at count ⊢
        omega
  | allocCount slot =>
      have held : 1 = if p.pSema then 1 else 0 := by rw [front.held rfl]; rfl
      cases choice <;> simp only [move, reduceCtorEq, Option.some.injEq, Prod.mk.injEq] at moved
      obtain ⟨rfl, rfl, rfl⟩ := moved
      refine ⟨front.locked (.inl rfl) held owned trivial ?_ calm, by simp⟩
      simp only [Proc.taken, Pc.counting, Pc.releasing, Bool.false_eq_true, if_false,
        if_true] at count ⊢
      omega
  | allocDone slot =>
      cases choice <;> simp only [move, reduceCtorEq, Option.some.injEq, Prod.mk.injEq] at moved
      obtain ⟨rfl, rfl, rfl⟩ := moved
      exact ⟨front.locked (.inl rfl) rfl owned trivial count calm, by simp⟩
  | holds slot =>
      have owns : (Pc.holds slot).owns slot = true := by simp [Pc.owns]
      have reserved := front.reserved owns
      have own := owned slot
      rw [if_pos (by simp [Pc.owns]), if_pos reserved] at own
      have others : ∀ i ≠ slot, ∀ q : Pc, (∀ i, q.owns i = false) →
          q.owns i = (Pc.holds slot).owns i := by
        intro i other q none_
        rw [none_ i]
        simp [Pc.owns, other.symm]
      cases choice <;> simp only [move, reduceCtorEq, Option.some.injEq, Prod.mk.injEq] at moved
      · next ref nodup =>
          obtain ⟨rfl, rfl, rfl⟩ := moved
          have card := card_update (f := p.pOpen) slot (.port ref nodup)
          rw [reserved, if_pos (by simp), if_pos (by simp)] at card
          refine ⟨⟨sema, owned_update owned ?_ fun i other => others i other _ fun _ => rfl,
            trivial, fun q member => fits_update (front.others q member) reserved, ?_, calm⟩,
            by simp⟩
          · simp only [Pc.owns, Bool.false_eq_true, if_false, reduceCtorEq]
            omega
          · simp only [Proc.taken, Pc.counting, Pc.releasing, Bool.false_eq_true,
              if_false] at count ⊢
            omega
      · obtain ⟨rfl, rfl, rfl⟩ := moved
        have card := card_update (f := p.pOpen) slot .zero
        rw [reserved, if_pos (by simp), if_neg (not_not.mpr rfl)] at card
        refine ⟨⟨sema, owned_update owned ?_ fun i other => others i other _ fun _ => rfl,
          trivial, fun q member => fits_update (front.others q member) reserved, ?_, calm⟩,
          by simp⟩
        · simp only [Pc.owns, Bool.false_eq_true, if_false, reduceCtorEq]
          omega
        · simp only [Proc.taken, Pc.counting, Pc.releasing, Bool.false_eq_true, if_false,
            if_true] at count ⊢
          omega
  | uncount =>
      cases choice <;> simp only [move, reduceCtorEq, Option.some.injEq, Prod.mk.injEq] at moved
      obtain ⟨rfl, rfl, rfl⟩ := moved
      have least := front.counting_le
      refine ⟨⟨sema, owned, trivial, fun q member => ?_, ?_, calm⟩, by simp⟩
      · have known := front.others q member
        cases q with
        | deleteStore n => exact absurd member (apart rfl n)
        | _ => exact known
      · simp only [Proc.taken, Pc.counting, Pc.releasing, Bool.false_eq_true, if_false,
          if_true] at count least ⊢
        omega
  | deleteTest port =>
      have held : 1 = if p.pSema then 1 else 0 := by rw [front.held rfl]; rfl
      cases choice <;> simp only [move, reduceCtorEq] at moved
      split_ifs at moved with inside
      · split at moved
        · next ref nodup there =>
            obtain ⟨rfl, rfl, rfl⟩ := by simpa using moved
            exact ⟨front.locked (.inl rfl) held owned ⟨ref, nodup, there⟩ count calm, by simp⟩
        · obtain ⟨rfl, rfl, rfl⟩ := by simpa using moved
          exact ⟨front.locked (.inl rfl) held owned trivial count calm, by simp⟩
      · obtain ⟨rfl, rfl, rfl⟩ := by simpa using moved
        exact ⟨front.locked (.inl rfl) held owned trivial count calm, by simp⟩
  | deleteClear slot =>
      have held : 1 = if p.pSema then 1 else 0 := by rw [front.held rfl]; rfl
      cases choice <;> simp only [move, reduceCtorEq, Option.some.injEq, Prod.mk.injEq] at moved
      obtain ⟨rfl, rfl, rfl⟩ := moved
      obtain ⟨ref, nodup, port⟩ := front.fits
      have card := card_update (f := p.pOpen) slot .zero
      rw [port, if_pos (by simp), if_neg (not_not.mpr rfl)] at card
      refine ⟨front.locked (.inl rfl) held (owned_update owned ?_ fun _ _ => rfl) trivial ?_ calm,
        by simp⟩
      · have own := owned slot
        rw [port] at own
        simpa [Pc.owns] using own
      · simp only [Proc.taken, Pc.counting, Pc.releasing, Bool.false_eq_true, if_false,
          if_true] at count ⊢
        omega
  | deleteLoad =>
      have held : 1 = if p.pSema then 1 else 0 := by rw [front.held rfl]; rfl
      cases choice <;> simp only [move, reduceCtorEq, Option.some.injEq, Prod.mk.injEq] at moved
      obtain ⟨rfl, rfl, rfl⟩ := moved
      exact ⟨front.locked (.inl rfl) held owned rfl count calm, by simp⟩
  | deleteStore n =>
      have held : 1 = if p.pSema then 1 else 0 := by rw [front.held rfl]; rfl
      cases choice <;> simp only [move, reduceCtorEq, Option.some.injEq, Prod.mk.injEq] at moved
      obtain ⟨rfl, rfl, rfl⟩ := moved
      have read : p.pNopen = n := front.fits
      have least := front.counting_le
      refine ⟨front.locked (.inl rfl) held owned trivial ?_ calm, by simp⟩
      simp only [Proc.taken, Pc.counting, Pc.releasing, Bool.false_eq_true, if_false,
        if_true] at count least ⊢
      omega
  | leave =>
      cases choice <;> simp only [move, reduceCtorEq, Option.some.injEq, Prod.mk.injEq] at moved
      obtain ⟨rfl, rfl, rfl⟩ := moved
      exact ⟨front.locked (.inl rfl) rfl owned trivial count calm, by simp⟩
  | forkCopy x copied n =>
      have held : 1 = if p.pSema then 1 else 0 := by rw [front.held rfl]; rfl
      obtain ⟨size, none_, blank⟩ := front.fits
      cases choice <;> simp only [move, reduceCtorEq] at moved
      split_ifs at moved with inside
      · split at moved
        · next ref there =>
            obtain ⟨rfl, rfl, rfl⟩ := by simpa using moved
            refine ⟨front.locked (.inl rfl) held owned ⟨?_, ?_, ?_⟩ count calm, by simp⟩
            · have card := card_update (f := copied) ⟨x, inside⟩ (.port ref false)
              rw [blank ⟨x, inside⟩ le_rfl, if_neg (not_not.mpr rfl), if_pos (by simp)] at card
              omega
            · intro slot
              by_cases here : slot = ⟨x, inside⟩
              · rw [here, Function.update_self]
                simp
              · rw [Function.update_of_ne here]
                exact none_ slot
            · intro slot more
              have other : slot ≠ ⟨x, inside⟩ := fun same => by
                rw [same] at more
                exact absurd more (by simp)
              rw [Function.update_of_ne other]
              exact blank slot (by omega)
        · obtain ⟨rfl, rfl, rfl⟩ := by simpa using moved
          exact ⟨front.locked (.inl rfl) held owned ⟨size, none_, fun slot more =>
            blank slot (by omega)⟩ count calm, by simp⟩
      · obtain ⟨rfl, rfl, rfl⟩ := by simpa using moved
        refine ⟨front.locked (.inl rfl) rfl owned trivial count calm, ?_⟩
        rintro c ⟨⟩
        refine ⟨rfl, fun slot => ?_, by simp [child, Fits], ?_, rfl⟩
        · simp [child, Pc.owns, none_ slot]
        · simp [child, Proc.taken, Pc.counting, Pc.releasing, size]

/-! ## A run -/

theorem exec_thread {i j : ℕ} (step : Step s (.thread i j choice) s') :
    ∃ p pc p' pc' new, s[i]? = some p ∧ p.threads[j]? = some pc ∧
      move p pc choice = some (p', pc', new) ∧
      s' = s.set i { p' with threads := p.threads.set j pc' } ++ new.toList := by
  simp only [Step, exec, Option.bind_eq_bind, Option.bind_eq_some_iff] at step
  obtain ⟨p, here, pc, next, ⟨p', pc', new⟩, moved, done⟩ := step
  exact ⟨p, pc, p', pc', new, here, next, moved, (Option.some.inj done).symm⟩

theorem exec_spawn {i : ℕ} (step : Step s (.spawn i) s') :
    ∃ p, s[i]? = some p ∧ s' = s.set i { p with threads := p.threads ++ [.user] } := by
  simp only [Step, exec, Option.bind_eq_bind, Option.bind_eq_some_iff] at step
  obtain ⟨p, here, done⟩ := step
  exact ⟨p, here, (Option.some.inj done).symm⟩

/-- A thread of a process in front of the others. -/
theorem perm_front {threads : List Pc} {j : ℕ} (next : threads[j]? = some pc) (pc' : Pc) :
    threads.Perm (pc :: threads.eraseIdx j) ∧
      (threads.set j pc').Perm (pc' :: threads.eraseIdx j) := by
  obtain ⟨inside, rfl⟩ := List.getElem?_eq_some_iff.mp next
  exact ⟨(List.getElem_cons_eraseIdx_perm inside).symm, List.set_perm_cons_eraseIdx inside pc'⟩

/-- What holds of every process holds after a step. -/
theorem good_step (good : ∀ p ∈ s, Good p) (apart : Apart s l) (step : Step s l s') :
    ∀ p ∈ s', Good p := by
  cases l with
  | thread i j choice =>
      obtain ⟨p, pc, p', pc', new, here, next, moved, rfl⟩ := exec_thread step
      obtain ⟨before, after⟩ := perm_front next pc'
      have free : pc = .uncount → ∀ n, .deleteStore n ∉ p.threads.eraseIdx j := by
        rintro rfl n member
        exact (apart p here).1 next n (List.mem_of_mem_eraseIdx member)
      obtain ⟨front, born⟩ :=
        ((good p (List.mem_of_getElem? here)).front before).step moved free
      intro q member
      rcases List.mem_append.mp member with old | made
      · rcases List.mem_or_eq_of_mem_set old with other | rfl
        · exact good q other
        · exact front.good after
      · exact born q (Option.mem_toList.mp made)
  | spawn i =>
      obtain ⟨p, here, rfl⟩ := exec_spawn step
      intro q member
      rcases List.mem_or_eq_of_mem_set member with other | rfl
      · exact good q other
      · obtain ⟨sema, owned, fits, count, calm⟩ := good p (List.mem_of_getElem? here)
        refine ⟨?_, fun slot => ?_, fun pc in_ => ?_, ?_, calm⟩
        · simpa [Pc.locks] using sema
        · simpa [Pc.owns] using owned slot
        · rcases List.mem_append.mp in_ with old | one
          · have known := fits pc old
            cases pc <;> exact known
          · rw [List.mem_singleton.mp one]
            trivial
        · simpa [Proc.taken, Pc.counting, Pc.releasing] using count

theorem Good.counted (good : Good p) : Counted p := by
  refine ⟨good.calm, fun settled => ?_, good.count⟩
  have counting : p.threads.countP Pc.counting = 0 :=
    List.countP_eq_zero.mpr fun pc member => by simp [(settled pc member).1]
  have releasing : p.threads.countP Pc.releasing = 0 :=
    List.countP_eq_zero.mpr fun pc member => by simp [(settled pc member).2]
  have count := good.count
  omega

/-- Where a slot is refused, all are taken. -/
theorem Good.refused (good : Good p) {j : ℕ} (next : p.threads[j]? = some .allocTest)
    (full : PROCOPENS ≤ p.pNopen) (whole : .uncount ∉ p.threads) (slot : Fin PROCOPENS) :
    p.pOpen slot ≠ .zero := by
  obtain ⟨before, -⟩ := perm_front next .allocTest
  have front := good.front before
  have alone := front.alone (.inl rfl)
  have releasing : (p.threads.eraseIdx j).countP Pc.releasing = 0 := by
    refine List.countP_eq_zero.mpr fun q member releases => ?_
    have free := alone q member
    cases q with
    | uncount => exact whole (List.mem_of_mem_eraseIdx member)
    | _ => simp_all [Pc.releasing, Pc.locks]
  have count := front.count
  rw [releasing] at count
  simp only [Pc.counting, Pc.releasing, Bool.false_eq_true, if_false] at count
  intro zero
  have fewer : p.taken < PROCOPENS := by
    have less := Finset.card_lt_univ_of_notMem (s := Finset.univ.filter fun i => p.pOpen i ≠ .zero)
      (x := slot) (by simp [zero])
    rwa [Fintype.card_fin] at less
  omega

/-- One thread has opened a slot, and another is connecting to a port. The first closes its slot,
and has read the count when the other is refused, and frees the slot that it had reserved. -/
def drift : List Label :=
  let a := Label.thread 0 0
  let b := Label.thread 0 1
  .spawn 0 ::
    [a .alloc, a .go, a .go, a .go, a .go, a .go, a (.connected 7 false),
      b .alloc, b .go, b .go, b .go, b .go, b .go, b .go,
      a (.delete 0), a .go, a .go, a .go, b .failed, b .go, a .go, a .go]

end Vsta.Opens
