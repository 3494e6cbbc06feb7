import Vsta.Perm.Owner

/-!
# The protection of what a client creates

`tmpfs`, `env`, the semaphore server and `namer` protect a new object with the label in slot 0 of
its creator, as the kernel delivered it at connect, and give the bits to the last value of the
label. That the label is matched to its end is what the bits ask for; a label that is shorter, and
matches as far as it goes, dominates it.

The last value of the empty label is in front of the array. `usable_iff` says that all is well for
the other labels, but for a client that has no slot enabled: it is not given what everybody is.
-/

set_option autoImplicit false

namespace Vsta.Created

open Permissions

abbrev ACC_WRITE : UChar := 0x02
abbrev ACC_READ : UChar := 0x04
abbrev ACC_CHMOD : UChar := 0x40

/-- An index outside `prot_bits`. -/
inductive Fault where
  | outside
  deriving DecidableEq

/-- `prot_bits[x] = bits`. -/
def store (protBits : Vector UChar PERMLEN) (x : ℤ) (bits : UChar) :
    Except Fault (Vector UChar PERMLEN) :=
  if 0 ≤ x ∧ x < PERMLEN then .ok (protBits.setIfInBounds x.toNat bits) else .error .outside

/-- The 0'th perm as a protection, with bits for everybody and for a full match. -/
def newProt (default bits : UChar) (perm : Perm) : Except Fault Prot := do
  let protLen : UChar := .ofNat 8 perm.len
  let protBits ← store (.replicate PERMLEN 0#8) (protLen.toNat - 1) bits
  return ⟨protLen, default, perm.permId, protBits⟩

/-- `dir_newfile` of `tmpfs`. -/
def tmpfsDirNewfile (fPerms : Vector Perm PROCPERMS) : Except Fault Prot :=
  newProt 0#8 (ACC_READ ||| ACC_WRITE ||| ACC_CHMOD) (slot fPerms 0)

/-- `alloc_node` of `env`, for a directory or not, under the root or not. -/
def envAllocNode (isdir root : Bool) (fPerms : Vector Perm PROCPERMS) : Except Fault Prot :=
  if !isdir && root then newProt ACC_READ (ACC_WRITE ||| ACC_CHMOD) (slot fPerms 0)
  else newProt 0#8 (ACC_READ ||| ACC_WRITE ||| ACC_CHMOD) (slot fPerms 0)

/-- `dir_newfile` of the semaphore server. -/
def semaDirNewfile (fPerms : Vector Perm PROCPERMS) : Except Fault Prot :=
  newProt 0#8 (ACC_READ ||| ACC_WRITE ||| ACC_CHMOD) (slot fPerms 0)

/-- `namer_open`. -/
def namerOpen (fPerms : Vector Perm PROCPERMS) : Except Fault Prot :=
  newProt ACC_READ (ACC_WRITE ||| ACC_CHMOD) (slot fPerms 0)

/-- Where something is created. -/
inductive Place where
  | tmpfs
  | env (isdir root : Bool)
  | sema
  | namer

/-- The protection it is given. -/
def Place.prot : Place → Vector Perm PROCPERMS → Except Fault Prot
  | .tmpfs => tmpfsDirNewfile
  | .env isdir root => envAllocNode isdir root
  | .sema => semaDirNewfile
  | .namer => namerOpen

/-! ## What it is for -/

/-- What everybody may do: read in `namer`, and in the root of `env`. -/
def Place.everybody : Place → UChar
  | .tmpfs => 0#8
  | .env isdir root => if isdir then 0#8 else if root then ACC_READ else 0#8
  | .sema => 0#8
  | .namer => ACC_READ

/-- What the creator may do. -/
def intended : UChar := ACC_READ ||| ACC_WRITE ||| ACC_CHMOD

/-- The label of a protection. -/
def label (prot : Prot) : List UChar := prot.protId.toList.take prot.protLen.toNat

/-- Two labels of which one is the beginning of the other: it dominates, or it matches to its
end. -/
def Meets (held own : List UChar) : Prop := held <+: own ∨ own <+: held

/-- **A creator can use what it creates, and nobody else more than everybody.** -/
def Usable (place : Place) (fPerms : Vector Perm PROCPERMS) (client : List Perm) : Prop :=
  ∃ prot, place.prot fPerms = .ok prot ∧ label prot = (slot fPerms 0).label ∧
    ((∃ perm ∈ client, perm.active = true ∧ perm.label = (slot fPerms 0).label) →
      permCalc client prot = intended) ∧
    ((∀ perm ∈ client, perm.active = true → ¬Meets perm.label (slot fPerms 0).label) →
      permCalc client prot = place.everybody)

/-- **When it is usable.** The creator's label is not empty, and the client has an enabled slot
where there is something that everybody may do. -/
def Labelled (place : Place) (fPerms : Vector Perm PROCPERMS) (client : List Perm) : Prop :=
  0 < (slot fPerms 0).len ∧
    (place.everybody ≠ 0#8 → ∃ perm ∈ client, perm.active = true)

/-! ## The label and the bits -/

/-- A label matches a protection to its last value, just when it meets its label. -/
theorem matchesTo_iff {prot : Prot} {n : ℕ} (len : (label prot).length = n + 1) (held : List UChar)
    (ids : ∀ x ≤ n, (label prot)[x]? = some (prot.id x)) :
    prot.matchesTo held n ↔ Meets held (label prot) := by
  constructor
  · intro agree
    by_cases shorter : held.length ≤ n + 1
    · refine .inl (List.prefix_iff_getElem?.mpr fun x inside => ?_)
      rw [ids x (by omega), agree x (by omega) _ (List.getElem?_eq_getElem inside)]
    · refine .inr (List.prefix_iff_getElem?.mpr fun x inside => ?_)
      have here : held[x]? = some held[x] := List.getElem?_eq_getElem (by omega)
      have own := ids x (by omega)
      rw [agree x (by omega) _ here, List.getElem?_eq_getElem inside] at own
      rw [here, own]
  · intro meets x before value here
    have own := ids x before
    obtain ⟨insideHeld, is⟩ := List.getElem?_eq_some_iff.mp here
    rcases meets with shorter | longer
    · have same := List.prefix_iff_getElem?.mp shorter x insideHeld
      rw [own, is] at same
      exact Option.some.inj same
    · have insideOwn : x < (label prot).length := by omega
      have same := List.prefix_iff_getElem?.mp longer x insideOwn
      rw [← List.getElem?_eq_getElem insideOwn, own, here] at same
      exact (Option.some.inj same).symm

section NewProt

variable {default bits : UChar} {perm : Perm}

/-- The protection of a label that is not empty. -/
theorem newProt_ok (some_ : 0 < perm.len) :
    newProt default bits perm = .ok ⟨.ofNat 8 perm.len, default, perm.permId,
      (Vector.replicate PERMLEN 0#8).setIfInBounds (perm.len - 1) bits⟩ := by
  have short := perm.len_lt
  have len : (BitVec.ofNat 8 perm.len).toNat = perm.len := by
    rw [BitVec.toNat_ofNat, Nat.mod_eq_of_lt (short.trans (by decide))]
  have inside : (0 : ℤ) ≤ (BitVec.ofNat 8 perm.len).toNat - 1 ∧
      ((BitVec.ofNat 8 perm.len).toNat : ℤ) - 1 < PERMLEN := by
    rw [len]
    constructor <;> omega
  have last : (((BitVec.ofNat 8 perm.len).toNat : ℤ) - 1).toNat = perm.len - 1 := by
    rw [len]
    omega
  simp only [newProt, store, if_pos inside, last]
  rfl

/-- The empty label has no last value. -/
theorem newProt_outside (empty : perm.len = 0) :
    newProt default bits perm = .error .outside := by
  rw [newProt, empty]
  rfl

/-- The label is the creator's. -/
theorem newProt_label (some_ : 0 < perm.len) {prot : Prot}
    (is : newProt default bits perm = .ok prot) : label prot = perm.label := by
  rw [newProt_ok some_, Except.ok.injEq] at is
  have short : perm.len < 2 ^ 8 := perm.len_lt.trans (by decide)
  rw [← is, label, Perm.label, BitVec.toNat_ofNat, Nat.mod_eq_of_lt short]

/-- What is granted: the bits for everybody, and the others to a label that meets it. -/
theorem newProt_grants (some_ : 0 < perm.len) {prot : Prot}
    (is : newProt default bits perm = .ok prot) (held : List UChar) (bit : ℕ) :
    prot.grants held bit ↔
      default.getLsbD bit = true ∨ (bits.getLsbD bit = true ∧ Meets held perm.label) := by
  have short := perm.len_lt
  have own := newProt_label some_ is
  rw [newProt_ok some_, Except.ok.injEq] at is
  have len : prot.protLen.toNat = perm.len := by
    rw [← is, BitVec.toNat_ofNat, Nat.mod_eq_of_lt (short.trans (by decide))]
  have everybody : prot.protDefault = default := by rw [← is]
  have at_ (y : ℕ) : prot.bits y = if y = perm.len - 1 ∧ y < PERMLEN then bits else 0#8 := by
    have zero : (Vector.replicate PERMLEN 0#8).toList.getD y 0#8 = 0#8 := by
      rw [Vector.toList_replicate, List.getD_eq_getElem?_getD, List.getElem?_replicate]
      split <;> rfl
    rw [← is, Prot.bits, getD_setIfInBounds, zero]
  have size : (label prot).length = perm.len - 1 + 1 := by
    rw [own, perm.label_length]
    omega
  have ids : ∀ x ≤ perm.len - 1, (label prot)[x]? = some (prot.id x) := by
    intro x before
    rw [own, perm.label_getElem? (by omega), ← is]
    rfl
  have agrees := matchesTo_iff size held ids
  rw [own] at agrees
  rw [Prot.grants, everybody, len]
  refine or_congr_right ⟨?_, ?_⟩
  · rintro ⟨y, inside, has, agree⟩
    rw [at_] at has
    split_ifs at has with last
    · exact ⟨has, agrees.mp (last.1 ▸ agree)⟩
    · simp at has
  · rintro ⟨has, meets⟩
    refine ⟨perm.len - 1, by omega, ?_, agrees.mpr meets⟩
    rwa [at_, if_pos ⟨rfl, by omega⟩]

end NewProt

/-! ## Who can use it -/

theorem Place.prot_eq (place : Place) (fPerms : Vector Perm PROCPERMS) :
    ∃ bits, place.prot fPerms = newProt place.everybody bits (slot fPerms 0) ∧
      intended = place.everybody ||| bits := by
  cases place with
  | tmpfs => exact ⟨_, rfl, by decide⟩
  | env isdir root =>
    cases isdir <;> cases root <;> exact ⟨_, rfl, by decide⟩
  | sema => exact ⟨_, rfl, by decide⟩
  | namer => exact ⟨_, rfl, by decide⟩

/-- Nothing is granted where no slot is enabled. -/
theorem permCalc_none {client : List Perm} (off : ∀ perm ∈ client, perm.active = false)
    (prot : Prot) : permCalc client prot = 0#8 := by
  refine BitVec.eq_of_getLsbD_eq fun bit _ => ?_
  rw [Bool.eq_iff_iff, permCalc_getLsbD]
  constructor
  · rintro ⟨perm, held, act, -⟩
    rw [off perm held] at act
    cases act
  · intro has
    simp at has

/-- **A creator can use what it creates just when its label is not empty**, and what everybody may
do is for the clients with an enabled slot. -/
theorem usable_iff (place : Place) (fPerms : Vector Perm PROCPERMS) (client : List Perm) :
    Usable place fPerms client ↔ Labelled place fPerms client := by
  obtain ⟨bits, made, sum⟩ := place.prot_eq fPerms
  constructor
  · rintro ⟨prot, is, -, -, other⟩
    rw [made] at is
    have some_ : 0 < (slot fPerms 0).len := by
      by_contra empty
      rw [newProt_outside (by omega)] at is
      cases is
    refine ⟨some_, fun default => ?_⟩
    by_contra none_
    have off : ∀ perm ∈ client, perm.active = false := by
      intro perm held
      by_contra act
      exact none_ ⟨perm, held, by simpa using act⟩
    refine default ?_
    rw [← permCalc_none off prot, other fun perm held act => by simp [off perm held] at act]
  · rintro ⟨some_, everybody⟩
    have is : newProt place.everybody bits (slot fPerms 0) = .ok _ := newProt_ok some_
    refine ⟨_, made.trans is, newProt_label some_ is, ?_, ?_⟩
    · rintro ⟨perm, held, act, same⟩
      refine BitVec.eq_of_getLsbD_eq fun bit _ => ?_
      rw [Bool.eq_iff_iff, permCalc_getLsbD, sum, BitVec.getLsbD_or, Bool.or_eq_true]
      constructor
      · rintro ⟨other, -, -, granted⟩
        exact ((newProt_grants some_ is _ _).mp granted).imp_right And.left
      · intro has
        refine ⟨perm, held, act, (newProt_grants some_ is _ _).mpr (has.imp_right fun has => ?_)⟩
        exact ⟨has, same ▸ .inl (List.prefix_refl _)⟩
    · intro strangers
      refine BitVec.eq_of_getLsbD_eq fun bit inside => ?_
      rw [Bool.eq_iff_iff, permCalc_getLsbD]
      constructor
      · rintro ⟨perm, held, act, granted⟩
        rcases (newProt_grants some_ is _ _).mp granted with has | ⟨-, meets⟩
        · exact has
        · exact absurd meets (strangers perm held act)
      · intro has
        obtain ⟨perm, held, act⟩ := everybody (by rintro zero; simp [zero] at has)
        exact ⟨perm, held, act, (newProt_grants some_ is _ _).mpr (.inl has)⟩

/-- What the superuser creates has no label to be matched. -/
theorem superuser_creates :
    ¬Usable .tmpfs (.replicate PROCPERMS ⟨0#8, .replicate PERMLEN 0#8, 0#32⟩)
      [⟨0#8, .replicate PERMLEN 0#8, 0#32⟩] := by
  rintro ⟨prot, is, -⟩
  cases is

end Vsta.Created
