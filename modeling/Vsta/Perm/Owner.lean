import Vsta.Perm.PermCtl

/-!
# The owner of a process after `perm_ctl`

A call that sets slot 0 makes the default protection of the process match its new
label. `perm_ctl()` does so before it looks whether any slot allowed the call, and it
moves the bits of the old last level to `prot_bits[plen]`, one past the last level that
`perm_step()` reads: the owner's bits are those that happen to stand at
`prot_bits[plen - 1]`.
-/

set_option autoImplicit false

namespace Vsta.Permissions

/-! ## The protection `perm_ctl()` leaves -/

/-- A loop that assigns the first `n` elements of an array. -/
theorem getD_assign (f : Nat → UChar) (v : Vector UChar PERMLEN) (n i : Nat) :
    ((List.range n).foldl (fun v i => v.setIfInBounds i (f i)) v).toList.getD i 0#8 =
      if i < n ∧ i < PERMLEN then f i else v.toList.getD i 0#8 := by
  induction n with
  | zero => simp
  | succ n ih =>
      rw [List.range_succ, List.foldl_append, List.foldl_cons, List.foldl_nil,
        Vector.toList_setIfInBounds, List.getD_eq_getElem?_getD, List.getElem?_set]
      simp only [Vector.length_toList]
      rw [List.getD_eq_getElem?_getD] at ih
      by_cases here : n = i
      · subst here
        by_cases inside : n < PERMLEN
        · simp [inside]
        · simp only [inside, if_true, if_false, Nat.lt_succ_self, and_false,
            Option.getD_none]
          rw [List.getD_eq_getElem?_getD, List.getElem?_eq_none (by simpa using inside)]
          rfl
      · rw [if_neg here, ih]
        have same : i < n + 1 ↔ i < n := by omega
        simp only [same]

theorem getD_setIfInBounds (v : Vector UChar PERMLEN) (x i : Nat) (value : UChar) :
    (v.setIfInBounds x value).toList.getD i 0#8 =
      if i = x ∧ i < PERMLEN then value else v.toList.getD i 0#8 := by
  rw [Vector.toList_setIfInBounds, List.getD_eq_getElem?_getD, List.getElem?_set]
  by_cases here : x = i
  · subst here
    by_cases inside : x < PERMLEN
    · simp [inside]
    · simp [inside, List.getD_eq_getElem?_getD]
  · rw [if_neg here, if_neg fun both => here both.1.symm, List.getD_eq_getElem?_getD]

section OwnLabel

variable (prot : Prot) {plen : Nat} (owner : Perm)

theorem ownLabel_len (short : plen < PERMLEN) : (ownLabel prot plen owner).protLen.toNat = plen := by
  simp only [ownLabel, BitVec.toNat_ofNat]
  exact Nat.mod_eq_of_lt (short.trans (by decide))

/-- The label of the protection is the owner's. -/
theorem ownLabel_id (pos : 0 < plen) (short : plen < PERMLEN) (i : Nat) :
    (ownLabel prot plen owner).id i = if i < plen then owner.id i else prot.id i := by
  simp only [Prot.id, ownLabel]
  rw [getD_assign, getD_setIfInBounds]
  by_cases before : i < plen - 1
  · rw [if_pos ⟨before, by omega⟩, if_pos (by omega)]
  · rw [if_neg fun both => before both.1]
    by_cases last : i = plen - 1
    · rw [if_pos ⟨last, by omega⟩, if_pos (by omega), last]
    · rw [if_neg fun both => last both.1, if_neg (by omega)]

/-- The bits of the protection: the last level keeps what it has, and those of the old
last level go one past it. -/
theorem ownLabel_bits (short : plen < PERMLEN) (i : Nat) :
    (ownLabel prot plen owner).bits i =
      if i < plen - 1 then 0#8
      else if i = plen then prot.bits prot.protLen.toNat else prot.bits i := by
  simp only [Prot.bits, ownLabel]
  rw [getD_assign, getD_setIfInBounds]
  by_cases before : i < plen - 1
  · rw [if_pos ⟨before, by omega⟩, if_pos before]
  · rw [if_neg fun both => before both.1, if_neg before]
    by_cases here : i = plen
    · rw [if_pos ⟨here, by omega⟩, if_pos here]
    · rw [if_neg fun both => here both.1, if_neg here]

/-- The owner is granted the default bits and those of the last level. -/
theorem ownLabel_grants {label : List UChar} (pos : 0 < plen) (short : plen < PERMLEN)
    (same : ∀ i value, label[i]? = some value → i < plen ∧ owner.id i = value) (bit : Nat) :
    (ownLabel prot plen owner).grants label bit ↔
      (prot.protDefault ||| prot.bits (plen - 1)).getLsbD bit = true := by
  rw [BitVec.getLsbD_or, Bool.or_eq_true, Prot.grants, ownLabel_len prot owner short]
  have last : (ownLabel prot plen owner).bits (plen - 1) = prot.bits (plen - 1) := by
    rw [ownLabel_bits prot owner short, if_neg (lt_irrefl _), if_neg (by omega)]
  refine or_congr Iff.rfl ⟨?_, fun has => ⟨plen - 1, by omega, by rwa [last], ?_⟩⟩
  · rintro ⟨y, inside, has, -⟩
    by_cases before : y < plen - 1
    · rw [ownLabel_bits prot owner short, if_pos before] at has
      simp at has
    · obtain rfl : y = plen - 1 := by omega
      rwa [last] at has
  · intro x _ value at_
    obtain ⟨within, equal⟩ := same x value at_
    rw [ownLabel_id prot owner pos short, if_pos within, equal]

theorem eq_of_getD {v w : Vector UChar PERMLEN}
    (same : ∀ i < PERMLEN, v.toList.getD i 0#8 = w.toList.getD i 0#8) : v = w := by
  refine Vector.ext fun i inside => ?_
  have at_ := same i inside
  simp only [List.getD_eq_getElem?_getD, Vector.getElem?_toList, Vector.getElem?_eq_getElem inside,
    Option.getD_some] at at_
  exact at_

/-- The protection is already one for the owner's label of length `plen`, with bits at its
last level only. -/
def Prot.Labels (prot : Prot) (owner : Perm) (plen : Nat) : Prop :=
  prot.protLen.toNat = plen ∧ (∀ i < plen, prot.id i = owner.id i) ∧
    ∀ i < plen - 1, prot.bits i = 0#8

/-- Such a protection is the one that stays as it is. -/
theorem ownLabel_eq_iff (pos : 0 < plen) (short : plen < PERMLEN) :
    ownLabel prot plen owner = prot ↔ prot.Labels owner plen := by
  constructor
  · intro same
    refine ⟨?_, fun i inside => ?_, fun i inside => ?_⟩
    · rw [← ownLabel_len prot owner short, same]
    · rw [← if_pos (c := i < plen) (t := owner.id i) inside, ← ownLabel_id prot owner pos short i,
        same]
    · have bits := ownLabel_bits prot owner short i
      rwa [if_pos inside, same] at bits
  · rintro ⟨len, ids, bits⟩
    have sameLen : (ownLabel prot plen owner).protLen = prot.protLen :=
      BitVec.eq_of_toNat_eq (by rw [ownLabel_len prot owner short, len])
    have sameId : (ownLabel prot plen owner).protId = prot.protId := by
      refine eq_of_getD fun i _ => (ownLabel_id prot owner pos short i).trans ?_
      split_ifs with inside
      · exact (ids i inside).symm
      · rfl
    have sameBits : (ownLabel prot plen owner).protBits = prot.protBits := by
      refine eq_of_getD fun i _ => (ownLabel_bits prot owner short i).trans ?_
      split_ifs with before here
      · exact (bits i before).symm
      · rw [len, here]
        rfl
      · rfl
    calc ownLabel prot plen owner
      _ = ⟨(ownLabel prot plen owner).protLen, prot.protDefault,
          (ownLabel prot plen owner).protId, (ownLabel prot plen owner).protBits⟩ := rfl
      _ = prot := by rw [sameLen, sameId, sameBits]

end OwnLabel

/-! ## When a call keeps the owner -/

/-- The permission a call sets, when it comes as far as looking for a slot that allows it. -/
def PermCall.setting (call : PermCall) : Option Perm :=
  if call.argIdx < 0 ∨ (PROCPERMS : Int) ≤ call.argIdx ∨ call.copyinFails ∨ call.interrupted then
    none
  else call.argPerm

/-- The permission makes `perm_ctl()` change the default protection. -/
def Relabels (call : PermCall) (perm : Perm) : Prop :=
  call.argIdx = 0 ∧ perm.active = true ∧ 0 < perm.len

instance (call : PermCall) (perm : Perm) : Decidable (Relabels call perm) :=
  inferInstanceAs (Decidable (_ ∧ _))

/-- The call is to hand the slot back, and cannot. -/
def PermCall.copyout (call : PermCall) : Bool := call.argRet && call.copyoutFails

/-- A call that is not allowed leaves the process as it is. -/
def AtomicOnEPERM (p : Proc) (call : PermCall) : Prop :=
  (permCtl p call).2 = .error .EPERM → (permCtl p call).1 = p

/-- A call that sets slot 0 keeps the access the owner has by the default protection. -/
def KeepsOwner (p : Proc) (call : PermCall) : Prop :=
  call.argIdx = 0 → call.argPerm.isSome = true → (∃ ret, (permCtl p call).2 = .ok ret) →
    ∀ bit, (permStep (slot p.pIds 0) p.pProt).getLsbD bit = true →
      (permStep (slot (permCtl p call).1.pIds 0) (permCtl p call).1.pProt).getLsbD bit = true

/-- What the old owner is granted, the new one keeps: a new label is granted the default
bits and `prot_bits[plen - 1]`, any other permission what the old protection grants it. -/
def BitsKept (p : Proc) (perm : Perm) : Prop :=
  ∀ bit, (permStep (slot p.pIds 0) p.pProt).getLsbD bit = true →
    (if perm.active = true ∧ 0 < perm.len then p.pProt.protDefault ||| p.pProt.bits (perm.len - 1)
      else permStep perm p.pProt).getLsbD bit = true

/-- The condition under which a call is atomic and keeps the owner. -/
def Harmless (p : Proc) (call : PermCall) : Prop :=
  ∀ perm, call.setting = some perm →
    (dominating p.pIds perm = none → Relabels call perm →
      p.pProt.Labels (slot p.pIds 0) perm.len) ∧
    (dominating p.pIds perm ≠ none → call.argIdx = 0 → call.copyout = false → BitsKept p perm)

/-- A call that does not come to the slots changes nothing. -/
theorem permCtl_of_none {p : Proc} {call : PermCall} (none_ : call.setting = none) :
    (permCtl p call).1 = p ∧ (permCtl p call).2 ≠ .error .EPERM ∧
      (call.argPerm.isSome = true → ∀ ret, (permCtl p call).2 ≠ .ok ret) := by
  by_cases out : call.argIdx < 0 ∨ (PROCPERMS : Int) ≤ call.argIdx
  · rw [permCtl, if_pos out]
    exact ⟨rfl, by simp, fun _ ret => by simp⟩
  · simp only [permCtl, if_neg out]
    cases asked : call.argPerm with
    | none =>
        dsimp only
        refine ⟨?_, ?_, nofun⟩ <;> split_ifs <;> simp
    | some perm =>
        dsimp only
        by_cases copyin : call.copyinFails = true
        · rw [if_pos copyin]
          exact ⟨rfl, by simp, fun _ ret => by simp⟩
        · rw [if_neg copyin]
          by_cases interrupted : call.interrupted = true
          · rw [if_pos interrupted]
            exact ⟨rfl, by simp, fun _ ret => by simp⟩
          · have comes : ¬(call.argIdx < 0 ∨ (PROCPERMS : Int) ≤ call.argIdx ∨
                call.copyinFails = true ∨ call.interrupted = true) := by tauto
            rw [PermCall.setting, if_neg comes, asked] at none_
            exact absurd none_ (Option.some_ne_none perm)

/-- A call that comes to the slots. -/
theorem permCtl_of_some {p : Proc} {call : PermCall} {perm : Perm}
    (sets : call.setting = some perm) :
    call.argPerm = some perm ∧ (permCtl p call).1 = setSlot p call.argIdx.toNat perm ∧
      ((permCtl p call).2 = .error .EPERM ↔ dominating p.pIds perm = none) ∧
      ((∃ ret, (permCtl p call).2 = .ok ret) ↔
        dominating p.pIds perm ≠ none ∧ call.copyout = false) := by
  rw [PermCall.setting] at sets
  split_ifs at sets with stops
  have inside : ¬(call.argIdx < 0 ∨ (PROCPERMS : Int) ≤ call.argIdx) := by tauto
  have copyin : ¬call.copyinFails = true := by tauto
  have interrupted : ¬call.interrupted = true := by tauto
  simp only [permCtl, if_neg inside, sets, if_neg copyin, if_neg interrupted, true_and,
    PermCall.copyout]
  cases found : dominating p.pIds perm with
  | none => simp
  | some x =>
      cases wanted : call.argRet <;> cases fails : call.copyoutFails <;> simp

/-! ## The slot a call sets -/

theorem slot_setIfInBounds (ids : Vector Perm PROCPERMS) (x i : Nat) (perm : Perm) :
    slot (ids.setIfInBounds x perm) i =
      if i = x ∧ i < PROCPERMS then perm else slot ids i := by
  rw [slot, slot, Vector.toList_setIfInBounds, List.getD_eq_getElem?_getD, List.getElem?_set,
    List.getD_eq_getElem?_getD]
  by_cases here : x = i
  · subst here
    by_cases inside : x < PROCPERMS
    · simp [inside]
    · simp [inside]
  · rw [if_neg here, if_neg fun both => here both.1.symm]

/-- The slot holds the permission asked for, with another UID perhaps. -/
theorem slot_overwrite (ids : Vector Perm PROCPERMS) {argIdx : Nat} (inside : argIdx < PROCPERMS)
    (perm : Perm) (x : Nat) : ∃ uid, slot (overwrite ids argIdx perm x) argIdx =
      { perm with permUid := uid } := by
  simp only [overwrite]
  split_ifs
  · rw [slot_setIfInBounds, if_pos ⟨rfl, inside⟩]
    exact ⟨_, rfl⟩
  · rw [slot_setIfInBounds, if_pos ⟨rfl, inside⟩]
    exact ⟨perm.permUid, rfl⟩

/-- A grant depends on the label alone. -/
theorem permStep_congr {one two : Perm} (same : one.label = two.label) (prot : Prot) :
    permStep one prot = permStep two prot := by
  refine BitVec.eq_of_getLsbD_eq fun bit _ => ?_
  rw [Bool.eq_iff_iff, permStep_eq_grants, permStep_eq_grants, same]

/-- What the new owner is granted after a call that sets slot 0. -/
theorem granted_after {p : Proc} {perm : Perm} {x : Nat}
    (found : dominating p.pIds perm = some x) (bit : Nat) :
    (permStep (slot (setSlot p 0 perm).pIds 0) (setSlot p 0 perm).pProt).getLsbD bit =
      (if perm.active = true ∧ 0 < perm.len then
        p.pProt.protDefault ||| p.pProt.bits (perm.len - 1)
      else permStep perm p.pProt).getLsbD bit := by
  have first : 0 < PROCPERMS := by decide
  obtain ⟨uid, owner⟩ := slot_overwrite p.pIds first perm x
  have label : (slot (overwrite p.pIds 0 perm x) 0).label = perm.label := by
    rw [owner]
    rfl
  have id : ∀ i, (slot (overwrite p.pIds 0 perm x) 0).id i = perm.id i := by
    rw [owner]
    exact fun _ => rfl
  simp only [setSlot, found, true_and]
  split_ifs with changes
  · rw [Bool.eq_iff_iff, permStep_eq_grants, label,
      ownLabel_grants _ _ changes.2 perm.len_lt]
    intro i value at_
    obtain ⟨within, _⟩ := List.getElem?_eq_some_iff.mp at_
    rw [perm.label_length] at within
    rw [perm.label_getElem? within] at at_
    exact ⟨within, (id i).trans (Option.some.inj at_)⟩
  · rw [permStep_congr label]

/-- A call that no slot allows changes nothing when the protection is already what it is
made. -/
theorem setSlot_refused {p : Proc} {perm : Perm} (refused : dominating p.pIds perm = none)
    (argIdx : Nat) :
    setSlot p argIdx perm = p ↔
      (argIdx = 0 ∧ perm.active = true ∧ 0 < perm.len →
        p.pProt.Labels (slot p.pIds 0) perm.len) := by
  simp only [setSlot, refused]
  by_cases changes : argIdx = 0 ∧ perm.active = true ∧ 0 < perm.len
  · rw [if_pos changes, ← ownLabel_eq_iff _ _ changes.2.2 perm.len_lt]
    exact ⟨fun same _ => congrArg Proc.pProt same, fun same => by rw [same changes]⟩
  · rw [if_neg changes]
    exact ⟨fun _ both => absurd both changes, fun _ => rfl⟩

/-! ## Atomic, and the owner kept -/

/-- **When `perm_ctl` is atomic and keeps the owner.** A call that fails with `EPERM` leaves
the process as it was and a call that sets slot 0 keeps the owner's access, exactly when
the call is harmless. -/
theorem harmless_iff (p : Proc) (call : PermCall) :
    AtomicOnEPERM p call ∧ KeepsOwner p call ↔ Harmless p call := by
  rw [AtomicOnEPERM, KeepsOwner, Harmless]
  cases sets : call.setting with
  | none =>
      obtain ⟨_, noEPERM, noRet⟩ := permCtl_of_none (p := p) sets
      refine ⟨fun _ perm => nofun, fun _ => ⟨fun fails => absurd fails noEPERM, ?_⟩⟩
      rintro - asked ⟨ret, ok⟩
      exact absurd ok (noRet asked ret)
  | some perm =>
      obtain ⟨asked, after, fails, succeeds⟩ := permCtl_of_some (p := p) sets
      have low : ¬call.argIdx < 0 := by
        intro negative
        rw [PermCall.setting, if_pos (.inl negative)] at sets
        exact absurd sets (Option.some_ne_none perm).symm
      have zero : call.argIdx.toNat = 0 ↔ call.argIdx = 0 := by omega
      have atomic : ((permCtl p call).2 = .error .EPERM → (permCtl p call).1 = p) ↔
          (dominating p.pIds perm = none → Relabels call perm →
            p.pProt.Labels (slot p.pIds 0) perm.len) := by
        rw [fails, after, Relabels, ← zero]
        exact forall_congr' fun refused => setSlot_refused refused _
      have keeps : (call.argIdx = 0 → call.argPerm.isSome = true →
          (∃ ret, (permCtl p call).2 = .ok ret) → ∀ bit,
            (permStep (slot p.pIds 0) p.pProt).getLsbD bit = true →
              (permStep (slot (permCtl p call).1.pIds 0)
                (permCtl p call).1.pProt).getLsbD bit = true) ↔
          (dominating p.pIds perm ≠ none → call.argIdx = 0 → call.copyout = false →
            BitsKept p perm) := by
        rw [succeeds, after, asked, BitsKept]
        constructor
        · intro kept allowed first copied bit has
          obtain ⟨x, found⟩ := Option.ne_none_iff_exists'.mp allowed
          have now := kept first rfl ⟨allowed, copied⟩ bit has
          rwa [zero.mpr first, granted_after found] at now
        · rintro kept first - ⟨allowed, copied⟩ bit has
          obtain ⟨x, found⟩ := Option.ne_none_iff_exists'.mp allowed
          rw [zero.mpr first, granted_after found]
          exact kept allowed first copied bit has
      rw [atomic, keeps]
      refine ⟨fun both perm' same => ?_, fun all => all perm rfl⟩
      obtain rfl := Option.some.inj same
      exact both

/-- A process with the label `1.1` and the default protection of a boot process. -/
def bootProc : Proc :=
  { pIds := nobody.pIds.setIfInBounds 0 ⟨2#8, #v[1#8, 1#8, 0#8, 0#8, 0#8, 0#8, 0#8], 0#32⟩
    pProt := ⟨2#8, 0#8, #v[1#8, 1#8, 0#8, 0#8, 0#8, 0#8, 0#8],
      #v[0#8, 31#8, 0#8, 0#8, 0#8, 0#8, 0#8]⟩ }

/-- Ask for a label in slot 0. -/
def askLabel (length : UChar) (label : Vector UChar PERMLEN) : PermCall :=
  { argIdx := 0, argPerm := some ⟨length, label, 0#32⟩, argRet := false }

/-- **A refused label changes the protection, and a granted one takes the owner's bits.** The
process may not become `9`, yet its protection is one for the label `1` afterwards. It may
become `1.1.5`, and is then granted nothing where it was granted five bits. -/
theorem owner_lost :
    ¬AtomicOnEPERM bootProc (askLabel 1#8 #v[9#8, 0#8, 0#8, 0#8, 0#8, 0#8, 0#8]) ∧
      ¬KeepsOwner bootProc (askLabel 3#8 #v[1#8, 1#8, 5#8, 0#8, 0#8, 0#8, 0#8]) := by
  constructor
  · intro atomic
    exact absurd (atomic (by decide +kernel)) (by decide +kernel)
  · intro keeps
    exact absurd (keeps rfl rfl ⟨none, by decide +kernel⟩ 0 (by decide +kernel))
      (by decide +kernel)

end Vsta.Permissions
