import Vsta.Library.Runs
import Vsta.Perm.Permission

/-!
# The system call `perm_ctl`

`permCtl` is `perm_ctl()` of `os/kern/misc.c`. The part of a process it reads and
writes is its array of permissions and its default protection. What the kernel
cannot control is part of the call: the slot number and the permission the user
passes, and whether the copies and the wait for the process semaphore succeed.

A slot that holds a label, enabled or not, lends its holder the label. Overwriting
a slot never lends more (`covered_step`), as long as the slot that allows it holds a
label itself: `perm_dominates` compares lengths through a modulus, and a disabled
slot whose length is `PERMLEN` or more then stands for a label it never held.
-/

set_option autoImplicit false

namespace Vsta.Permissions

/-- The part of `struct proc` that `perm_ctl()` uses. -/
structure Proc where
  pIds : Vector Perm PROCPERMS
  pProt : Prot
  deriving DecidableEq, Repr

/-- One call of `perm_ctl()`, with the outcome of each copy and of the wait for
`p_sema`. -/
structure PermCall where
  argIdx : Int
  argPerm : Option Perm
  argRet : Bool
  copyinFails : Bool := false
  interrupted : Bool := false
  copyoutFails : Bool := false
  deriving DecidableEq, Repr

/-- The first slot that dominates the permission asked for. -/
def dominating (ids : Vector Perm PROCPERMS) (perm : Perm) : Option Nat :=
  ids.toList.findIdx? fun us => permDominates us perm

/-- `p->p_ids[x]`. -/
def slot (ids : Vector Perm PROCPERMS) (x : Nat) : Perm :=
  ids.toList.getD x (Perm.null ⟨0#8, Vector.replicate PERMLEN 0#8, 0#32⟩)

/-- `p->p_ids[arg_idx] = perm`, keeping the UID of the slot `x` that allowed it. The
UID is read after the assignment, so `x` may be the slot just written. -/
def overwrite (ids : Vector Perm PROCPERMS) (argIdx : Nat) (perm : Perm) (x : Nat) :
    Vector Perm PROCPERMS :=
  let ids := ids.setIfInBounds argIdx perm
  if (slot ids x).permUid ≠ 0#32 then
    ids.setIfInBounds argIdx { perm with permUid := (slot ids x).permUid }
  else ids

/-- Make the default protection match the label in slot 0. -/
def ownLabel (prot : Prot) (plen : Nat) (owner : Perm) : Prot :=
  let bits := prot.protBits.setIfInBounds plen (prot.bits prot.protLen.toNat)
  let ids := prot.protId.setIfInBounds (plen - 1) (owner.id (plen - 1))
  { prot with
    protLen := BitVec.ofNat 8 plen
    protBits := (List.range (plen - 1)).foldl (fun bits i => bits.setIfInBounds i 0#8) bits
    protId := (List.range (plen - 1)).foldl (fun ids i => ids.setIfInBounds i (owner.id i)) ids }

/-- The assignments `perm_ctl()` makes while it holds `p_sema`. -/
def setSlot (p : Proc) (argIdx : Nat) (perm : Perm) : Proc :=
  let ids := match dominating p.pIds perm with
    | some x => overwrite p.pIds argIdx perm x
    | none => p.pIds
  { pIds := ids
    pProt := if argIdx = 0 ∧ perm.active ∧ 0 < perm.len then ownLabel p.pProt perm.len (slot ids 0)
      else p.pProt }

/-- `perm_ctl()`: set a slot to a given permission, or read it. -/
def permCtl (p : Proc) (call : PermCall) : Proc × Except Errno (Option Perm) :=
  if call.argIdx < 0 ∨ (PROCPERMS : Int) ≤ call.argIdx then (p, .error .EINVAL)
  else
    let copyOut (p : Proc) : Proc × Except Errno (Option Perm) :=
      if !call.argRet then (p, .ok none)
      else if call.copyoutFails then (p, .error .EFAULT)
      else (p, .ok (some (slot p.pIds call.argIdx.toNat)))
    match call.argPerm with
    | none => copyOut p
    | some perm =>
        if call.copyinFails then (p, .error .EFAULT)
        else if call.interrupted then (p, .error .EINTR)
        else
          let q := setSlot p call.argIdx.toNat perm
          if (dominating p.pIds perm).isNone then (q, .error .EPERM) else copyOut q

/-- One system call of the process. -/
def Step (p : Proc) (call : PermCall) (q : Proc) : Prop := q = (permCtl p call).1

/-- The process after a sequence of system calls. -/
def runCalls (p : Proc) (calls : List PermCall) : Proc :=
  calls.foldl (fun p call => (permCtl p call).1) p

/-- What one call does to the permissions: nothing, or one slot takes the label
asked for, which an earlier slot dominates. -/
theorem permCtl_cases (p : Proc) (call : PermCall) :
    (permCtl p call).1 = p ∨
      ∃ perm, call.argPerm = some perm ∧
        (permCtl p call).1 = setSlot p call.argIdx.toNat perm := by
  unfold permCtl
  split
  · exact .inl rfl
  · simp only
    cases asked : call.argPerm with
    | none =>
        left
        dsimp only
        split_ifs <;> rfl
    | some perm =>
        dsimp only
        split_ifs
        all_goals first
          | exact .inl rfl
          | exact .inr ⟨perm, rfl, rfl⟩

/-- A slot of the array after an assignment is a slot from before, or the one
written, with the label asked for. -/
theorem mem_overwrite {ids : Vector Perm PROCPERMS} {argIdx x : Nat} {perm held : Perm}
    (member : held ∈ (overwrite ids argIdx perm x).toList) :
    held ∈ ids.toList ∨ ∃ uid, held = { perm with permUid := uid } := by
  simp only [overwrite] at member
  split at member
  · rw [Vector.toList_setIfInBounds] at member
    rcases List.mem_or_eq_of_mem_set member with before | written
    · rw [Vector.toList_setIfInBounds] at before
      rcases List.mem_or_eq_of_mem_set before with old | same
      · exact .inl old
      · exact .inr ⟨perm.permUid, same⟩
    · exact .inr ⟨_, written⟩
  · rw [Vector.toList_setIfInBounds] at member
    rcases List.mem_or_eq_of_mem_set member with old | same
    · exact .inl old
    · exact .inr ⟨perm.permUid, same⟩

/-- A slot after a call is a slot from before, or carries the label asked for, and
then some slot from before dominates that label. -/
theorem mem_setSlot {p : Proc} {argIdx : Nat} {perm held : Perm}
    (member : held ∈ (setSlot p argIdx perm).pIds.toList) :
    held ∈ p.pIds.toList ∨
      (∃ uid, held = { perm with permUid := uid }) ∧ ∃ x, dominating p.pIds perm = some x := by
  simp only [setSlot] at member
  cases found : dominating p.pIds perm with
  | none => exact .inl (by simpa only [found] using member)
  | some x =>
      rcases mem_overwrite (by simpa only [found] using member) with old | written
      · exact .inl old
      · exact .inr ⟨written, x, rfl⟩

theorem dominating_spec {ids : Vector Perm PROCPERMS} {perm : Perm} {x : Nat}
    (found : dominating ids perm = some x) :
    slot ids x ∈ ids.toList ∧ permDominates (slot ids x) perm = true := by
  obtain ⟨inside, dominates, _⟩ := List.findIdx?_eq_some_iff_getElem.mp found
  have here : slot ids x = ids.toList[x] := by
    rw [slot, List.getD_eq_getElem?_getD, List.getElem?_eq_getElem inside]
    rfl
  rw [here]
  exact ⟨List.getElem_mem inside, dominates⟩

/-! ## No privilege escalation -/

/-- Every label in the array has a prefix among `labels`. -/
def Covered (labels : List (List UChar)) (ids : Vector Perm PROCPERMS) : Prop :=
  ∀ held ∈ ids.toList, held.Labelled → ∃ label ∈ labels, label <+: held.label

/-- The labels an array holds, enabled or disabled. -/
def heldLabels (ids : Vector Perm PROCPERMS) : List (List UChar) :=
  (ids.toList.filter fun held => held.enable.active).map Perm.label

/-- The array with every label it holds enabled. -/
def enableAll (ids : Vector Perm PROCPERMS) : List Perm :=
  (ids.toList.filter fun held => held.enable.active).map Perm.enable

/-- The slot that allows a call holds a label, or the call shuts a slot off. -/
def AllowedByLabel (p : Proc) (call : PermCall) : Prop :=
  ∀ perm x, call.argPerm = some perm → perm.Labelled → dominating p.pIds perm = some x →
    (slot p.pIds x).Labelled

theorem covered_heldLabels (ids : Vector Perm PROCPERMS) : Covered (heldLabels ids) ids := by
  intro held member labelled
  refine ⟨held.label, List.mem_map.mpr ⟨held, ?_, rfl⟩, List.prefix_rfl⟩
  exact List.mem_filter.mpr ⟨member, labelled⟩

/-- A call that a label allows keeps the array covered. -/
theorem covered_step {labels : List (List UChar)} {p q : Proc} {call : PermCall}
    (covered : Covered labels p.pIds) (allowed : AllowedByLabel p call)
    (step : Step p call q) : Covered labels q.pIds := by
  subst step
  rcases permCtl_cases p call with same | ⟨perm, asked, written⟩
  · rwa [same]
  · rw [written]
    intro held member labelled
    rcases mem_setSlot member with old | ⟨⟨uid, rfl⟩, x, found⟩
    · exact covered held old labelled
    · obtain ⟨memberX, dominates⟩ := dominating_spec found
      have carries : perm.Labelled := labelled
      have holds := allowed perm x asked carries found
      obtain ⟨label, inLabels, isPrefix⟩ := covered _ memberX holds
      exact ⟨label, inLabels,
        isPrefix.trans (label_prefix_of_permDominates carries holds dominates)⟩

/-- What a covered array is granted, the labels that cover it are granted. -/
theorem permCalc_subset_of_covered {initial final : Vector Perm PROCPERMS}
    (covered : Covered (heldLabels initial) final) (prot : Prot) (bit : Nat)
    (granted : (permCalc final.toList prot).getLsbD bit = true) :
    (permCalc (enableAll initial) prot).getLsbD bit = true := by
  obtain ⟨held, member, act, grants⟩ := (permCalc_getLsbD _ _ _).mp granted
  obtain ⟨label, inLabels, isPrefix⟩ :=
    covered held member (Perm.labelled_of_active act)
  obtain ⟨source, sourceMember, rfl⟩ := List.mem_map.mp inLabels
  have sourceActive : source.enable.active = true := (List.mem_filter.mp sourceMember).2
  refine (permCalc_getLsbD _ _ _).mpr
    ⟨source.enable, List.mem_map.mpr ⟨source, sourceMember, rfl⟩, sourceActive, ?_⟩
  rw [Perm.label_enable]
  exact Prot.grants_antitone isPrefix grants

/-- **No privilege escalation.** After any sequence of calls, each allowed by a slot
that holds a label, no protection grants the process a bit that it would not grant
the first array with every label it holds enabled. -/
theorem permCtl_no_escalation {first last : Proc}
    (run : Transition.Reaches Step AllowedByLabel first last) (prot : Prot) (bit : Nat)
    (granted : (permCalc last.pIds.toList prot).getLsbD bit = true) :
    (permCalc (enableAll first.pIds) prot).getLsbD bit = true := by
  have covered : Covered (heldLabels first.pIds) last.pIds :=
    run.invariant (covered_heldLabels first.pIds)
      fun _ _ _ held allowed step => covered_step held allowed step
  exact permCalc_subset_of_covered covered prot bit granted

/-- A process with no permission at all. -/
def nobody : Proc :=
  ⟨Vector.replicate PROCPERMS (Perm.null ⟨0#8, Vector.replicate PERMLEN 0#8, 0#32⟩),
    ⟨0#8, 0#8, Vector.replicate PERMLEN 0#8, Vector.replicate PERMLEN 0#8⟩⟩

/-- A process with the label `1.2`. -/
def plainUser : Proc :=
  { nobody with
    pIds := nobody.pIds.setIfInBounds 0 (⟨2#8, #v[1#8, 2#8, 0#8, 0#8, 0#8, 0#8, 0#8], 0#32⟩) }

/-- A call that sets slot 0 to the label `1.2`, with the given length byte. -/
def askPlain (length : UChar) : PermCall :=
  { argIdx := 0, argPerm := some ⟨length, #v[1#8, 2#8, 0#8, 0#8, 0#8, 0#8, 0#8], 0#32⟩,
    argRet := false }

/-- A protection that grants its bit 0 to the label `1.2` and to its prefixes. -/
def plainProt : Prot :=
  ⟨2#8, 0#8, #v[1#8, 2#8, 0#8, 0#8, 0#8, 0#8, 0#8], #v[0#8, 1#8, 0#8, 0#8, 0#8, 0#8, 0#8]⟩

/-- The process shuts its label off and turns it on again. -/
theorem permCtl_no_escalation_plainUser :
    (permCalc (enableAll plainUser.pIds) plainProt).getLsbD 0 = true := by
  have off : AllowedByLabel plainUser (askPlain 0x82#8) := by
    rintro perm x ⟨⟩ _ found
    obtain rfl : 0 = x := Option.some.inj (Eq.trans (by decide +kernel) found)
    decide +kernel
  have on : AllowedByLabel (permCtl plainUser (askPlain 0x82#8)).1 (askPlain 2#8) := by
    rintro perm x ⟨⟩ _ found
    obtain rfl : 0 = x := Option.some.inj (Eq.trans (by decide +kernel) found)
    decide +kernel
  exact permCtl_no_escalation (((Transition.Reaches.refl plainUser).tail off rfl).tail on rfl)
    plainProt 0 (by decide +kernel)

/-- Ask for a label of zeros in slot 0, with the given length byte. -/
def askLength (length : UChar) : PermCall :=
  { argIdx := 0, argPerm := some ⟨length, Vector.replicate PERMLEN 0#8, 0#32⟩, argRet := false }

/-- **A slot shut off with length `0x87` becomes the root's label.** The process starts
with no permission. The first call is always allowed, for it shuts a slot off. The
slot now counts as disabled with length `0x87 % 7 = 0`, so the second call may enable
the empty label, which every protection grants all its bits. -/
theorem permCtl_escalates :
    let last := runCalls nobody [askLength 0x87#8, askLength 0#8]
    let prot : Prot := ⟨1#8, 0#8, Vector.replicate PERMLEN 1#8, Vector.replicate PERMLEN 1#8⟩
    permCalc (enableAll nobody.pIds) prot = 0#8 ∧ permCalc last.pIds.toList prot = 1#8 := by
  decide +kernel

end Vsta.Permissions
