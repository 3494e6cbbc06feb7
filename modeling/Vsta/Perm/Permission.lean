import Vsta.Basic
import Mathlib.Data.List.Infix

/-!
# Permissions and protections

The data of `sys/perm.h` and the three functions of `lib/permsup.c`: the bits one
permission is granted by a protection (`permStep`), the bits an array of
permissions is granted (`permCalc`), and the test that lets a process overwrite a
slot (`permDominates`).

Over them stands the purpose of the component. A permission is a label, a list of
bytes; a protection grants bits to labels; and a label that is a prefix of another
is granted at least what the longer one is (`grants_antitone`). `permStep` is the
grant of the label that a permission carries (`permStep_eq_grants`).
-/

set_option autoImplicit false

namespace Vsta.Permissions

/-- `struct perm`. -/
structure Perm where
  permLen : UChar
  permId : Vector UChar PERMLEN
  permUid : ULong
  deriving DecidableEq, Repr

/-- `struct prot`. -/
structure Prot where
  protLen : UChar
  protDefault : UChar
  protId : Vector UChar PERMLEN
  protBits : Vector UChar PERMLEN
  deriving DecidableEq, Repr

namespace Perm

/-- `PERM_ACTIVE`: the slot is enabled and carries a label. -/
def active (perm : Perm) : Bool := perm.permLen.toNat < PERMLEN

/-- `PERM_DISABLED`. -/
def disabled (perm : Perm) : Bool := perm.permLen &&& 0x80#8 ≠ 0#8

/-- `PERM_ENABLE`. -/
def enable (perm : Perm) : Perm := { perm with permLen := perm.permLen &&& 0x7f#8 }

/-- `PERM_NULL`. -/
def null (perm : Perm) : Perm := { perm with permLen := BitVec.ofNat 8 PERMLEN }

/-- `PERM_LEN`. -/
def len (perm : Perm) : Nat := (perm.permLen &&& 0x7f#8).toNat % PERMLEN

/-- `perm_id[x]`. -/
def id (perm : Perm) (x : Nat) : UChar := perm.permId.toList.getD x 0#8

theorem active_iff (perm : Perm) : perm.active = true ↔ perm.permLen.toNat < PERMLEN :=
  decide_eq_true_iff

theorem len_lt (perm : Perm) : perm.len < PERMLEN := Nat.mod_lt _ (by decide)

@[simp] theorem enable_len (perm : Perm) : perm.enable.len = perm.len := by
  simp [len, enable, BitVec.and_assoc]

@[simp] theorem enable_id (perm : Perm) (x : Nat) : perm.enable.id x = perm.id x := rfl

end Perm

/-- `prot_id[x]`. -/
def Prot.id (prot : Prot) (x : Nat) : UChar := prot.protId.toList.getD x 0#8

/-- `prot_bits[x]`. -/
def Prot.bits (prot : Prot) (x : Nat) : UChar := prot.protBits.toList.getD x 0#8

/-! ## The bits a protection grants -/

/-- The inner loop of `perm_step()`: every bit from position `x` on. -/
def restBits (prot : Prot) : Nat → Nat → UChar → UChar
  | 0, _, granted => granted
  | left + 1, x, granted => restBits prot left (x + 1) (granted ||| prot.bits x)

/-- The outer loop of `perm_step()`, with `left` positions still to look at. -/
def permStepFrom (perm : Perm) (prot : Prot) : Nat → Nat → UChar → UChar
  | 0, _, granted => granted
  | left + 1, x, granted =>
      if perm.len ≤ x then restBits prot (left + 1) x granted
      else if prot.id x ≠ perm.id x then granted
      else permStepFrom perm prot left (x + 1) (granted ||| prot.bits x)

/-- `perm_step()`: the bits granted for a single permission. -/
def permStep (perm : Perm) (prot : Prot) : UChar :=
  permStepFrom perm prot prot.protLen.toNat 0 prot.protDefault

/-- `perm_calc()`: the bits an array of permissions is granted. -/
def permCalc (perms : List Perm) (prot : Prot) : UChar :=
  perms.foldl (fun granted perm =>
    if perm.active then granted ||| permStep perm prot else granted) 0#8

/-- `zero_ids()`: an array of slots that carry no label. -/
def zeroIds (nperms : Nat) : List Perm :=
  List.replicate nperms (Perm.null ⟨0#8, Vector.replicate PERMLEN 0#8, 0#32⟩)

/-! ## Dominance -/

/-- The leading `n` values of two permissions are the same. -/
def sameIds (n : Nat) (us target : Perm) : Bool :=
  (List.range n).all fun x => us.id x = target.id x

/-- `perm_dominates()`: whether holding `us` allows a slot to become `target`. -/
def permDominates (us target : Perm) : Bool :=
  let p := target.enable
  -- a slot may always be shut off
  if !p.active then true
  else if us.active && decide (us.permLen.toNat ≤ p.permLen.toNat) && sameIds us.len us p then
    true
  -- a disabled slot may be enabled again
  else if !us.disabled || target.disabled then false
  else if us.len ≠ p.len then false
  else sameIds us.len us p

/-! ## Labels -/

/-- The label a permission carries, enabled or not. -/
def Perm.label (perm : Perm) : List UChar := perm.permId.toList.take perm.len

/-- The slot holds a label: its length, enabled, is below `PERMLEN`. -/
def Perm.Labelled (perm : Perm) : Prop := perm.enable.active = true

instance (perm : Perm) : Decidable perm.Labelled :=
  inferInstanceAs (Decidable (perm.enable.active = true))

theorem Perm.label_length (perm : Perm) : perm.label.length = perm.len := by
  have below := perm.len_lt
  simp only [Perm.label, List.length_take, Vector.length_toList]
  omega

theorem Perm.label_getElem? (perm : Perm) {x : Nat} (inside : x < perm.len) :
    perm.label[x]? = some (perm.id x) := by
  have below := perm.len_lt
  have bound : x < perm.permId.toList.length := by
    simp only [Vector.length_toList]
    omega
  rw [Perm.label, Perm.id, List.getElem?_take_of_lt inside, List.getD_eq_getElem?_getD,
    List.getElem?_eq_getElem bound]
  rfl

@[simp] theorem Perm.label_enable (perm : Perm) : perm.enable.label = perm.label := by
  simp only [Perm.label, Perm.enable_len]
  rfl

/-- A slot whose length is read as it stands carries its label. -/
theorem Perm.labelled_of_active {perm : Perm} (act : perm.active = true) : perm.Labelled := by
  rw [Labelled, active_iff]
  simp only [enable, BitVec.toNat_and]
  exact lt_of_le_of_lt Nat.and_le_left (perm.active_iff.mp act)

/-- On a slot that holds a label, `PERM_LEN` is the length with the disable bit
cleared, and the modulus does nothing. -/
theorem Perm.len_of_labelled {perm : Perm} (holds : perm.Labelled) :
    perm.len = perm.enable.permLen.toNat :=
  Nat.mod_eq_of_lt (perm.enable.active_iff.mp holds)

/-- Two labels, one at least as short and with the same leading values. -/
theorem label_prefix_of_sameIds {us target : Perm} (shorter : us.len ≤ target.len)
    (same : sameIds us.len us target = true) : us.label <+: target.label := by
  rw [List.prefix_iff_getElem?]
  intro x inside
  rw [Perm.label_length] at inside
  have step : us.id x = target.id x := by
    simpa using List.all_eq_true.mp same x (List.mem_range.mpr inside)
  rw [Perm.label_getElem? target (by omega), ← step, ← Perm.label_getElem? us inside]
  exact List.getElem?_eq_getElem (by rwa [Perm.label_length])

/-! ## What a protection grants to a label -/

/-- A protection's values match a label up to and including position `y`, where the
label has a value to match. -/
def Prot.matchesTo (prot : Prot) (label : List UChar) (y : Nat) : Prop :=
  ∀ x, x ≤ y → ∀ value, label[x]? = some value → prot.id x = value

/-- The bits a protection grants to a label. -/
def Prot.grants (prot : Prot) (label : List UChar) (bit : Nat) : Prop :=
  prot.protDefault.getLsbD bit = true ∨
    ∃ y < prot.protLen.toNat, (prot.bits y).getLsbD bit = true ∧ prot.matchesTo label y

/-- A shorter label is granted at least what a longer one is. -/
theorem Prot.grants_antitone {prot : Prot} {short long : List UChar} (isPrefix : short <+: long)
    {bit : Nat} (granted : prot.grants long bit) : prot.grants short bit := by
  rcases granted with byDefault | ⟨y, inside, has, matched⟩
  · exact .inl byDefault
  · refine .inr ⟨y, inside, has, fun x below value atX => matched x below value ?_⟩
    obtain ⟨inShort, _⟩ := List.getElem?_eq_some_iff.mp atX
    rw [← atX]
    exact (List.prefix_iff_getElem?.mp isPrefix x inShort).trans
      (List.getElem?_eq_getElem inShort).symm

theorem restBits_getLsbD (prot : Prot) (bit : Nat) :
    ∀ (left x : Nat) (granted : UChar),
      (restBits prot left x granted).getLsbD bit = true ↔
        granted.getLsbD bit = true ∨
          ∃ y, x ≤ y ∧ y < x + left ∧ (prot.bits y).getLsbD bit = true
  | 0, x, granted => by
      simp only [restBits, Nat.add_zero]
      constructor
      · exact .inl
      · rintro (has | ⟨y, low, high, _⟩)
        · exact has
        · omega
  | left + 1, x, granted => by
      rw [restBits, restBits_getLsbD prot bit left (x + 1) _]
      simp only [BitVec.getLsbD_or, Bool.or_eq_true]
      constructor
      · rintro ((has | here) | ⟨y, low, high, has⟩)
        · exact .inl has
        · exact .inr ⟨x, le_rfl, by omega, here⟩
        · exact .inr ⟨y, by omega, by omega, has⟩
      · rintro (has | ⟨y, low, high, has⟩)
        · exact .inl (.inl has)
        · rcases Nat.eq_or_lt_of_le low with rfl | further
          · exact .inl (.inr has)
          · exact .inr ⟨y, further, by omega, has⟩

/-- The loop of `perm_step()` from position `x`, where every earlier value matched. -/
theorem permStepFrom_getLsbD (perm : Perm) (prot : Prot) (bit : Nat) :
    ∀ (left x : Nat) (granted : UChar),
      (∀ earlier < x, earlier < perm.len → prot.id earlier = perm.id earlier) →
      ((permStepFrom perm prot left x granted).getLsbD bit = true ↔
        granted.getLsbD bit = true ∨
          ∃ y, x ≤ y ∧ y < x + left ∧ (prot.bits y).getLsbD bit = true ∧
            ∀ z ≤ y, z < perm.len → prot.id z = perm.id z)
  | 0, x, granted, _ => by
      simp only [permStepFrom, Nat.add_zero]
      constructor
      · exact .inl
      · rintro (has | ⟨y, low, high, _⟩)
        · exact has
        · omega
  | left + 1, x, granted, matched => by
      rw [permStepFrom]
      split
      · -- past the end of the label: everything that is left is granted
        rename_i dominated
        rw [restBits_getLsbD]
        constructor
        · rintro (has | ⟨y, low, high, has⟩)
          · exact .inl has
          · exact .inr ⟨y, low, high, has, fun z _ inside => matched z (by omega) inside⟩
        · rintro (has | ⟨y, low, high, has, _⟩)
          · exact .inl has
          · exact .inr ⟨y, low, high, has⟩
      · rename_i inside
        split
        · rename_i differs
          constructor
          · exact .inl
          · rintro (has | ⟨y, low, _, _, all⟩)
            · exact has
            · exact absurd (all x low (by omega)) differs
        · rename_i agrees
          have agrees : prot.id x = perm.id x := not_not.mp agrees
          have matchedNext : ∀ earlier < x + 1, earlier < perm.len →
              prot.id earlier = perm.id earlier := by
            intro earlier before within
            rcases Nat.eq_or_lt_of_le (Nat.le_of_lt_succ before) with rfl | earlierStill
            · exact agrees
            · exact matched earlier earlierStill within
          rw [permStepFrom_getLsbD perm prot bit left (x + 1) _ matchedNext]
          simp only [BitVec.getLsbD_or, Bool.or_eq_true]
          constructor
          · rintro ((has | here) | ⟨y, low, high, has, all⟩)
            · exact .inl has
            · exact .inr ⟨x, le_rfl, by omega, here,
                fun z below within => matchedNext z (by omega) within⟩
            · exact .inr ⟨y, by omega, by omega, has, all⟩
          · rintro (has | ⟨y, low, high, has, all⟩)
            · exact .inl (.inl has)
            · rcases Nat.eq_or_lt_of_le low with rfl | further
              · exact .inl (.inr has)
              · exact .inr ⟨y, further, by omega, has, all⟩

/-- `perm_step()` grants a permission what the protection grants its label. -/
theorem permStep_eq_grants (perm : Perm) (prot : Prot) (bit : Nat) :
    (permStep perm prot).getLsbD bit = true ↔ prot.grants perm.label bit := by
  rw [permStep, permStepFrom_getLsbD perm prot bit _ 0 _ (by omega), Prot.grants]
  have matched : ∀ y, prot.matchesTo perm.label y ↔
      ∀ z ≤ y, z < perm.len → prot.id z = perm.id z := by
    intro y
    constructor
    · intro all z below within
      exact all z below _ (perm.label_getElem? within)
    · intro all x below value atX
      obtain ⟨within, _⟩ := List.getElem?_eq_some_iff.mp atX
      rw [perm.label_length] at within
      rw [perm.label_getElem? within] at atX
      exact (all x below within).trans (Option.some.inj atX)
  simp only [matched, Nat.zero_le, true_and, Nat.zero_add]

/-- `perm_calc()` grants a bit exactly when the label of an active slot does. -/
theorem permCalc_getLsbD (perms : List Perm) (prot : Prot) (bit : Nat) :
    (permCalc perms prot).getLsbD bit = true ↔
      ∃ perm ∈ perms, perm.active = true ∧ prot.grants perm.label bit := by
  have general : ∀ (rest : List Perm) (granted : UChar),
      (rest.foldl (fun granted perm =>
        if perm.active then granted ||| permStep perm prot else granted)
          granted).getLsbD bit = true ↔
        granted.getLsbD bit = true ∨
          ∃ perm ∈ rest, perm.active = true ∧ prot.grants perm.label bit := by
    intro rest
    induction rest with
    | nil => simp
    | cons perm rest ih =>
        intro granted
        rw [List.foldl_cons, ih]
        by_cases act : perm.active = true
        · simp [act, permStep_eq_grants, or_assoc]
        · simp [act]
  simpa [permCalc] using general perms 0#8

/-! ## What dominance means for labels -/

/-- A slot that passes `perm_dominates()` for a target that carries a label, and
that holds a label itself, holds a prefix of the target's. -/
theorem label_prefix_of_permDominates {us target : Perm} (carries : target.Labelled)
    (held : us.Labelled) (dominates : permDominates us target = true) :
    us.label <+: target.label := by
  have notOff : (!target.enable.active) = false := by
    simpa [Perm.Labelled] using carries
  simp only [permDominates, notOff, Bool.false_eq_true, if_false] at dominates
  rw [← target.label_enable]
  split at dominates
  · rename_i shorter
    simp only [Bool.and_eq_true, decide_eq_true_eq] at shorter
    obtain ⟨⟨act, le⟩, same⟩ := shorter
    refine label_prefix_of_sameIds ?_ same
    rw [Perm.len_of_labelled held, Perm.enable_len, Perm.len_of_labelled carries]
    refine le_trans ?_ le
    simp only [Perm.enable, BitVec.toNat_and]
    exact Nat.and_le_left
  · split at dominates
    · exact absurd dominates (by simp)
    · split at dominates
      · exact absurd dominates (by simp)
      · rename_i sameLen
        exact label_prefix_of_sameIds (le_of_eq (not_not.mp sameLen)) dominates

end Vsta.Permissions
