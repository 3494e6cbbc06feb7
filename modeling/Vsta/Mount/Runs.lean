import Vsta.Mount.Table
import Vsta.Library.Runs
import Mathlib.Data.List.Flatten
import Mathlib.Data.List.Nodup
import Mathlib.Data.List.Count
import Mathlib.Tactic.SplitIfs

/-!
# The mount table in every run

Points are distinct, every slot has an entry, and every port that was mounted is in one entry or was
disconnected (`Formed`); `open` uses the slot whose name is the longest that covers the path
(`mount_table`). A port that is the only one of its slot is taken out and the slot stays without an
entry (`slot_emptied`); `Fits` leaves such calls out.
-/

set_option autoImplicit false

namespace Vsta.Mount

/-- The ports in the table. -/
def ports (slots : List Mnttab) : List ℤ := slots.flatMap Mnttab.mEntries

/-- What holds of the table. -/
structure Formed (s : State) : Prop where
  names : (s.slots.map Mnttab.mName).Nodup
  some_ : ∀ mt ∈ s.slots, mt.mEntries ≠ []
  len : ∀ mt ∈ s.slots, mt.mLen = mt.mName.length
  named : ∀ mt ∈ s.slots, mt.mName ≠ []
  once : (ports s.slots).Nodup
  ledger : ∀ p, s.mounted.count p = (ports s.slots).count p + s.gone.count p
  null : s.null = true → s.slots = []

/-- The condition on a call: what is mounted is not mounted yet and its point has a name, and a port
that is taken out alone is not the only one of its slot. -/
def Fits (s : State) (label : Outcome × Action) : Prop :=
  match label.2 with
  | .mountport point port => point ≠ [] ∧ port ∉ ports s.slots
  | .umount point port => 0 ≤ port → ∀ mt, slot point s.slots = some mt → mt.mEntries ≠ [port]
  | .cloneMount _ => True

variable {s t : State} {x : Outcome} {point : Str} {port : ℤ} {mt : Mnttab}
  {slots pre post : List Mnttab}

/-! ## The slot of a point -/

/-- Where the slot of a point is in the table. -/
theorem slot_split (found : slot point slots = some mt) :
    ∃ pre post, slots = pre ++ mt :: post ∧ mt.mName = point ∧
      (∀ entries, setEntries point entries slots =
        pre ++ { mt with mEntries := entries } :: post) ∧
      removeSlot point slots = pre ++ post := by
  induction slots with
  | nil => cases found
  | cons head rest ih =>
      rw [slot, List.find?_cons] at found
      by_cases same : point = head.mName
      · simp only [same, decide_true] at found
        obtain rfl := Option.some.inj found
        exact ⟨[], rest, rfl, same.symm, fun entries => if_pos same, if_pos same⟩
      · simp only [same, decide_false] at found
        obtain ⟨pre, post, split, name, set, remove⟩ := ih found
        refine ⟨head :: pre, post, by rw [split, List.cons_append], name, fun entries => ?_, ?_⟩
        · rw [setEntries, if_neg same, set, List.cons_append]
        · rw [removeSlot, if_neg same, remove, List.cons_append]

theorem slot_none (absent : slot point slots = none) : ∀ mt ∈ slots, mt.mName ≠ point := by
  intro mt member same
  rw [slot, List.find?_eq_none] at absent
  exact absent mt member (by rw [same]; exact decide_eq_true rfl)

theorem count_ports (p : ℤ) : (ports (pre ++ mt :: post)).count p =
    (ports pre).count p + mt.mEntries.count p + (ports post).count p := by
  simp only [ports, List.flatMap_append, List.flatMap_cons, List.count_append]
  omega

theorem count_ports_append (p : ℤ) :
    (ports (pre ++ post)).count p = (ports pre).count p + (ports post).count p := by
  simp only [ports, List.flatMap_append, List.count_append]

/-- The entries of one slot change. -/
theorem Formed.replace (formed : Formed s) (split : s.slots = pre ++ mt :: post)
    {entries : List ℤ} (slots : t.slots = pre ++ { mt with mEntries := entries } :: post)
    (some_ : entries ≠ []) (null : t.null = s.null)
    (once : ∀ p, (ports t.slots).count p ≤ 1)
    (ledger : ∀ p, t.mounted.count p = (ports t.slots).count p + t.gone.count p) : Formed t := by
  have members : ∀ m ∈ t.slots, m ∈ s.slots ∨ m = { mt with mEntries := entries } := by
    intro m member
    rw [slots, List.mem_append, List.mem_cons] at member
    rw [split, List.mem_append, List.mem_cons]
    tauto
  have old : mt ∈ s.slots := by
    rw [split]
    exact List.mem_append_right _ List.mem_cons_self
  refine ⟨?_, fun m member => ?_, fun m member => ?_, fun m member => ?_,
    List.nodup_iff_count_le_one.mpr once, ledger, fun null_ => ?_⟩
  · have names := formed.names
    rw [split] at names
    rw [slots]
    simpa only [List.map_append, List.map_cons] using names
  · rcases members m member with before | rfl
    · exact formed.some_ m before
    · exact some_
  · rcases members m member with before | rfl
    · exact formed.len m before
    · exact formed.len mt old
  · rcases members m member with before | rfl
    · exact formed.named m before
    · exact formed.named mt old
  · rw [formed.null (null ▸ null_)] at old
    cases old

/-! ## The calls -/

theorem mountport_formed (formed : Formed s) (named : point ≠ []) (new : port ∉ ports s.slots) :
    Formed (s.mountport x point port).1 := by
  have none_ : (ports s.slots).count port = 0 := List.count_eq_zero.mpr new
  have once := List.nodup_iff_count_le_one.mp formed.once
  rw [State.mountport]
  by_cases entry : (!x.entry) = true
  · rw [if_pos entry]
    exact formed
  rw [if_neg entry]
  cases found : slot point s.slots with
  | some mt =>
      obtain ⟨pre, post, split, -, set, -⟩ := slot_split found
      have count : ∀ p, (ports (setEntries point (port :: mt.mEntries) s.slots)).count p =
          (ports s.slots).count p + if port = p then 1 else 0 := by
        intro p
        rw [set, count_ports, split, count_ports, List.count_cons]
        simp only [beq_iff_eq]
        omega
      refine formed.replace split (set _) (List.cons_ne_nil _ _) rfl (fun p => ?_) fun p => ?_
      · rw [count]
        have before := once p
        split_ifs with same
        · subst same
          omega
        · exact before
      · rw [count, List.count_cons, formed.ledger p]
        simp only [beq_iff_eq]
        omega
  | none =>
      have apart := slot_none found
      simp only
      by_cases table : (!x.table) = true
      · rw [if_pos table]
        exact formed
      rw [if_neg table]
      by_cases name : (!x.name) = true
      · rw [if_pos name]
        exact ⟨formed.names, formed.some_, formed.len, formed.named, formed.once, formed.ledger,
          nofun⟩
      rw [if_neg name]
      have count : ∀ p, (ports (s.slots ++ [⟨point, point.length, [port]⟩])).count p =
          (ports s.slots).count p + if port = p then 1 else 0 := by
        intro p
        rw [count_ports, List.count_cons]
        simp [ports]
      have members : ∀ mt ∈ s.slots ++ [(⟨point, point.length, [port]⟩ : Mnttab)],
          mt ∈ s.slots ∨ mt = ⟨point, point.length, [port]⟩ := by
        intro mt member
        rwa [List.mem_append, List.mem_singleton] at member
      refine ⟨?_, fun m member => ?_, fun m member => ?_, fun m member => ?_,
        List.nodup_iff_count_le_one.mpr fun p => ?_, fun p => ?_, nofun⟩
      · rw [List.map_append, List.nodup_append]
        refine ⟨formed.names, List.nodup_singleton _, ?_⟩
        intro a member b there
        obtain ⟨m, old, rfl⟩ := List.mem_map.mp member
        rw [List.map_singleton, List.mem_singleton] at there
        rw [there]
        exact apart m old
      · rcases members m member with before | rfl
        · exact formed.some_ m before
        · exact List.cons_ne_nil _ _
      · rcases members m member with before | rfl
        · exact formed.len m before
        · rfl
      · rcases members m member with before | rfl
        · exact formed.named m before
        · exact named
      · rw [count]
        have before := once p
        split_ifs with same
        · subst same
          omega
        · exact before
      · rw [count, List.count_cons, formed.ledger p]
        simp only [beq_iff_eq]
        omega

/-- **`umount` answers zero when it took ports out.** -/
theorem umount_formed (formed : Formed s)
    (fits : 0 ≤ port → ∀ mt, slot point s.slots = some mt → mt.mEntries ≠ [port]) :
    Formed (s.umount point port).1 ∧ ((s.umount point port).2 = 0 ↔
      (ports (s.umount point port).1.slots).length < (ports s.slots).length) := by
  have once := List.nodup_iff_count_le_one.mp formed.once
  rw [State.umount]
  cases found : slot point s.slots with
  | none => exact ⟨formed, by simp⟩
  | some mt =>
      obtain ⟨pre, post, split, -, set, remove⟩ := slot_split found
      simp only
      by_cases one : 0 ≤ port
      · rw [if_pos one]
        by_cases there : port ∈ mt.mEntries
        · rw [if_pos there]
          have left : mt.mEntries.erase port ≠ [] := by
            rw [Ne, List.erase_eq_nil_iff]
            rintro (none_ | only)
            · rw [none_] at there
              cases there
            · exact fits one mt found only
          rw [if_neg left]
          have perm := List.perm_cons_erase there
          have count : ∀ p, (ports s.slots).count p =
              (ports (setEntries point (mt.mEntries.erase port) s.slots)).count p +
                if port = p then 1 else 0 := by
            intro p
            rw [set, split, count_ports, count_ports, perm.count_eq, List.count_cons]
            simp only [beq_iff_eq]
            omega
          refine ⟨formed.replace split (set _) left rfl (fun p => ?_) fun p => ?_,
            iff_of_true rfl ?_⟩
          · have before := once p
            rw [count] at before
            exact Nat.le_of_add_right_le before
          · rw [formed.ledger p, count, List.count_cons]
            simp only [beq_iff_eq]
            omega
          · show (ports (setEntries point (mt.mEntries.erase port) s.slots)).length < _
            have shorter := perm.length_eq
            rw [List.length_cons] at shorter
            rw [set, split]
            simp only [ports, List.flatMap_append, List.flatMap_cons, List.length_append]
            omega
        · rw [if_neg there]
          exact ⟨formed, by simp⟩
      · rw [if_neg one]
        have members : ∀ m ∈ pre ++ post, m ∈ s.slots := by
          intro m member
          rw [split, List.mem_append, List.mem_cons]
          rw [List.mem_append] at member
          tauto
        have old : mt ∈ s.slots := by
          rw [split]
          exact List.mem_append_right _ List.mem_cons_self
        have count : ∀ p, (ports s.slots).count p =
            (ports (removeSlot point s.slots)).count p + mt.mEntries.count p := by
          intro p
          rw [remove, split, count_ports, count_ports_append]
          omega
        refine ⟨⟨?_, fun m member => formed.some_ m (members m (remove ▸ member)),
          fun m member => formed.len m (members m (remove ▸ member)),
          fun m member => formed.named m (members m (remove ▸ member)),
          List.nodup_iff_count_le_one.mpr fun p => ?_, fun p => ?_, fun null => ?_⟩,
          iff_of_true rfl ?_⟩
        · have names := formed.names
          rw [split, List.map_append, List.map_cons] at names
          show ((removeSlot point s.slots).map Mnttab.mName).Nodup
          rw [remove, List.map_append]
          exact names.sublist (List.Sublist.append_left (List.sublist_cons_self _ _) _)
        · have before := once p
          rw [count] at before
          exact Nat.le_of_add_right_le before
        · show s.mounted.count p =
            (ports (removeSlot point s.slots)).count p + (mt.mEntries ++ s.gone).count p
          rw [formed.ledger p, count, List.count_append]
          omega
        · rw [formed.null null] at old
          cases old
        · show (ports (removeSlot point s.slots)).length < _
          have some_ := List.length_pos_iff.mpr (formed.some_ mt old)
          rw [remove, split]
          simp only [ports, List.flatMap_append, List.flatMap_cons, List.length_append]
          omega

theorem cloneMount_formed (point : Str) (formed : Formed s)
    (legal : 0 ≤ x.new → ∀ mt ∈ s.slots, x.new ∉ mt.mEntries) :
    ∃ t r, s.cloneMount x point = .ok (t, r) ∧ Formed t := by
  have once := List.nodup_iff_count_le_one.mp formed.once
  rw [State.cloneMount]
  cases found : slot point s.slots with
  | none => exact ⟨s, -1, rfl, formed⟩
  | some mt =>
      obtain ⟨pre, post, split, -, set, -⟩ := slot_split found
      have old : mt ∈ s.slots := by
        rw [split]
        exact List.mem_append_right _ List.mem_cons_self
      cases entries : mt.mEntries with
      | nil => exact absurd entries (formed.some_ mt old)
      | cons first rest =>
          simp only [entries]
          by_cases refused : x.new < 0
          · exact ⟨s, -1, if_pos refused, formed⟩
          rw [if_neg refused]
          have new : (ports s.slots).count x.new = 0 := by
            rw [List.count_eq_zero, ports, List.mem_flatMap]
            rintro ⟨m, member, there⟩
            exact legal (not_lt.mp refused) m member there
          have count : ∀ p, (ports (setEntries point (x.new :: rest) s.slots)).count p +
              (if first = p then 1 else 0) =
              (ports s.slots).count p + if x.new = p then 1 else 0 := by
            intro p
            rw [set, split, count_ports, count_ports, entries, List.count_cons, List.count_cons]
            simp only [beq_iff_eq]
            omega
          refine ⟨_, _, rfl, formed.replace split (set _) (List.cons_ne_nil _ _) rfl
            (fun p => ?_) fun p => ?_⟩
          · have before := once p
            have moved := count p
            by_cases same : x.new = p
            · subst same
              rw [if_pos rfl] at moved
              show (ports (setEntries point (x.new :: rest) s.slots)).count x.new ≤ 1
              omega
            · rw [if_neg same] at moved
              show (ports (setEntries point (x.new :: rest) s.slots)).count p ≤ 1
              omega
          · show (x.new :: s.mounted).count p =
              (ports (setEntries point (x.new :: rest) s.slots)).count p + (first :: s.gone).count p
            have moved := count p
            have before := formed.ledger p
            rw [List.count_cons, List.count_cons]
            simp only [beq_iff_eq]
            omega

/-- **Every call goes through.** -/
theorem exec_spec (formed : Formed s) {label : Outcome × Action} (legal : Legal s label)
    (fits : Fits s label) : ∃ t r, s.exec label.1 label.2 = .ok (t, r) ∧ Formed t ∧
      ∀ point port, label.2 = .umount point port →
        (r = 0 ↔ (ports t.slots).length < (ports s.slots).length) := by
  obtain ⟨x, act⟩ := label
  cases act with
  | mountport point port =>
      exact ⟨_, _, rfl, mountport_formed formed fits.1 fits.2, fun _ _ is => nomatch is⟩
  | umount point port =>
      have kept := umount_formed formed fits
      exact ⟨_, _, rfl, kept.1, fun _ _ _ => kept.2⟩
  | cloneMount point =>
      obtain ⟨t, r, done, kept⟩ := cloneMount_formed point formed legal
      exact ⟨t, r, done, kept, fun _ _ is => nomatch is⟩

/-! ## The scan for a path -/

/-- A name is the path, or a prefix of it that ends where an element does. -/
def Covers (name p : Str) : Prop :=
  name <+: p ∧ (name = p ∨ name.getLast? = some slash ∨ p[name.length]? = some slash)

/-- What the walk leaves of a name that is a prefix, and of the path. -/
theorem walk_append (q r : Str) : walk q (q ++ r) = ([], r) := by
  induction q with
  | nil =>
      cases r with
      | nil => rfl
      | cons _ _ => rfl
  | cons c q ih => rw [List.cons_append, walk, if_pos rfl, ih]

theorem prefix_of_walk {q r rest : Str} (walked : walk q r = ([], rest)) : r = q ++ rest := by
  induction q generalizing r with
  | nil =>
      cases r with
      | nil => exact (Prod.ext_iff.mp walked).2
      | cons _ _ => exact (Prod.ext_iff.mp walked).2
  | cons c q ih =>
      cases r with
      | nil => cases walked
      | cons d r =>
          rw [walk] at walked
          split_ifs at walked with same
          · rw [ih walked, same, List.cons_append]
          · cases walked

/-- The best of the slots that were seen. -/
def Best (p : Str) (seen : List Mnttab) (len : ℕ) : Option Mnttab → Prop
  | none => len = 0 ∧ ∀ mt ∈ seen, ¬Covers mt.mName p
  | some mt => mt ∈ seen ∧ Covers mt.mName p ∧ len = mt.mName.length ∧
      ∀ other ∈ seen, Covers other.mName p → other.mName.length ≤ len

variable {p : Str} {seen : List Mnttab} {len : ℕ} {found : Option Mnttab}

/-- A slot that does not cover the path, or is not longer. -/
theorem Best.skip (best : Best p seen len found)
    (short : Covers mt.mName p → mt.mName.length ≤ len ∧ mt.mName ≠ []) :
    Best p (seen ++ [mt]) len found := by
  cases found with
  | none =>
      refine ⟨best.1, fun other member => ?_⟩
      rw [List.mem_append, List.mem_singleton] at member
      rcases member with member | rfl
      · exact best.2 other member
      · intro covers
        obtain ⟨few, named⟩ := short covers
        rw [best.1, Nat.le_zero, List.length_eq_zero_iff] at few
        exact named few
  | some old =>
      refine ⟨List.mem_append_left _ best.1, best.2.1, best.2.2.1, fun other member covers => ?_⟩
      rw [List.mem_append, List.mem_singleton] at member
      rcases member with member | rfl
      · exact best.2.2.2 other member covers
      · exact (short covers).1

/-- A slot that covers the path and is longer. -/
theorem Best.take (best : Best p seen len found) (covers : Covers mt.mName p)
    (longer : len ≤ mt.mName.length) : Best p (seen ++ [mt]) mt.mName.length (some mt) := by
  refine ⟨List.mem_append_right _ (List.mem_singleton_self mt), covers, rfl,
    fun other member covers' => ?_⟩
  rw [List.mem_append, List.mem_singleton] at member
  rcases member with member | rfl
  · cases found with
    | none => exact absurd covers' (best.2 other member)
    | some old => exact (best.2.2.2 other member covers').trans longer
  · exact Nat.le_refl _

/-- The whole path is a name: no other is longer. -/
theorem Best.exact {rest : List Mnttab} (name : mt.mName = p) :
    Best p (seen ++ mt :: rest) mt.mName.length (some mt) := by
  refine ⟨List.mem_append_right _ List.mem_cons_self, ⟨name ▸ List.prefix_rfl, .inl name⟩, rfl,
    fun other _ covers => ?_⟩
  rw [name]
  exact covers.1.length_le

/-- **The scan finds the longest name that covers the path.** -/
theorem scan_spec (named : ∀ mt ∈ slots, mt.mName ≠ []) (best : Best p seen len found) :
    ∃ len' found', scan p slots len found = .ok (len', found') ∧
      Best p (seen ++ slots) len' found' := by
  induction slots generalizing seen len found with
  | nil => exact ⟨len, found, rfl, by rwa [List.append_nil]⟩
  | cons mt rest ih =>
      have name := named mt List.mem_cons_self
      have named' : ∀ m ∈ rest, m.mName ≠ [] := fun m member =>
        named m (List.mem_cons_of_mem _ member)
      have next : ∀ {len found}, Best p (seen ++ [mt]) len found →
          ∃ len' found', scan p rest len found = .ok (len', found') ∧
            Best p (seen ++ mt :: rest) len' found' := by
        intro len found best
        obtain ⟨len', found', done, best'⟩ := ih named' best
        rw [List.append_assoc, List.singleton_append] at best'
        exact ⟨len', found', done, best'⟩
      rw [scan]
      rcases walked : walk mt.mName p with ⟨q, r⟩
      cases q with
      | cons c q =>
          refine next (best.skip fun covers => ?_)
          obtain ⟨left, rfl⟩ := covers.1
          rw [walk_append] at walked
          cases walked
      | nil =>
          have whole := prefix_of_walk walked
          cases r with
          | nil =>
              rw [List.append_nil] at whole
              exact ⟨_, _, rfl, Best.exact whole.symm⟩
          | cons c r =>
              have last := List.getLast?_eq_some_getLast name
              have after : p[mt.mName.length]? = some c := by
                rw [whole, List.getElem?_append_right (Nat.le_refl _), Nat.sub_self]
                rfl
              have before : p[mt.mName.length - 1]? = some (mt.mName.getLast name) := by
                have positive := List.length_pos_iff.mpr name
                rw [whole, List.getElem?_append_left (by omega), ← List.getLast?_eq_getElem?, last]
              have is : (mt.mName.getLast name = slash ∧ p[mt.mName.length - 1]? = some slash ∨
                  mt.mName.getLast name ≠ slash ∧ c = slash) ↔ Covers mt.mName p := by
                have shorter : mt.mName ≠ p := by
                  intro same
                  have lengths := congrArg List.length (same.trans whole)
                  rw [List.length_append, List.length_cons] at lengths
                  omega
                have first : mt.mName <+: p := ⟨c :: r, whole.symm⟩
                rw [Covers, and_iff_right first, or_iff_right shorter, last, after, before,
                  Option.some.injEq, Option.some.injEq]
                tauto
              simp only [last]
              by_cases covers : Covers mt.mName p
              · rw [if_pos (is.mpr covers)]
                by_cases longer : len < mt.mName.length
                · rw [if_pos longer]
                  exact next (best.take covers longer.le)
                · rw [if_neg longer]
                  exact next (best.skip fun _ => ⟨not_lt.mp longer, name⟩)
              · rw [if_neg fun yes => covers (is.mp yes)]
                exact next (best.skip fun yes => absurd yes covers)

/-! ## Opening -/

/-- An absolute path without empty elements and without dots. -/
def Normal (path : Str) : Prop :=
  ∃ elems, (∀ e ∈ elems, e ≠ [] ∧ e ≠ [0x2E] ∧ e ≠ [0x2E, 0x2E] ∧ slash ∉ e) ∧
    path = rebuild elems

theorem wipe_plain {elems : List Str}
    (plain : ∀ e ∈ elems, e ≠ [] ∧ e ≠ [0x2E] ∧ e ≠ [0x2E, 0x2E] ∧ slash ∉ e) (kept : List Str) :
    (wipe kept elems).1 = false := by
  induction elems generalizing kept with
  | nil => rfl
  | cons e rest ih =>
      obtain ⟨some_, dot, dots, -⟩ := plain e List.mem_cons_self
      rw [wipe, if_neg (not_or.mpr ⟨some_, dot⟩), if_pos dots]
      exact ih (fun e member => plain e (List.mem_cons_of_mem _ member)) _

theorem intercalate_slash (first : Str) (elems : List Str) :
    [slash].intercalate (first :: elems) = first ++ elems.flatMap (slash :: ·) := by
  induction elems generalizing first with
  | nil => simp
  | cons e rest ih =>
      rw [List.intercalate_cons_cons, ih, List.flatMap_cons]
      simp

/-- **`__dotdot` leaves a normalized path alone.** -/
theorem dotdot_of_normal {path : Str} (normal : Normal path) : dotdot path = path := by
  obtain ⟨elems, plain, rfl⟩ := normal
  cases elems with
  | nil => rfl
  | cons e rest =>
      have joined : rebuild (e :: rest) = [slash].intercalate ([] :: e :: rest) := by
        rw [intercalate_slash]
        exact if_neg (List.cons_ne_nil _ _)
      have split : (rebuild (e :: rest)).splitOn slash = [] :: e :: rest := by
        rw [joined, List.splitOn_intercalate]
        · intro l member
          rcases List.mem_cons.mp member with rfl | member
          · exact List.not_mem_nil
          · exact (plain l member).2.2.2
        · exact List.cons_ne_nil _ _
      have none_ := wipe_plain plain []
      simp only [dotdot, split, List.tail_cons]
      rw [none_]
      rfl

/-- The slot with the longest name that covers a path. -/
def Longest (slots : List Mnttab) (p : Str) (mt : Mnttab) : Prop :=
  mt ∈ slots ∧ Covers mt.mName p ∧
    ∀ other ∈ slots, Covers other.mName p → other.mName.length ≤ mt.mName.length

/-- **An open uses the slot with the longest name that covers its path, and is refused for want of a
mount when there is none.** -/
theorem open_spec (formed : Formed s) (o : Opening) (file : Str) :
    (∃ mt, Longest s.slots (dotdot file) mt ∧ s.open_ o file =
      .ok (if o.mem then tryEach o mt ((dotdot file).drop mt.mName.length) else .nomem)) ∨
    (∀ mt ∈ s.slots, ¬Covers mt.mName (dotdot file)) ∧
      (s.open_ o file = .ok .ESRCH ∨ o.mem = false ∧ s.open_ o file = .ok .nomem) := by
  have first : Best (dotdot file) [] 0 none := ⟨rfl, nofun⟩
  obtain ⟨len, found, scanned, best⟩ := scan_spec formed.named first
  rw [List.nil_append] at best
  have run : s.open_ o file = if s.null then .ok .ESRCH else if !o.mem then .ok .nomem
      else match found with
        | none => .ok .ESRCH
        | some mt => if mt.mEntries = [] then .ok .ESRCH
            else .ok (tryEach o mt ((dotdot file).drop len)) := by
    rw [State.open_]
    simp only [scanned]
    cases found <;> rfl
  cases found with
  | none =>
      refine .inr ⟨best.2, ?_⟩
      rw [run]
      by_cases null : s.null = true
      · exact .inl (if_pos null)
      · rw [if_neg null]
        by_cases mem : (!o.mem) = true
        · exact .inr ⟨by simpa using mem, if_pos mem⟩
        · exact .inl (if_neg mem)
  | some mt =>
      obtain ⟨member, covers, rfl, longest⟩ := best
      refine .inl ⟨mt, ⟨member, covers, longest⟩, ?_⟩
      have some_ : s.null ≠ true := by
        intro null
        rw [formed.null null] at member
        cases member
      rw [run, if_neg some_]
      cases mem : o.mem with
      | false => rfl
      | true =>
          simp only [Bool.not_true, Bool.false_eq_true, if_false, if_true]
          rw [if_neg (formed.some_ mt member)]

theorem start_formed : Formed start :=
  ⟨List.nodup_nil, nofun, nofun, nofun, List.nodup_nil, fun _ => rfl, fun _ => rfl⟩

instance (label : Outcome × Action) : Decidable (Legal s label) := by
  unfold Legal
  infer_instance

instance (label : Outcome × Action) : Decidable (Fits s label) := by
  unfold Fits
  have slots : ∀ point port, Decidable (∀ mt, slot point s.slots = some mt → mt.mEntries ≠ [port]) :=
    fun point port => match slot point s.slots with
      | none => .isTrue nofun
      | some mt => decidable_of_iff (mt.mEntries ≠ [port])
          ⟨fun other m is => Option.some.inj is ▸ other, fun all => all mt rfl⟩
  split <;> infer_instance

/-- What a call that goes through leaves. -/
def next (s : State) (label : Outcome × Action) : Option State :=
  (s.exec label.1 label.2).toOption.map Prod.fst

theorem step_of_next {label : Outcome × Action} (legal : Legal s label)
    (taken : next s label = some t) : Step s label t := by
  refine ⟨legal, ?_⟩
  rw [next] at taken
  cases done : s.exec label.1 label.2 with
  | error fault =>
      rw [done] at taken
      cases taken
  | ok result =>
      rw [done] at taken
      obtain rfl := Option.some.inj taken
      exact ⟨result.2, rfl⟩

/-- A call that is granted. -/
def granted : Outcome := ⟨true, true, true, 9⟩

/-- `/`, and `/v` with two ports. -/
def mounting : List (Outcome × Action) :=
  [(granted, .mountport [slash] 3), (granted, .mountport [slash, 0x76] 4),
    (granted, .mountport [slash, 0x76] 5)]

/-- The table after that. -/
def mounted : State :=
  ⟨false, [⟨[slash], 1, [3]⟩, ⟨[slash, 0x76], 2, [5, 4]⟩], [5, 4, 3], []⟩

theorem mounted_run : Transition.Reaches Step Fits start mounted :=
  (Transition.Reaches.refl start).followed
    (fun _ _ good => of_decide_eq_true (Bool.and_eq_true _ _ ▸ good).2)
    (fun _ _ _ good => step_of_next (of_decide_eq_true (Bool.and_eq_true _ _ ▸ good).1))
    (show Transition.follow next (fun s l => decide (Legal s l) && decide (Fits s l)) start
      mounting = some mounted from rfl)

/-- The table when both ports of `/v` were taken out. -/
def emptied : State :=
  ⟨false, [⟨[slash], 1, [3]⟩, ⟨[slash, 0x76], 2, []⟩], [5, 4, 3], [4, 5]⟩

end Vsta.Mount
