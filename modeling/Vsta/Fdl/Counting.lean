import Vsta.Fdl.Table
import Vsta.Library.Ensures
import Vsta.Library.RefCount
import Vsta.Library.Runs
import Mathlib.Data.List.Nodup

/-!
# Every port is counted by its descriptors

In every run whose calls meet `Fits`, a port's `p_refs` is the number of descriptors that are mapped
to it, its connection is closed once, when the last of them goes, and a call on a descriptor that is
not open changes nothing (`fdl_runs`). Calls that do not meet it: a negative descriptor is looked
for in front of the array, `dup2` of a closed descriptor onto itself succeeds, a port that cannot be
had is descriptor 0, and a node of the hash that cannot be had is a descriptor that is not mapped
(`fdl_mistakes`).
-/

set_option autoImplicit false

namespace Vsta.Fdl

open RefCount

namespace State

/-- The port that a descriptor is mapped to. -/
def opened (s : State) (fd : CInt) : Option ℕ :=
  match s.port fd with
  | .ok found => found
  | .error _ => none

/-- The ports and their counts. -/
def store (s : State) : Store ℕ :=
  ⟨fun p => (s.ports p).map Port.pRefs, fun p => p < s.made, s.closed⟩

/-- The low slots are all taken. -/
def Full (s : State) : Prop := ∀ x < NFD, s.fdmap x ≠ none

end State

/-- The condition on a call: the descriptors that it looks for are not negative, there is memory for
a port and for the node that the call needs, and a descriptor that is mapped onto itself is open. -/
def Fits (s : State) (label : Outcome × Call) : Prop :=
  match label.2 with
  | .open_ _ => label.1.port = true ∧ (s.Full → label.1.node = true)
  | .dup fd => 0 ≤ fd.toInt ∧ (s.opened fd ≠ none → s.Full → label.1.node = true)
  | .dup2 oldfd newfd =>
      if oldfd = newfd then s.opened oldfd ≠ none
      else 0 ≤ oldfd.toInt ∧ (s.opened oldfd ≠ none →
        0 ≤ newfd.toInt ∧ (NFD ≤ newfd.toInt → label.1.node = true))
  | .close fd => 0 ≤ fd.toInt

/-- What a call has to do: a descriptor that is not open is an error, a new one was not in use, and
no other descriptor changes. -/
def Answers (s : State) (call : Call) (t : State) (r : Reply) : Prop :=
  match call with
  | .open_ newfile => r.error = none ∧ 0 ≤ r.value.toInt ∧ s.opened r.value = none ∧
      t.opened = Function.update s.opened r.value (some s.made) ∧
      ∃ port, t.ports s.made = some port ∧ port.pPort = newfile
  | .dup fd =>
      match s.opened fd with
      | none => t = s ∧ r = ⟨-1, some .EBADF⟩
      | some p => r.error = none ∧ 0 ≤ r.value.toInt ∧ s.opened r.value = none ∧
          t.opened = Function.update s.opened r.value (some p)
  | .dup2 oldfd newfd =>
      match s.opened oldfd with
      | none => t = s ∧ r = ⟨-1, some .EBADF⟩
      | some p => r = ⟨0, none⟩ ∧ t.opened = Function.update s.opened newfd (some p)
  | .close fd =>
      match s.opened fd with
      | none => t = s ∧ r = ⟨-1, some .EBADF⟩
      | some _ => r.error = none ∧ t.opened = Function.update s.opened fd none

/-- What holds of the table. -/
structure Tables (s : State) : Prop where
  next : NFD ≤ s.fdnext.toInt
  hash : ∀ hash, s.fdhash = some hash →
    hash.Distinct ∧ hash.length ≤ 2 ^ 28 ∧ ∀ fd ∈ hash.map Prod.fst, NFD ≤ fd.toInt

/-- What holds of the table and of the ports. -/
structure Sound (s : State) : Prop where
  tables : Tables s
  counted : Counted s.opened s.store

/-! ## The cursor -/

theorem toNat_of_high {v : CInt} (high : NFD ≤ v.toInt) : 32 ≤ v.toNat ∧ v.toNat < 2 ^ 31 := by
  have signed := BitVec.toInt_eq_toNat_cond v
  have := v.isLt
  simp only [NFD] at high
  split_ifs at signed <;> omega

theorem high_of_toNat {v : CInt} (low : 32 ≤ v.toNat) (small : v.toNat < 2 ^ 31) :
    NFD ≤ v.toInt := by
  have signed := BitVec.toInt_eq_toNat_cond v
  simp only [NFD]
  split_ifs at signed <;> omega

theorem toNat_INC {v : CInt} (high : NFD ≤ v.toInt) :
    (INC v).toNat = 32 + (v.toNat - 32 + 1) % (2 ^ 31 - 32) := by
  obtain ⟨low, small⟩ := toNat_of_high high
  have next : (v + 1).toNat = v.toNat + 1 := by
    rw [BitVec.toNat_add]
    simp
    omega
  have signed := BitVec.toInt_eq_toNat_cond (v + 1)
  rw [INC]
  split_ifs at signed ⊢ with wraps
  · omega
  · have last : v.toNat + 1 = 2 ^ 31 := by omega
    simp
    omega
  · omega
  · omega

theorem INC_high {v : CInt} (high : NFD ≤ v.toInt) : NFD ≤ (INC v).toInt := by
  have := toNat_INC high
  have := Nat.mod_lt (v.toNat - 32 + 1) (by decide : 0 < 2 ^ 31 - 32)
  exact high_of_toNat (by omega) (by omega)

/-- Where the cursor is after some steps. -/
theorem toNat_iterate {v : CInt} (high : NFD ≤ v.toInt) (k : ℕ) :
    NFD ≤ (INC^[k] v).toInt ∧
      (INC^[k] v).toNat = 32 + (v.toNat - 32 + k) % (2 ^ 31 - 32) := by
  obtain ⟨low, small⟩ := toNat_of_high high
  induction k with
  | zero =>
      refine ⟨high, ?_⟩
      simp
      omega
  | succ k ih =>
      obtain ⟨before, here⟩ := ih
      rw [Function.iterate_succ_apply']
      refine ⟨INC_high before, ?_⟩
      rw [toNat_INC before, here]
      omega

/-- The cursor comes to a free value, or all the values that it looked at are used. -/
theorem scan_cases (used : Hash ℕ) (fuel : ℕ) {v : CInt} (high : NFD ≤ v.toInt) :
    NFD ≤ (scan used fuel v).toInt ∧
      (used.lookup (scan used fuel v) = none ∨ ∀ k < fuel, used.lookup (INC^[k] v) ≠ none) := by
  induction fuel generalizing v with
  | zero => exact ⟨high, .inr fun k less => absurd less (Nat.not_lt_zero k)⟩
  | succ fuel ih =>
      rw [scan]
      split_ifs with taken
      · obtain ⟨stays, free | used_⟩ := ih (INC_high high)
        · exact ⟨stays, .inl free⟩
        · refine ⟨stays, .inr fun k less => ?_⟩
          cases k with
          | zero => exact Option.isSome_iff_ne_none.mp taken
          | succ k => exact used_ k (by omega)
      · exact ⟨high, .inl (by simpa using taken)⟩

/-- More values are looked at than are used. -/
theorem scan_free {used : Hash ℕ} (bound : used.length ≤ 2 ^ 28) {v : CInt}
    (high : NFD ≤ v.toInt) : used.lookup (scan used (used.length + 1) v) = none := by
  rcases (scan_cases used (used.length + 1) high).2 with free | taken
  · exact free
  · exfalso
    have different : ((List.range (used.length + 1)).map fun k => INC^[k] v).Nodup := by
      refine List.Nodup.map_on (fun k below l above same => ?_) List.nodup_range
      have here := (toNat_iterate high k).2
      rw [same, (toNat_iterate high l).2] at here
      simp only [List.mem_range] at below above
      have := (toNat_of_high high).2
      omega
    have among : ((List.range (used.length + 1)).map fun k => INC^[k] v) ⊆
        used.map Prod.fst := by
      intro key listed
      obtain ⟨k, below, rfl⟩ := List.mem_map.mp listed
      by_contra absent
      exact taken k (List.mem_range.mp below) (Hash.lookup_eq_none.mpr absent)
    have := (List.subperm_of_subset different among).length_le
    simp at this

/-! ## The operations on the table -/

variable {s t : State} {x : Outcome} {fd : CInt} {p : ℕ}

theorem opened_low (nonneg : 0 ≤ fd.toInt) (low : fd.toInt < NFD) :
    s.opened fd = s.fdmap fd.toNat := by
  rw [State.opened, State.port, if_pos low, if_neg (not_lt.mpr nonneg)]

theorem opened_high (high : NFD ≤ fd.toInt) :
    s.opened fd = s.fdhash.bind fun hash => hash.lookup fd := by
  rw [State.opened, State.port, if_neg (not_lt.mpr high)]

theorem opened_negative (negative : fd.toInt < 0) : s.opened fd = none := by
  rw [State.opened, State.port, if_pos (by simp only [NFD]; omega), if_pos negative]

theorem port_eq (nonneg : 0 ≤ fd.toInt) : s.port fd = .ok (s.opened fd) := by
  rw [State.opened, State.port]
  split_ifs with low negative
  · exact absurd negative (not_lt.mpr nonneg)
  · rfl
  · rfl

/-- The table after one descriptor below `NFD` was changed. -/
theorem opened_of_fdmap (nonneg : 0 ≤ fd.toInt) (low : fd.toInt < NFD) {value : Option ℕ}
    (map : t.fdmap = Function.update s.fdmap fd.toNat value) (hash : t.fdhash = s.fdhash) :
    t.opened = Function.update s.opened fd value := by
  funext other
  rcases lt_or_ge other.toInt 0 with negative | nonneg'
  · have differ : other ≠ fd := fun same => absurd nonneg (same ▸ not_le.mpr negative)
    rw [Function.update_of_ne differ, opened_negative negative, opened_negative negative]
  · rcases lt_or_ge other.toInt NFD with low' | high
    · rw [opened_low nonneg' low', map, Function.update_apply, Function.update_apply,
        opened_low nonneg' low']
      simp only [BitVec.toNat_inj]
    · have differ : other ≠ fd := fun same => absurd low (same ▸ not_lt.mpr high)
      rw [Function.update_of_ne differ, opened_high high, opened_high high, hash]

/-- The table after one descriptor from `NFD` on was changed. -/
theorem opened_of_fdhash (high : NFD ≤ fd.toInt) {value : Option ℕ} (map : t.fdmap = s.fdmap)
    (hash : ∀ other, (t.fdhash.bind fun hash => hash.lookup other) =
      if other = fd then value else s.fdhash.bind fun hash => hash.lookup other) :
    t.opened = Function.update s.opened fd value := by
  funext other
  rw [Function.update_apply]
  rcases lt_or_ge other.toInt 0 with negative | nonneg
  · have differ : other ≠ fd := fun same => by
      subst same
      simp only [NFD] at high
      omega
    rw [if_neg differ, opened_negative negative, opened_negative negative]
  · rcases lt_or_ge other.toInt NFD with low | high'
    · have differ : other ≠ fd := fun same => absurd low (same ▸ not_lt.mpr high)
      rw [if_neg differ, opened_low nonneg low, opened_low nonneg low, map]
    · rw [opened_high high', opened_high high', hash]

/-- The table and the rest of the state, where only the table changed. -/
structure Mapped (s : State) (fd : CInt) (value : Option ℕ) (t : State) : Prop where
  tables : Tables t
  opened : t.opened = Function.update s.opened fd value
  ports : t.ports = s.ports
  made : t.made = s.made
  closed : t.closed = s.closed

/-- The one failure that the condition leaves: there is no memory for the hash. -/
abbrev NoHash (x : Outcome) (stop : Stop) : Prop := stop = .abort ∧ x.hash = false

theorem setfd_spec (tables : Tables s) (legal : Legal s x) (nonneg : 0 ≤ fd.toInt)
    (node : NFD ≤ fd.toInt → x.node = true) (free : s.opened fd = none) :
    Except.Ensures (NoHash x) (s.setfd x fd p) (Mapped s fd (some p)) := by
  rw [State.setfd, if_neg (not_lt.mpr nonneg)]
  refine Except.Ensures.ite (fun high => ?_) (fun low => ?_)
  · refine Except.Ensures.ite (fun absent => ?_) (fun _ => ?_)
    · simp only [Bool.and_eq_true, Bool.not_eq_true'] at absent
      exact ⟨rfl, absent.2⟩
    · have unused : (s.fdhash.getD []).lookup fd = none := by
        rw [opened_high high] at free
        cases there : s.fdhash with
        | none => rfl
        | some hash => simpa [there] using free
      have before : (s.fdhash.getD []).Distinct ∧ (s.fdhash.getD []).length < 2 ^ 28 ∧
          ∀ fd ∈ (s.fdhash.getD []).map Prod.fst, NFD ≤ fd.toInt := by
        cases there : s.fdhash with
        | none => exact ⟨Hash.distinct_nil, Nat.two_pow_pos 28, fun fd key => nomatch key⟩
        | some hash =>
            obtain ⟨distinct, -, far⟩ := tables.hash hash there
            exact ⟨distinct, legal (node high) hash there, far⟩
      refine ⟨⟨tables.next, fun hash same => ?_⟩, opened_of_fdhash high rfl fun other => ?_, rfl,
        rfl, rfl⟩
      · simp only [node high, if_true, Option.some.injEq] at same
        subst same
        refine ⟨before.1.insert unused, before.2.1, fun other key => ?_⟩
        rcases List.mem_cons.mp key with rfl | key
        · exact high
        · exact before.2.2 other key
      · simp only [node high, if_true, Option.bind_some, Hash.lookup_insert]
        cases s.fdhash <;> rfl
  · exact ⟨⟨tables.next, tables.hash⟩, opened_of_fdmap nonneg (not_le.mp low) rfl rfl, rfl, rfl,
      rfl⟩

theorem fdclose_spec (tables : Tables s) (nonneg : 0 ≤ fd.toInt) :
    Mapped s fd none (s.fdclose fd) := by
  rw [State.fdclose]
  split_ifs with low
  · exact ⟨⟨tables.next, tables.hash⟩, opened_of_fdmap nonneg low rfl rfl, rfl, rfl, rfl⟩
  · have high := not_lt.mp low
    refine ⟨⟨tables.next, fun hash same => ?_⟩, opened_of_fdhash high rfl fun other => ?_, rfl, rfl,
      rfl⟩
    · obtain ⟨before, there, rfl⟩ := Option.map_eq_some_iff.mp same
      obtain ⟨distinct, bound, far⟩ := tables.hash before there
      exact ⟨distinct.delete fd, (List.length_eraseP_le).trans bound, fun other key =>
        far other ((List.eraseP_sublist.map Prod.fst).subset key)⟩
    · cases there : s.fdhash with
      | none => simp
      | some hash => simpa [there] using (tables.hash hash there).1.lookup_delete fd other

/-- The descriptor that `allocfd` returns is not in use, and is a high one only if the low slots are
all taken. -/
theorem allocfd_spec (tables : Tables s) :
    0 ≤ s.allocfd.1.toInt ∧ s.opened s.allocfd.1 = none ∧
    (NFD ≤ s.allocfd.1.toInt → s.Full) ∧
    ∃ v : CInt, NFD ≤ v.toInt ∧ s.allocfd.2 = { s with fdnext := v } := by
  rw [State.allocfd]
  cases found : (List.range NFD).find? fun x => (s.fdmap x).isNone with
  | some slot =>
      have inside := List.mem_range.mp (List.mem_of_find?_eq_some found)
      have empty := List.find?_some found
      simp only [NFD] at inside
      have small : (BitVec.ofNat 32 slot).toInt = slot := by
        rw [BitVec.toInt_eq_toNat_cond, BitVec.toNat_ofNat]
        split_ifs <;> omega
      have same : (BitVec.ofNat 32 slot).toNat = slot := by
        rw [BitVec.toNat_ofNat]
        omega
      have low : (BitVec.ofNat 32 slot).toInt < NFD := by
        rw [small]
        simp only [NFD]
        omega
      simp only
      refine ⟨by rw [small]; omega, ?_, fun high => absurd low (not_lt.mpr high), s.fdnext,
        tables.next, rfl⟩
      rw [opened_low (by rw [small]; omega) low, same]
      simpa using empty
  | none =>
      have full : s.Full := fun slot inside => by
        have := List.find?_eq_none.mp found slot (List.mem_range.mpr inside)
        simpa using this
      have high : NFD ≤ s.highfd.toInt := by
        rw [State.highfd]
        cases s.fdhash with
        | none => exact tables.next
        | some hash => exact (scan_cases hash _ tables.next).1
      have free : s.opened s.highfd = none := by
        rw [opened_high high, State.highfd]
        cases there : s.fdhash with
        | none => rfl
        | some hash => exact scan_free (tables.hash hash there).2.1 tables.next
      have nonneg : 0 ≤ s.highfd.toInt := le_trans (by decide) high
      exact ⟨nonneg, free, fun _ => full, INC s.highfd, INC_high high, rfl⟩

/-! ## The calls -/

theorem setPort_tables {port : Option Port} (tables : Tables s) : Tables (s.setPort p port) :=
  ⟨tables.next, tables.hash⟩

theorem setPort_opened {port : Option Port} : (s.setPort p port).opened = s.opened := rfl

theorem setPort_refs (port : Option Port) : (s.setPort p port).store.refs =
    Function.update s.store.refs p (port.map Port.pRefs) := by
  funext o
  by_cases same : o = p
  · simp [State.setPort, State.store, same]
  · simp [State.setPort, State.store, same]

theorem setPort_store (port : Option Port) : (s.setPort p port).store =
    { s.store with refs := Function.update s.store.refs p (port.map Port.pRefs) } := by
  rw [← setPort_refs]
  rfl

/-- The counts after a port was made. -/
theorem made_store {port : Port} (one : port.pRefs = 1) :
    ({ s.setPort s.made (some port) with made := s.made + 1 } : State).store =
    ⟨Function.update s.store.refs s.made (some 1),
      Function.update s.store.made s.made true, s.store.closed⟩ := by
  have grown : (fun o => decide (o < s.made + 1)) = Function.update s.store.made s.made true := by
    funext o
    by_cases here : o = s.made
    · simp [here]
    · simp only [Function.update_of_ne here, State.store, decide_eq_decide]
      omega
  rw [← grown, ← one, ← Option.map_some, ← setPort_refs]
  rfl

theorem Mapped.store {value : Option ℕ} (mapped : Mapped s fd value t) : t.store = s.store := by
  simp only [State.store, mapped.ports, mapped.made, mapped.closed]

/-- A new reference to a port that is there. -/
theorem addRef_spec (counted : Counted s.opened s.store) (free : s.opened fd = none) {n : ℕ}
    (there : s.store.refs p = some n) (mapped : Mapped s fd (some p) t) :
    Except.Ensures (NoHash x) (t.addRef p) fun u =>
      Sound u ∧ u.opened = Function.update s.opened fd (some p) := by
  obtain ⟨port, is, rfl⟩ := Option.map_eq_some_iff.mp there
  rw [State.addRef, mapped.ports, is]
  refine ⟨⟨setPort_tables mapped.tables, ?_⟩, mapped.opened⟩
  rw [setPort_opened, setPort_store, mapped.opened, mapped.store]
  exact counted.hold there free

theorem doOpen_pPort {null : Bool} {port : Port} : (doOpen null port).pPort = port.pPort := by
  cases null <;> rfl

theorem doOpen_pRefs {null : Bool} {port : Port} : (doOpen null port).pRefs = port.pRefs := by
  cases null <;> rfl

theorem fdAlloc_spec (sound : Sound s) (legal : Legal s x) {newfile : CInt}
    (memory : x.port = true) (room : s.Full → x.node = true) :
    Except.Ensures (NoHash x) (s.fdAlloc x newfile) fun (t, fd) =>
      Sound t ∧ 0 ≤ fd.toInt ∧ s.opened fd = none ∧
      t.opened = Function.update s.opened fd (some s.made) ∧
      ∃ port, t.ports s.made = some port ∧ port.pPort = newfile := by
  obtain ⟨nonneg, free, high, v, bound, same⟩ := allocfd_spec sound.tables
  have legal' : Legal s.allocfd.2 x := by rwa [same]
  have free' : s.allocfd.2.opened s.allocfd.1 = none := by rw [same]; exact free
  have tables' : Tables s.allocfd.2 := by rw [same]; exact ⟨bound, sound.tables.hash⟩
  rw [State.fdAlloc, if_neg (by simp [memory])]
  refine (setfd_spec tables' legal' nonneg (fun far => room (high far)) free').bind
    fun t mapped => ?_
  have store : t.store = s.store := by rw [mapped.store, same]; rfl
  have opened : t.opened = Function.update s.opened s.allocfd.1 (some s.made) := by
    rw [mapped.opened, same]
    rfl
  refine ⟨⟨⟨mapped.tables.next, mapped.tables.hash⟩, ?_⟩, nonneg, free, opened,
    doOpen x.null ⟨newfile, 1, x.garbage⟩, by simp [State.setPort], doOpen_pPort⟩
  have fresh : s.store.made s.made = false := by simp [State.store]
  have counted := sound.counted.make fresh free
  have made : t.made = s.made := by rw [mapped.made, same]
  have one : (doOpen x.null ⟨newfile, 1, x.garbage⟩).pRefs = 1 := doOpen_pRefs
  rw [← opened, ← store, ← made, ← made_store one, made] at counted
  exact counted

theorem open_spec (sound : Sound s) (legal : Legal s x) {newfile : CInt}
    (fits : Fits s (x, .open_ newfile)) :
    Except.Ensures (NoHash x) (s.open_ x newfile) fun (t, r) =>
      Sound t ∧ Answers s (.open_ newfile) t r := by
  rw [State.open_]
  refine (fdAlloc_spec sound legal fits.1 fits.2).bind fun (t, fd) ⟨after, nonneg, free, opened, is⟩ => ?_
  simp only [if_neg (not_lt.mpr nonneg)]
  exact ⟨after, rfl, nonneg, free, opened, is⟩

/-- A descriptor is open, or a call on it fails. -/
theorem refs_of_opened (sound : Sound s) (is : s.opened fd = some p) :
    ∃ n, 0 < n ∧ s.store.refs p = some n := by
  obtain ⟨n, there⟩ := Option.ne_none_iff_exists'.mp (sound.counted.live fd p is)
  exact ⟨n, (sound.counted.refs p n there).1, there⟩

theorem dup_spec (sound : Sound s) (legal : Legal s x) (fits : Fits s (x, .dup fd)) :
    Except.Ensures (NoHash x) (s.dup x fd) fun (t, r) => Sound t ∧ Answers s (.dup fd) t r := by
  obtain ⟨known, room⟩ := fits
  rw [State.dup, port_eq known]
  simp only [Answers]
  cases is : s.opened fd with
  | none => exact ⟨sound, rfl, rfl⟩
  | some p =>
      obtain ⟨nonneg, free, high, v, bound, same⟩ := allocfd_spec sound.tables
      have legal' : Legal s.allocfd.2 x := by rwa [same]
      have opened : s.allocfd.2.opened = s.opened := by rw [same]; rfl
      have store : s.allocfd.2.store = s.store := by rw [same]; rfl
      have tables' : Tables s.allocfd.2 := by rw [same]; exact ⟨bound, sound.tables.hash⟩
      obtain ⟨n, -, there⟩ := refs_of_opened sound is
      have counted : Counted s.allocfd.2.opened s.allocfd.2.store := by
        rw [opened, store]
        exact sound.counted
      refine (setfd_spec tables' legal' nonneg (fun far => room (by simp [is]) (high far))
        (opened ▸ free)).bind fun t mapped => ?_
      refine (addRef_spec counted (opened ▸ free) (store ▸ there) mapped).bind fun u counts => ?_
      obtain ⟨after, changed⟩ := counts
      exact ⟨after, rfl, nonneg, free, opened ▸ changed⟩

theorem fdclose_legal (legal : Legal s x) : Legal (s.fdclose fd) x := by
  intro node hash same
  rw [State.fdclose] at same
  split_ifs at same
  · exact legal node hash same
  · obtain ⟨before, there, rfl⟩ := Option.map_eq_some_iff.mp same
    exact (List.length_eraseP_le).trans_lt (legal node before there)

theorem release_spec (sound : Sound s) (nonneg : 0 ≤ fd.toInt) (is : s.opened fd = some p) :
    Except.Ensures (NoHash x) (s.release x fd p) fun (t, r) =>
      Sound t ∧ r.error = none ∧ t.opened = Function.update s.opened fd none ∧
      (Legal s x → Legal t x) := by
  have mapped := fdclose_spec sound.tables nonneg
  obtain ⟨n, some_, there⟩ := refs_of_opened sound is
  obtain ⟨port, at_, rfl⟩ := Option.map_eq_some_iff.mp there
  rw [State.release]
  simp only [mapped.ports, at_]
  refine Except.Ensures.ite (fun more => ?_) (fun last => ?_)
  · refine ⟨⟨setPort_tables mapped.tables, ?_⟩, rfl, mapped.opened, fdclose_legal⟩
    rw [setPort_opened, setPort_store, mapped.opened, mapped.store]
    exact sound.counted.drop is there more
  · refine ⟨⟨⟨mapped.tables.next, mapped.tables.hash⟩, ?_⟩, rfl, mapped.opened, fdclose_legal⟩
    have one : port.pRefs = 1 := by omega
    rw [one] at there
    have counted := sound.counted.last is there
    rw [← mapped.opened, ← mapped.store, ← Option.map_none, ← setPort_refs] at counted
    exact counted

theorem close_spec (sound : Sound s) (nonneg : 0 ≤ fd.toInt) :
    Except.Ensures (NoHash x) (s.close x fd) fun (t, r) => Sound t ∧ Answers s (.close fd) t r := by
  rw [State.close, port_eq nonneg]
  simp only [Answers]
  cases is : s.opened fd with
  | none => exact ⟨sound, rfl, rfl⟩
  | some p =>
      refine (release_spec sound nonneg is).mono ?_
      rintro ⟨t, r⟩ ⟨after, ok, opened, -⟩
      exact ⟨after, ok, opened⟩

/-- The destination of `dup2` is closed, and nothing else. -/
theorem closeDest_spec (sound : Sound s) (legal : Legal s x) (nonneg : 0 ≤ fd.toInt) :
    Except.Ensures (NoHash x) (s.closeDest x fd) fun t =>
      Sound t ∧ Legal t x ∧ t.opened = Function.update s.opened fd none := by
  rw [State.closeDest, State.close, port_eq nonneg]
  cases is : s.opened fd with
  | none => exact ⟨sound, legal, by rw [← is, Function.update_eq_self]⟩
  | some p =>
      exact (release_spec sound nonneg is).bind fun (t, r) ⟨after, _, opened, keeps⟩ =>
        ⟨after, keeps legal, opened⟩

theorem dup2_spec (sound : Sound s) (legal : Legal s x) {oldfd newfd : CInt}
    (fits : Fits s (x, .dup2 oldfd newfd)) :
    Except.Ensures (NoHash x) (s.dup2 x oldfd newfd) fun (t, r) =>
      Sound t ∧ Answers s (.dup2 oldfd newfd) t r := by
  rw [State.dup2]
  simp only [Fits] at fits
  split_ifs at fits ⊢ with same
  · subst same
    obtain ⟨p, is⟩ := Option.ne_none_iff_exists'.mp fits
    simp only [Answers, is]
    exact ⟨sound, rfl, by rw [← is, Function.update_eq_self]⟩
  · obtain ⟨known, room⟩ := fits
    rw [port_eq known]
    simp only [Answers]
    cases is : s.opened oldfd with
    | none => exact ⟨sound, rfl, rfl⟩
    | some p =>
        obtain ⟨nonneg, node⟩ := room (by simp [is])
        refine (closeDest_spec sound legal nonneg).bind fun t closed => ?_
        obtain ⟨after, legal', opened⟩ := closed
        have still : t.opened oldfd = some p := by rw [opened, Function.update_of_ne same, is]
        have free : t.opened newfd = none := by rw [opened, Function.update_self]
        obtain ⟨n, -, there⟩ := refs_of_opened after still
        refine (setfd_spec after.tables legal' nonneg node free).bind fun u mapped => ?_
        refine (addRef_spec after.counted free there mapped).bind fun v counts => ?_
        obtain ⟨last, changed⟩ := counts
        refine ⟨last, rfl, ?_⟩
        rw [changed, opened, Function.update_idem]

/-- What a call that meets the condition does. -/
theorem exec_spec (sound : Sound s) (legal : Legal s x) {call : Call} (fits : Fits s (x, call)) :
    Except.Ensures (NoHash x) (s.exec x call) fun (t, r) => Sound t ∧ Answers s call t r := by
  cases call with
  | open_ newfile => exact open_spec sound legal fits
  | dup fd => exact dup_spec sound legal fits
  | dup2 oldfd newfd => exact dup2_spec sound legal fits
  | close fd => exact close_spec sound fits

/-! ## Runs -/

theorem start_sound : Sound start := by
  have opened : start.opened = fun _ => none := by
    funext fd
    rw [State.opened, State.port]
    split_ifs <;> rfl
  refine ⟨⟨by decide, (fun _ none_ => nomatch none_)⟩, ?_⟩
  rw [opened]
  exact ⟨by simp, (fun _ _ none_ => nomatch none_), (fun _ _ none_ => nomatch none_),
    fun _ there => absurd rfl there, fun o => by simp [start, State.store]⟩

/-- Runs of calls that meet the condition. -/
abbrev FitsReaches := Transition.Reaches Step Fits

/-- One port, and one descriptor. -/
def single : State :=
  ⟨Function.update (fun _ => none) 0 (some 0), none, NFD,
    Function.update (fun _ => none) 0 (some ⟨7, 1, 0⟩), 1, []⟩

end Vsta.Fdl
