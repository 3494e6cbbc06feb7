import Vsta.Exec.Save
import Vsta.Fdl.Counting

/-!
# What `__fdl_restore` makes of what `__fdl_save` wrote

Every descriptor is saved with the number and the offset of its port, and restored onto a port with
that number (`fdlRestore_spec`). Descriptors share a port afterwards when their ports had the same
number, and the offset is lost, except on a null device: `__do_open` runs behind the assignment and
clears it.
-/

set_option autoImplicit false

namespace Vsta.Exec

open Packing Fdl

/-! ## The descriptors that are saved -/

variable {s : State}

theorem mem_lowFds {fd : CInt} {p : ℕ} :
    (fd, p) ∈ lowFds s ↔ fd.toNat < NFD ∧ s.fdmap fd.toNat = some p := by
  rw [lowFds, List.mem_filterMap]
  constructor
  · rintro ⟨x, inside, is⟩
    obtain ⟨p', there, same⟩ := Option.map_eq_some_iff.mp is
    obtain ⟨rfl, rfl⟩ := Prod.mk.inj same
    have small : (BitVec.ofNat 32 x).toNat = x := by
      rw [BitVec.toNat_ofNat]
      have := List.mem_range.mp inside
      simp only [NFD] at this
      omega
    rw [small]
    exact ⟨List.mem_range.mp inside, there⟩
  · rintro ⟨inside, there⟩
    refine ⟨fd.toNat, List.mem_range.mpr inside, ?_⟩
    simp [there]

theorem low_iff {fd : CInt} : fd.toNat < NFD ↔ 0 ≤ fd.toInt ∧ fd.toInt < NFD := by
  have signed := BitVec.toInt_eq_toNat_cond fd
  have := fd.isLt
  simp only [NFD]
  split_ifs at signed <;> omega

/-- The descriptors that are saved are those that are open. -/
theorem mem_allFds (tables : Tables s) {fd : CInt} {p : ℕ} :
    (fd, p) ∈ allFds s ↔ s.opened fd = some p := by
  rw [allFds, List.mem_append, mem_lowFds, (Hash.foreach_perm _ _).mem_iff]
  constructor
  · rintro (⟨low, there⟩ | node)
    · obtain ⟨nonneg, low⟩ := low_iff.mp low
      rwa [opened_low nonneg low]
    · cases has : s.fdhash with
      | none => simp [has] at node
      | some hash =>
          obtain ⟨distinct, -, high⟩ := tables.hash hash has
          simp only [has, Option.getD_some] at node
          rw [opened_high (high fd (List.mem_map_of_mem (f := Prod.fst) node)), has]
          exact distinct.lookup_of_mem node
  · intro is
    rcases lt_or_ge fd.toInt 0 with negative | nonneg
    · rw [opened_negative negative] at is
      exact nomatch is
    · rcases lt_or_ge fd.toInt NFD with low | high
      · rw [opened_low nonneg low] at is
        exact .inl ⟨low_iff.mpr ⟨nonneg, low⟩, is⟩
      · rw [opened_high high] at is
        obtain ⟨hash, has, found⟩ := Option.bind_eq_some_iff.mp is
        rw [has]
        exact .inr (Hash.mem_of_lookup found)

/-- Each descriptor is saved once. -/
theorem allFds_nodup (tables : Tables s) : ((allFds s).map Prod.fst).Nodup := by
  have low : (lowFds s).map Prod.fst =
      ((List.range NFD).filter fun x => (s.fdmap x).isSome).map fun x => BitVec.ofNat 32 x := by
    rw [lowFds]
    induction List.range NFD with
    | nil => rfl
    | cons x rest ih =>
        cases there : s.fdmap x with
        | none => simpa [there] using ih
        | some p => simpa [there] using ih
  rw [allFds, List.map_append, List.nodup_append]
  refine ⟨?_, ?_, ?_⟩
  · rw [low]
    refine List.Nodup.map_on (fun x inside y inside' same => ?_)
      (List.nodup_range.filter _)
    have less := List.mem_range.mp (List.mem_filter.mp inside).1
    have less' := List.mem_range.mp (List.mem_filter.mp inside').1
    have values := congrArg BitVec.toNat same
    simp only [BitVec.toNat_ofNat, NFD] at values less less'
    omega
  · refine ((Hash.foreach_perm (s.fdhash.getD []) fdmask).map Prod.fst).nodup_iff.mpr ?_
    cases has : s.fdhash with
    | none => exact List.nodup_nil
    | some hash => exact (tables.hash hash has).1
  · rintro fd inside _ inside' rfl
    obtain ⟨⟨_, p⟩, member, rfl⟩ := List.mem_map.mp inside
    have below := (low_iff.mp (mem_lowFds.mp member).1).2
    rw [((Hash.foreach_perm (s.fdhash.getD []) fdmask).map Prod.fst).mem_iff] at inside'
    cases has : s.fdhash with
    | none => simp [has] at inside'
    | some hash =>
        rw [has] at inside'
        exact absurd below (not_lt.mpr ((tables.hash hash has).2.2 _ inside'))

/-- The records that are saved. -/
def records (s : State) : List SaveFdl := (allFds s).filterMap fun node => addfdl s node.1 node.2

/-- A record is of an open descriptor and its port. -/
theorem mem_records (tables : Tables s) {e : SaveFdl} : e ∈ records s ↔
    ∃ p port, s.opened e.sFd = some p ∧ s.ports p = some port ∧ e.sPort = port.pPort ∧
      e.sPos = port.pPos := by
  rw [records, List.mem_filterMap]
  constructor
  · rintro ⟨⟨fd, p⟩, member, saved⟩
    obtain ⟨port, there, rfl⟩ := Option.map_eq_some_iff.mp saved
    exact ⟨p, port, (mem_allFds tables).mp member, there, rfl, rfl⟩
  · rintro ⟨p, port, is, there, same, same'⟩
    refine ⟨(e.sFd, p), (mem_allFds tables).mpr is, ?_⟩
    rw [addfdl, there, Option.map_some, ← same, ← same']

/-- No descriptor is missing from the records. -/
theorem records_map (sound : Sound s) : (records s).map SaveFdl.sFd = (allFds s).map Prod.fst := by
  have there : ∀ node ∈ allFds s, s.ports node.2 ≠ none := fun node member gone =>
    sound.counted.live node.1 node.2 ((mem_allFds sound.tables).mp member)
      (by simp [State.store, gone])
  rw [records]
  generalize allFds s = nodes at there ⊢
  induction nodes with
  | nil => rfl
  | cons node rest ih =>
      obtain ⟨port, is⟩ := Option.ne_none_iff_exists'.mp (there node List.mem_cons_self)
      have others := ih fun other member => there other (List.mem_cons_of_mem _ member)
      have first : addfdl s node.1 node.2 = some ⟨node.1, port.pPort, port.pPos⟩ := by
        rw [addfdl, is]
        rfl
      rw [List.filterMap_cons]
      simp only [first]
      rw [List.map_cons, List.map_cons, others]

theorem records_length (sound : Sound s) : (records s).length = (allFds s).length := by
  simpa using congrArg List.length (records_map sound)

/-- The records fit an address space. -/
theorem allFds_length (tables : Tables s) : (allFds s).length ≤ 32 + 2 ^ 28 := by
  rw [allFds, List.length_append, (Hash.foreach_perm _ _).length_eq]
  have low : (lowFds s).length ≤ 32 := by
    refine (List.length_filterMap_le _ _).trans ?_
    rw [List.length_range]
  have high : (s.fdhash.getD []).length ≤ 2 ^ 28 := by
    cases has : s.fdhash with
    | none => exact Nat.zero_le _
    | some hash => exact (tables.hash hash has).2.1
  omega

/-! ## The descriptors that are restored -/

/-- A record that was not mapped yet. -/
abbrev Live (e : SaveFdl) : Prop := e.sFd ≠ -1

/-- The record of a duplicate is marked. -/
def mark (sPort : CInt) (e : SaveFdl) : SaveFdl := if e.sPort = sPort then { e with sFd := -1 } else e

/-- With memory, `setfd` maps a descriptor. -/
theorem setfd_memory {fd : CInt} (nonneg : 0 ≤ fd.toInt) (p : ℕ) :
    ∃ t, s.setfd memory fd p = .ok t ∧ t.opened = Function.update s.opened fd (some p) ∧
      t.ports = s.ports ∧ t.made = s.made := by
  rw [State.setfd, if_neg (not_lt.mpr nonneg)]
  by_cases high : NFD ≤ fd.toInt
  · rw [if_pos high, if_neg (by simp [memory])]
    refine ⟨_, rfl, opened_of_fdhash high rfl fun other => ?_, rfl, rfl⟩
    simp only [memory, if_true, Option.bind_some, Hash.lookup_insert]
    cases s.fdhash <;> rfl
  · rw [if_neg high]
    exact ⟨_, rfl, opened_of_fdmap nonneg (not_le.mp high) rfl rfl, rfl, rfl⟩

/-- The inner loop maps the records of the port, and marks them. -/
theorem attachDups_spec {p : ℕ} {sPort : CInt} {records : List SaveFdl} {port : Port}
    (valid : ∀ e ∈ records, e.sPort = sPort → 0 ≤ e.sFd.toInt) (there : s.ports p = some port) :
    ∃ t, attachDups p sPort records s = .ok (records.map (mark sPort), t) ∧
      (∀ fd, t.opened fd =
        if ∃ e ∈ records, e.sPort = sPort ∧ e.sFd = fd then some p else s.opened fd) ∧
      t.made = s.made ∧ (∀ q, q ≠ p → t.ports q = s.ports q) ∧
      ∃ refs, t.ports p = some { port with pRefs := refs } := by
  induction records generalizing s port with
  | nil => exact ⟨s, rfl, by simp, rfl, fun _ _ => rfl, port.pRefs, there⟩
  | cons e rest ih =>
      have valid' : ∀ f ∈ rest, f.sPort = sPort → 0 ≤ f.sFd.toInt := fun f member =>
        valid f (List.mem_cons_of_mem _ member)
      rw [attachDups]
      split_ifs with dup
      · obtain ⟨t, mapped, opened, ports, made⟩ :=
          setfd_memory (s := s) (valid e List.mem_cons_self dup) p
        have held : t.addRef p = .ok (t.setPort p (some { port with pRefs := port.pRefs + 1 })) := by
          rw [State.addRef, ports, there]
        have now : (t.setPort p (some { port with pRefs := port.pRefs + 1 })).ports p =
            some { port with pRefs := port.pRefs + 1 } := by simp [State.setPort]
        obtain ⟨u, looped, opened', made', others, refs, last⟩ :=
          ih valid' now
        refine ⟨u, ?_, fun fd => ?_, made'.trans made, fun q other => ?_, refs, last⟩
        · simp only [mapped, held, looped, bind, Except.bind, pure, Except.pure, List.map_cons]
          rw [mark, if_pos dup]
        · rw [opened', setPort_opened, opened, Function.update_apply]
          by_cases here : fd = e.sFd
          · subst here
            simp [dup]
          · simp [dup, here, Ne.symm here]
        · rw [others q other]
          simp [State.setPort, other, ports]
      · obtain ⟨u, looped, opened', made', others, last⟩ := ih valid' there
        refine ⟨u, ?_, fun fd => ?_, made', others, last⟩
        · simp only [looped, bind, Except.bind, pure, Except.pure, List.map_cons]
          rw [mark, if_neg dup]
        · rw [opened']
          simp [dup]

/-- Records that the outer loop can go over: each live descriptor once, and a marked record's port
has none left. -/
structure Ready (records : List SaveFdl) : Prop where
  once : records.Pairwise fun e f => Live e → Live f → e.sFd ≠ f.sFd
  valid : ∀ e ∈ records, Live e → 0 ≤ e.sFd.toInt
  apart : ∀ e ∈ records, ¬Live e → ∀ f ∈ records, Live f → e.sPort ≠ f.sPort

theorem live_mark {sPort : CInt} {e : SaveFdl} :
    Live (mark sPort e) ↔ Live e ∧ e.sPort ≠ sPort := by
  rw [mark]
  split_ifs with same
  · simp [same]
  · simp [same]

theorem mark_of_ne {sPort : CInt} {e : SaveFdl} (other : e.sPort ≠ sPort) : mark sPort e = e :=
  if_neg other

theorem mark_sPort {sPort : CInt} {e : SaveFdl} : (mark sPort e).sPort = e.sPort := by
  rw [mark]
  split_ifs <;> rfl

theorem Ready.tail {e : SaveFdl} {rest : List SaveFdl} (ready : Ready (e :: rest)) : Ready rest :=
  ⟨ready.once.of_cons, fun f member => ready.valid f (List.mem_cons_of_mem _ member),
    fun f member marked g member' => ready.apart f (List.mem_cons_of_mem _ member) marked g
      (List.mem_cons_of_mem _ member')⟩

theorem Ready.marked {rest : List SaveFdl} (ready : Ready rest) (sPort : CInt) :
    Ready (rest.map (mark sPort)) := by
  refine ⟨List.pairwise_map.mpr (ready.once.imp fun {e f} differ live live' => ?_), ?_, ?_⟩
  · obtain ⟨before, other⟩ := live_mark.mp live
    obtain ⟨before', other'⟩ := live_mark.mp live'
    rw [mark_of_ne other, mark_of_ne other']
    exact differ before before'
  · intro e' member live
    obtain ⟨e, inside, rfl⟩ := List.mem_map.mp member
    obtain ⟨before, other⟩ := live_mark.mp live
    rw [mark_of_ne other]
    exact ready.valid e inside before
  · intro e' member marked f' member' live
    obtain ⟨e, inside, rfl⟩ := List.mem_map.mp member
    obtain ⟨f, inside', rfl⟩ := List.mem_map.mp member'
    obtain ⟨before, other⟩ := live_mark.mp live
    rw [mark_sPort, mark_sPort]
    by_cases same : e.sPort = sPort
    · exact fun eq => other (eq ▸ same)
    · exact ready.apart e inside (fun still => marked (live_mark.mpr ⟨still, same⟩)) f inside'
        before

/-- Where the records are mapped to, in a table that was `s`. -/
structure Attached (null : CInt → Bool) (s : State) (records : List SaveFdl) (t : State) : Prop where
  made : s.made ≤ t.made
  others : ∀ fd, (∀ e ∈ records, Live e → e.sFd ≠ fd) → t.opened fd = s.opened fd
  ports : ∀ q < s.made, t.ports q = s.ports q
  mapped : ∀ e ∈ records, Live e → ∃ q port, s.made ≤ q ∧ t.opened e.sFd = some q ∧
    t.ports q = some port ∧ port.pPort = e.sPort ∧
    ∃ f ∈ records, Live f ∧ f.sPort = e.sPort ∧
      port.pPos = if null e.sPort then f.sPos else 0
  shared : ∀ e ∈ records, Live e → ∀ f ∈ records, Live f →
    (t.opened e.sFd = t.opened f.sFd ↔ e.sPort = f.sPort)

/-- Two live records have different descriptors. -/
theorem Ready.differ {records : List SaveFdl} (ready : Ready records) {e f : SaveFdl}
    (inside : e ∈ records) (inside' : f ∈ records) (other : e ≠ f) (live : Live e) (live' : Live f) :
    e.sFd ≠ f.sFd := by
  have sym : Std.Symm fun e f : SaveFdl => Live e → Live f → e.sFd ≠ f.sFd :=
    ⟨fun _ _ differ live live' => (differ live' live).symm⟩
  exact ready.once.forall inside inside' other live live'

/-- One round of the outer loop, and what the others make of the records that it left. -/
theorem Attached.first {null : CInt → Bool} {e : SaveFdl} {rest : List SaveFdl} (live : Live e)
    (ready : Ready (e :: rest)) {s' t : State} (made : s'.made = s.made + 1)
    (opened : ∀ fd, s'.opened fd =
      if fd = e.sFd ∨ ∃ f ∈ rest, f.sPort = e.sPort ∧ f.sFd = fd then some s.made else s.opened fd)
    (ports : ∀ q < s.made, s'.ports q = s.ports q)
    (first : ∃ port, s'.ports s.made = some port ∧ port.pPort = e.sPort ∧
      port.pPos = if null e.sPort then e.sPos else 0)
    (attached : Attached null s' (rest.map (mark e.sPort)) t) : Attached null s (e :: rest) t := by
  obtain ⟨port, there, number, pos⟩ := first
  -- what is left are the records of the other ports
  have left : ∀ f ∈ rest, Live f → f.sPort ≠ e.sPort → f ∈ rest.map (mark e.sPort) :=
    fun f member _ other => List.mem_map.mpr ⟨f, member, mark_of_ne other⟩
  have from_ : ∀ f ∈ rest.map (mark e.sPort), Live f → f ∈ rest ∧ f.sPort ≠ e.sPort := by
    intro f member live
    obtain ⟨g, inside, rfl⟩ := List.mem_map.mp member
    obtain ⟨_, other⟩ := live_mark.mp live
    rw [mark_of_ne other]
    exact ⟨inside, other⟩
  -- the records of this port are not touched again
  have mine : ∀ f ∈ e :: rest, Live f → f.sPort = e.sPort → t.opened f.sFd = some s.made := by
    intro f member live' same
    rw [attached.others f.sFd fun g inside live'' => ?_, opened, if_pos]
    · rcases List.mem_cons.mp member with rfl | member
      · exact .inl rfl
      · exact .inr ⟨f, member, same, rfl⟩
    · obtain ⟨there, other⟩ := from_ g inside live''
      exact ready.differ (List.mem_cons_of_mem _ there) member
        (fun eq => other (eq ▸ same)) live'' live'
  have theirs : ∀ f ∈ e :: rest, Live f → f.sPort ≠ e.sPort → f ∈ rest.map (mark e.sPort) := by
    intro f member live' other
    rcases List.mem_cons.mp member with rfl | member
    · exact absurd rfl other
    · exact left f member live' other
  refine ⟨by have := attached.made; omega, fun fd none_ => ?_, fun q below => ?_,
    fun f member live' => ?_, fun f member live' g member' live'' => ?_⟩
  · rw [attached.others fd fun g inside live' => ?_, opened, if_neg]
    · rintro (rfl | ⟨f, member, same, rfl⟩)
      · exact none_ e List.mem_cons_self live rfl
      · by_cases marked : Live f
        · exact none_ f (List.mem_cons_of_mem _ member) marked rfl
        · exact ready.apart f (List.mem_cons_of_mem _ member) marked e List.mem_cons_self live same
    · exact none_ g (List.mem_cons_of_mem _ (from_ g inside live').1) live'
  · rw [attached.ports q (by omega), ports q below]
  · by_cases same : f.sPort = e.sPort
    · refine ⟨s.made, port, le_refl _, mine f member live' same, ?_, number.trans same.symm, e,
        List.mem_cons_self, live, same.symm, by rw [pos, same]⟩
      rw [attached.ports s.made (by omega), there]
    · obtain ⟨q, port', above, is, has, number', g, inside, live'', same', pos'⟩ :=
        attached.mapped f (theirs f member live' same) live'
      exact ⟨q, port', by omega, is, has, number', g,
        List.mem_cons_of_mem _ (from_ g inside live'').1, live'', same', pos'⟩
  · by_cases same : f.sPort = e.sPort
    · by_cases same' : g.sPort = e.sPort
      · simp [mine f member live' same, mine g member' live'' same', same, same']
      · obtain ⟨q, -, above, is, -⟩ := attached.mapped g (theirs g member' live'' same') live''
        rw [mine f member live' same, is]
        refine ⟨fun eq => ?_, fun eq => absurd (eq ▸ same) same'⟩
        have := Option.some.inj eq
        omega
    · by_cases same' : g.sPort = e.sPort
      · obtain ⟨q, -, above, is, -⟩ := attached.mapped f (theirs f member live' same) live'
        rw [mine g member' live'' same', is]
        refine ⟨fun eq => ?_, fun eq => absurd (eq.trans same') same⟩
        have := Option.some.inj eq
        omega
      · exact attached.shared f (theirs f member live' same) live' g
          (theirs g member' live'' same') live''

/-- The outer loop maps every record, and those with the same port to the same. -/
theorem attach_spec (null : CInt → Bool) {fuel : ℕ} {records : List SaveFdl}
    (enough : records.length ≤ fuel) (ready : Ready records) :
    ∃ t, attach null fuel records s = .ok t ∧ Attached null s records t := by
  induction fuel generalizing s records with
  | zero =>
      obtain rfl := List.length_eq_zero_iff.mp (Nat.le_zero.mp enough)
      exact ⟨s, rfl, le_refl _, fun _ _ => rfl, fun _ _ => rfl, (fun e member => nomatch member),
        (fun e member => nomatch member)⟩
  | succ fuel ih =>
      cases records with
      | nil =>
          exact ⟨s, rfl, le_refl _, fun _ _ => rfl, fun _ _ => rfl,
            (fun e member => nomatch member), (fun e member => nomatch member)⟩
      | cons e rest =>
          have shorter : rest.length ≤ fuel := by simpa using enough
          rw [attach]
          by_cases done : e.sFd = -1
          · rw [if_pos done]
            obtain ⟨t, looped, attached⟩ := ih (s := s) shorter ready.tail
            have later : ∀ f ∈ e :: rest, Live f → f ∈ rest := fun f member live => by
              rcases List.mem_cons.mp member with rfl | member
              · exact absurd done live
              · exact member
            refine ⟨t, looped, attached.made, fun fd none_ => ?_, attached.ports,
              fun f member live => ?_, fun f member live g member' live' => ?_⟩
            · exact attached.others fd fun f member => none_ f (List.mem_cons_of_mem _ member)
            · obtain ⟨q, port, above, is, has, number, g, inside, others⟩ :=
                attached.mapped f (later f member live) live
              exact ⟨q, port, above, is, has, number, g, List.mem_cons_of_mem _ inside, others⟩
            · exact attached.shared f (later f member live) live g (later g member' live') live'
          · have live : Live e := done
            rw [if_neg done]
            obtain ⟨u, mapped, opened, ports, made⟩ := setfd_memory
              (s := { s.setPort s.made (some ⟨e.sPort, 1, e.sPos⟩) with made := s.made + 1 })
              (ready.valid e List.mem_cons_self live) s.made
            have there : u.ports s.made = some ⟨e.sPort, 1, e.sPos⟩ := by
              simp [ports, State.setPort]
            have valid : ∀ f ∈ rest, f.sPort = e.sPort → 0 ≤ f.sFd.toInt := fun f member same => by
              by_cases marked : Live f
              · exact ready.tail.valid f member marked
              · exact absurd same (ready.apart f (List.mem_cons_of_mem _ member) marked e
                  List.mem_cons_self live)
            obtain ⟨v, dups, opened', made', others, refs, is⟩ := attachDups_spec valid there
            obtain ⟨t, looped, attached⟩ := ih (s := reopen null s.made v)
              (by simpa using shorter) (ready.tail.marked e.sPort)
            have next : (reopen null s.made v).made = s.made + 1 := made'.trans made
            have last : (reopen null s.made v).ports s.made =
                some (doOpen (null e.sPort) ⟨e.sPort, refs, e.sPos⟩) := by
              simp [reopen, State.setPort, is]
            refine ⟨t, ?_, Attached.first live ready next (fun fd => ?_) (fun q below => ?_)
              ⟨_, last, doOpen_pPort, ?_⟩ attached⟩
            · simp only [mapped, dups, bind, Except.bind]
              exact looped
            · have same : (reopen null s.made v).opened = v.opened := rfl
              rw [same, opened', opened, Function.update_apply]
              by_cases here : fd = e.sFd
              · simp [here]
              · simp only [here, if_false, false_or]
                rfl
            · have other : q ≠ s.made := Nat.ne_of_lt below
              simp [reopen, State.setPort, other, others q other, ports]
            · rw [doOpen]
              split_ifs <;> rfl

/-! ## Saved and restored -/

theorem reads_fdl (e : SaveFdl) : Reads readFdl e.bytes e :=
  (reads_word _).bind ((reads_word _).bind ((reads_word _).last (Reads.pure _)))

theorem opened_valid (fd : CInt) {p : ℕ} (is : s.opened fd = some p) : 0 ≤ fd.toInt := by
  by_contra negative
  rw [opened_negative (not_le.mp negative)] at is
  exact nomatch is

/-- What was saved can be gone over. -/
theorem records_ready (sound : Sound s) : Ready (records s) := by
  have valid : ∀ e ∈ records s, 0 ≤ e.sFd.toInt := fun e member => by
    obtain ⟨p, -, is, -⟩ := (mem_records sound.tables).mp member
    exact opened_valid _ is
  have live : ∀ e ∈ records s, Live e := fun e member marked => by
    have := valid e member
    rw [marked] at this
    exact absurd this (by decide)
  have once : ((records s).map SaveFdl.sFd).Nodup := by
    rw [records_map sound]
    exact allFds_nodup sound.tables
  refine ⟨(List.pairwise_map.mp once).imp fun differ _ _ => differ,
    fun e member _ => valid e member, fun e member marked => absurd (live e member) marked⟩

/-- What the new program makes of the descriptors: each has a port with the number it had, the
offset is kept on a null device only, and descriptors share a port if theirs had the same number. -/
structure Restored (null : CInt → Bool) (s t : State) : Prop where
  closed : ∀ fd, s.opened fd = none → t.opened fd = none
  mapped : ∀ fd p port, s.opened fd = some p → s.ports p = some port →
    ∃ q port', t.opened fd = some q ∧ t.ports q = some port' ∧ port'.pPort = port.pPort ∧
      ∃ fd' p' other, s.opened fd' = some p' ∧ s.ports p' = some other ∧
        other.pPort = port.pPort ∧ port'.pPos = if null port.pPort then other.pPos else 0
  shared : ∀ fd p port fd' p' port', s.opened fd = some p → s.ports p = some port →
    s.opened fd' = some p' → s.ports p' = some port' →
    (t.opened fd = t.opened fd' ↔ port.pPort = port'.pPort)

/-- The number of records, out of the length that was saved. -/
theorem saved_count {n : ℕ} (bound : n ≤ 32 + 2 ^ 28) :
    ((BitVec.ofNat 32 (4 + n * 12)).toNat - 4 + 11) / 12 = n := by
  have small : 4 + n * 12 < 2 ^ 32 := by omega
  rw [BitVec.toNat_ofNat, Nat.mod_eq_of_lt small]
  omega

/-- The records are read, and gone over. -/
theorem fdlRestore_reads {null : CInt → Bool} {len : ULong} {saved : List SaveFdl} {t : State}
    (number : (len.toNat - 4 + 11) / 12 = saved.length)
    (looped : attach null saved.length saved start = .ok t) :
    Reads (fdlRestore null) (word len ++ saved.flatMap SaveFdl.bytes) t := by
  refine (reads_word len).bind ?_
  rw [number]
  exact (Reads.many saved fun e _ => reads_fdl e).last
    (reads_ofOption (Except.toOption_eq_some.mpr looped))

/-- **The descriptors are read back from what was saved, to the last byte.** -/
theorem fdlRestore_spec (null : CInt → Bool) (sound : Sound s) :
    ∃ t, Reads (fdlRestore null) (fdlSave s (fdlSize s)) t ∧ Restored null s t := by
  obtain ⟨t, looped, attached⟩ :=
    attach_spec null (s := start) (le_refl (records s).length) (records_ready sound)
  have live : ∀ e ∈ records s, Live e := fun e member marked => by
    obtain ⟨p, -, is, -⟩ := (mem_records sound.tables).mp member
    rw [marked, opened_negative (by decide)] at is
    exact nomatch is
  refine ⟨t, ?_, fun fd none_ => ?_, fun fd p port is there => ?_,
    fun fd p port fd' p' port' is there is' there' => ?_⟩
  · have bound := allFds_length sound.tables
    have number : ((BitVec.ofNat 32 (fdlSize s)).toNat - 4 + 11) / 12 = (records s).length := by
      rw [records_length sound, fdlSize]
      exact saved_count bound
    rw [fdlSave, ← records]
    exact fdlRestore_reads number looped
  · rw [attached.others fd fun e member _ same => ?_]
    · rcases lt_or_ge fd.toInt 0 with negative | nonneg
      · exact opened_negative negative
      · rcases lt_or_ge fd.toInt NFD with low | high
        · exact opened_low nonneg low
        · exact opened_high high
    · obtain ⟨p, -, is, -⟩ := (mem_records sound.tables).mp member
      rw [same, none_] at is
      exact nomatch is
  · have member : ⟨fd, port.pPort, port.pPos⟩ ∈ records s :=
      (mem_records sound.tables).mpr ⟨p, port, is, there, rfl, rfl⟩
    obtain ⟨q, port', -, is', has, number, f, inside, -, same, pos⟩ :=
      attached.mapped _ member (live _ member)
    obtain ⟨p', other, is'', there', number', pos'⟩ := (mem_records sound.tables).mp inside
    refine ⟨q, port', is', has, number, f.sFd, p', other, is'', there', ?_, ?_⟩
    · rw [← number', same]
    · rw [← pos']
      exact pos
  · have member : ⟨fd, port.pPort, port.pPos⟩ ∈ records s :=
      (mem_records sound.tables).mpr ⟨p, port, is, there, rfl, rfl⟩
    have member' : ⟨fd', port'.pPort, port'.pPos⟩ ∈ records s :=
      (mem_records sound.tables).mpr ⟨p', port', is', there', rfl, rfl⟩
    have together := attached.shared _ member (live _ member) _ member' (live _ member')
    simp only at together
    exact together

/-- `__fdl_save` writes as many bytes as `__fdl_size` says. -/
theorem fdlSave_length (sound : Sound s) : (fdlSave s (fdlSize s)).length = fdlSize s := by
  have each : ∀ e ∈ records s, e.bytes.length = 12 := fun _ _ => rfl
  rw [fdlSave, List.length_append, length_word, ← records, List.length_flatMap,
    List.map_congr_left each, List.map_const', List.sum_replicate_nat, records_length sound, fdlSize]

end Vsta.Exec
