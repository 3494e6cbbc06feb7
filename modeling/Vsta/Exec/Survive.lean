import Vsta.Exec.Descriptors

/-!
# What survives `exec`

The four parts are read back to the last byte, unless the current directory is too long for the byte
that counts it. But the offsets of files, the lengths of mount names, and blocked and pending
signals come back wrong: `exec_survives_iff` says when a process comes out as it went in.
-/

set_option autoImplicit false

namespace Vsta.Exec

open Packing Fdl

/-- What holds of a process: its tables are as the library keeps them, strings end where they
should, and all of it is in an address space. -/
structure Formed (p : Process) : Prop where
  fdl : Sound p.fdl
  few : p.mnttab.length < 2 ^ 32
  names : ∀ mt ∈ p.mnttab, 0 ∉ mt.mName ∧ mt.mEntries.length < 2 ^ 32
  cwd : ∃ name, 0 ∉ name ∧ p.cwd = name ++ [0]

/-- The new program has what the old one had: the same descriptors, with the same sharing and
offsets, the same mounts and directory, the same blocked and pending signals, and the handlers are
back to default. -/
structure Same (p q : Process) : Prop where
  fds : ∀ fd, ((q.fdl.opened fd).bind q.fdl.ports).map (fun port => (port.pPort, port.pPos)) =
    ((p.fdl.opened fd).bind p.fdl.ports).map fun port => (port.pPort, port.pPos)
  shared : ∀ fd fd', p.fdl.opened fd ≠ none → p.fdl.opened fd' ≠ none →
    (q.fdl.opened fd = q.fdl.opened fd' ↔ p.fdl.opened fd = p.fdl.opened fd')
  mnttab : q.mnttab = p.mnttab
  cwd : q.cwd = p.cwd
  blocked : ∀ sig < NSIG, sigismember q.signals.signalMask sig = sigismember p.signals.signalMask sig
  pending : ∀ sig < NSIG,
    sigismember q.signals.pendingSignals sig = sigismember p.signals.pendingSignals sig
  handlers : ∀ sig < NSIG, q.signals.sigCurrent sig =
    if p.signals.sigCurrent sig = .sigignore then .sigignore else sigDefault sig

/-- Each part has the size that was announced, each is read back from its own bytes, and the new
program has what the old one had. -/
def Survives (x : Found) (p : Process) : Prop :=
  (fdlSave p.fdl (fdlSize p.fdl)).length = fdlSize p.fdl ∧
  (mountSave p.mnttab).length = mountSize p.mnttab ∧
  (cwdSave p.cwd).length = cwdSize p.cwd ∧
  (signalSave p.signals).length = signalSize ∧
  ∃ q, Reads (fdlRestore x.null) (fdlSave p.fdl (fdlSize p.fdl)) q.fdl ∧
    Reads (mountRestore x.garbage) (mountSave p.mnttab) q.mnttab ∧
    Reads cwdRestore (cwdSave p.cwd) q.cwd ∧
    Reads signalRestore (signalSave p.signals) q.signals ∧
    Reads (restoreAll x) (saveAll p) q ∧ Same p q

/-- The condition: every offset is 0 or of a null device, different ports have different numbers,
the memory of the new mount table happens to hold the lengths of the names, the directory is short
enough for its byte, and no signal is blocked or pending. -/
structure Keeps (x : Found) (p : Process) : Prop where
  offsets : ∀ fd o port, p.fdl.opened fd = some o → p.fdl.ports o = some port →
    port.pPos = 0 ∨ x.null port.pPort = true
  own : ∀ fd o port fd' o' port', p.fdl.opened fd = some o → p.fdl.ports o = some port →
    p.fdl.opened fd' = some o' → p.fdl.ports o' = some port' → port.pPort = port'.pPort → o = o'
  lengths : ∀ k mt, p.mnttab[k]? = some mt → x.garbage k = mt.mLen
  short : strlen p.cwd < 255
  signals : ∀ sig < NSIG, sigismember p.signals.signalMask sig = false ∧
    sigismember p.signals.pendingSignals sig = false

/-! ## Descriptors -/

section Fds

variable {null : CInt → Bool} {s t : State}

/-- The port of an open descriptor is there. -/
theorem port_of_opened (sound : Sound s) {fd : CInt} {p : ℕ} (is : s.opened fd = some p) :
    ∃ port, s.ports p = some port := by
  obtain ⟨n, there⟩ := Option.ne_none_iff_exists'.mp (sound.counted.live fd p is)
  obtain ⟨port, has, -⟩ := Option.map_eq_some_iff.mp there
  exact ⟨port, has⟩

/-- Restored descriptors are the same exactly when the offsets and the ports meet the condition. -/
theorem Restored.same_iff (sound : Sound s) (restored : Restored null s t) :
    ((∀ fd, ((t.opened fd).bind t.ports).map (fun port => (port.pPort, port.pPos)) =
      ((s.opened fd).bind s.ports).map fun port => (port.pPort, port.pPos)) ∧
    ∀ fd fd', s.opened fd ≠ none → s.opened fd' ≠ none →
      (t.opened fd = t.opened fd' ↔ s.opened fd = s.opened fd')) ↔
    (∀ fd o port, s.opened fd = some o → s.ports o = some port →
      port.pPos = 0 ∨ null port.pPort = true) ∧
    ∀ fd o port fd' o' port', s.opened fd = some o → s.ports o = some port →
      s.opened fd' = some o' → s.ports o' = some port' → port.pPort = port'.pPort → o = o' := by
  constructor
  · rintro ⟨fds, shared⟩
    refine ⟨fun fd o port is there => ?_, fun fd o port fd' o' port' is there is' there' number => ?_⟩
    · obtain ⟨q, port', is', there', -, fd', o', other, -, -, -, pos⟩ :=
        restored.mapped fd o port is there
      have same := fds fd
      simp only [is, is', Option.bind_some, there, there', Option.map_some, Option.some.injEq,
        Prod.mk.injEq] at same
      cases dev : null port.pPort with
      | true => exact .inr rfl
      | false =>
          rw [dev] at pos
          exact .inl (same.2.symm.trans pos)
    · have together := (restored.shared fd o port fd' o' port' is there is' there').mpr number
      have before := (shared fd fd' (by simp [is]) (by simp [is'])).mp together
      rw [is, is'] at before
      exact Option.some.inj before
  · rintro ⟨offsets, own⟩
    refine ⟨fun fd => ?_, fun fd fd' some_ some' => ?_⟩
    · cases is : s.opened fd with
      | none => rw [restored.closed fd is]; rfl
      | some o =>
          obtain ⟨port, there⟩ := port_of_opened sound is
          obtain ⟨q, port', is', there', number, fd', o', other, is'', there'', number', pos⟩ :=
            restored.mapped fd o port is there
          obtain rfl := own fd' o' other fd o port is'' there'' is there number'
          obtain rfl : other = port := Option.some.inj (there''.symm.trans there)
          simp only [is', Option.bind_some, there', there, Option.map_some, Option.some.injEq,
            Prod.mk.injEq]
          refine ⟨number, ?_⟩
          rcases offsets fd o' other is there with zero | dev
          · rw [pos, zero, ite_self]
          · rw [pos, if_pos dev]
    · obtain ⟨o, is⟩ := Option.ne_none_iff_exists'.mp some_
      obtain ⟨o', is'⟩ := Option.ne_none_iff_exists'.mp some'
      obtain ⟨port, there⟩ := port_of_opened sound is
      obtain ⟨port', there'⟩ := port_of_opened sound is'
      rw [restored.shared fd o port fd' o' port' is there is' there', is, is', Option.some.injEq]
      refine ⟨fun number => own fd o port fd' o' port' is there is' there' number, ?_⟩
      rintro rfl
      rw [Option.some.inj (there.symm.trans there')]

end Fds

/-! ## Mounts -/

/-- A slot is read back from its bytes. -/
theorem reads_mnttab {mt : MntTab} (name : 0 ∉ mt.mName) (few : mt.mEntries.length < 2 ^ 32) :
    Reads readMnttab mt.bytes (mt.mName, mt.mEntries) := by
  refine (reads_untilByte name).bind ((reads_word _).bind ?_)
  have count : (BitVec.ofNat 32 mt.mEntries.length).toNat = mt.mEntries.length := by
    rw [BitVec.toNat_ofNat, Nat.mod_eq_of_lt few]
  rw [count]
  exact (Reads.many mt.mEntries fun port _ => reads_word port).last (Reads.pure _)

/-- The mount table is read back, and the names get the lengths that are in the memory. -/
theorem mountRestore_spec {mnttab : List MntTab} (garbage : ℕ → CInt) (few : mnttab.length < 2 ^ 32)
    (names : ∀ mt ∈ mnttab, 0 ∉ mt.mName ∧ mt.mEntries.length < 2 ^ 32) :
    Reads (mountRestore garbage) (mountSave mnttab)
      (mnttab.mapIdx fun x mt => { mt with mLen := garbage x }) := by
  have count : (BitVec.ofNat 32 mnttab.length).toNat = mnttab.length := by
    rw [BitVec.toNat_ofNat, Nat.mod_eq_of_lt few]
  have slots : (mnttab.map fun mt => (mt.mName, mt.mEntries)).mapIdx
      (fun x slot => (⟨slot.1, garbage x, slot.2⟩ : MntTab)) =
      mnttab.mapIdx fun x mt => { mt with mLen := garbage x } := by
    refine List.ext_getElem? fun k => ?_
    simp only [List.getElem?_mapIdx, List.getElem?_map, Option.map_map]
    rfl
  refine (reads_word _).bind ?_
  rw [count, ← slots]
  exact (Reads.many_map mnttab fun mt member =>
    reads_mnttab (names mt member).1 (names mt member).2).last (Reads.pure _)

/-- The table is the same exactly when the memory holds the lengths. -/
theorem lengths_iff {mnttab : List MntTab} {garbage : ℕ → CInt} :
    (mnttab.mapIdx fun x mt => { mt with mLen := garbage x }) = mnttab ↔
      ∀ k mt, mnttab[k]? = some mt → garbage k = mt.mLen := by
  constructor
  · intro same k mt there
    have here := congrArg (·[k]?) same
    simp only [List.getElem?_mapIdx, there, Option.map_some, Option.some.injEq] at here
    exact congrArg MntTab.mLen here
  · intro lengths
    refine List.ext_getElem? fun k => ?_
    rw [List.getElem?_mapIdx]
    cases there : mnttab[k]? with
    | none => rfl
    | some mt => rw [Option.map_some, lengths k mt there]

theorem mountSave_length (mnttab : List MntTab) :
    (mountSave mnttab).length = mountSize mnttab := by
  have each : ∀ mt ∈ mnttab, mt.bytes.length =
      mt.mName.length + 1 + 4 + mt.mEntries.length * 4 := fun mt _ => by
    simp only [MntTab.bytes, List.length_append, List.length_singleton, length_word,
      List.length_flatMap, List.map_const', List.sum_replicate_nat, Nat.add_assoc]
  rw [mountSave, mountSize, List.length_append, length_word, List.length_flatMap,
    List.map_congr_left each]

/-! ## The current directory -/

/-- The string at `__cwd`. -/
theorem takeWhile_string {name : List UChar} (inside : 0 ∉ name) :
    (name ++ [0]).takeWhile (· ≠ 0) = name := by
  rw [List.takeWhile_append_of_pos]
  · simp
  · intro b member
    have : b ≠ 0 := fun zero => inside (zero ▸ member)
    simpa using this

/-- A short directory is read back. -/
theorem cwdRestore_short {name : List UChar} (inside : 0 ∉ name) (short : name.length < 255) :
    Reads cwdRestore (cwdSave (name ++ [0])) (name ++ [0]) := by
  have count : (BitVec.ofNat 8 (strlen (name ++ [0]) + 1)).toNat = (name ++ [0]).length := by
    rw [strlen, takeWhile_string inside, BitVec.toNat_ofNat, List.length_append,
      List.length_singleton]
    omega
  rw [cwdSave, takeWhile_string inside]
  refine (reads_next _).bind ?_
  rw [count]
  exact reads_take _

/-- A long one is not. -/
theorem cwdRestore_long {name : List UChar} (inside : 0 ∉ name) (long : 255 ≤ name.length) :
    ¬Reads cwdRestore (cwdSave (name ++ [0])) (name ++ [0]) := by
  intro reads
  have count : (BitVec.ofNat 8 (strlen (name ++ [0]) + 1)).toNat = (name.length + 1) % 256 := by
    rw [strlen, takeWhile_string inside, BitVec.toNat_ofNat]
  have here := reads []
  rw [cwdSave, takeWhile_string inside, List.append_nil] at here
  change take (BitVec.ofNat 8 (strlen (name ++ [0]) + 1)).toNat (name ++ [0]) = _ at here
  rw [count, take] at here
  split_ifs at here
  have bytes := congrArg (fun read => read.1.length) (Option.some.inj here)
  simp only [List.length_take, List.length_append, List.length_singleton] at bytes
  omega

/-! ## Signals -/

theorem sigismember_add {set : Uint} {k sig : ℕ} (small : sig < NSIG) :
    sigismember (sigaddset set k) sig = (sigismember set sig || decide (sig = k)) := by
  simp only [sigismember, sigaddset, BitVec.getLsbD_or, BitVec.getLsbD_shiftLeft, NSIG] at small ⊢
  congr 1
  rw [Bool.eq_iff_iff]
  simp
  omega

/-- One signal is decoded: a blocked one is blocked, and pending if it was not. -/
theorem decodeSig_encodeSig (s r : Signals) (k : ℕ) :
    decodeSig k (encodeSig s k) r =
      ⟨Function.update r.sigCurrent k
          (if s.sigCurrent k = .sigignore then .sigignore else sigDefault k),
        if sigismember s.signalMask k then sigaddset r.signalMask k else r.signalMask,
        if sigismember s.signalMask k && !sigismember s.pendingSignals k then
          sigaddset r.pendingSignals k else r.pendingSignals⟩ := by
  rw [encodeSig]
  by_cases ign : s.sigCurrent k = .sigignore
  · cases blocked : sigismember s.signalMask k <;>
      cases pending : sigismember s.pendingSignals k <;> simp [ign, decodeSig]
  · cases blocked : sigismember s.signalMask k <;>
      cases pending : sigismember s.pendingSignals k <;> simp [ign, decodeSig]

/-- The signals after the first `n` were decoded. -/
def decoded (s : Signals) (n : ℕ) : Signals :=
  (List.range n).foldl (fun r k => decodeSig k (encodeSig s k) r) siginit

theorem decoded_spec (s : Signals) (n : ℕ) :
    (∀ sig < NSIG, sigismember (decoded s n).signalMask sig =
      (decide (sig < n) && sigismember s.signalMask sig)) ∧
    (∀ sig < NSIG, sigismember (decoded s n).pendingSignals sig =
      (decide (sig < n) &&
        (sigismember s.signalMask sig && !sigismember s.pendingSignals sig))) ∧
    ∀ sig < n, (decoded s n).sigCurrent sig =
      if s.sigCurrent sig = .sigignore then .sigignore else sigDefault sig := by
  induction n with
  | zero =>
      refine ⟨fun sig _ => ?_, fun sig _ => ?_, fun sig none_ => absurd none_ (Nat.not_lt_zero _)⟩
      · simp [decoded, siginit, sigismember]
      · simp [decoded, siginit, sigismember]
  | succ n ih =>
      obtain ⟨mask, pend, handlers⟩ := ih
      have step : decoded s (n + 1) = decodeSig n (encodeSig s n) (decoded s n) := by
        rw [decoded, List.range_succ, List.foldl_append, List.foldl_cons, List.foldl_nil, decoded]
      rw [step, decodeSig_encodeSig]
      refine ⟨fun sig small => ?_, fun sig small => ?_, fun sig below => ?_⟩
      · have before := mask sig small
        by_cases here : sig = n
        · subst here
          cases sigismember s.signalMask sig <;> simp [sigismember_add small, before]
        · have same : (sig < n + 1 ↔ sig < n) := by omega
          cases sigismember s.signalMask n <;> simp [sigismember_add small, before, here, same]
      · have before := pend sig small
        by_cases here : sig = n
        · subst here
          cases sigismember s.signalMask sig <;> cases sigismember s.pendingSignals sig <;>
            simp [sigismember_add small, before]
        · have same : (sig < n + 1 ↔ sig < n) := by omega
          cases sigismember s.signalMask n <;> cases sigismember s.pendingSignals n <;>
            simp [sigismember_add small, before, here, same]
      · by_cases here : sig = n
        · subst here
          simp
        · simp only [Function.update_of_ne here]
          exact handlers sig (by omega)

theorem encodeSig_ne_zero (s : Signals) (sig : ℕ) : encodeSig s sig ≠ 0 := by
  rw [encodeSig]
  split_ifs <;> decide

/-- The signals are read back, decoded. -/
theorem signalRestore_spec (s : Signals) :
    Reads signalRestore (signalSave s) (decoded s NSIG) := by
  intro rest
  have first : signalSave s = encodeSig s 0 :: (signalSave s).tail := rfl
  have codes : (signalSave s).zipIdx.foldl (fun r code => decodeSig code.2 code.1 r) siginit =
      decoded s NSIG := by
    have pairs : (signalSave s).zipIdx = (List.range NSIG).map fun k => (encodeSig s k, k) := by
      refine List.ext_getElem? fun k => ?_
      simp only [signalSave, List.getElem?_zipIdx, List.getElem?_map, Option.map_map, Nat.zero_add]
      cases there : (List.range NSIG)[k]? with
      | none => rfl
      | some i =>
          obtain ⟨inside, same⟩ := List.getElem?_eq_some_iff.mp there
          rw [List.getElem_range] at same
          rw [same]
          rfl
    rw [pairs, List.foldl_map, decoded]
  have size : (signalSave s).length = NSIG := by simp [signalSave]
  have whole : Reads (do
      let codes ← take NSIG
      return codes.zipIdx.foldl (fun r code => decodeSig code.2 code.1 r) siginit)
      (signalSave s) (decoded s NSIG) := by
    rw [← codes, ← size]
    exact (reads_take (signalSave s)).last (Reads.pure _)
  have here := whole rest
  rw [first, List.cons_append] at here ⊢
  simp only [signalRestore, encodeSig_ne_zero, if_false]
  exact here

theorem signalSave_length (s : Signals) : (signalSave s).length = signalSize := by
  simp [signalSave, signalSize]

/-- What was pending is pending again exactly when nothing was blocked or pending. -/
theorem pending_iff {blocked pending : Bool} :
    (blocked && !pending) = pending ↔ blocked = false ∧ pending = false := by
  cases blocked <;> cases pending <;> decide

/-! ## All of it -/

section All

variable {x : Found} {p : Process}

/-- Parts that are read back one behind the other. -/
theorem restoreAll_reads {q : Process}
    (fdl : Reads (fdlRestore x.null) (fdlSave p.fdl (fdlSize p.fdl)) q.fdl)
    (mnttab : Reads (mountRestore x.garbage) (mountSave p.mnttab) q.mnttab)
    (cwd : Reads cwdRestore (cwdSave p.cwd) q.cwd)
    (signals : Reads signalRestore (signalSave p.signals) q.signals) :
    Reads (restoreAll x) (saveAll p) q :=
  fdl.bind (mnttab.bind (cwd.bind (signals.last (Reads.pure q))))

theorem cwdSave_length (formed : Formed p) : (cwdSave p.cwd).length = cwdSize p.cwd := by
  obtain ⟨name, inside, is⟩ := formed.cwd
  rw [is, cwdSave, cwdSize, strlen, takeWhile_string inside]
  simp

theorem strlen_cwd {name : List UChar} (inside : 0 ∉ name) : strlen (name ++ [0]) = name.length := by
  rw [strlen, takeWhile_string inside]

/-- A value is read from bytes once. -/
theorem reads_unique {α : Type} {read : Reader UChar α} {bytes : List UChar} {a b : α}
    (first : Reads read bytes a) (second : Reads read bytes b) : a = b := by
  have here := (first []).symm.trans (second [])
  simpa using here

/-- A process that meets the condition comes out as it went in. -/
theorem Keeps.survives (formed : Formed p) (keeps : Keeps x p) : Survives x p := by
  obtain ⟨t, fdl, restored⟩ := fdlRestore_spec x.null formed.fdl
  obtain ⟨fds, shared⟩ := (restored.same_iff formed.fdl).mpr ⟨keeps.offsets, keeps.own⟩
  obtain ⟨name, inside, is⟩ := formed.cwd
  have mnttab := mountRestore_spec x.garbage formed.few formed.names
  rw [lengths_iff.mpr keeps.lengths] at mnttab
  have cwd : Reads cwdRestore (cwdSave p.cwd) p.cwd := by
    have short := keeps.short
    rw [is, strlen_cwd inside] at short
    rw [is]
    exact cwdRestore_short inside short
  have signals := signalRestore_spec p.signals
  obtain ⟨mask, pend, handlers⟩ := decoded_spec p.signals NSIG
  refine ⟨fdlSave_length formed.fdl, mountSave_length _, cwdSave_length formed,
    signalSave_length _, ⟨t, p.mnttab, p.cwd, decoded p.signals NSIG⟩, fdl, mnttab, cwd, signals,
    restoreAll_reads fdl mnttab cwd signals, fds, shared, rfl, rfl, fun sig small => ?_,
    fun sig small => ?_, handlers⟩
  · rw [mask sig small, decide_eq_true small, Bool.true_and]
  · rw [pend sig small, decide_eq_true small, Bool.true_and]
    exact pending_iff.mpr (keeps.signals sig small)

/-- A process that comes out as it went in meets the condition. -/
theorem Survives.keeps (formed : Formed p) (survives : Survives x p) : Keeps x p := by
  obtain ⟨-, -, -, -, q, fdl, mnttab, cwd, signals, -, same⟩ := survives
  obtain ⟨t, fdl', restored⟩ := fdlRestore_spec x.null formed.fdl
  obtain rfl := reads_unique fdl fdl'
  obtain ⟨offsets, own⟩ := (restored.same_iff formed.fdl).mp ⟨same.fds, same.shared⟩
  have slots := reads_unique mnttab (mountRestore_spec x.garbage formed.few formed.names)
  rw [same.mnttab] at slots
  obtain ⟨name, inside, is⟩ := formed.cwd
  rw [same.cwd, is] at cwd
  obtain ⟨mask, pend, -⟩ := decoded_spec p.signals NSIG
  refine ⟨offsets, own, lengths_iff.mp slots.symm, ?_, fun sig small => ?_⟩
  · rw [is, strlen_cwd inside]
    by_contra long
    exact cwdRestore_long inside (not_lt.mp long) cwd
  · have here := same.pending sig small
    rw [reads_unique signals (signalRestore_spec p.signals), pend sig small, decide_eq_true small,
      Bool.true_and] at here
    exact pending_iff.mp here

/-- **A process comes out of `exec` as it went in exactly when its offsets are 0 or of a null
device, its ports have different numbers, the lengths of its mount names happen to be in memory, its
directory has less than 255 characters, and no signal is blocked or pending.** -/
theorem exec_survives_iff (formed : Formed p) : Survives x p ↔ Keeps x p :=
  ⟨Survives.keeps formed, Keeps.survives formed⟩

end All

/-- A process with one port and one descriptor, a mount and a directory. -/
def small (pPos : ULong) (signalMask : Uint) : Process :=
  ⟨{ single with ports := Function.update (fun _ => none) 0 (some ⟨7, 1, pPos⟩) },
    [⟨[47, 97], 2, [5, 6]⟩], [47, 0], ⟨sigDefault, signalMask, 0⟩⟩

theorem small_formed (pPos : ULong) (signalMask : Uint) : Formed (small pPos signalMask) := by
  have sound : Sound single := by
    have first : Fits start (memory, .open_ 7) := ⟨rfl, fun _ => rfl⟩
    have legal : Legal start memory := (fun _ _ there => nomatch there)
    have done : start.exec memory (.open_ 7) = .ok (single, ⟨0, none⟩) := rfl
    exact ((exec_spec start_sound legal first).of_eq_ok done).1
  have store : (small pPos signalMask).fdl.store = single.store := by
    have refs : (small pPos signalMask).fdl.store.refs = single.store.refs := by
      funext o
      by_cases zero : o = 0
      · simp [zero, small, single, State.store]
      · simp [zero, small, single, State.store]
    have same : (small pPos signalMask).fdl.store =
        { single.store with refs := (small pPos signalMask).fdl.store.refs } := rfl
    rw [same, refs]
  refine ⟨⟨⟨sound.tables.next, sound.tables.hash⟩, ?_⟩, by simp [small], by simp [small], [47],
    by decide, rfl⟩
  rw [store]
  exact sound.counted

theorem exec_survives_small : Survives ⟨fun _ => false, fun _ => 2⟩ (small 0 0) := by
  have alone : ∀ fd o, single.opened fd = some o → o = 0 := by
    intro fd o is
    rcases lt_or_ge fd.toInt 0 with negative | nonneg
    · rw [opened_negative negative] at is
      exact nomatch is
    · rcases lt_or_ge fd.toInt NFD with low | high
      · rw [opened_low nonneg low] at is
        change Function.update (fun _ => none) 0 (some 0) fd.toNat = some o at is
        rw [Function.update_apply] at is
        split_ifs at is
        exact (Option.some.inj is).symm
      · rw [opened_high high] at is
        exact nomatch is
  refine (exec_survives_iff (small_formed 0 0)).mpr ⟨fun fd o port is there => ?_,
    fun fd o port fd' o' port' is _ is' _ _ => ?_, fun k mt there => ?_, by decide, by decide⟩
  · obtain rfl := alone fd o is
    obtain rfl := Option.some.inj there
    exact .inl rfl
  · rw [alone fd o is, alone fd' o' is']
  · match k, there with
    | 0, there =>
        obtain rfl := Option.some.inj there
        rfl

/-- **An offset of 5 is lost, and so is the state of the signals when one is blocked.** -/
theorem exec_loses : ¬Survives ⟨fun _ => false, fun _ => 2⟩ (small 5 0) ∧
    ¬Survives ⟨fun _ => false, fun _ => 2⟩ (small 0 4) := by
  constructor
  · intro survives
    have keeps := survives.keeps (small_formed 5 0)
    exact absurd (keeps.offsets 0 0 ⟨7, 1, 5⟩ rfl rfl) (by decide)
  · intro survives
    have keeps := survives.keeps (small_formed 0 4)
    exact absurd (keeps.signals 2 (by decide)).1 (by decide)

end Vsta.Exec
