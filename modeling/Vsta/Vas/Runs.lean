import Vsta.Vas.Integrity
import Vsta.Library.Runs

/-!
# Every run of the address spaces

`Fits` is what each step has to meet for the address spaces to stay intact. Where a range is
given by the caller, `overlapping_pview` misses one that lies inside a view, its sums wrap, nobody
looks whether it reaches into the window from below, and some callers do not
ask at all. Where a view is detached, a full map loses its pages. Where an address space is
duplicated, the map is copied but not the views marked `PROT_NOFORK`. In every run whose steps
avoid these every address space is intact (`address_spaces_intact`).
-/

set_option autoImplicit false

namespace Vsta.AddressSpace

open ResourceMap
open Vm (PsetType NBPG)

/-! ## What a step has to meet -/

/-- The HAT takes an address that is given. -/
def Taken (vaddr : ULong) : Prop := vaddr ≠ 0 ∧ vaddr < 0x80000000 ∧ inWindow vaddr = false

/-- A range at such an address does not wrap and does not reach into the window. -/
def Clears (vaddr : ULong) (len : Uint) : Prop :=
  stop vaddr len < 2 ^ 32 ∧ (vaddr < VMAP_BASE → stop vaddr len ≤ VMAP_BASE.toNat)

/-- A view is attached where no view is, at an address that nobody has checked. -/
def FixedFits (vas : Vas) (pv : Pview) : Prop :=
  Taken pv.pVaddr → Clears pv.pVaddr pv.pLen ∧ ∀ v ∈ vas.vViews, Disjoint pv.bytes v.bytes

/-- `mmap` goes on to map anonymous memory. -/
def MmapArgs.anon (args : MmapArgs) : Bool :=
  has args.flags MAP_ANON && !(has args.flags (MAP_FILE ||| MAP_PHYS) || !has args.prot PROT_WRITE)

/-- `mmap` goes on to map physical memory. -/
def MmapArgs.phys (args : MmapArgs) (sys : Bool) : Bool :=
  !has args.flags MAP_ANON && (has args.flags MAP_PHYS &&
    !(has args.flags (MAP_FILE ||| MAP_FIXED) || !sys))

/-- `mmap` goes on to map a file. -/
def MmapArgs.ofFile (args : MmapArgs) : Bool :=
  !has args.flags MAP_ANON && (!has args.flags MAP_PHYS && (has args.flags MAP_FILE &&
    !(has args.prot PROT_WRITE && !has args.flags MAP_PRIVATE)))

/-- The view of a file mapping. -/
def MmapArgs.fileView (args : MmapArgs) (ps : Pset) : Pview :=
  AddressSpace.fileView ps args.addr args.fileLen (btop args.offset) args.fileProt

/-- What the test of `mmap` passes is no more than the range that is mapped, does not
wrap, keeps out of the window and does not lie inside a view. -/
def MmapFits (vas : Vas) (args : MmapArgs) (sys : Bool) (file : Option Pset) : Prop :=
  (args.addr ≠ 0 → overlappingPview vas args.addr args.plen = false) →
    (args.anon = true → Taken args.addr →
      Clears args.addr args.plen ∧ ∀ v ∈ vas.vViews, ¬Inside args.addr args.plen v) ∧
    (args.phys sys = true → FixedFits vas args.physView) ∧
    (args.ofFile = true → ∀ ps, file = some ps → Taken args.addr →
      Clears args.addr args.plen ∧ Clears args.addr (args.fileView ps).pLen ∧
        ∀ v ∈ vas.vViews, ¬Inside args.addr args.plen v ∧
          Disjoint (Set.Ico (stop args.addr args.plen) (stop args.addr (args.fileView ps).pLen))
            v.bytes)

/-- The map has room for what `munmap` frees. -/
def MunmapFits (vas : Vas) (vaddr : ULong) : Prop :=
  ∀ pv, findPview vas vaddr = some pv → pv.has PROT_MMAP = true → DetachFits vas vaddr

/-- Each view that `exec` discards has pages, and the map has room for them. -/
def DiscardFits : List Pview → Vas → Prop
  | [], _ => True
  | pv :: pvn, vas =>
      if pv.survives then DiscardFits pvn vas
      else pv.pLen ≠ 0 ∧ DetachFits vas pv.pVaddr ∧
        ∀ v vas', detachPview vas pv.pVaddr = some (v, vas') → DiscardFits pvn vas'

/-- The view that `add_views` makes of a mapping. -/
def Mapseg.view (m : Mapseg) (file : Option Pset) : Option Pview :=
  if has m.mFlags M_ZFOD then
    some { allocPview (allocPsetZfod m.mLen) with pVaddr := m.mVaddr, pProt := 0 }
  else
    file.map fun ps =>
      fileView ps m.mVaddr m.mLen m.mOff (if has m.mFlags M_RO then PROT_RO else 0)

/-- Each mapping of an executable file goes where no view is. -/
def AddViewsFits (files : ℕ → Option Pset) : ℕ → List Mapseg → Vas → Prop
  | _, [], _ => True
  | x, m :: rest, vas => m.mLen = 0 ∨
      ((∀ pv, m.view (files x) = some pv → FixedFits vas pv) ∧
        AddViewsFits files (x + 1) rest (addView vas m (files x)))

/-- The view of the stack. -/
def stackView : Pview :=
  { allocPview (allocPsetZfod (btorp UMAXSTACK)) with pVaddr := USTACKADDR, pProt := 0 }

/-- What `exec` discards and what it attaches. -/
def ExecFits (vas : Vas) (argMap : Option Mapfile) (alone portref : Bool)
    (files : ℕ → Option Pset) : Prop :=
  ∀ m, argMap = some m → alone = true → portref = true →
    DiscardFits vas.vViews vas ∧ ∀ vas', discardVas vas = some vas' →
      FixedFits vas' stackView ∧ AddViewsFits files 0 m.mMap (addStack vas')

/-- A view in the window that holds a page is duplicated: it is not marked `PROT_NOFORK`, and
there is no empty view at its address. -/
def ForkFits (vas : Vas) : Prop :=
  ∀ v ∈ vas.vViews, v.pLen ≠ 0 → inWindow v.pVaddr = true →
    v.has PROT_NOFORK = false ∧ ∀ u ∈ vas.vViews, u.pVaddr = v.pVaddr → u.pLen ≠ 0

/-- What a call has to meet. -/
def Call.Fits (vas : Vas) : Call → Prop
  | .mmap args sys file => MmapFits vas args sys file
  | .munmap vaddr => MunmapFits vas vaddr
  | .exec argMap alone portref files => ExecFits vas argMap alone portref files
  | .attach pv => FixedFits vas pv
  | .detach vaddr => DetachFits vas vaddr
  | .attachSeg _ => True
  | .detachSeg sPview => DetachFits vas sPview.pVaddr
  | .allocZfod _ _ => True

/-- What a step has to meet. -/
def Fits (s : System) : Label → Prop
  | .create _ _ => True
  | .call i c => ∀ vas, s i = some vas → c.Fits vas
  | .fork i _ => ∀ vas, s i = some vas → ForkFits vas
  | .exit _ => True

/-! ## Attaching -/

theorem attach_wellFormed {vas : Vas} (formed : WellFormed vas) {pv : Pview}
    (mark : pv.pVaddr ≠ 0 → pv.has PROT_FORK = false) (fits : FixedFits vas pv) :
    WellFormed (attached vas (attachPview vas pv)).2 := by
  simp only [attachPview, hatAttach]
  split_ifs with given high marked window failed
  · exact formed
  · exact absurd ((mark given).symm.trans marked) (by simp)
  · exact formed
  · rw [BitVec.not_le] at high
    simp only [Bool.not_eq_true] at window
    obtain ⟨⟨below, clear⟩, apart⟩ := fits ⟨given, high, window⟩
    have start : pv.pVaddr.toNat ∉ windowBytes := by
      rw [← inWindow_iff, window]
      simp
    refine attach_fixed formed below start ?_ apart
    rw [Set.disjoint_left]
    intro x here inside
    rw [mem_windowBytes] at start inside
    have ends := here.2
    have begins := here.1
    have lower : pv.pVaddr < VMAP_BASE := by
      rw [BitVec.lt_def]
      show pv.pVaddr.toNat < 0x40000000
      omega
    have := clear lower
    simp only [show VMAP_BASE.toNat = 0x40000000 from rfl] at this
    omega
  · exact formed
  · cases scan : allocFrom pv.pLen vas.hMap.slots with
    | none => exact absurd (by simp only [rmapAlloc, scan]) failed
    | some result =>
        have answer : rmapAlloc vas.hMap pv.pLen =
            (result.1, { vas.hMap with slots := result.2 }) := by
          simp only [rmapAlloc, scan]
        rw [answer]
        exact attach_chosen formed scan

/-- `PROT_FORK` is off. -/
theorem unmarked {pv : Pview} (prot : UChar) (same : pv.pProt = prot)
    (off : prot &&& PROT_FORK = 0) : pv.has PROT_FORK = false := by
  rw [Pview.has, same, off]
  rfl

/-- A range that passes the test of `overlapping_pview` and does not lie inside a view, with a tail
that overlaps none. -/
theorem fixedFits_of_checked {vas : Vas} (formed : WellFormed vas) {pv : Pview} {len : Uint}
    (missed : pv.pVaddr ≠ 0 → overlappingPview vas pv.pVaddr len = false)
    (fits : Taken pv.pVaddr → Clears pv.pVaddr len ∧ Clears pv.pVaddr pv.pLen ∧
      ∀ v ∈ vas.vViews, ¬Inside pv.pVaddr len v ∧
        Disjoint (Set.Ico (stop pv.pVaddr len) (stop pv.pVaddr pv.pLen)) v.bytes) :
    FixedFits vas pv := by
  intro taken
  obtain ⟨checked, clear, others⟩ := fits taken
  refine ⟨clear, fun v member => ?_⟩
  have missed := List.any_eq_false.mp (missed taken.1) v member
  have apart := disjoint_of_not_overlaps checked.1 (formed.placed v member).1
    (by simpa using missed) (others v member).1
  refine (apart.union_left (others v member).2).mono_left fun x here => ?_
  by_cases within : x < stop pv.pVaddr len
  · exact .inl ⟨here.1, within⟩
  · exact .inr ⟨not_lt.mp within, here.2⟩

theorem mmap_wellFormed {vas : Vas} (formed : WellFormed vas) {args : MmapArgs} {sys : Bool}
    {file : Option Pset} (fits : MmapFits vas args sys file) :
    WellFormed (mmap vas args sys file).2 := by
  simp only [mmap]
  split_ifs with overlapping anon refused phys refused ofFile refused
  · exact formed
  all_goals
    have missed : args.addr ≠ 0 → overlappingPview vas args.addr args.plen = false := fun given =>
      Bool.not_eq_true _ ▸ fun overlap => overlapping ⟨given, overlap⟩
    obtain ⟨anonFits, physFits, fileFits⟩ := fits missed
  · exact formed
  · have reached : args.anon = true := by simp only [MmapArgs.anon, anon, refused]; rfl
    refine attach_wellFormed formed (fun _ => unmarked (0 ||| PROT_MMAP) rfl (by decide))
      (@fixedFits_of_checked vas formed args.anonView args.plen missed fun taken => ?_)
    obtain ⟨clear, outside⟩ := anonFits reached taken
    refine ⟨clear, clear, fun v member => ⟨outside v member, ?_⟩⟩
    show Disjoint (Set.Ico (stop args.addr args.plen) (stop args.addr args.plen)) v.bytes
    rw [Set.Ico_self]
    exact Set.empty_disjoint _
  · exact formed
  · have reached : args.phys sys = true := by
      simp only [MmapArgs.phys, anon, phys, refused]; rfl
    exact attach_wellFormed formed (fun _ => unmarked PROT_MMAP rfl (by decide))
      (physFits reached)
  · exact formed
  · have reached : args.ofFile = true := by
      simp only [MmapArgs.ofFile, anon, phys, ofFile, refused]; rfl
    rw [addMap.eq_def]
    cases file with
    | none => exact formed
    | some ps =>
        have off : args.fileProt &&& PROT_FORK = 0 := by
          rw [MmapArgs.fileProt]
          split_ifs <;> decide
        exact attach_wellFormed formed (fun _ => unmarked args.fileProt rfl off)
          (fixedFits_of_checked formed missed (fileFits reached ps rfl))
  · exact formed

/-! ## Detaching -/

theorem remove_wellFormed {vas vas' : Vas} (formed : WellFormed vas) {vaddr : ULong}
    (fits : DetachFits vas vaddr) (done : removePview vas vaddr = some vas') :
    WellFormed vas' := by
  obtain ⟨⟨pv, left⟩, detached, rfl⟩ := Option.map_eq_some_iff.mp done
  exact detach_wellFormed formed fits detached

theorem munmap_wellFormed {vas vas' : Vas} (formed : WellFormed vas) {vaddr : ULong}
    (fits : MunmapFits vas vaddr) (done : munmap vas vaddr = some vas') : WellFormed vas' := by
  rw [munmap.eq_def] at done
  cases found : findPview vas vaddr with
  | none =>
      rw [found] at done
      exact Option.some.inj done ▸ formed
  | some pv =>
      rw [found] at done
      dsimp only at done
      split_ifs at done with mapped
      · exact remove_wellFormed formed (fits pv found mapped) done
      · exact Option.some.inj done ▸ formed

theorem discard_wellFormed {views : List Pview} {vas vas' : Vas} (formed : WellFormed vas)
    (fits : DiscardFits views vas) (done : discardFrom views vas = some vas') :
    WellFormed vas' := by
  induction views generalizing vas with
  | nil => exact Option.some.inj done ▸ formed
  | cons pv pvn ih =>
      rw [discardFrom.eq_def] at done
      rw [DiscardFits] at fits
      dsimp only at done
      split_ifs at done fits with survives
      · exact ih formed fits done
      · obtain ⟨_, room, rest⟩ := fits
        cases detached : detachPview vas pv.pVaddr with
        | none => simp [detached] at done
        | some left =>
            rw [detached] at done
            exact ih (detach_wellFormed formed room detached) (rest _ _ detached) done

/-! ## `exec` -/

theorem addView_eq (vas : Vas) (m : Mapseg) (file : Option Pset) :
    addView vas m file = match m.view file with
      | none => vas
      | some pv => (attached vas (attachPview vas pv)).2 := by
  rw [addView, Mapseg.view]
  by_cases zfod : has m.mFlags M_ZFOD = true
  · rw [if_pos zfod, if_pos zfod]
    rfl
  · rw [if_neg zfod, if_neg zfod]
    cases file <;> rfl

theorem addView_wellFormed {vas : Vas} (formed : WellFormed vas) {m : Mapseg}
    {file : Option Pset} (fits : ∀ pv, m.view file = some pv → FixedFits vas pv) :
    WellFormed (addView vas m file) := by
  rw [addView_eq]
  cases view : m.view file with
  | none => exact formed
  | some pv =>
      refine attach_wellFormed formed (fun _ => ?_) (fits pv view)
      rw [Mapseg.view] at view
      by_cases zfod : has m.mFlags M_ZFOD = true
      · rw [if_pos zfod] at view
        obtain rfl := Option.some.inj view
        exact unmarked 0 rfl (by decide)
      · rw [if_neg zfod] at view
        obtain ⟨ps, _, rfl⟩ := Option.map_eq_some_iff.mp view
        exact unmarked (if has m.mFlags M_RO then PROT_RO else 0) rfl (by split_ifs <;> decide)

theorem addViews_wellFormed {files : ℕ → Option Pset} {maps : List Mapseg} {x : ℕ} {vas : Vas}
    (formed : WellFormed vas) (fits : AddViewsFits files x maps vas) :
    WellFormed (addViews files x maps vas) := by
  induction maps generalizing x vas with
  | nil => exact formed
  | cons m rest ih =>
      rw [addViews]
      split_ifs with empty
      · exact formed
      · obtain ⟨here, behind⟩ := fits.resolve_left empty
        exact ih (addView_wellFormed formed here) behind

theorem exec_wellFormed {vas vas' : Vas} (formed : WellFormed vas) {argMap : Option Mapfile}
    {alone portref : Bool} {files : ℕ → Option Pset}
    (fits : ExecFits vas argMap alone portref files)
    (done : exec vas argMap alone portref files = some vas') : WellFormed vas' := by
  rw [exec.eq_def] at done
  cases argMap with
  | none => exact Option.some.inj done ▸ formed
  | some m =>
      dsimp only at done
      split_ifs at done with refused
      · exact Option.some.inj done ▸ formed
      · simp only [Bool.or_eq_true, Bool.not_eq_true', not_or, Bool.not_eq_false] at refused
        obtain ⟨discards, attaches⟩ := fits m rfl refused.1 refused.2
        obtain ⟨left, discarded, rfl⟩ := Option.map_eq_some_iff.mp done
        obtain ⟨stack, views⟩ := attaches left discarded
        have bare := discard_wellFormed formed discards discarded
        have stacked := attach_wellFormed bare (fun _ => unmarked 0 rfl (by decide)) stack
        exact addViews_wellFormed stacked views

/-! ## `fork_vas` -/

/-- Where a view is attached at an address that is given, it is attached as it is. -/
theorem attachPview_given {vas vas' : Vas} {pv placed : Pview} (given : pv.pVaddr ≠ 0)
    (done : attachPview vas pv = some (placed, vas')) : placed = pv := by
  simp only [attachPview, hatAttach, if_pos given] at done
  split_ifs at done <;> simp_all

/-- A view is duplicated at its address with its length, or marked as not for a fork. -/
theorem forkView_spec {vas vas' : Vas} {pv : Pview} (given : pv.pVaddr ≠ 0)
    (done : forkView vas pv = some vas') :
    (pv.has PROT_NOFORK = true ∧ vas' = vas) ∨ (pv.has PROT_NOFORK = false ∧
      ∃ c : Pview, c.pVaddr = pv.pVaddr ∧ c.pLen = pv.pLen ∧ vas'.vViews = c :: vas.vViews) := by
  rw [forkView] at done
  by_cases marked : pv.has PROT_NOFORK = true
  · rw [if_pos marked] at done
    exact .inl ⟨marked, (Option.some.inj done).symm⟩
  · rw [if_neg marked] at done
    refine .inr ⟨by simpa using marked, ?_⟩
    generalize twin : (if pv.has PROT_RO || pv.pSet.pShared then dupPview pv
      else copyPview pv) = pv2 at done
    have same : pv2.pVaddr = pv.pVaddr ∧ pv2.pLen = pv.pLen := by
      rw [← twin, copyPview.eq_def, dupPview]
      split_ifs
      · exact ⟨rfl, rfl⟩
      · split <;> exact ⟨rfl, rfl⟩
    dsimp only at done
    split at done
    · exact absurd done (by simp)
    · rename_i placed left attach
      have here := attachPview_given (by rw [← same.1] at given; exact given) attach
      rw [← Option.some.inj done, here]
      exact ⟨{ pv2 with pProt := (pv2.pProt ||| PROT_FORK) &&& ~~~PROT_FORK }, same.1, same.2, rfl⟩

/-- The views that are attached so far are those of the old address space up to an address, without
some that hold no page of the window. -/
structure Copied (views : List Pview) (vaddr : ULong) (done : List Pview) : Prop where
  twin : ∀ c ∈ done, ∃ v ∈ views, c.pVaddr = v.pVaddr ∧ c.pLen = v.pLen ∧ v.pVaddr ≤ vaddr
  apart : done.Pairwise fun c d => Disjoint c.bytes d.bytes
  window : ∀ v ∈ views, v.pLen ≠ 0 → inWindow v.pVaddr = true → v.pVaddr ≤ vaddr →
    ∃ c ∈ done, c.pVaddr = v.pVaddr ∧ c.pLen = v.pLen

/-- A view of at least one page holds its first byte. -/
theorem first_mem_bytes {vaddr : ULong} {len : Uint} (nonempty : len ≠ 0) :
    vaddr.toNat ∈ bytes vaddr len := by
  have positive : len.toNat ≠ 0 := fun zero =>
    nonempty (BitVec.eq_of_toNat_eq (by simpa using zero))
  rw [mem_bytes]
  omega

theorem copied_step {ovas vas vas' : Vas} (formed : WellFormed ovas) (fits : ForkFits ovas)
    {vaddr : ULong} (before : Copied ovas.vViews vaddr vas.vViews) {pv : Pview}
    (found : Closest ovas.vViews vaddr (some pv)) (done : forkView vas pv = some vas') :
    Copied ovas.vViews pv.pVaddr vas'.vViews := by
  obtain ⟨member, above, least⟩ := found
  have given : pv.pVaddr ≠ 0 := fun zero => by
    rw [zero] at above
    exact absurd (BitVec.lt_def.mp above) (by simp)
  have twin : ∀ c ∈ vas.vViews, ∃ v ∈ ovas.vViews,
      c.pVaddr = v.pVaddr ∧ c.pLen = v.pLen ∧ v.pVaddr ≤ pv.pVaddr := fun c held => by
    obtain ⟨v, inside, start, length, low⟩ := before.twin c held
    exact ⟨v, inside, start, length, BitVec.le_trans low (BitVec.le_of_lt above)⟩
  -- what lies in the window at the address of `pv` is `pv`
  have same : ∀ v ∈ ovas.vViews, v.pLen ≠ 0 → inWindow v.pVaddr = true → v.pVaddr ≤ pv.pVaddr →
      vaddr < v.pVaddr → v = pv ∧ pv.has PROT_NOFORK = false := by
    intro v inside nonempty window low high
    have start : pv.pVaddr = v.pVaddr := BitVec.le_antisymm (least v inside high) low
    obtain ⟨kept, alone⟩ := fits v inside nonempty window
    have equal : v = pv := formed.eq_of_mem inside member (first_mem_bytes nonempty)
      (start ▸ first_mem_bytes (alone pv member start))
    exact ⟨equal, equal ▸ kept⟩
  rcases forkView_spec given done with ⟨skipped, rfl⟩ | ⟨_, c, start, length, views⟩
  · refine ⟨twin, before.apart, fun v inside nonempty window low => ?_⟩
    by_cases early : v.pVaddr ≤ vaddr
    · exact before.window v inside nonempty window early
    · obtain ⟨_, kept⟩ := same v inside nonempty window low (BitVec.not_le.mp early)
      exact absurd (skipped.symm.trans kept) (by simp)
  · rw [views]
    refine ⟨fun d held => ?_, List.pairwise_cons.mpr ⟨fun d held => ?_, before.apart⟩,
      fun v inside nonempty window low => ?_⟩
    · rcases List.mem_cons.mp held with rfl | held
      · exact ⟨pv, member, start, length, BitVec.le_refl _⟩
      · exact twin d held
    · obtain ⟨v, inside, dStart, dLength, low⟩ := before.twin d held
      have different : pv ≠ v := by
        rintro rfl
        exact absurd low (BitVec.not_le.mpr above)
      have : Std.Symm fun v w : Pview => Disjoint v.bytes w.bytes := ⟨fun _ _ h => h.symm⟩
      have apart := formed.apart.forall member inside different
      rw [Pview.bytes, Pview.bytes, start, length, dStart, dLength]
      exact apart
    · by_cases early : v.pVaddr ≤ vaddr
      · obtain ⟨d, held, rest⟩ := before.window v inside nonempty window early
        exact ⟨d, List.mem_cons_of_mem _ held, rest⟩
      · obtain ⟨rfl, _⟩ := same v inside nonempty window low (BitVec.not_le.mp early)
        exact ⟨c, List.mem_cons_self, start, length⟩

theorem copied_forkViews {ovas : Vas} (formed : WellFormed ovas) (fits : ForkFits ovas)
    (vaddr : ULong) (vas : Vas) {vas' : Vas} (before : Copied ovas.vViews vaddr vas.vViews)
    (done : forkViews ovas.vViews vaddr vas = some vas') :
    ∃ last, (∀ v ∈ ovas.vViews, v.pVaddr ≤ last) ∧ Copied ovas.vViews last vas'.vViews := by
  have at_ : ∀ {vaddr : ULong} {answer : Option Pview},
      closest ovas.vViews vaddr = answer → Closest ovas.vViews vaddr answer :=
    fun found => found ▸ closest_spec _ _
  induction vaddr, vas using forkViews.induct ovas.vViews with
  | case1 vaddr vas found =>
      rw [forkViews.eq_def, found] at done
      obtain rfl := Option.some.inj done
      exact ⟨vaddr, at_ found, before⟩
  | case2 vaddr vas pv found failed =>
      rw [forkViews.eq_def, found] at done
      simp [failed] at done
  | case3 vaddr vas pv found left copied ih =>
      rw [forkViews.eq_def, found] at done
      simp only [copied] at done
      exact ih (copied_step formed fits before (at_ found) copied) done

/-- The map is that of the old address space, and so are the views in the window. -/
theorem fork_wellFormed {ovas vas : Vas} (formed : WellFormed ovas) (fits : ForkFits ovas)
    (done : forkVas ovas = some vas) : WellFormed vas := by
  obtain ⟨left, copied, rfl⟩ := Option.map_eq_some_iff.mp done
  have none_ : Copied ovas.vViews 0 [] :=
    ⟨by simp, .nil, fun v _ _ window low => by
      rw [inWindow_iff, mem_windowBytes] at window
      have := BitVec.le_def.mp low
      simp at this
      omega⟩
  obtain ⟨last, all, twins⟩ := copied_forkViews formed fits 0 _ none_ copied
  refine { formed with
    apart := twins.apart
    partition := fun x inside => ?_
    placed := fun c held => ?_ }
  · rw [formed.partition x inside]
    constructor
    · intro free_ c held
      obtain ⟨v, member, start, length, _⟩ := twins.twin c held
      rw [Pview.bytes, start, length]
      exact free_ v member
    · intro free_ v member here
      obtain ⟨_, ⟨_, outside⟩ | ⟨start, _⟩⟩ := formed.placed v member
      · exact Set.disjoint_left.mp outside here inside
      · have nonempty : v.pLen ≠ 0 := fun zero => by
          rw [mem_bytes, zero] at here
          simp at here
          omega
        obtain ⟨c, held, begins, length⟩ := twins.window v member nonempty
          (inWindow_iff.mpr start) (all v member)
        refine free_ c held ?_
        rw [Pview.bytes, begins, length]
        exact here
  · obtain ⟨v, member, start, length, _⟩ := twins.twin c held
    have place := formed.placed v member
    rw [Placed, Pview.bytes, start, length]
    exact place

/-! ## The system -/

theorem call_wellFormed {vas vas' : Vas} {i : ℕ} {c : Call} (formed : WellFormed vas)
    (legal : Legal (.call i c)) (fits : c.Fits vas) (done : c.run vas = some vas') :
    WellFormed vas' := by
  cases c with
  | mmap args sys file => exact Option.some.inj done ▸ mmap_wellFormed formed fits
  | munmap vaddr => exact munmap_wellFormed formed fits done
  | exec argMap alone portref files => exact exec_wellFormed formed fits done
  | attach pv => exact Option.some.inj done ▸ attach_wellFormed formed (fun _ => legal) fits
  | detach vaddr => exact remove_wellFormed formed fits done
  | attachSeg sPview =>
      exact Option.some.inj done ▸ attach_wellFormed formed (fun given => absurd rfl given)
        fun taken => absurd rfl taken.1
  | detachSeg sPview => exact remove_wellFormed formed fits done
  | allocZfod pages prot =>
      exact Option.some.inj done ▸ attach_wellFormed formed (fun given => absurd rfl given)
        fun taken => absurd rfl taken.1

/-- One step keeps every address space well formed. -/
theorem step_wellFormed {s t : System} {label : Label}
    (formed : ∀ i vas, s i = some vas → WellFormed vas) (fits : Fits s label)
    (step : Step s label t) : ∀ i vas, t i = some vas → WellFormed vas := by
  obtain ⟨legal, done⟩ := step
  have update : ∀ {j : ℕ} {new : Option Vas}, (∀ vas, new = some vas → WellFormed vas) →
      ∀ i vas, Function.update s j new i = some vas → WellFormed vas := by
    intro j new formed' i vas held
    by_cases same : i = j
    · subst same
      rw [Function.update_self] at held
      exact formed' vas held
    · rw [Function.update_of_ne same] at held
      exact formed i vas held
  cases label with
  | create j dma =>
      simp only [System.next] at done
      split at done
      · obtain rfl := Option.some.inj done
        exact update fun vas made => Option.some.inj made ▸ wellFormed_initvas dma
      · exact absurd done (by simp)
  | call j c =>
      obtain ⟨vas, held, run⟩ := Option.bind_eq_some_iff.mp done
      obtain ⟨vas', ran, rfl⟩ := Option.map_eq_some_iff.mp run
      exact update fun _ same =>
        Option.some.inj same ▸ call_wellFormed (formed j vas held) legal (fits vas held) ran
  | fork j k =>
      simp only [System.next] at done
      split at done
      · rename_i ovas held _
        obtain ⟨vas', forked, rfl⟩ := Option.map_eq_some_iff.mp done
        exact update fun _ same =>
          Option.some.inj same ▸ fork_wellFormed (formed j ovas held) (fits ovas held) forked
      · exact absurd done (by simp)
  | exit j =>
      obtain ⟨vas, held, run⟩ := Option.bind_eq_some_iff.mp done
      obtain ⟨_, _, rfl⟩ := Option.map_eq_some_iff.mp run
      exact update fun _ gone => absurd gone (by simp)

/-- **Every address space stays intact.** In every run whose steps all meet `Fits`, in every
address space the views are pairwise disjoint, and a page of the window is free in the map
exactly when no view holds a byte of it. -/
theorem address_spaces_intact {s : System}
    (run : Transition.Reaches Step Fits System.start s) :
    ∀ i vas, s i = some vas → Intact vas := by
  have formed : ∀ i vas, s i = some vas → WellFormed vas :=
    run.invariant (fun i vas held => absurd held (by simp [System.start]))
      fun _ _ _ formed fits step => step_wellFormed formed fits step
  exact fun i vas held => (formed i vas held).toIntact

/-- Zeroed memory at an address. -/
def anonAt (addr len : ULong) : MmapArgs := ⟨addr, len, PROT_WRITE, MAP_ANON, 0⟩

/-- A new address space. -/
def fresh : Vas := ⟨[], false, hatInitvas⟩

/-- Three pages at `0x10000000`. -/
def three : Vas := (mmap fresh (anonAt 0x10000000 0x3000) false none).2

/-- One address space. -/
def only (vas : Vas) : System := Function.update System.start 0 (some vas)

theorem mmap_step (vas : Vas) (args : MmapArgs) :
    Step (only vas) (.call 0 (.mmap args false none)) (only (mmap vas args false none).2) := by
  refine ⟨trivial, ?_⟩
  simp only [System.next, only, Function.update_self, Option.bind_some, Call.run, Option.map_some,
    Function.update_idem]

theorem create_only : Step System.start (.create 0 false) (only fresh) := ⟨trivial, rfl⟩

/-- A mapping at a fixed address in an empty address space. -/
theorem address_spaces_intact_three :
    Transition.Reaches Step Fits System.start (only three) ∧ Intact three := by
  have created : Transition.Reaches Step Fits System.start (only fresh) :=
    (Transition.Reaches.refl _).tail
      (show Fits System.start (.create 0 false) from trivial) create_only
  have fits : Fits (only fresh) (.call 0 (.mmap (anonAt 0x10000000 0x3000) false none)) := by
    intro vas held
    obtain rfl : fresh = vas := by simpa [only] using held
    refine fun _ => ⟨fun _ _ => ⟨⟨by decide, fun _ => by decide⟩, by simp [fresh]⟩,
      fun phys => absurd phys (by decide), fun ofFile => absurd ofFile (by decide)⟩
  have run := created.tail fits (mmap_step _ _)
  exact ⟨run, address_spaces_intact run 0 three (Function.update_self ..)⟩

/-- **A range inside a view is granted.** The middle one of three pages is mapped a second time. -/
theorem mmap_inside_overlaps : ∃ s vas, Transition.Reaches Step Transition.Any System.start s ∧
    s 0 = some vas ∧ ¬Intact vas := by
  refine ⟨_, (mmap three (anonAt 0x10001000 0x1000) false none).2,
    (((Transition.Reaches.refl _).tail trivial create_only).tail trivial
      (mmap_step fresh _)).tail trivial (mmap_step three _), Function.update_self ..,
    fun intact => ?_⟩
  · have views : (mmap three (anonAt 0x10001000 0x1000) false none).2.vViews =
        [⟨⟨1, .PT_ZERO, false⟩, 0x10001000, 1, PROT_MMAP⟩,
          ⟨⟨3, .PT_ZERO, false⟩, 0x10000000, 3, PROT_MMAP⟩] := by decide
    have apart := intact.apart
    rw [views, List.pairwise_cons] at apart
    have shared := apart.1 _ List.mem_cons_self
    rw [Set.disjoint_left] at shared
    have middle : 0x10001000 ∈ bytes 0x10000000 3 := mem_bytes.mpr (by decide)
    exact shared (mem_bytes.mpr (by decide)) middle

end Vsta.AddressSpace
