import Vsta.Vm.Fork

/-!
# When the copy of a page set is faithful

What reading a slot yields depends on the set, on its master and on the pages and blocks they
name (`read_congr`). A copy leaves all of that as it was, unless it writes to swap.
-/

set_option autoImplicit false

namespace Vsta.Vm

open Memory

/-- A set without the number of its users. -/
def Pset.unused (ps : Pset) : Pset := { ps with pRefs := 0 }

/-- Two states agree on a set but for the number of its users. -/
structure Alike (vm after : Memory) (id : PsetId) : Prop where
  pset : (after.psets id).unused = (vm.psets id).unused
  mem : ∀ idx, (vm.slot id idx).ppV = true →
    after.mem (vm.slot id idx).ppPfn = vm.mem (vm.slot id idx).ppPfn
  swap : ∀ idx, (vm.slot id idx).ppSwapped = true →
    after.swap ((vm.psets id).pSwapblk + idx) = vm.swap ((vm.psets id).pSwapblk + idx)

namespace Alike

variable {vm after : Memory} {id : PsetId}

theorem slot (alike : Alike vm after id) (idx : Nat) : after.slot id idx = vm.slot id idx := by
  have same := congrFun (congrArg Pset.perpage alike.pset) idx
  exact same

theorem pType (alike : Alike vm after id) : (after.psets id).pType = (vm.psets id).pType := by
  have same := congrArg Pset.pType alike.pset
  exact same

theorem pOff (alike : Alike vm after id) : (after.psets id).pOff = (vm.psets id).pOff := by
  have same := congrArg Pset.pOff alike.pset
  exact same

theorem pFile (alike : Alike vm after id) : (after.psets id).pFile = (vm.psets id).pFile := by
  have same := congrArg Pset.pFile alike.pset
  exact same

theorem pCow (alike : Alike vm after id) : (after.psets id).pCow = (vm.psets id).pCow := by
  have same := congrArg Pset.pCow alike.pset
  exact same

theorem pSwapblk (alike : Alike vm after id) :
    (after.psets id).pSwapblk = (vm.psets id).pSwapblk := by
  have same := congrArg Pset.pSwapblk alike.pset
  exact same

theorem own (alike : Alike vm after id) (idx : Nat) : after.own id idx = vm.own id idx := by
  simp only [Memory.own, alike.slot, alike.pSwapblk]
  split_ifs with valid swapped
  · rw [alike.mem idx valid]
  · rw [alike.swap idx swapped]
  · rfl

theorem fill (alike : Alike vm after id) (files : Nat → Nat → Page) (idx : Nat) :
    after.fill files id idx = vm.fill files id idx := by
  simp only [Memory.fill, alike.pType, alike.pFile, alike.pOff]

/-- A slot reads the same when its set and the master of its set are alike. -/
theorem read (alike : Alike vm after id)
    (master : (vm.psets id).pType = .PT_COW → Alike vm after (vm.psets id).pCow)
    (files : Nat → Nat → Page) (idx : Nat) :
    after.read files id idx = vm.read files id idx := by
  simp only [Memory.read, alike.slot, alike.own, alike.pType, alike.pOff, alike.pCow,
    alike.fill]
  cases type : (vm.psets id).pType with
  | PT_COW => simp only [(master type).slot, (master type).own, (master type).fill]
  | _ => rfl

theorem trans {last : Memory} (first : Alike vm after id) (second : Alike after last id) :
    Alike vm last id := by
  refine ⟨second.pset.trans first.pset, fun idx valid => ?_, fun idx swapped => ?_⟩
  · have step := second.mem idx (by rwa [first.slot])
    rw [first.slot] at step
    exact step.trans (first.mem idx valid)
  · have step := second.swap idx (by rwa [first.slot])
    rw [first.pSwapblk] at step
    exact step.trans (first.swap idx swapped)

end Alike

/-- A set as the callers of `copy_pset` have it: every slot of the range is in core, out on
swap, or was never touched; a shared slot of a copy-on-write set shows the page its master has
in core; a file set has an open file and no swap; a set of physical pages has them all. -/
structure WellFormed (vm : Memory) (ops : PsetId) (low cnt : Nat) : Prop where
  range : low + cnt ≤ (vm.psets ops).pLen
  good : ∀ x < cnt, (vm.slot ops (x + low)).ppBad = false
  shared : ∀ x < cnt, (vm.slot ops (x + low)).ppV = true → (vm.slot ops (x + low)).ppCow = true →
    (vm.psets ops).pType = .PT_COW ∧
      (vm.slot (vm.psets ops).pCow ((vm.psets ops).pOff + (x + low))).ppV = true ∧
      (vm.slot (vm.psets ops).pCow ((vm.psets ops).pOff + (x + low))).ppBad = false ∧
      (vm.slot (vm.psets ops).pCow ((vm.psets ops).pOff + (x + low))).ppPfn =
        (vm.slot ops (x + low)).ppPfn
  master : (vm.psets ops).pType = .PT_COW → (vm.psets ops).pCow ≠ ops
  file : (vm.psets ops).pType = .PT_FILE → (vm.psets ops).pFile.isSome = true ∧
    ∀ x < cnt, (vm.slot ops (x + low)).ppSwapped = false
  memory : (vm.psets ops).pType = .PT_MEM → ∀ x < cnt, (vm.slot ops (x + low)).ppV = true

/-- The new set reads in every slot of the range what the old set does, and the old set, what
it reads and its blocks on swap are as they were. -/
structure Faithful (files : Nat → Nat → Page) (vm after : Memory) (ops ps : PsetId)
    (low cnt : Nat) : Prop where
  copy : ∀ x < cnt, ∀ page, vm.read files ops (x + low) = some page →
    after.read files ps (x + low) = some page
  pset : after.psets ops = vm.psets ops
  reads : ∀ idx, after.read files ops idx = vm.read files ops idx
  swap : ∀ idx < (vm.psets ops).pLen,
    after.swap ((vm.psets ops).pSwapblk + idx) = vm.swap ((vm.psets ops).pSwapblk + idx)

/-- Every slot of the range that is not in core can be filled again in the new set: none is out on
swap, and the file of a file set has been opened for it. -/
def Refillable (vm : Memory) (env : Env) (ops : PsetId) (low cnt : Nat) : Prop :=
  (∀ x < cnt, ¬vm.PagedOut ops low x) ∧
    ((vm.psets ops).pType = .PT_FILE → env.dupFails = true →
      ∀ x < cnt, (vm.slot ops (x + low)).ppV = true)

/-- The new set before its slots are filled. -/
def emptyCopy (vm : Memory) (env : Env) (ops : PsetId) : Pset :=
  let old := vm.psets ops
  let new := (vm.psopDup env ops
    ⟨old.pLen, old.pOff, old.pType, none, 0, env.garbage, 0, old.pBoot, fun _ => Perpage.zero⟩).2
  if old.pSwapblk ≠ 0 then { new with pSwapblk := env.swapblk } else new

/-- The state before the slots of the new set are filled. -/
def beforeSlots (vm : Memory) (env : Env) (ops ps : PsetId) : Memory :=
  (vm.psopDup env ops (vm.psets ps)).1.setPset ps (emptyCopy vm env ops)

theorem copyPset_eq (vm : Memory) (env : Env) (ops ps : PsetId) (low cnt : Nat) :
    vm.copyPset env ops ps low cnt =
      (beforeSlots vm env ops ps).dupSlots env ops ps low cnt := by
  simp only [copyPset, beforeSlots, emptyCopy, psopDup]
  cases (vm.psets ops).pType <;> rfl

@[simp] theorem beforeSlots_mem (vm : Memory) (env : Env) (ops ps : PsetId) :
    (beforeSlots vm env ops ps).mem = vm.mem := by
  simp only [beforeSlots, psopDup]
  cases (vm.psets ops).pType <;> rfl

@[simp] theorem beforeSlots_swap (vm : Memory) (env : Env) (ops ps : PsetId) :
    (beforeSlots vm env ops ps).swap = vm.swap := by
  simp only [beforeSlots, psopDup]
  cases (vm.psets ops).pType <;> rfl

@[simp] theorem beforeSlots_new (vm : Memory) (env : Env) (ops ps : PsetId) :
    (beforeSlots vm env ops ps).psets ps = emptyCopy vm env ops := by
  simp [beforeSlots]

/-- A set other than the new one keeps all but the number of its users. -/
theorem alike_beforeSlots (vm : Memory) (env : Env) (ops ps : PsetId) {id : PsetId}
    (other : id ≠ ps) : Alike vm (beforeSlots vm env ops ps) id := by
  refine ⟨?_, fun _ _ => by rw [beforeSlots_mem], fun _ _ => by rw [beforeSlots_swap]⟩
  simp only [beforeSlots, setPset_psets, Function.update_of_ne other, psopDup]
  cases type : (vm.psets ops).pType with
  | PT_COW =>
      by_cases master : id = (vm.psets ops).pCow
      · subst master
        simp [Pset.unused]
      · simp [Function.update_of_ne master]
  | _ => rfl

/-- The old set is not its own master, so nothing of it changes. -/
theorem beforeSlots_old (vm : Memory) (env : Env) {ops ps : PsetId} (other : ops ≠ ps)
    (master : (vm.psets ops).pType = .PT_COW → (vm.psets ops).pCow ≠ ops) :
    (beforeSlots vm env ops ps).psets ops = vm.psets ops := by
  simp only [beforeSlots, setPset_psets, Function.update_of_ne other, psopDup]
  cases type : (vm.psets ops).pType with
  | PT_COW => simp [Function.update_of_ne (master type).symm]
  | _ => rfl

@[simp] theorem emptyCopy_perpage (vm : Memory) (env : Env) (ops : PsetId) :
    (emptyCopy vm env ops).perpage = fun _ => Perpage.zero := by
  simp only [emptyCopy, psopDup]
  cases (vm.psets ops).pType <;> split_ifs <;> rfl

@[simp] theorem emptyCopy_pOff (vm : Memory) (env : Env) (ops : PsetId) :
    (emptyCopy vm env ops).pOff = (vm.psets ops).pOff := by
  simp only [emptyCopy, psopDup]
  cases (vm.psets ops).pType <;> split_ifs <;> rfl

theorem emptyCopy_pType (vm : Memory) (env : Env) (ops : PsetId)
    (virtual : (vm.psets ops).pType ≠ .PT_MEM) :
    (emptyCopy vm env ops).pType = (vm.psets ops).pType := by
  simp only [emptyCopy, psopDup]
  cases type : (vm.psets ops).pType with
  | PT_MEM => exact absurd type virtual
  | _ => split_ifs <;> rfl

theorem emptyCopy_pCow (vm : Memory) (env : Env) (ops : PsetId)
    (type : (vm.psets ops).pType = .PT_COW) :
    (emptyCopy vm env ops).pCow = (vm.psets ops).pCow := by
  simp only [emptyCopy, psopDup, type]
  split_ifs <;> rfl

theorem emptyCopy_pFile (vm : Memory) (env : Env) (ops : PsetId)
    (type : (vm.psets ops).pType = .PT_FILE) :
    (emptyCopy vm env ops).pFile = if env.dupFails then none else (vm.psets ops).pFile := by
  simp only [emptyCopy, psopDup, type]
  split_ifs <;> rfl

theorem slot_emptyCopy (vm : Memory) (env : Env) (ops ps : PsetId) (idx : Nat) :
    (beforeSlots vm env ops ps).slot ps idx = Perpage.zero := by
  simp [slot]

theorem Env.Fresh.beforeSlots {env : Env} {vm : Memory} {cnt : Nat} (fresh : env.Fresh vm cnt)
    (ops ps : PsetId) : env.Fresh (beforeSlots vm env ops ps) cnt := by
  refine ⟨fresh.distinct, fun x hx id idx valid => ?_⟩
  by_cases other : id = ps
  · rw [other, slot_emptyCopy] at valid
    exact absurd valid (by decide)
  · rw [(alike_beforeSlots vm env ops ps other).slot] at valid ⊢
    exact fresh.unused x hx id idx valid

/-- What a copy does, from the state the function is called in. -/
theorem duplicated_copyPset {vm : Memory} {env : Env} {ops ps : PsetId} (low : Nat) {cnt : Nat}
    (fresh : env.Fresh vm cnt) (other : ops ≠ ps) :
    Duplicated (beforeSlots vm env ops ps) (vm.copyPset env ops ps low cnt) env ops ps low cnt := by
  rw [copyPset_eq]
  exact duplicated_dupSlots low other (fresh.beforeSlots ops ps)

theorem pagedOut_beforeSlots {vm : Memory} {env : Env} {ops ps : PsetId} {low x : Nat}
    (other : ops ≠ ps) :
    (beforeSlots vm env ops ps).PagedOut ops low x ↔ vm.PagedOut ops low x := by
  simp only [PagedOut, (alike_beforeSlots vm env ops ps other).slot]

/-- A copy that writes nothing to swap leaves every other set as it was. -/
theorem alike_copyPset {vm : Memory} {env : Env} {ops ps : PsetId} (low : Nat) {cnt : Nat}
    (fresh : env.Fresh vm cnt) (other : ops ≠ ps) (inCore : ∀ x < cnt, ¬vm.PagedOut ops low x)
    {id : PsetId} (old : id ≠ ps) : Alike vm (vm.copyPset env ops ps low cnt) id := by
  have copied := duplicated_copyPset low fresh other
  refine (alike_beforeSlots vm env ops ps old).trans ⟨?_, fun idx valid => ?_, fun idx _ => ?_⟩
  · rw [copied.others id old]
  · exact copied.mem _ fun x hx =>
      (fresh.beforeSlots ops ps).unused x hx id idx valid
  · exact copied.kept _ fun x hx out =>
      absurd ((pagedOut_beforeSlots other).mp out) (inCore x hx)

/-- The slots of a copy. -/
theorem slot_copyPset {vm : Memory} {env : Env} {ops ps : PsetId} (low : Nat) {cnt : Nat}
    (fresh : env.Fresh vm cnt) (other : ops ≠ ps) {x : Nat} (hx : x < cnt) :
    (vm.copyPset env ops ps low cnt).slot ps (x + low) =
      (if (vm.slot ops (x + low)).ppV || (vm.slot ops (x + low)).ppSwapped then
        if (vm.slot ops (x + low)).ppV && (vm.slot ops (x + low)).ppCow then Perpage.zero
        else if (vm.slot ops (x + low)).ppV || !env.ioFails x then
          { Perpage.zero with ppV := true, ppPfn := env.page x }
        else { Perpage.zero with ppBad := true }
      else Perpage.zero) := by
  rw [(duplicated_copyPset low fresh other).slots x hx]
  simp only [copiedSlot, slot_emptyCopy, (alike_beforeSlots vm env ops ps other).slot]

/-- The fields of a copy. -/
theorem header_copyPset {vm : Memory} {env : Env} {ops ps : PsetId} (low : Nat) {cnt : Nat}
    (fresh : env.Fresh vm cnt) (other : ops ≠ ps) :
    { (vm.copyPset env ops ps low cnt).psets ps with perpage := fun _ => Perpage.zero } =
      emptyCopy vm env ops := by
  have same := (duplicated_copyPset low fresh other).header
  rwa [beforeSlots_new, emptyCopy_perpage] at same

theorem pType_copyPset {vm : Memory} {env : Env} {ops ps : PsetId} (low : Nat) {cnt : Nat}
    (fresh : env.Fresh vm cnt) (other : ops ≠ ps) :
    ((vm.copyPset env ops ps low cnt).psets ps).pType = (emptyCopy vm env ops).pType := by
  have same := congrArg Pset.pType (header_copyPset low fresh other)
  exact same

theorem pOff_copyPset {vm : Memory} {env : Env} {ops ps : PsetId} (low : Nat) {cnt : Nat}
    (fresh : env.Fresh vm cnt) (other : ops ≠ ps) :
    ((vm.copyPset env ops ps low cnt).psets ps).pOff = (vm.psets ops).pOff := by
  have same := congrArg Pset.pOff (header_copyPset low fresh other)
  exact same.trans (emptyCopy_pOff vm env ops)

/-- A slot that the rounds of `dup_slots` left empty is filled as the old one would be. -/
theorem read_empty {vm : Memory} {env : Env} {ops ps : PsetId} {low cnt x : Nat}
    (files : Nat → Nat → Page) (fresh : env.Fresh vm cnt) (other : ops ≠ ps)
    (apart : (vm.psets ops).pCow ≠ ps) (inCore : ∀ x < cnt, ¬vm.PagedOut ops low x)
    (empty : (vm.copyPset env ops ps low cnt).slot ps (x + low) = Perpage.zero)
    (virtual : (vm.psets ops).pType ≠ .PT_MEM)
    (opened : (vm.psets ops).pType = .PT_FILE → env.dupFails = false) :
    (vm.copyPset env ops ps low cnt).read files ps (x + low) =
      match (vm.psets ops).pType with
      | .PT_COW =>
          let master := (vm.psets ops).pCow
          let idx2 := (vm.psets ops).pOff + (x + low)
          if (vm.slot master idx2).ppBad then none
          else (vm.own master idx2).orElse fun _ => vm.fill files master idx2
      | _ => vm.fill files ops (x + low) := by
  have type := (pType_copyPset low fresh other).trans (emptyCopy_pType vm env ops virtual)
  have off := pOff_copyPset low fresh other
  have none_ : (vm.copyPset env ops ps low cnt).own ps (x + low) = none := by
    simp [own, empty, Perpage.zero]
  have master := alike_copyPset low fresh other inCore apart
  simp only [Memory.read, empty, none_, type, off]
  cases kind : (vm.psets ops).pType with
  | PT_COW =>
      have cow := congrArg Pset.pCow (header_copyPset low fresh other)
      have cow : ((vm.copyPset env ops ps low cnt).psets ps).pCow = (vm.psets ops).pCow :=
        cow.trans (emptyCopy_pCow vm env ops kind)
      simp [cow, master.slot, master.own, master.fill, Perpage.zero]
  | PT_FILE =>
      have file := congrArg Pset.pFile (header_copyPset low fresh other)
      have file : ((vm.copyPset env ops ps low cnt).psets ps).pFile = (vm.psets ops).pFile := by
        refine file.trans ((emptyCopy_pFile vm env ops kind).trans ?_)
        rw [opened kind]
        rfl
      simp [fill, type, kind, file, off, Perpage.zero]
  | PT_ZERO => simp [fill, type, kind, Perpage.zero]
  | PT_MEM => exact absurd kind virtual

/-- Where every slot can be refilled, the new set reads what the old one does. -/
theorem read_copyPset {vm : Memory} {env : Env} {ops ps : PsetId} {low cnt : Nat}
    (files : Nat → Nat → Page) (formed : WellFormed vm ops low cnt) (fresh : env.Fresh vm cnt)
    (other : ops ≠ ps) (apart : (vm.psets ops).pCow ≠ ps) (refill : Refillable vm env ops low cnt)
    {x : Nat} (hx : x < cnt) :
    (vm.copyPset env ops ps low cnt).read files ps (x + low) = vm.read files ops (x + low) := by
  have slot_ := slot_copyPset low fresh other hx
  have good := formed.good x hx
  cases valid : (vm.slot ops (x + low)).ppV with
  | true =>
      cases cow : (vm.slot ops (x + low)).ppCow with
      | true =>
          obtain ⟨type, masterV, masterGood, same⟩ := formed.shared x hx valid cow
          have empty : (vm.copyPset env ops ps low cnt).slot ps (x + low) = Perpage.zero := by
            simp [slot_, valid, cow]
          rw [read_empty files fresh other apart refill.1 empty (by simp [type]) (by simp [type])]
          simp [type, masterGood, Memory.read, good, own, masterV, same, valid]
      | false =>
          have page := (duplicated_copyPset low fresh other).pages x hx
          simp only [(alike_beforeSlots vm env ops ps other).slot, beforeSlots_mem] at page
          simp [Memory.read, slot_, own, valid, cow, good, page, Perpage.zero]
  | false =>
      have swapped : (vm.slot ops (x + low)).ppSwapped = false :=
        Bool.eq_false_iff.mpr fun out => refill.1 x hx ⟨valid, out⟩
      have empty : (vm.copyPset env ops ps low cnt).slot ps (x + low) = Perpage.zero := by
        simp [slot_, valid, swapped]
      rw [read_empty files fresh other apart refill.1 empty
        (fun type => by simp [formed.memory type x hx] at valid)
        (fun type => by
          by_contra fails
          simp [refill.2 type (Bool.eq_true_of_not_eq_false fails) x hx] at valid)]
      cases type : (vm.psets ops).pType <;> simp [Memory.read, good, own, valid, swapped, type]

/-- A copy is faithful where every slot can be refilled. -/
theorem faithful_of_refillable {vm : Memory} {env : Env} {ops ps : PsetId} {low cnt : Nat}
    (files : Nat → Nat → Page) (formed : WellFormed vm ops low cnt) (fresh : env.Fresh vm cnt)
    (other : ops ≠ ps) (apart : (vm.psets ops).pCow ≠ ps) (refill : Refillable vm env ops low cnt) :
    Faithful files vm (vm.copyPset env ops ps low cnt) ops ps low cnt where
  copy x hx page held := by rw [read_copyPset files formed fresh other apart refill hx, held]
  pset := by
    rw [(duplicated_copyPset low fresh other).others ops other, beforeSlots_old vm env other formed.master]
  reads idx := (alike_copyPset low fresh other refill.1 other).read
    (fun _ => alike_copyPset low fresh other refill.1 apart) files idx
  swap idx _ := by
    have kept := (duplicated_copyPset low fresh other).kept
      ((vm.psets ops).pSwapblk + idx) fun x hx out =>
        absurd ((pagedOut_beforeSlots other).mp out) (refill.1 x hx)
    rw [kept, beforeSlots_swap]

/-- A page that differs from a given one. -/
theorem exists_other (page : Page) : ∃ other : Page, other ≠ page := by
  refine ⟨fun i => page i + 1, fun same => ?_⟩
  have first := congrFun same ⟨0, by decide⟩
  bv_omega

/-- **When a copy is faithful.** Whatever the new pages hold before, the copy of a range is
faithful exactly when no slot of it is out on swap and the file of a file set could be opened
for the slots that are not in core. -/
theorem copyPset_faithful_iff {vm : Memory} {env : Env} {ops ps : PsetId} {low cnt : Nat}
    (files : Nat → Nat → Page) (formed : WellFormed vm ops low cnt) (fresh : env.Fresh vm cnt)
    (other : ops ≠ ps) (apart : (vm.psets ops).pCow ≠ ps) :
    (∀ stale, Faithful files vm (vm.copyPset { env with stale } ops ps low cnt) ops ps low cnt) ↔
      Refillable vm env ops low cnt := by
  have fresh_ : ∀ stale, Env.Fresh { env with stale } vm cnt :=
    fun stale => ⟨fresh.distinct, fresh.unused⟩
  constructor
  · intro faithful
    have asIs : Faithful files vm (vm.copyPset env ops ps low cnt) ops ps low cnt :=
      faithful env.stale
    refine ⟨fun x hx out => ?_, fun type fails x hx => ?_⟩
    · cases io : env.ioFails x with
      | true =>
          have copied := slot_copyPset low fresh other hx
          have held := asIs.copy x hx (vm.swap ((vm.psets ops).pSwapblk + (x + low)))
            (by simp [Memory.read, formed.good x hx, own, out.1, out.2])
          simp [Memory.read, copied, out.1, out.2, io, Perpage.zero] at held
      | false =>
          -- the block of the old set gets a page that it did not hold
          obtain ⟨page, different⟩ := exists_other (vm.swap ((vm.psets ops).pSwapblk + x))
          have copied := duplicated_copyPset low (fresh_ fun _ => page) other
          have written := copied.written x hx ((pagedOut_beforeSlots other).mpr out) io
          have kept := (faithful fun _ => page).swap x (by have := formed.range; omega)
          rw [(alike_beforeSlots vm _ ops ps other).pSwapblk, Nat.add_comm] at written
          exact different (written.symm.trans kept)
    · by_contra invalid
      simp only [Bool.not_eq_true] at invalid
      obtain ⟨opened, noSwap⟩ := formed.file type
      obtain ⟨file, opened⟩ := Option.isSome_iff_exists.mp opened
      have swapped := noSwap x hx
      have copied := slot_copyPset low fresh other hx
      have held := asIs.copy x hx (files file ((vm.psets ops).pOff + (x + low)))
        (by simp [Memory.read, formed.good x hx, own, invalid, swapped, type, fill, opened])
      have type_ := (pType_copyPset low fresh other).trans
        (emptyCopy_pType vm env ops (by simp [type]))
      have header := congrArg Pset.pFile (header_copyPset low fresh other)
      have closed : ((vm.copyPset env ops ps low cnt).psets ps).pFile = none := by
        refine header.trans ((emptyCopy_pFile vm env ops type).trans ?_)
        rw [fails]
        rfl
      simp [Memory.read, copied, own, invalid, swapped, Perpage.zero, type_, type, fill,
        closed] at held
  · intro refill stale
    exact faithful_of_refillable files formed (fresh_ stale) other apart refill

/-- The number of users of a set does not show. -/
theorem alike_setRefs (vm : Memory) (id : PsetId) (refs : Nat) (other : PsetId) :
    Alike vm (vm.setRefs id refs) other := by
  refine ⟨?_, fun _ _ => rfl, fun _ _ => rfl⟩
  rw [setRefs, setPset_psets]
  by_cases same : other = id
  · subst same
    rw [Function.update_self]
    rfl
  · rw [Function.update_of_ne same]

theorem read_setRefs (vm : Memory) (id : PsetId) (refs : Nat) (files : Nat → Nat → Page)
    (other : PsetId) (idx : Nat) :
    (vm.setRefs id refs).read files other idx = vm.read files other idx :=
  (alike_setRefs vm id refs other).read (fun _ => alike_setRefs vm id refs _) files idx

theorem Alike.pLen {vm after : Memory} {id : PsetId} (alike : Alike vm after id) :
    (after.psets id).pLen = (vm.psets id).pLen := by
  have same := congrArg Pset.pLen alike.pset
  exact same

theorem WellFormed.alike {vm after : Memory} {ops : PsetId} {low cnt : Nat}
    (formed : WellFormed vm ops low cnt) (alike : ∀ id, Alike vm after id) :
    WellFormed after ops low cnt := by
  obtain ⟨range, good, shared, master, file, memory⟩ := formed
  constructor <;>
    simp only [(alike _).pLen, (alike _).slot, (alike _).pType, (alike _).pCow, (alike _).pOff,
      (alike _).pFile]
  exacts [range, good, shared, master, file, memory]

theorem Refillable.alike {vm after : Memory} {env : Env} {ops : PsetId} {low cnt : Nat}
    (alike : ∀ id, Alike vm after id) :
    Refillable after env ops low cnt ↔ Refillable vm env ops low cnt := by
  simp only [Refillable, PagedOut, (alike _).slot, (alike _).pType]

theorem Env.Fresh.alike {vm after : Memory} {env : Env} {cnt : Nat} (fresh : env.Fresh vm cnt)
    (alike : ∀ id, Alike vm after id) : env.Fresh after cnt :=
  ⟨fresh.distinct, fun x hx id idx => by
    simp only [(alike id).slot]
    exact fresh.unused x hx id idx⟩

/-- The old set after a copy. -/
theorem psets_copyPset {vm : Memory} {env : Env} {ops ps : PsetId} (low : Nat) {cnt : Nat}
    (fresh : env.Fresh vm cnt) (other : ops ≠ ps)
    (master : (vm.psets ops).pType = .PT_COW → (vm.psets ops).pCow ≠ ops) :
    (vm.copyPset env ops ps low cnt).psets ops = vm.psets ops := by
  rw [(duplicated_copyPset low fresh other).others ops other, beforeSlots_old vm env other master]

/-- The view is copied faithfully exactly when its slots are. -/
theorem faithful_copyPview {vm : Memory} {env : Env} {opv : Pview} {ps : PsetId}
    (files : Nat → Nat → Page) (formed : WellFormed vm opv.pSet opv.pOff opv.pLen)
    (fresh : env.Fresh vm opv.pLen) (other : opv.pSet ≠ ps) :
    Faithful files vm (vm.copyPview env opv ps).1 opv.pSet ps opv.pOff opv.pLen ↔
      Faithful files (vm.refPset opv.pSet)
        ((vm.refPset opv.pSet).copyPset env opv.pSet ps opv.pOff opv.pLen)
        opv.pSet ps opv.pOff opv.pLen := by
  have alike := alike_setRefs vm opv.pSet ((vm.psets opv.pSet).pRefs + 1)
  have old := psets_copyPset opv.pOff (fresh.alike alike) other (formed.alike alike).master
  have refs : (vm.copyPview env opv ps).1.psets opv.pSet = vm.psets opv.pSet := by
    simp only [copyPview, refPset, derefPset] at old ⊢
    rw [setRefs, setPset_psets, Function.update_of_ne other, setRefs, setPset_psets,
      Function.update_self, old]
    simp [setRefs]
  have len := (alike opv.pSet).pLen
  have blk := (alike opv.pSet).pSwapblk
  constructor
  · rintro ⟨copy, _, reads, swap⟩
    refine ⟨fun x hx page => ?_, old, fun idx => ?_, fun idx hx => ?_⟩
    · have held := copy x hx page
      simp only [copyPview, refPset, derefPset, read_setRefs] at held ⊢
      exact held
    · have held := reads idx
      simp only [copyPview, refPset, derefPset, read_setRefs] at held ⊢
      exact held
    · rw [refPset, len] at hx
      rw [refPset, blk]
      exact swap idx hx
  · rintro ⟨copy, _, reads, swap⟩
    refine ⟨fun x hx page => ?_, refs, fun idx => ?_, fun idx hx => ?_⟩
    · have held := copy x hx page
      simp only [copyPview, refPset, derefPset, read_setRefs] at held ⊢
      exact held
    · have held := reads idx
      simp only [copyPview, refPset, derefPset, read_setRefs] at held ⊢
      exact held
    · rw [refPset, len, blk] at swap
      exact swap idx hx

/-- **Fork copies memory, where nothing is out on swap.** Whatever the new pages hold before, a
copy of a range of a set, and of a view, is faithful exactly when no slot of it is out on
swap and the file of a file set could be opened for the slots that are not in core. -/
theorem copies_faithfully_iff {vm : Memory} {env : Env} (opv : Pview) {ps : PsetId}
    (files : Nat → Nat → Page) (formed : WellFormed vm opv.pSet opv.pOff opv.pLen)
    (fresh : env.Fresh vm opv.pLen) (other : opv.pSet ≠ ps)
    (apart : (vm.psets opv.pSet).pCow ≠ ps) :
    ((∀ stale, Faithful files vm
        (vm.copyPset { env with stale } opv.pSet ps opv.pOff opv.pLen)
        opv.pSet ps opv.pOff opv.pLen) ↔ Refillable vm env opv.pSet opv.pOff opv.pLen) ∧
      ((∀ stale, Faithful files vm (vm.copyPview { env with stale } opv ps).1
        opv.pSet ps opv.pOff opv.pLen) ↔ Refillable vm env opv.pSet opv.pOff opv.pLen) := by
  refine ⟨copyPset_faithful_iff files formed fresh other apart, ?_⟩
  have alike := alike_setRefs vm opv.pSet ((vm.psets opv.pSet).pRefs + 1)
  have held := copyPset_faithful_iff files (formed.alike alike) (fresh.alike alike) other
    (by rw [(alike opv.pSet).pCow]; exact apart)
  rw [Refillable.alike alike] at held
  rw [← held]
  have fresh_ : ∀ stale, Env.Fresh { env with stale } vm opv.pLen :=
    fun stale => ⟨fresh.distinct, fresh.unused⟩
  exact forall_congr' fun stale => faithful_copyPview files formed (fresh_ stale) other

/-- A zero-fill set of two slots with its swap from block 1 on. -/
def twoSlots (first : Perpage) : Memory where
  psets id :=
    if id = 0 then ⟨2, 0, .PT_ZERO, none, 0, 1, 1, false,
      fun idx => if idx = 0 then first else Perpage.zero⟩
    else ⟨0, 0, .PT_ZERO, none, 0, 0, 0, false, fun _ => Perpage.zero⟩
  mem _ := zeroPage
  core _ := none
  swap _ := zeroPage

/-- The pages from 9 on are new, and hold a one in every byte. -/
def newPages : Env := ⟨(· + 9), fun _ _ => 1, fun _ => false, 5, false, 0⟩

def inCore : Perpage := { Perpage.zero with ppV := true, ppRefs := 1, ppPfn := 5 }

def pagedOut : Perpage := { Perpage.zero with ppSwapped := true }

def noFiles : Nat → Nat → Page := fun _ _ => zeroPage

theorem fresh_newPages : newPages.Fresh (twoSlots inCore) 2 := by
  refine ⟨fun x _ y _ same => by simpa [newPages] using same, fun x _ id idx valid => ?_⟩
  by_cases set : id = 0
  · by_cases first : idx = 0
    · subst set first
      simp [twoSlots, slot, newPages, inCore]
    · simp [twoSlots, slot, set, first, Perpage.zero] at valid
  · simp [twoSlots, slot, set, Perpage.zero] at valid

/-- One slot in core, the other never touched. -/
theorem copies_faithfully_twoSlots : Faithful noFiles (twoSlots inCore)
    ((twoSlots inCore).copyPview newPages ⟨0, 0, 2⟩ 1).1 0 1 0 2 :=
  (copies_faithfully_iff ⟨0, 0, 2⟩ noFiles
    ⟨by decide, by decide, by decide, by decide, by decide, by decide⟩ fresh_newPages (by decide)
    (by decide)).2.mpr ⟨by unfold PagedOut; decide, by decide⟩ newPages.stale

/-- **A copy overwrites the swap of the old set.** The first slot is out on swap, and its
block gets what the new page held. -/
theorem copyPset_overwrites : ¬Faithful noFiles (twoSlots pagedOut)
    ((twoSlots pagedOut).copyPset newPages 0 1 0 2) 0 1 0 2 := by
  intro faithful
  have kept := congrFun (faithful.swap 0 (by decide)) ⟨0, by decide⟩
  revert kept
  decide +kernel

end Vsta.Vm
