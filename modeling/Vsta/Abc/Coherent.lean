import Vsta.Abc.Cache
import Mathlib.Data.List.GetD
import Mathlib.Tactic.SplitIfs

/-!
# Buffers that agree with a plain disk

Where the caller may rely on the content of a sector, it is in the buffer that has a valid copy of
it, and on the disk unless that copy is of a dirty buffer (`Coherent`). Below is what one buffer
that changes, comes or goes has to keep to.
-/

set_option autoImplicit false

namespace Vsta.Abc

variable {α : Type} {disk disk' : ℕ → α} {pool : Hash (Buf α)} {plain plain' : Plain α} {d : ULong}
  {b b' : Buf α} {i n len start : ℕ} {data : List α}

/-- A sector of a buffer is there. -/
def Buf.valid (b : Buf α) (i : ℕ) : Bool := if i = 0 then b.sec0 else b.secs

/-- What holds of every buffer. -/
structure Shape (b : Buf α) : Prop where
  pos : 0 < b.bNsec
  le : b.bNsec ≤ EXTSIZ
  secs : b.secs = true → b.sec0 = true
  dirty : b.dirty = true → b.sec0 = true

theorem Shape.valid_zero (shape : Shape b) (valid : b.valid i = true) : b.sec0 = true := by
  rw [Buf.valid] at valid
  split_ifs at valid
  · exact valid
  · exact shape.secs valid

/-- The disk and the buffers agree with the plain disk. -/
structure Coherent (disk : ℕ → α) (pool : Hash (Buf α)) (plain : Plain α) : Prop where
  distinct : pool.Distinct
  shape : ∀ d b, pool.lookup d = some b → Shape b
  apart : ∀ d b d' b' a, pool.lookup d = some b → pool.lookup d' = some b' →
    d.toNat ≤ a → a < d.toNat + b.bNsec → d'.toNat ≤ a → a < d'.toNat + b'.bNsec → d = d'
  cached : ∀ d b i v, pool.lookup d = some b → i < b.bNsec → b.valid i = true →
    plain (d.toNat + i) = some v → b.bData[i]? = some v
  kept : ∀ a v, plain a = some v → disk a = v ∨ ∃ d b i, pool.lookup d = some b ∧ i < b.bNsec ∧
    a = d.toNat + i ∧ b.valid i = true ∧ b.dirty = true

theorem coherent_start (disk : ℕ → α) : Coherent disk [] fun a => some (disk a) :=
  ⟨Hash.distinct_nil, nofun, nofun, nofun, fun _ _ is => .inl (Option.some.inj is)⟩

namespace Coherent

/-- A sector that is in one buffer is not a dirty one of another, and is on the disk if it is not
valid or clean. -/
theorem on_disk (co : Coherent disk pool plain) (found : pool.lookup d = some b) {v : α}
    (inside : i < b.bNsec) (is : plain (d.toNat + i) = some v)
    (loose : ¬(b.valid i = true ∧ b.dirty = true)) : disk (d.toNat + i) = v := by
  rcases co.kept _ _ is with here | ⟨d', b', i', found', inside', same, valid, dirty⟩
  · exact here
  · obtain rfl := co.apart d b d' b' (d.toNat + i) found found' (Nat.le_add_right _ _)
      (Nat.add_lt_add_left inside _) (same ▸ Nat.le_add_right _ _)
      (same ▸ Nat.add_lt_add_left inside' _)
    obtain rfl := Option.some.inj (found.symm.trans found')
    obtain rfl := Nat.add_left_cancel same
    exact absurd ⟨valid, dirty⟩ loose

/-- One buffer changes, with what the disk and the plain disk have within some reach of its start,
where no other buffer is. -/
theorem change (co : Coherent disk pool plain) (found : pool.lookup d = some b) (shape : Shape b')
    (old : b.bNsec ≤ len) (new : b'.bNsec ≤ len)
    (alone : Alone pool d len)
    (outside : ∀ a, ¬(d.toNat ≤ a ∧ a < d.toNat + len) → disk' a = disk a ∧ plain' a = plain a)
    (cached : ∀ i v, i < b'.bNsec → b'.valid i = true → plain' (d.toNat + i) = some v →
      b'.bData[i]? = some v)
    (kept : ∀ i v, i < len → plain' (d.toNat + i) = some v → disk' (d.toNat + i) = v ∨
      i < b'.bNsec ∧ b'.valid i = true ∧ b'.dirty = true) :
    Coherent disk' (pool.modify d fun _ => b') plain' := by
  have look : ∀ d', (pool.modify d fun _ => b').lookup d' =
      if d' = d then some b' else pool.lookup d' := fun d' => by
    rw [Hash.lookup_modify, found]
    rfl
  have here : ∀ {c d'}, (pool.modify d fun _ => b').lookup d' = some c → d' ≠ d →
      pool.lookup d' = some c := fun {c d'} is other => by rwa [look, if_neg other] at is
  have mine : ∀ {c}, (pool.modify d fun _ => b').lookup d = some c → b' = c := fun {c} is => by
    rw [look, if_pos rfl] at is
    exact Option.some.inj is
  refine ⟨co.distinct.modify d _, fun d' c is => ?_, fun d₁ c₁ d₂ c₂ a is₁ is₂ low₁ high₁ low₂ high₂ => ?_,
    fun d' c i v is inside valid has => ?_, fun a v has => ?_⟩
  · by_cases same : d' = d
    · subst same
      exact mine is ▸ shape
    · exact co.shape d' c (here is same)
  · by_cases first : d₁ = d
    · by_cases second : d₂ = d
      · rw [first, second]
      · subst first
        obtain rfl := mine is₁
        exact absurd ⟨low₁, by omega⟩ (alone d₂ c₂ a second (here is₂ second) low₂ high₂)
    · by_cases second : d₂ = d
      · subst second
        obtain rfl := mine is₂
        exact absurd ⟨low₂, by omega⟩ (alone d₁ c₁ a first (here is₁ first) low₁ high₁)
      · exact co.apart d₁ c₁ d₂ c₂ a (here is₁ first) (here is₂ second) low₁ high₁ low₂ high₂
  · by_cases same : d' = d
    · subst same
      obtain rfl := mine is
      exact cached i v inside valid has
    · have far := alone d' c (d'.toNat + i) same (here is same) (Nat.le_add_right _ _)
        (Nat.add_lt_add_left inside _)
      exact co.cached d' c i v (here is same) inside valid ((outside _ far).2 ▸ has)
  · by_cases near : d.toNat ≤ a ∧ a < d.toNat + len
    · obtain ⟨i, rfl⟩ := Nat.exists_eq_add_of_le near.1
      rcases kept i v (by omega) has with on | ⟨inside, valid, dirty⟩
      · exact .inl on
      · exact .inr ⟨d, b', i, by rw [look, if_pos rfl], inside, rfl, valid, dirty⟩
    · rw [(outside a near).2] at has
      rw [(outside a near).1]
      rcases co.kept a v has with on | ⟨d', c, i, is, inside, rfl, valid, dirty⟩
      · exact .inl on
      · have other : d' ≠ d := by
          rintro rfl
          obtain rfl := Option.some.inj (found.symm.trans is)
          exact near ⟨Nat.le_add_right _ _, by omega⟩
        exact .inr ⟨d', c, i, by rw [look, if_neg other, is], inside, rfl, valid, dirty⟩

/-- One buffer changes and keeps its size. -/
theorem replace (co : Coherent disk pool plain) (found : pool.lookup d = some b) (shape : Shape b')
    (size : b'.bNsec = b.bNsec)
    (outside : ∀ a, ¬(d.toNat ≤ a ∧ a < d.toNat + b.bNsec) →
      disk' a = disk a ∧ plain' a = plain a)
    (cached : ∀ i v, i < b.bNsec → b'.valid i = true → plain' (d.toNat + i) = some v →
      b'.bData[i]? = some v)
    (kept : ∀ i v, i < b.bNsec → plain' (d.toNat + i) = some v → disk' (d.toNat + i) = v ∨
      b'.valid i = true ∧ b'.dirty = true) :
    Coherent disk' (pool.modify d fun _ => b') plain' :=
  co.change found shape le_rfl size.le
    (fun d' c a other is low high near =>
      other (co.apart d' c d b a is found low high near.1 near.2))
    outside (fun i v inside => cached i v (size ▸ inside))
    fun i v inside has => (kept i v inside has).imp_right fun holds => ⟨size ▸ inside, holds⟩

/-- Only the locks, the tags or the flags of the background change. -/
theorem flags (co : Coherent disk pool plain) (found : pool.lookup d = some b)
    (same : b'.bData = b.bData ∧ b'.sec0 = b.sec0 ∧ b'.secs = b.secs ∧ b'.dirty = b.dirty) :
    Coherent disk (pool.modify d fun _ => b') plain := by
  obtain ⟨data, sec0, secs, dirty⟩ := same
  have shape := co.shape d b found
  have size : b'.bNsec = b.bNsec := congrArg List.length data
  have valid : ∀ i, b'.valid i = b.valid i := fun i => by rw [Buf.valid, Buf.valid, sec0, secs]
  refine co.replace found ⟨size ▸ shape.pos, size ▸ shape.le, ?_, ?_⟩ size (fun _ _ => ⟨rfl, rfl⟩)
    (fun i v inside ok has => ?_) fun i v inside has => ?_
  · rw [secs, sec0]
    exact shape.secs
  · rw [dirty, sec0]
    exact shape.dirty
  · rw [data]
    exact co.cached d b i v found inside (valid i ▸ ok) has
  · rw [valid, dirty]
    exact or_iff_not_imp_right.mpr fun loose => co.on_disk found inside has loose

/-- A clean buffer goes. -/
theorem free (co : Coherent disk pool plain) (found : pool.lookup d = some b)
    (gone : ∀ a, plain' a = plain a ∨ plain' a = none)
    (clean : ∀ i v, i < b.bNsec → plain' (d.toNat + i) = some v → b.dirty = false) :
    Coherent disk (pool.delete d) plain' := by
  have look := fun d' => co.distinct.lookup_delete d d'
  have before : ∀ {c d'}, (pool.delete d).lookup d' = some c → pool.lookup d' = some c :=
    fun {c d'} is => by
      rw [look] at is
      split_ifs at is
      exact is
  have was : ∀ {a v}, plain' a = some v → plain a = some v := fun {a v} is => by
    rcases gone a with same | none_
    · rw [← same, is]
    · rw [none_] at is
      cases is
  refine ⟨co.distinct.delete d, fun d' c is => co.shape d' c (before is),
    fun d₁ c₁ d₂ c₂ a is₁ is₂ => co.apart d₁ c₁ d₂ c₂ a (before is₁) (before is₂),
    fun d' c i v is inside valid has => co.cached d' c i v (before is) inside valid (was has),
    fun a v has => ?_⟩
  rcases co.kept a v (was has) with on | ⟨d', c, i, is, inside, rfl, valid, dirty⟩
  · exact .inl on
  · by_cases here : d' = d
    · subst here
      obtain rfl := Option.some.inj (found.symm.trans is)
      rw [clean i v inside has] at dirty
      cases dirty
    · exact .inr ⟨d', c, i, by rw [look, if_neg here, is], inside, rfl, valid, dirty⟩

/-- A clean buffer comes, for sectors that are in no other one; where its copies are valid nothing
can be relied on. -/
theorem insert (co : Coherent disk pool plain) (fresh : pool.lookup d = none) (shape : Shape b)
    (alone : Alone pool d b.bNsec)
    (gone : ∀ a, plain' a = plain a ∨ plain' a = none)
    (empty : ∀ i, i < b.bNsec → b.valid i = true → plain' (d.toNat + i) = none) :
    Coherent disk (pool.insert d b) plain' := by
  have look : ∀ d', (pool.insert d b).lookup d' = if d' = d then some b else pool.lookup d' :=
    fun d' => Hash.lookup_insert pool d b d'
  have before : ∀ {c d'}, (pool.insert d b).lookup d' = some c → d' ≠ d →
      pool.lookup d' = some c := fun {c d'} is other => by rwa [look, if_neg other] at is
  have mine : ∀ {c}, (pool.insert d b).lookup d = some c → b = c := fun {c} is => by
    rw [look, if_pos rfl] at is
    exact Option.some.inj is
  have was : ∀ {a v}, plain' a = some v → plain a = some v := fun {a v} is => by
    rcases gone a with same | none_
    · rw [← same, is]
    · rw [none_] at is
      cases is
  refine ⟨co.distinct.insert fresh, fun d' c is => ?_,
    fun d₁ c₁ d₂ c₂ a is₁ is₂ low₁ high₁ low₂ high₂ => ?_,
    fun d' c i v is inside valid has => ?_, fun a v has => ?_⟩
  · by_cases same : d' = d
    · subst same
      exact mine is ▸ shape
    · exact co.shape d' c (before is same)
  · by_cases first : d₁ = d
    · by_cases second : d₂ = d
      · rw [first, second]
      · subst first
        obtain rfl := mine is₁
        exact absurd ⟨low₁, high₁⟩ (alone d₂ c₂ a second (before is₂ second) low₂ high₂)
    · by_cases second : d₂ = d
      · subst second
        obtain rfl := mine is₂
        exact absurd ⟨low₂, high₂⟩ (alone d₁ c₁ a first (before is₁ first) low₁ high₁)
      · exact co.apart d₁ c₁ d₂ c₂ a (before is₁ first) (before is₂ second) low₁ high₁ low₂ high₂
  · by_cases same : d' = d
    · subst same
      obtain rfl := mine is
      rw [empty i inside valid] at has
      cases has
    · exact co.cached d' c i v (before is same) inside valid (was has)
  · rcases co.kept a v (was has) with on | ⟨d', c, i, is, inside, rfl, valid, dirty⟩
    · exact .inl on
    · have other : d' ≠ d := by
        rintro rfl
        rw [fresh] at is
        cases is
      exact .inr ⟨d', c, i, by rw [look, if_neg other, is], inside, rfl, valid, dirty⟩

end Coherent

/-! ## Reads and writes of one buffer -/

theorem length_readSecs (disk : ℕ → α) (start n : ℕ) : (readSecs disk start n).length = n := by
  rw [readSecs, List.length_map, List.length_range]

theorem getElem?_readSecs (disk : ℕ → α) (start : ℕ) (inside : i < n) :
    (readSecs disk start n)[i]? = some (disk (start + i)) := by
  rw [readSecs, List.getElem?_map, List.getElem?_range inside, Option.map_some]

theorem writeSecs_inside (disk : ℕ → α) (start : ℕ) {v : α} (is : data[i]? = some v) :
    writeSecs disk start data (start + i) = v := by
  rw [writeSecs, if_pos (Nat.le_add_right _ _), Nat.add_sub_cancel_left, is, Option.getD_some]

theorem writeSecs_outside (disk : ℕ → α) {a : ℕ}
    (outside : ¬(start ≤ a ∧ a < start + data.length)) : writeSecs disk start data a = disk a := by
  rw [writeSecs]
  split_ifs with low
  · rw [List.getElem?_eq_none, Option.getD_none]
    omega
  · rfl

/-- What a read of a buffer brings: the sectors it had stay, the others come from the disk. Where it
is clean they may come from the disk too. -/
structure Loads (disk : ℕ → α) (start : ℕ) (b b' : Buf α) : Prop where
  size : b'.bNsec = b.bNsec
  sec0 : b.sec0 = true → b'.sec0 = true
  secs : b.secs = true → b'.secs = true
  both : b'.secs = true → b'.sec0 = true
  dirty : b'.dirty = b.dirty
  rest : b'.busy = b.busy ∧ b'.bHandles = b.bHandles
  sectors : ∀ i, i < b.bNsec → b'.valid i = true →
    (b'.bData[i]? = some (disk (start + i)) ∧ (b.valid i = true → b.dirty = false)) ∨
      (b.valid i = true ∧ b'.bData[i]? = b.bData[i]?)

theorem Loads.refl (shape : Shape b) : Loads disk start b b :=
  ⟨rfl, id, id, shape.secs, rfl, ⟨rfl, rfl⟩, fun _ _ valid => .inr ⟨valid, rfl⟩⟩

theorem loads_fillAll (shape : Shape b) (clean : b.secs = true → b.dirty = false) :
    Loads disk start b (b.fillAll disk start) := by
  have pos := shape.pos
  have size : (b.fillAll disk start).bNsec = b.bNsec := by
    rw [Buf.fillAll, Buf.bNsec]
    simp only
    split_ifs
    · rw [List.length_append, List.length_take, length_readSecs]
      rw [Buf.bNsec] at pos ⊢
      omega
    · rw [length_readSecs]
  refine ⟨size, fun _ => rfl, fun _ => rfl, fun _ => rfl, rfl, ⟨rfl, rfl⟩, fun i inside _ => ?_⟩
  rw [Buf.fillAll]
  simp only
  split_ifs with have0
  · cases i with
    | zero =>
        refine .inr ⟨have0, ?_⟩
        rw [List.getElem?_append_left, List.getElem?_take_of_lt Nat.one_pos]
        rw [List.length_take, Nat.lt_min]
        exact ⟨Nat.one_pos, inside⟩
    | succ i =>
        refine .inl ?_
        have one : (b.bData.take 1).length = 1 := by
          rw [List.length_take]
          exact min_eq_left pos
        rw [List.getElem?_append_right (by omega), one, Nat.add_sub_cancel,
          getElem?_readSecs disk _ (by omega), Nat.add_assoc, Nat.add_comm 1 i]
        exact ⟨rfl, clean⟩
  · exact .inl ⟨getElem?_readSecs disk start inside, fun valid =>
      absurd (shape.valid_zero valid) have0⟩

theorem loads_load (shape : Shape b) : Loads disk start b (b.load disk start i n) := by
  have pos := shape.pos
  rw [Buf.load]
  split_ifs with first missing missing'
  · have none_ : b.sec0 = false := by simpa using missing
    have size : ({ b with bData := b.bData.set 0 (disk start), sec0 := true } : Buf α).bNsec =
        b.bNsec := List.length_set
    refine ⟨size, fun _ => rfl, id, fun _ => rfl, rfl, ⟨rfl, rfl⟩, fun j inside valid => ?_⟩
    cases j with
    | zero => exact .inl ⟨List.getElem?_set_self pos, fun valid => absurd (none_.symm.trans valid) nofun⟩
    | succ j => exact .inr ⟨valid, List.getElem?_set_ne (Nat.succ_ne_zero j).symm⟩
  · exact .refl shape
  · exact loads_fillAll shape fun secs => absurd secs (by simpa using missing')
  · exact .refl shape

theorem Loads.shape (loads : Loads disk start b b') (shape : Shape b) : Shape b' :=
  ⟨loads.size ▸ shape.pos, loads.size ▸ shape.le, loads.both, fun dirty =>
    loads.sec0 (shape.dirty (loads.dirty ▸ dirty))⟩

theorem Loads.valid (loads : Loads disk start b b') (valid : b.valid i = true) :
    b'.valid i = true := by
  rw [Buf.valid] at valid ⊢
  split_ifs at valid ⊢
  · exact loads.sec0 valid
  · exact loads.secs valid

/-- The sectors that `index_buf` was asked for are there. -/
theorem load_valid {j : ℕ} (shape : Shape b) (low : i ≤ j) (high : j < i + n) :
    (b.load disk start i n).valid j = true := by
  rw [Buf.load]
  split_ifs with first missing missing
  · rw [Buf.valid, if_pos (by omega)]
  · rw [Buf.valid, if_pos (by omega)]
    simpa using missing
  · rw [Buf.valid]
    split_ifs <;> rfl
  · have secs : b.secs = true := by simpa using missing
    rw [Buf.valid]
    split_ifs
    · exact shape.secs secs
    · exact secs

/-- A buffer that was read agrees as before. -/
theorem Coherent.loads (co : Coherent disk pool plain) (found : pool.lookup d = some b)
    (loads : Loads disk d.toNat b b') : Coherent disk (pool.modify d fun _ => b') plain := by
  refine co.replace found (loads.shape (co.shape d b found)) loads.size (fun _ _ => ⟨rfl, rfl⟩)
    (fun i v inside valid has => ?_) fun i v inside has => ?_
  · rcases loads.sectors i inside valid with ⟨is, clean⟩ | ⟨was, same⟩
    · rw [is, co.on_disk found inside has fun both => ?_]
      exact absurd both.2 (by rw [clean both.1]; exact Bool.false_ne_true)
    · rw [same]
      exact co.cached d b i v found inside was has
  · rw [loads.dirty]
    refine or_iff_not_imp_right.mpr fun loose => co.on_disk found inside has fun both => ?_
    exact loose ⟨loads.valid both.1, both.2⟩

theorem clean_valid (b : Buf α) (i : ℕ) : b.clean.valid i = b.valid i := rfl

/-- A buffer that is written is clean. -/
theorem Coherent.written (co : Coherent disk pool plain) (found : pool.lookup d = some b)
    (sec0 : b.sec0 = true) :
    Coherent (writeSecs disk d.toNat b.image) (pool.modify d fun _ => b.clean) plain := by
  have shape := co.shape d b found
  have short : b.image.length ≤ b.bNsec := by
    rw [Buf.image, Buf.bNsec]
    split_ifs
    · exact le_rfl
    · rw [List.length_take]
      exact min_le_right _ _
  refine co.replace found ⟨shape.pos, shape.le, shape.secs, nofun⟩ rfl (fun a far => ⟨?_, rfl⟩)
    (fun i v inside valid has => co.cached d b i v found inside valid has)
    fun i v inside has => .inl ?_
  · exact writeSecs_outside disk fun near => far ⟨near.1, by omega⟩
  · by_cases secs : b.secs = true
    · refine writeSecs_inside disk _ ?_
      rw [Buf.image, if_pos secs]
      refine co.cached d b i v found inside ?_ has
      rw [Buf.valid, sec0, secs, ite_self]
    · have image : b.image = b.bData.take 1 := if_neg secs
      cases i with
      | zero =>
          refine writeSecs_inside disk _ ?_
          rw [image, List.getElem?_take_of_lt Nat.one_pos]
          exact co.cached d b 0 v found inside sec0 has
      | succ i =>
          rw [writeSecs_outside]
          · exact co.on_disk found inside has fun both => secs both.1
          · rw [image, List.length_take]
            omega

theorem length_poke (b : Buf α) (inside : i + data.length ≤ b.bNsec) :
    (b.poke i data).bNsec = b.bNsec := by
  rw [Buf.bNsec] at inside ⊢
  rw [Buf.poke, List.length_append, List.length_append, List.length_take, List.length_drop,
    Buf.bNsec]
  omega

theorem getElem?_poke (b : Buf α) (inside : i + data.length ≤ b.bNsec) (j : ℕ) :
    (b.poke i data).bData[j]? =
      if i ≤ j ∧ j < i + data.length then data[j - i]? else b.bData[j]? := by
  rw [Buf.bNsec] at inside
  have front : (b.bData.take i).length = i := by
    rw [List.length_take]
    omega
  rw [Buf.poke, List.append_assoc]
  split_ifs with at_
  · rw [List.getElem?_append_right (by omega), front, List.getElem?_append_left (by omega)]
  · by_cases before : j < i
    · rw [List.getElem?_append_left (by omega), List.getElem?_take_of_lt before]
    · rw [List.getElem?_append_right (by omega), front, List.getElem?_append_right (by omega),
        List.getElem?_drop]
      congr 1
      omega

/-- A buffer that is written in place. -/
theorem Coherent.stored (co : Coherent disk pool plain) (found : pool.lookup d = some b)
    (shape' : 0 < n ∧ i + n ≤ b.bNsec) (size : data.length = n) (handle : Option Handle) :
    Coherent disk (pool.modify d fun _ =>
        ((b.load disk d.toNat i n).poke i data).dirtyBuf handle)
      ((Note.stored (d.toNat + i) data).onto plain) := by
  have shape := co.shape d b found
  obtain ⟨some_, inside⟩ := shape'
  have loads : Loads disk d.toNat b (b.load disk d.toNat i n) := loads_load shape
  have co' := co.loads found loads
  have shape' := loads.shape shape
  replace inside : i + data.length ≤ (b.load disk d.toNat i n).bNsec := by
    rw [loads.size, size]
    exact inside
  have found' : (pool.modify d fun _ => b.load disk d.toNat i n).lookup d =
      some (b.load disk d.toNat i n) := by
    rw [Hash.lookup_modify, if_pos rfl, found]
    rfl
  have len : (((b.load disk d.toNat i n).poke i data).dirtyBuf handle).bNsec =
      (b.load disk d.toNat i n).bNsec := length_poke _ inside
  have now : ∀ j, ((Note.stored (d.toNat + i) data).onto plain) (d.toNat + j) =
      if i ≤ j ∧ j < i + data.length then data[j - i]? else plain (d.toNat + j) := by
    intro j
    simp only [Note.onto, Nat.add_le_add_iff_left, Nat.add_assoc, Nat.add_lt_add_iff_left,
      Nat.add_sub_add_left]
  rw [← Hash.modify_modify pool d (b.load disk d.toNat i n)]
  refine co'.replace found' ⟨len ▸ shape'.pos, len ▸ shape'.le, shape'.secs, fun _ => ?_⟩ len
    (fun a far => ⟨rfl, ?_⟩) (fun j v small valid has => ?_) fun j v small has => ?_
  · exact shape'.valid_zero (load_valid shape le_rfl (by omega))
  · rw [Note.onto]
    exact if_neg fun near => far ⟨by omega, by omega⟩
  · rw [now] at has
    show ((b.load disk d.toNat i n).poke i data).bData[j]? = some v
    rw [getElem?_poke _ inside]
    split_ifs at has ⊢
    · exact has
    · exact co'.cached d _ j v found' small valid has
  · by_cases valid : (b.load disk d.toNat i n).valid j = true
    · exact .inr ⟨valid, rfl⟩
    · rw [now, if_neg fun at_ => valid (load_valid shape at_.1 (size ▸ at_.2))] at has
      exact .inl (co'.on_disk found' small has fun both => valid both.1)

/-- What a buffer of another size holds. -/
def Buf.resized (b : Buf α) (disk : ℕ → α) (start newsize : ℕ) (fill : Bool) (memory : ℕ → α) :
    Buf α :=
  { b with bData := b.bData.take newsize ++
      if fill && b.secs then readSecs disk (start + b.bNsec) (newsize - b.bNsec)
      else (List.range (newsize - b.bNsec)).map memory }

/-- What the caller loses when a buffer gets another size. -/
def Buf.lost (b : Buf α) (start newsize : ℕ) (fill : Bool) : Note α :=
  if newsize < b.bNsec then .gone (start + newsize) (b.bNsec - newsize)
  else if fill then .quiet else .gone (start + b.bNsec) (newsize - b.bNsec)

theorem length_resized (b : Buf α) (disk : ℕ → α) (start newsize : ℕ) (fill : Bool)
    (memory : ℕ → α) : (b.resized disk start newsize fill memory).bNsec = newsize := by
  rw [Buf.resized, Buf.bNsec, List.length_append, List.length_take]
  split_ifs
  · rw [length_readSecs, Buf.bNsec]
    omega
  · rw [List.length_map, List.length_range, Buf.bNsec]
    omega

theorem of_lost {newsize : ℕ} {fill : Bool} {v : α} (inside : i < b.bNsec ∨ i < newsize)
    (is : (b.lost start newsize fill).onto plain (start + i) = some v) :
    plain (start + i) = some v ∧ i < newsize ∧ (i < b.bNsec ∨ fill = true) := by
  rw [Buf.lost] at is
  split_ifs at is with shrinks fills
  · simp only [Note.onto] at is
    split_ifs at is with near
    exact ⟨is, by omega, .inl (by omega)⟩
  · exact ⟨is, by omega, .inr fills⟩
  · simp only [Note.onto] at is
    split_ifs at is with near
    exact ⟨is, by omega, .inl (by omega)⟩

theorem lost_outside {newsize a : ℕ} {fill : Bool}
    (far : ¬(start ≤ a ∧ a < start + max b.bNsec newsize)) :
    (b.lost start newsize fill).onto plain a = plain a := by
  rw [Buf.lost]
  split_ifs
  · rw [Note.onto]
    exact if_neg fun near => far ⟨by omega, by omega⟩
  · rfl
  · rw [Note.onto]
    exact if_neg fun near => far ⟨by omega, by omega⟩

/-- A buffer gets another size; sectors it gains are in no other one. -/
theorem Coherent.resize (co : Coherent disk pool plain) (found : pool.lookup d = some b)
    {newsize : ℕ} {fill : Bool} (memory : ℕ → α) (pos : 0 < newsize) (le : newsize ≤ EXTSIZ)
    (alone : Alone pool d newsize) :
    Coherent disk (pool.modify d fun _ => b.resized disk d.toNat newsize fill memory)
      ((b.lost d.toNat newsize fill).onto plain) := by
  have shape := co.shape d b found
  have size := length_resized b disk d.toNat newsize fill memory
  have near : Alone pool d (max b.bNsec newsize) := by
    intro d' c a other is low high at_
    by_cases old : a < d.toNat + b.bNsec
    · exact other (co.apart d' c d b a is found low high at_.1 old)
    · refine alone d' c a other is low high ⟨at_.1, ?_⟩
      rcases max_cases b.bNsec newsize with ⟨is_, -⟩ | ⟨is_, -⟩
      · rw [is_] at at_
        exact absurd at_.2 old
      · exact is_ ▸ at_.2
  -- what was not in the buffer is on the disk
  have fresh : ∀ i v, b.bNsec ≤ i → i < newsize → plain (d.toNat + i) = some v →
      disk (d.toNat + i) = v := by
    intro i v more inside is
    rcases co.kept _ v is with here | ⟨d', c, j, is', inside', same, -⟩
    · exact here
    · by_cases other : d' = d
      · subst other
        obtain rfl := Option.some.inj (found.symm.trans is')
        omega
      · exact absurd ⟨Nat.le_add_right _ _, Nat.add_lt_add_left inside _⟩
          (alone d' c _ other is' (same ▸ Nat.le_add_right _ _) (same ▸ Nat.add_lt_add_left inside' _))
  refine co.change found ⟨size.symm ▸ pos, size.symm ▸ le, shape.secs, shape.dirty⟩
    (le_max_left _ newsize) (size.le.trans (le_max_right b.bNsec _)) near (fun a far => ⟨rfl, lost_outside far⟩)
    (fun i v inside valid is => ?_) fun i v inside is => ?_
  · rw [size] at inside
    obtain ⟨has, -, kind⟩ := of_lost (.inr inside) is
    rw [Buf.resized]
    simp only
    by_cases old : i < b.bNsec
    · rw [List.getElem?_append_left, List.getElem?_take_of_lt inside]
      · exact co.cached d b i v found old valid has
      · rw [List.length_take, Nat.lt_min]
        exact ⟨inside, old⟩
    · have some_ := shape.pos
      have secs : b.secs = true := by
        rw [Buf.valid, if_neg (by omega)] at valid
        exact valid
      have all : (b.bData.take newsize).length = b.bNsec := by
        rw [List.length_take]
        exact min_eq_right (by rw [Buf.bNsec] at old; omega)
      rw [List.getElem?_append_right (by omega), all, kind.resolve_left old, secs, Bool.and_self,
        if_pos rfl, getElem?_readSecs disk _ (by omega), Nat.add_assoc,
        Nat.add_sub_cancel' (by omega), fresh i v (by omega) inside has]
  · obtain ⟨has, inside', -⟩ := of_lost (lt_max_iff.mp inside) is
    by_cases old : i < b.bNsec
    · refine or_iff_not_imp_right.mpr fun loose => co.on_disk found old has fun both => ?_
      exact loose ⟨size.symm ▸ inside', both.1, both.2⟩
    · exact .inl (fresh i v (by omega) inside' has)

/-- A buffer that `find_buf` makes: where it is not filled, nothing can be relied on. -/
theorem Coherent.found (co : Coherent disk pool plain) {new : New α} (memory : ℕ → α)
    (fresh : pool.lookup new.start = none) (pos : 0 < new.nsec) (le : new.nsec ≤ EXTSIZ)
    (alone : Alone pool new.start new.nsec) :
    Coherent disk (pool.insert new.start
        ⟨(List.range new.nsec).map memory, !new.fill, !new.fill, false, false, false, 0, []⟩)
      ((if new.fill then Note.quiet else .gone new.start.toNat new.nsec).onto plain) := by
  have size : ((List.range new.nsec).map memory).length = new.nsec := by
    rw [List.length_map, List.length_range]
  refine co.insert fresh ⟨pos.trans_eq size.symm, size.le.trans le, id, nofun⟩ ?_ (fun a => ?_)
    fun i inside valid => ?_
  · rw [Buf.bNsec, size]
    exact alone
  · split_ifs
    · exact .inl rfl
    · simp only [Note.onto]
      split_ifs
      · exact .inr rfl
      · exact .inl rfl
  · rw [Buf.bNsec, size] at inside
    have empty : new.fill = false := by
      rw [Buf.valid, ite_self] at valid
      simpa using valid
    rw [empty, if_neg Bool.false_ne_true]
    exact if_pos ⟨Nat.le_add_right _ _, Nat.add_lt_add_left inside _⟩

/-- A buffer that is given up. -/
theorem Coherent.given_up (co : Coherent disk pool plain) (found : pool.lookup d = some b) :
    Coherent disk (pool.delete d) ((Note.gone d.toNat b.bNsec).onto plain) := by
  refine co.free found (fun a => ?_) fun i v inside has => ?_
  · simp only [Note.onto]
    split_ifs
    · exact .inr rfl
    · exact .inl rfl
  · simp only [Note.onto] at has
    rw [if_pos ⟨Nat.le_add_right _ _, Nat.add_lt_add_left inside _⟩] at has
    cases has

end Vsta.Abc
