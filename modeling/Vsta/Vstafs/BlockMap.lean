import Vsta.Vstafs.Layout
import Mathlib.Data.List.GetD

/-!
# Reading and writing through `bmap`

Where a position of a file is on the disk, what `bmap` has to do with it, and the loops of
`do_write` and `vfs_read` that go from one piece of the file to the next. An abstract file is
a partial map from positions to bytes; the disk `Holds` it when every byte of the map is at its
position's place.
-/

set_option autoImplicit false

namespace Vsta.Vstafs.Bytes

/-! ## Places -/

/-- The address of a position of the file. -/
def place (fs : FsFile) (pos : ℕ) : Option ℕ :=
  (sectors fs.fsBlks)[btos pos]?.map fun sector => sector * SECSZ + pos % SECSZ

theorem place_isSome {fs : FsFile} {pos : ℕ} :
    (place fs pos).isSome ↔ pos < (sectors fs.fsBlks).length * SECSZ := by
  rw [place, Option.isSome_map, isSome_getElem?, btos, Nat.div_lt_iff_lt_mul (by decide)]

/-- Growing a file moves no byte of it. -/
theorem Extends.place_eq {disk disk' : Disk} {fs fs' : FsFile} {pos addr : ℕ}
    (grown : Extends disk fs disk' fs') (at_ : place fs pos = some addr) :
    place fs' pos = some addr := by
  obtain ⟨sector, here, rfl⟩ := Option.map_eq_some_iff.mp at_
  obtain ⟨more, behind⟩ := grown.sectors_prefix
  have inside := (List.getElem?_eq_some_iff.mp here).1
  rw [place, ← behind, List.getElem?_append_left inside, here]
  rfl

/-- No two positions of a file have one address. -/
theorem place_injective {disk : Disk} {fs : FsFile} (apart : (total disk fs).Nodup)
    {pos other addr : ℕ} (at_ : place fs pos = some addr) (same : place fs other = some addr) :
    pos = other := by
  obtain ⟨sector, here, rfl⟩ := Option.map_eq_some_iff.mp at_
  obtain ⟨sector', there, eq⟩ := Option.map_eq_some_iff.mp same
  have nodup : (sectors fs.fsBlks).Nodup := by
    rw [total, add_assoc] at apart
    exact Multiset.coe_nodup.mp (Multiset.nodup_add.mp apart).1
  simp only [SECSZ] at eq
  obtain rfl : sector' = sector := by omega
  have index := (List.nodup_iff_getElem?_ne_getElem?.mp nodup)
  have index : btos pos = btos other := by
    by_contra differ
    rcases Nat.lt_or_gt_of_ne differ with less | less
    · exact index _ _ less (List.getElem?_eq_some_iff.mp there).1 (here.trans there.symm)
    · exact index _ _ less (List.getElem?_eq_some_iff.mp here).1 (there.trans here.symm)
  simp only [btos, SECSZ] at index
  omega

/-- The byte at a position of the file. -/
def byteAt (disk : Disk) (fs : FsFile) (pos : ℕ) : Option UChar :=
  (place fs pos).map disk.data

/-- The file has these bytes at these positions. -/
def Holds (disk : Disk) (fs : FsFile) (bytes : ℕ → Option UChar) : Prop :=
  ∀ pos byte, bytes pos = some byte → byteAt disk fs pos = some byte

/-- Bytes are put at a position and behind it. -/
def overwrite (bytes : ℕ → Option UChar) (pos : ℕ) (buf : List UChar) (q : ℕ) : Option UChar :=
  if pos ≤ q then buf[q - pos]?.or (bytes q) else bytes q

theorem overwrite_nil (bytes : ℕ → Option UChar) (pos : ℕ) : overwrite bytes pos [] = bytes := by
  funext q
  simp [overwrite]

/-- Two pieces, one behind the other, are put like one. -/
theorem overwrite_append (bytes : ℕ → Option UChar) (pos : ℕ) (buf more : List UChar) :
    overwrite (overwrite bytes pos buf) (pos + buf.length) more =
      overwrite bytes pos (buf ++ more) := by
  funext q
  simp only [overwrite]
  by_cases before : pos ≤ q
  · by_cases behind : pos + buf.length ≤ q
    · have outside : buf[q - pos]? = none := List.getElem?_eq_none (by omega)
      rw [if_pos behind, if_pos before, if_pos before, outside, Option.none_or,
        List.getElem?_append_right (by omega), show q - pos - buf.length = q - (pos + buf.length) by
          omega]
    · rw [if_neg behind, if_pos before, if_pos before, List.getElem?_append_left (by omega)]
  · rw [if_neg before, if_neg before, if_neg (by omega)]

theorem Extends.holds {disk disk' : Disk} {fs fs' : FsFile} {bytes : ℕ → Option UChar}
    (grown : Extends disk fs disk' fs') (holds : Holds disk fs bytes) :
    Holds disk' fs' bytes := by
  intro pos byte known
  obtain ⟨addr, at_, value⟩ := Option.map_eq_some_iff.mp (holds pos byte known)
  rw [byteAt, grown.place_eq at_, Option.map_some, grown.data_eq, value]

/-! ## Copying -/

/-- `bcopy` into the buffer at an address. -/
def Disk.bcopy (disk : Disk) (buf : List UChar) (addr : ℕ) : Disk :=
  { disk with data := fun a => if addr ≤ a then buf.getD (a - addr) (disk.data a) else disk.data a }

/-- The bytes at an address. -/
def Disk.bytes (disk : Disk) (addr cnt : ℕ) : List UChar :=
  (List.range' addr cnt).map disk.data

/-- The `cnt` bytes at `pos` lie at `addr` in one piece. -/
def Maps (fs : FsFile) (pos addr cnt : ℕ) : Prop :=
  ∀ i < cnt, place fs (pos + i) = some (addr + i)

/-- A copy into a piece of the file changes the bytes of that piece. -/
theorem Maps.holds_bcopy {disk : Disk} {fs : FsFile} {pos addr : ℕ} {buf : List UChar}
    {bytes : ℕ → Option UChar} (apart : (total disk fs).Nodup)
    (maps : Maps fs pos addr buf.length) (holds : Holds disk fs bytes) :
    Holds (disk.bcopy buf addr) fs (overwrite bytes pos buf) := by
  intro q byte known
  rw [overwrite] at known
  by_cases inside : pos ≤ q ∧ q - pos < buf.length
  · obtain ⟨behind, within⟩ := inside
    have at_ := maps (q - pos) within
    rw [show pos + (q - pos) = q by omega] at at_
    rw [if_pos behind, List.getElem?_eq_getElem within, Option.some_or, Option.some.injEq] at known
    rw [byteAt, at_, Option.map_some, Disk.bcopy]
    simp only
    rw [if_pos (by omega), show addr + (q - pos) - addr = q - pos by omega,
      List.getD_eq_getElem _ _ within, known]
  · have old : bytes q = some byte := by
      by_cases behind : pos ≤ q
      · rwa [if_pos behind, List.getElem?_eq_none (by omega), Option.none_or] at known
      · rwa [if_neg behind] at known
    obtain ⟨there, at_, value⟩ := Option.map_eq_some_iff.mp (holds q byte old)
    rw [byteAt, at_, Option.map_some, Disk.bcopy]
    simp only
    by_cases after : addr ≤ there
    · rw [if_pos after]
      by_cases within : there - addr < buf.length
      · -- the address would be that of another position
        have other := maps (there - addr) within
        rw [show addr + (there - addr) = there by omega] at other
        have := place_injective apart at_ other
        omega
      · rw [List.getD_eq_default _ _ (by omega), value]
    · rw [if_neg after, value]

/-- What is read from a piece of the file. -/
theorem Maps.bytes_eq {disk : Disk} {fs : FsFile} {pos addr cnt : ℕ} (maps : Maps fs pos addr cnt)
    {i : ℕ} (inside : i < cnt) : (disk.bytes addr cnt)[i]? = byteAt disk fs (pos + i) := by
  rw [byteAt, maps i inside, Disk.bytes, List.getElem?_map, List.getElem?_range' inside]
  simp

/-! ## What `bmap` finds -/

/-- A position from which a file can grow without a sum that goes beyond 32 bits. -/
def Within (stop : ℕ) : Prop := stop + (EXTSIZ + 1) * SECSZ ≤ 2 ^ 32

theorem Within.mono {stop earlier : ℕ} (within : Within stop) (before : earlier ≤ stop) :
    Within earlier :=
  le_trans (Nat.add_le_add_right before _) within

theorem Within.word_eq {stop : ℕ} (within : Within stop) : word stop = stop := by
  rw [Within] at within
  refine Nat.mod_eq_of_lt (lt_of_lt_of_le ?_ within)
  simp only [SECSZ, EXTSIZ]
  omega

theorem Within.btors_eq {stop : ℕ} (within : Within stop) :
    btors stop = (stop + (SECSZ - 1)) / SECSZ := by
  rw [Within] at within
  rw [btors, word, Nat.mod_eq_of_lt]
  simp only [SECSZ, EXTSIZ] at *
  omega

theorem Within.room {stop : ℕ} (within : Within stop) :
    (btors stop + EXTSIZ) * SECSZ < 2 ^ 32 := by
  rw [within.btors_eq]
  rw [Within] at within
  simp only [SECSZ, EXTSIZ] at *
  omega

/-- The header is as it was, or its length is at the end of its sectors or of what was wanted. -/
def Settled (fs fs' : FsFile) (stop : ℕ) : Prop := fs' = fs ∨ fs'.fsLen = stop ∨ Full fs'

theorem Settled.trans {fs fs' fs'' : FsFile} {stop : ℕ} (one : Settled fs fs' stop)
    (two : Settled fs' fs'' stop) : Settled fs fs'' stop := by
  rcases two with rfl | settled
  · exact one
  · exact .inr settled

/-- The growth in `bmap`: only a position below the length leaves the header alone. -/
theorem bmapGrow_grows {x : BmapOutcome} {disk disk' : Disk} {fs fs' : FsFile} {pos cnt : ℕ}
    {ok : Bool} (laid : Laid fs) (within : Within (pos + cnt))
    (grow : bmapGrow x disk fs pos cnt = some (disk', fs', ok)) :
    Extends disk fs disk' fs' ∧ Laid fs' ∧ Settled fs fs' (pos + cnt) ∧
      (ok = true → (pos < fs.fsLen ∧ fs' = fs) ∨ fs'.fsLen = pos + cnt ∨ Full fs') := by
  rw [bmapGrow] at grow
  by_cases beyond : fs.fsLen ≤ pos
  · simp only [if_pos beyond, within.word_eq] at grow
    by_cases more : btors fs.fsLen < btors (pos + cnt)
    · rw [if_pos more] at grow
      obtain ⟨grown, laid', settled, full⟩ := fileGrow_grows laid within.room grow
      exact ⟨grown, laid', settled.imp_right .inr, fun done => .inr (.inr (full done))⟩
    · rw [if_neg more] at grow
      simp only [Option.some.injEq, Prod.mk.injEq] at grow
      obtain ⟨rfl, rfl, rfl⟩ := grow
      have longer : fs.fsLen ≤ pos + cnt := by omega
      refine ⟨⟨⟨List.prefix_rfl, rfl, longer⟩, rfl⟩,
        ⟨laid.nonempty, ?_, laid.header.trans longer, ?_⟩, .inr (.inl rfl),
        fun _ => .inr (.inl rfl)⟩
      · rw [laid.sectors_length]
        rw [laid.btors_eq, within.btors_eq] at more
        rw [laid.btors_eq, within.btors_eq]
        exact le_antisymm (Nat.div_le_div_right (by omega)) (Nat.le_of_not_lt more)
      · rw [Within] at within
        simp only [SECSZ, EXTSIZ] at *
        omega
  · rw [if_neg beyond] at grow
    simp only [Option.some.injEq, Prod.mk.injEq] at grow
    obtain ⟨rfl, rfl, rfl⟩ := grow
    exact ⟨.refl _ _, laid, .inl rfl, fun _ => .inl ⟨Nat.lt_of_not_le beyond, rfl⟩⟩

/-- The piece of the buffer `bmap` hands out is a piece of the file. -/
theorem blkp_maps {fs : FsFile} {a : Alloc} {extoff pos cnt : ℕ} (some_ : 0 < cnt)
    (found : extentOf fs.fsBlks (btos pos) = some (a, extoff)) :
    0 < (blkp a extoff pos cnt).2 ∧ (blkp a extoff pos cnt).2 ≤ cnt ∧
      Maps fs pos (blkp a extoff pos cnt).1 (blkp a extoff pos cnt).2 := by
  obtain ⟨inside, follow⟩ := extentOf_sectors found
  simp only [blkp]
  generalize size : min (a.aLen - extoff / EXTSIZ * EXTSIZ) EXTSIZ - extoff % EXTSIZ = len
  have short : stob len = len * SECSZ := stob_of_lt (by
    simp only [SECSZ, EXTSIZ] at *
    omega)
  have room : 0 < len ∧ extoff + len ≤ a.aLen := by
    simp only [EXTSIZ] at *
    omega
  rw [short]
  refine ⟨?_, min_le_right _ _, fun i within => ?_⟩
  · simp only [SECSZ] at *
    omega
  have sector : btos (pos + i) = btos pos + (pos % SECSZ + i) / SECSZ := by
    simp only [btos, SECSZ]
    omega
  have here := follow ((pos % SECSZ + i) / SECSZ) (by
    simp only [SECSZ] at *
    omega)
  rw [place, sector, here]
  simp only [Option.map_some, Option.some.injEq, SECSZ, EXTSIZ] at *
  omega

/-- **`bmap` only adds to the file, and what it hands out is a piece of it.** The piece starts below
the length in a file that did not grow, or it lies below the new length. -/
theorem bmap_maps {x : BmapOutcome} {disk disk' : Disk} {fs fs' : FsFile} {pos cnt : ℕ}
    {mapped : Option (ℕ × ℕ)} (laid : Laid fs) (within : Within (pos + cnt)) (some_ : 0 < cnt)
    (map : bmap x disk fs pos cnt = some (disk', fs', mapped)) :
    Extends disk fs disk' fs' ∧ Laid fs' ∧ Settled fs fs' (pos + cnt) ∧
      ∀ addr step, mapped = some (addr, step) →
        0 < step ∧ step ≤ cnt ∧ Maps fs' pos addr step ∧ ((pos < fs.fsLen ∧ fs' = fs) ∨
          (pos + step ≤ fs'.fsLen ∧ (fs'.fsLen = pos + cnt ∨ Full fs'))) := by
  rw [bmap.eq_def] at map
  cases grow : bmapGrow x disk fs pos cnt with
  | none => simp [grow] at map
  | some result =>
      obtain ⟨disk₁, fs₁, ok⟩ := result
      obtain ⟨grown, laid₁, settled, length⟩ := bmapGrow_grows laid within grow
      cases ok with
      | false =>
          simp only [grow, Option.some.injEq, Prod.mk.injEq] at map
          obtain ⟨rfl, rfl, rfl⟩ := map
          exact ⟨grown, laid₁, settled, fun _ _ nothing => by cases nothing⟩
      | true =>
          simp only [grow] at map
          cases located : extentOf fs₁.fsBlks (btos pos) with
          | none => simp [located] at map
          | some found =>
              obtain ⟨a, extoff⟩ := found
              simp only [located] at map
              by_cases noBuf : (!x.found) = true
              · simp only [if_pos noBuf, Option.some.injEq, Prod.mk.injEq] at map
                obtain ⟨rfl, rfl, rfl⟩ := map
                exact ⟨grown, laid₁, settled, fun _ _ nothing => by cases nothing⟩
              · simp only [if_neg noBuf, Option.some.injEq, Prod.mk.injEq] at map
                obtain ⟨rfl, rfl, rfl⟩ := map
                refine ⟨grown, laid₁, settled, fun addr step here => ?_⟩
                obtain ⟨positive, atMost, maps⟩ := blkp_maps some_ located
                rw [Option.some.injEq] at here
                rw [here] at positive atMost maps
                refine ⟨positive, atMost, maps, (length rfl).imp_right fun reach => ⟨?_, reach⟩⟩
                rcases reach with stop | full
                · omega
                · have inside := place_isSome.mp
                    (Option.isSome_of_eq_some (maps (step - 1) (by omega)))
                  rw [← full] at inside
                  omega

/-- A sector of the file has an extent. -/
theorem extentOf_some {blks : List Alloc} {n : ℕ} (inside : n < (sectors blks).length) :
    ∃ a extoff, extentOf blks n = some (a, extoff) := by
  induction blks generalizing n with
  | nil => simp at inside
  | cons a rest ih =>
      rw [extentOf]
      by_cases here : n < a.aLen
      · exact ⟨a, n, if_pos here⟩
      · rw [if_neg here]
        refine ih ?_
        rw [sectors_cons, List.length_append, length_run] at inside
        omega

/-- Below the length `bmap` changes nothing and finds the place. -/
theorem bmap_reads (x : BmapOutcome) (disk : Disk) {fs : FsFile} {pos cnt : ℕ} (laid : Laid fs)
    (below : pos < fs.fsLen) (some_ : 0 < cnt) :
    (x.found = false ∧ bmap x disk fs pos cnt = some (disk, fs, none)) ∨
      ∃ addr step, bmap x disk fs pos cnt = some (disk, fs, some (addr, step)) ∧
        0 < step ∧ step ≤ cnt ∧ Maps fs pos addr step := by
  have inside : btos pos < (sectors fs.fsBlks).length := by
    rw [laid.sectors_length, laid.btors_eq]
    simp only [btos, SECSZ]
    omega
  obtain ⟨a, extoff, located⟩ := extentOf_some inside
  have same : bmapGrow x disk fs pos cnt = some (disk, fs, true) := by
    rw [bmapGrow, if_neg (by omega)]
  rw [bmap.eq_def, same]
  simp only [located]
  cases found : x.found with
  | false => exact .inl ⟨rfl, rfl⟩
  | true => exact .inr ⟨_, _, rfl, blkp_maps some_ located⟩

/-! ## The loops -/

/-- The loop of `do_write`: what is left of `buf` when it ends. A step of zero bytes would
repeat for ever; it has no result. -/
def writeLoop (calls : ℕ → BmapOutcome) (disk : Disk) (fs : FsFile) (pos : ℕ) (buf : List UChar) :
    Option (Disk × FsFile × ℕ) :=
  if _ : buf = [] then some (disk, fs, 0)
  else match bmap (calls 0) disk fs pos buf.length with
    | none => none
    | some (disk, fs, none) => some (disk, fs, buf.length)
    | some (disk, fs, some (blkp, step)) =>
        if _ : step = 0 then none
        else writeLoop (fun call => calls (call + 1)) (disk.bcopy (buf.take step) blkp) fs
          (word (pos + step)) (buf.drop step)
termination_by buf.length
decreasing_by
  have := List.length_pos_iff.mpr ‹¬buf = []›
  rw [List.length_drop]
  omega

/-- A write that starts below the length and ends beyond it, but in the last sector of the file:
`bmap` finds the place and leaves the length alone. -/
def Straddles (fs : FsFile) (pos stop : ℕ) : Prop :=
  pos < fs.fsLen ∧ fs.fsLen < stop ∧ stop ≤ btors fs.fsLen * SECSZ

/-- A header that was settled before the end is straddled only if it is as it was. -/
theorem Straddles.of_settled {fs fs' : FsFile} {pos mid stop settledAt : ℕ} (laid : Laid fs')
    (straddles : Straddles fs' mid stop) (settled : Settled fs fs' settledAt)
    (outside : settledAt ≤ mid ∨ stop ≤ settledAt) (before : pos ≤ mid) :
    Straddles fs pos stop := by
  obtain ⟨low, high, inLast⟩ := straddles
  rcases settled with rfl | stops | full
  · exact ⟨by omega, high, inLast⟩
  · omega
  · rw [← laid.sectors_length, ← full] at inLast
    omega

/-- **What the loop of `do_write` leaves**: the file has the bytes that were written where they
were written and all the other bytes as before, and its length covers them but for a
write that straddles it. -/
theorem writeLoop_writes {calls : ℕ → BmapOutcome} {disk disk' : Disk} {fs fs' : FsFile}
    {pos left : ℕ} {buf : List UChar} (laid : Laid fs) (within : Within (pos + buf.length))
    (apart : (total disk fs).Nodup)
    (loop : writeLoop calls disk fs pos buf = some (disk', fs', left)) :
    left ≤ buf.length ∧ Longer disk fs disk' fs' ∧ Laid fs' ∧
      Settled fs fs' (pos + buf.length) ∧
      (∀ bytes, Holds disk fs bytes →
        Holds disk' fs' (overwrite bytes pos (buf.take (buf.length - left)))) ∧
      (left = 0 → buf ≠ [] →
        pos + buf.length ≤ fs'.fsLen ∨ Straddles fs pos (pos + buf.length)) := by
  induction size : buf.length using Nat.strong_induction_on generalizing calls disk fs pos buf with
  | _ n ih =>
  subst size
  rw [writeLoop.eq_def] at loop
  by_cases empty : buf = []
  · rw [dif_pos empty, Option.some.injEq, Prod.mk.injEq, Prod.mk.injEq] at loop
    obtain ⟨rfl, rfl, rfl⟩ := loop
    subst empty
    exact ⟨le_rfl, .refl _ _, laid, .inl rfl,
      fun _ holds => by simpa [overwrite_nil] using holds, by simp⟩
  have some_ := List.length_pos_iff.mpr empty
  rw [dif_neg empty] at loop
  cases map : bmap (calls 0) disk fs pos buf.length with
  | none => simp [map] at loop
  | some result =>
      obtain ⟨disk₁, fs₁, mapped⟩ := result
      obtain ⟨grown, laid₁, settled, found⟩ := bmap_maps laid within some_ map
      cases mapped with
      | none =>
          simp only [map, Option.some.injEq, Prod.mk.injEq] at loop
          obtain ⟨rfl, rfl, rfl⟩ := loop
          refine ⟨le_rfl, grown.toLonger, laid₁, settled, fun bytes holds => ?_,
            fun none => by omega⟩
          rw [Nat.sub_self, List.take_zero, overwrite_nil]
          exact grown.holds holds
      | some piece =>
          obtain ⟨addr, step⟩ := piece
          obtain ⟨positive, atMost, maps, reach⟩ := found addr step rfl
          simp only [map, dif_neg positive.ne'] at loop
          have next : word (pos + step) = pos + step := (within.mono (by omega)).word_eq
          rw [next] at loop
          have apart₁ : (total disk₁ fs₁).Nodup := by rwa [grown.total_eq]
          have copied : (total (disk₁.bcopy (buf.take step) addr) fs₁).Nodup := apart₁
          have taken : (buf.take step).length = step := by simpa using atMost
          have within₁ : Within (pos + step + (buf.drop step).length) :=
            within.mono (by rw [List.length_drop]; omega)
          have shorter : (buf.drop step).length < buf.length := by
            rw [List.length_drop]
            omega
          obtain ⟨fewer, longer, laid', settled', stored, covers⟩ :=
            ih _ shorter laid₁ within₁ copied loop rfl
          have stop : pos + step + (buf.length - step) = pos + buf.length := by omega
          rw [List.length_drop] at fewer covers stored settled'
          rw [stop] at settled'
          refine ⟨by omega, grown.toLonger.trans ⟨longer.sectors_prefix, longer.total_eq,
            longer.longer⟩, laid', settled.trans settled', fun bytes holds => ?_, fun done _ => ?_⟩
          · have maps' : Maps fs₁ pos addr (buf.take step).length := by rwa [taken]
            have here := stored _ (maps'.holds_bcopy apart₁ (grown.holds holds))
            have piece : buf.take (buf.length - left) =
                buf.take step ++ (buf.drop step).take (buf.length - step - left) := by
              rw [← List.take_add]
              congr 1
              omega
            rw [piece, ← overwrite_append, taken]
            exact here
          · by_cases last : buf.drop step = []
            · have whole : step = buf.length :=
                le_antisymm atMost (List.drop_eq_nil_iff.mp last)
              rcases reach with ⟨below, rfl⟩ | ⟨below, -⟩
              · have inside := place_isSome.mp
                  (Option.isSome_of_eq_some (maps (step - 1) (by omega)))
                rw [laid.sectors_length] at inside
                by_cases covered : pos + buf.length ≤ fs'.fsLen
                · exact .inl covered
                · have := longer.longer
                  exact .inr ⟨below, by omega, by omega⟩
              · have := longer.longer
                exact .inl (by omega)
            · rcases covers done last with below | straddles
              · exact .inl (by omega)
              · rw [stop] at straddles
                exact .inr (straddles.of_settled laid₁ settled (.inr le_rfl) (by omega))

end Vsta.Vstafs.Bytes
