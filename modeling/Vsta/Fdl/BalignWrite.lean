import Vsta.Fdl.BalignRead

/-!
# When an unaligned write is right

A write goes from block to block too, and reads a block first when only a part of it is to be
written. The count is moved on before the block is written, so that a write that fails or is short
counts as done; behind a short read the rest of the block buffer is what was there before, and is
written with it. A write is right when every block is stored (`Stored`) in one of the ways of
`WriteFine` (`write_iff`).
-/

set_option autoImplicit false

namespace Vsta.Balign

open Splice

variable {call : Call} {server : Server call}

/-! ## The condition -/

section Fine

variable (call : Call) (server : Server call)

/-- A block is only partly to be written, and is read first. -/
def Partial (c : ℤ) : Prop := c < 0 ∨ (call.nbyte : ℤ) < c + call.blockSize

/-- The first `x` bytes of the block are at hand, and the next message is the `k'`th. -/
inductive Got (k : ℕ) (c : ℤ) : ℤ → ℕ → Prop where
  | read : Partial call c → 0 ≤ server.reply k → Got k c (server.reply k) (k + 1)
  | whole : ¬Partial call c → Got k c call.blockSize k

/-- Of a block with `x` bytes at hand `w` are written: none behind those, and all that were counted,
where there are any. -/
def Stored (c x w : ℤ) : Prop :=
  w ≤ x ∧ (min (c + x) call.nbyte = max c 0 ∨ min (c + x) call.nbyte - c ≤ w)

/-- Behind a short block, nothing more is at hand. -/
def Aside (k : ℕ) (c : ℤ) : Prop :=
  Partial call c ∧ (server.reply k < 0 ∨ (server.reply k = 0 ∧ server.reply (k + 1) ≤ 0))

/-- The replies from the `k`th message on end a write well, when `c` bytes were written. -/
inductive WriteFine : ℕ → ℤ → Prop where
  | error {k : ℕ} {c : ℤ} : Partial call c → server.reply k < 0 → WriteFine k c
  | nothing {k : ℕ} {c : ℤ} : call.nbyte = 0 → 0 ≤ server.reply k → server.reply (k + 1) ≤ 0 →
      WriteFine k c
  | last {k k' : ℕ} {c x : ℤ} : 0 < call.nbyte → Got call server k c x k' → 0 ≤ c + x →
      Stored call c x (server.reply k') → call.nbyte ≤ c + x ∨ server.reply k' ≤ 0 →
      WriteFine k c
  | next {k k' : ℕ} {c : ℤ} : Got call server k c call.blockSize k' →
      server.reply k' = call.blockSize → c + call.blockSize < call.nbyte →
      WriteFine (k' + 1) (c + call.blockSize) → WriteFine k c
  | aside {k k' : ℕ} {c x : ℤ} : Got call server k c x k' → 0 ≤ c + x → x < call.blockSize →
      c + x < call.nbyte → Stored call c x (server.reply k') → 0 < server.reply k' →
      Aside call server (k' + 1) (c + x) → WriteFine k c

end Fine

/-! ## A write -/

/-- The device when `c` bytes were written. -/
def written (call : Call) (c : ℤ) (q : ℕ) : Sym :=
  if call.pos ≤ q ∧ (q : ℤ) < call.pos + c then .buf (q - call.pos) else .dev q

/-- What the block buffer can have from before: no byte of the device at or behind the block, and
no byte of the caller that is not written yet. -/
def Stale (apos : ℕ) (c : ℤ) (a : Sym) : Prop :=
  (∃ j, a = .junk j) ∨ (∃ q < apos, a = .dev q) ∨ ∃ j : ℕ, (j : ℤ) < c ∧ a = .buf j

theorem Stale.mono {apos apos' : ℕ} {c c' : ℤ} {a : Sym} (stale : Stale apos c a)
    (later : apos ≤ apos') (more : c ≤ c') : Stale apos' c' a := by
  rcases stale with junk | ⟨q, before, rfl⟩ | ⟨j, done, rfl⟩
  · exact .inl junk
  · exact .inr (.inl ⟨q, by omega, rfl⟩)
  · exact .inr (.inr ⟨j, by omega, rfl⟩)

/-- A write that has come to the `k`th message with `c` bytes, the blocks in step with them. -/
structure Writing (call : Call) (s : Io Sym) (k : ℕ) (c : ℤ) : Prop where
  sent : s.sent = k
  count : s.count = c
  place : (s.apos : ℤ) = call.pos + c
  least : -(call.blockSize : ℤ) < c
  most : c ≤ call.nbyte
  st : s.bufSt = (-c).toNat
  buf : s.buf = Sym.buf
  dev : s.dev = written call c
  old : ∀ i, Stale s.apos c (s.abuf i)

/-- A write whose next block is behind the place where it belongs. -/
structure Beside (call : Call) (s : Io Sym) (k : ℕ) (c : ℤ) : Prop where
  sent : s.sent = k
  count : s.count = c
  least : 0 ≤ c
  most : c < call.nbyte
  place : (call.pos : ℤ) + c < s.apos
  st : s.bufSt = 0
  buf : s.buf = Sym.buf
  dev : s.dev = written call c
  old : ∀ i, Stale s.apos c (s.abuf i)

theorem writing_start (call : Call) :
    Writing call (symbols call) 0 (alignDown call.pos call.blockSize - call.pos) := by
  obtain ⟨least, most⟩ := alignDown_spec call
  refine ⟨rfl, rfl, ?_, by omega, by omega, ?_, rfl, ?_, fun i => .inl ⟨i, rfl⟩⟩
  · change ((alignDown call.pos call.blockSize : ℕ) : ℤ) = _
    omega
  · change call.pos - alignDown call.pos call.blockSize = _
    omega
  · funext q
    exact (if_neg (by omega)).symm

/-- A write that ends with what it has. -/
theorem right_of_write {e : Io Sym} (dev : e.dev = written call e.count)
    (most : e.count ≤ call.nbyte) (ends : 0 < e.count ∨ e.x ≤ 0) :
    Right call false Sym.dev Sym.buf (finish call e) := by
  obtain ⟨result, few⟩ := finish_result call ends
  refine ⟨by omega, ?_, fun reading => absurd reading (by simp), fun q => ?_⟩
  · rw [result, finish_pos]
  · rw [result]
    refine (congrFun dev q).trans ?_
    rw [written]
    exact if_congr ⟨fun inside => ⟨rfl, inside.1, by omega⟩,
      fun inside => ⟨inside.2.1, by omega⟩⟩ rfl rfl

/-- A byte of the device that will not be written again is wrong: it is not the one of the caller,
and it was changed or was counted. -/
def BadWrite (call : Call) (s : Io Sym) : Prop :=
  ∃ q, (0 < s.x → q < s.apos) ∧
    (s.dev q ≠ .dev q ∨ (call.pos ≤ q ∧ (q : ℤ) < call.pos + s.count)) ∧
    (call.pos ≤ q → s.dev q ≠ .buf (q - call.pos))

theorem BadWrite.not_right {e : Io Sym} (bad : BadWrite call e) :
    ¬Right call false Sym.dev Sym.buf (finish call e) := by
  rintro right
  obtain ⟨q, -, differs, other⟩ := bad
  have result : (finish call e).result.toNat = e.count.toNat := by
    have moved := right.moved
    rw [finish_pos] at moved
    omega
  have kept : e.dev q = _ := right.kept q
  rw [result] at kept
  by_cases inside : call.pos ≤ q ∧ q < call.pos + e.count.toNat
  · rw [if_pos ⟨rfl, inside⟩] at kept
    exact other inside.1 kept
  · rw [if_neg fun all => inside all.2] at kept
    rcases differs with changed | ⟨least, counted⟩
    · exact changed kept
    · exact inside ⟨least, by omega⟩

/-! ## One block -/

section Block

variable {s : Io Sym} {k : ℕ} {c : ℤ}

theorem partial_iff (least : -(call.blockSize : ℤ) < s.count) (most : s.count ≤ call.nbyte) :
    (s.count < 0 ∨ unsigned (s.count + call.blockSize) > call.nbyte) ↔ Partial call s.count := by
  have size := call.blockSize_le
  have fits := call.fits
  rw [Partial, unsigned]
  omega

variable (call server) in
theorem block_write_error (part : Partial call s.count) (least : -(call.blockSize : ℤ) < s.count)
    (most : s.count ≤ call.nbyte) (error : server.reply s.sent < 0) :
    block call server false s = absRead call server s := by
  rw [block, if_neg (by simp), writeBlock, if_pos ((partial_iff least most).mpr part)]
  exact if_pos error

variable (call server) in
theorem block_write_part (part : Partial call s.count) (least : -(call.blockSize : ℤ) < s.count)
    (most : s.count ≤ call.nbyte) (reply : 0 ≤ server.reply s.sent) :
    block call server false s = storeBlock call server (offs s)
      (if 0 ≤ s.count + server.reply s.sent ∧ s.count + server.reply s.sent ≤ call.nbyte then
        s.count + server.reply s.sent else call.nbyte) (absRead call server s) := by
  have size := call.blockSize_le
  have fits := call.fits
  have few := server.most s.sent
  have x : (absRead call server s).x = server.reply s.sent := rfl
  have cap := capped_eq call (s.count + server.reply s.sent) (by omega)
    (by omega)
  rw [block, if_neg (by simp), writeBlock, if_pos ((partial_iff least most).mpr part)]
  dsimp only
  rw [x, if_neg (by omega), cap]
  exact if_neg (by split_ifs <;> omega)

variable (call server) in
theorem block_write_whole (whole : ¬Partial call s.count)
    (least : -(call.blockSize : ℤ) < s.count) (most : s.count ≤ call.nbyte) :
    block call server false s =
      storeBlock call server (offs s) (s.count + call.blockSize) s := by
  rw [block, if_neg (by simp), writeBlock, if_neg ((partial_iff least most).not.mpr whole)]

/-- What storing a block does. -/
structure Storing (call : Call) (s t : Io Sym) (at_ : ℕ) (done w : ℤ) : Prop where
  count : t.count = done
  x : t.x = w
  sent : t.sent = s.sent + 1
  place : 0 ≤ w → t.apos = s.apos + call.blockSize
  st : 0 ≤ w → t.bufSt = 0
  buf : t.buf = s.buf
  dev : t.dev = splice t.abuf 0 s.dev s.apos w.toNat
  abuf : t.abuf = splice s.buf at_ s.abuf s.bufSt (done.toNat - at_)

variable (call server s) in
theorem storing (at_ : ℕ) (count : ℤ) :
    Storing call s (storeBlock call server at_ count s) at_ count (server.reply s.sent) := by
  rw [storeBlock]
  have x : (absWrite call server
      { s with
        count := count
        abuf := splice s.buf at_ s.abuf s.bufSt (count.toNat - at_) }).x =
          server.reply s.sent := rfl
  rw [x]
  split_ifs with error
  · exact ⟨rfl, rfl, rfl, fun done => absurd done (by omega), fun done => absurd done (by omega),
      rfl, rfl, rfl⟩
  · exact ⟨rfl, rfl, rfl, fun _ => rfl, fun _ => rfl, rfl, rfl, rfl⟩

/-- A block with `x` bytes at hand: those of the device, but where the ones of the caller go. -/
structure Ready (call : Call) (s : Io Sym) (c x : ℤ) : Prop where
  place : (s.apos : ℤ) = call.pos + c
  least : -(call.blockSize : ℤ) < c
  most : c ≤ call.nbyte
  some_ : 0 ≤ x
  few : x ≤ call.blockSize
  st : s.bufSt = (-c).toNat
  buf : s.buf = Sym.buf
  dev : s.dev = written call c
  hand : ∀ i : ℕ, (i : ℤ) < x → (i : ℤ) < -c ∨ min (c + x) call.nbyte - c ≤ i →
    s.abuf i = .dev (s.apos + i)
  old : ∀ i : ℕ, x ≤ i → Stale s.apos c (s.abuf i)

theorem Writing.ready_part (server : Server call) (r : Writing call s k c)
    (reply : 0 ≤ server.reply k) :
    Ready call (absRead call server s) c (server.reply k) where
  place := r.place
  least := r.least
  most := r.most
  some_ := reply
  few := server.most k
  st := r.st
  buf := r.buf
  dev := r.dev
  hand i inside _ := by
    have place := r.place
    simp only [absRead]
    rw [r.sent, splice_inside (Nat.zero_le i) (by omega), r.dev, Nat.sub_zero, written,
      if_neg (by push_cast; omega)]
  old i behind := by
    simp only [absRead]
    rw [r.sent, splice_outside (.inr (by omega))]
    exact r.old i

theorem Writing.ready_whole (r : Writing call s k c) (whole : ¬Partial call c) :
    Ready call s c call.blockSize where
  place := r.place
  least := r.least
  most := r.most
  some_ := Int.natCast_nonneg _
  few := le_rfl
  st := r.st
  buf := r.buf
  dev := r.dev
  hand i inside out := by
    rw [Partial] at whole
    omega
  old i _ := r.old i

variable {t : Io Sym} {x w : ℤ} {at_ : ℕ}

/-- What the block buffer has of the caller. -/
theorem Storing.abuf_get {done : ℤ} (st : Storing call s t at_ done w) (ready : Ready call s c x)
    (start : (at_ : ℤ) = max c 0) (grows : max c 0 ≤ done) (i : ℕ) :
    ((-c ≤ i ∧ i < done - c) ∧ t.abuf i = .buf (s.apos + i - call.pos)) ∨
      (¬(-c ≤ i ∧ i < done - c) ∧ t.abuf i = s.abuf i) := by
  have place := ready.place
  have begin_ := ready.st
  rw [st.abuf, ready.buf]
  by_cases inside : -c ≤ i ∧ (i : ℤ) < done - c
  · refine .inl ⟨inside, ?_⟩
    rw [splice_inside (by omega) (by omega)]
    exact congrArg Sym.buf (by omega)
  · exact .inr ⟨inside, splice_outside (by omega)⟩

/-- What the device has. -/
theorem Storing.dev_get {done : ℤ} (st : Storing call s t at_ done w) (q : ℕ) :
    ((s.apos ≤ q ∧ (q : ℤ) < s.apos + w) ∧ t.dev q = t.abuf (q - s.apos)) ∨
      (¬(s.apos ≤ q ∧ (q : ℤ) < s.apos + w) ∧ t.dev q = s.dev q) := by
  rw [st.dev]
  by_cases inside : s.apos ≤ q ∧ (q : ℤ) < s.apos + w
  · refine .inl ⟨inside, ?_⟩
    rw [splice_inside inside.1 (by omega), Nat.zero_add]
  · exact .inr ⟨inside, splice_outside (by omega)⟩

/-- **A block that is stored.** -/
theorem Storing.good (st : Storing call s t at_ (min (c + x) call.nbyte) w)
    (ready : Ready call s c x) (start : (at_ : ℤ) = max c 0) (reaches : 0 ≤ c + x)
    (stored : Stored call c x w) : t.dev = written call (min (c + x) call.nbyte) := by
  have place := ready.place
  have most := ready.most
  have some_ := ready.some_
  obtain ⟨kept, counted⟩ := stored
  funext q
  rcases st.dev_get q with ⟨⟨least, below⟩, value⟩ | ⟨out, value⟩
  · rcases st.abuf_get ready start (by omega) (q - s.apos) with ⟨⟨low, high⟩, here⟩ | ⟨other, here⟩
    · rw [value, here, written, if_pos (by omega)]
      exact congrArg Sym.buf (by omega)
    · rw [value, here, ready.hand (q - s.apos) (by omega) (by omega), written, if_neg (by omega)]
      exact congrArg Sym.dev (by omega)
  · rw [value, ready.dev, written, written]
    refine if_congr ?_ rfl rfl
    omega

/-- **A block that is not stored leaves a wrong byte.** -/
theorem Storing.bad (st : Storing call s t at_ (min (c + x) call.nbyte) w)
    (ready : Ready call s c x) (start : (at_ : ℤ) = max c 0) (reaches : 0 ≤ c + x)
    (most : w ≤ call.blockSize) (unstored : ¬Stored call c x w) : BadWrite call t := by
  have place := ready.place
  have high := ready.most
  have some_ := ready.some_
  have few := ready.few
  have low := ready.least
  have count := st.count
  have onward_ : 0 < t.x → t.apos = s.apos + call.blockSize := fun more =>
    st.place (by rw [st.x] at more; omega)
  by_cases garbage : w ≤ x
  · -- A byte is counted, and not written.
    have lost : ¬(min (c + x) call.nbyte = max c 0 ∨ min (c + x) call.nbyte - c ≤ w) :=
      fun counted => unstored ⟨garbage, counted⟩
    obtain ⟨q, place_q⟩ : ∃ q : ℕ, (q : ℤ) = s.apos + max w (max (-c) 0) :=
      ⟨_, Int.toNat_of_nonneg (by omega)⟩
    rcases st.dev_get q with ⟨inside, -⟩ | ⟨-, value⟩
    · omega
    · have kept : t.dev q = .dev q := by
        rw [value, ready.dev, written, if_neg (by omega)]
      refine ⟨q, fun more => ?_, .inr ⟨by omega, by omega⟩, fun _ => ?_⟩
      · rw [onward_ more]
        omega
      · rw [kept]
        simp
  · -- What the block buffer had before is written.
    obtain ⟨i, rfl⟩ := Int.eq_ofNat_of_zero_le some_
    rcases st.dev_get (s.apos + i) with ⟨-, value⟩ | ⟨out, -⟩
    · rcases st.abuf_get ready start (by omega) i with ⟨inside, -⟩ | ⟨-, here⟩
      · omega
      · have stale := ready.old i le_rfl
        rw [Nat.add_sub_cancel_left, here] at value
        rw [← value] at stale
        refine ⟨s.apos + i, fun more => ?_, .inl ?_, fun _ => ?_⟩
        · rw [onward_ more]
          omega
        · rintro same
          rw [same] at stale
          rcases stale with ⟨j, junk⟩ | ⟨q, before, dev⟩ | ⟨j, -, buf⟩
          · exact absurd junk (by simp)
          · have := Sym.dev.inj dev
            omega
          · exact absurd buf (by simp)
        · rintro same
          rw [same] at stale
          rcases stale with ⟨j, junk⟩ | ⟨q, -, dev⟩ | ⟨j, before, buf⟩
          · exact absurd junk (by simp)
          · exact absurd dev (by simp)
          · have := Sym.buf.inj buf
            omega
    · omega

/-- A block with too little at hand to come as far as the position is counted as the whole. -/
theorem Storing.overrun (st : Storing call s t at_ call.nbyte w) (ready : Ready call s c x)
    (start : (at_ : ℤ) = max c 0) (shortOf : c + x < 0) (most : w ≤ call.blockSize)
    (some_ : 0 < call.nbyte) : BadWrite call t := by
  have place := ready.place
  have low := ready.least
  have nonneg := ready.some_
  have count := st.count
  have onward_ : 0 < t.x → t.apos = s.apos + call.blockSize := fun more =>
    st.place (by rw [st.x] at more; omega)
  by_cases garbage : w ≤ x
  · rcases st.dev_get call.pos with ⟨inside, -⟩ | ⟨-, value⟩
    · omega
    · have kept : t.dev call.pos = .dev call.pos := by
        rw [value, ready.dev, written, if_neg (by omega)]
      refine ⟨call.pos, fun more => ?_, .inr ⟨le_rfl, by omega⟩, fun _ => ?_⟩
      · rw [onward_ more]
        omega
      · rw [kept]
        simp
  · obtain ⟨i, rfl⟩ := Int.eq_ofNat_of_zero_le nonneg
    rcases st.dev_get (s.apos + i) with ⟨-, value⟩ | ⟨out, -⟩
    · rcases st.abuf_get ready start (by omega) i with ⟨inside, -⟩ | ⟨-, here⟩
      · omega
      · have stale := ready.old i le_rfl
        rw [Nat.add_sub_cancel_left, here] at value
        rw [← value] at stale
        refine ⟨s.apos + i, fun more => ?_, .inl ?_, fun least => absurd least (by omega)⟩
        · rw [onward_ more]
          omega
        · rintro same
          rw [same] at stale
          rcases stale with ⟨j, junk⟩ | ⟨q, before, dev⟩ | ⟨j, -, buf⟩
          · exact absurd junk (by simp)
          · have := Sym.dev.inj dev
            omega
          · exact absurd buf (by simp)
    · omega

/-- What the block buffer has behind a block. -/
theorem Storing.old {done : ℤ} (st : Storing call s t at_ done w) (ready : Ready call s c x)
    (start : (at_ : ℤ) = max c 0) (grows : max c 0 ≤ done)
    (hand : ∀ i, Stale (s.apos + call.blockSize) done (s.abuf i)) (i : ℕ) :
    Stale (s.apos + call.blockSize) done (t.abuf i) := by
  have place := ready.place
  rcases st.abuf_get ready start grows i with ⟨inside, here⟩ | ⟨-, here⟩
  · rw [here]
    exact .inr (.inr ⟨_, by omega, rfl⟩)
  · rw [here]
    exact hand i

end Block

/-! ## Writes that go wrong stay wrong -/

section Wrong

variable {s e : Io Sym}

/-- What a pass of the loop leaves as it is. -/
theorem block_write_keeps (server : Server call) (least : 0 ≤ s.count)
    (most : s.count ≤ call.nbyte) :
    (∀ q, q < s.apos → (block call server false s).dev q = s.dev q) ∧
      s.count ≤ (block call server false s).count ∧
      (block call server false s).count ≤ call.nbyte ∧
      (0 < (block call server false s).x → s.apos ≤ (block call server false s).apos) := by
  have pos := call.blockSize_pos
  have low : -(call.blockSize : ℤ) < s.count := by omega
  have store : ∀ {s' t : Io Sym} {at_ : ℕ} {done w : ℤ}, Storing call s' t at_ done w →
      s'.apos = s.apos → s'.dev = s.dev → s.count ≤ done → done ≤ call.nbyte →
      (∀ q, q < s.apos → t.dev q = s.dev q) ∧ s.count ≤ t.count ∧ t.count ≤ call.nbyte ∧
        (0 < t.x → s.apos ≤ t.apos) := by
    intro s' t at_ done w st same same' more room
    refine ⟨fun q before => ?_, more.trans st.count.ge, st.count.trans_le room, fun next => ?_⟩
    · rw [st.dev, splice_outside (.inl (by omega)), same']
    · rw [st.x] at next
      rw [st.place next.le, same]
      omega
  by_cases part : Partial call s.count
  · by_cases error : server.reply s.sent < 0
    · rw [block_write_error call server part low most error]
      exact ⟨fun _ _ => rfl, le_rfl, most, fun _ => le_rfl⟩
    · rw [block_write_part call server part low most (by omega)]
      refine store (storing call server _ _ _) rfl rfl ?_ ?_ <;> split_ifs <;> omega
  · rw [block_write_whole call server part low most]
    rw [Partial] at part
    exact store (storing call server _ _ _) rfl rfl (by omega) (by omega)

theorem BadWrite.run {fuel : ℕ} (bad : BadWrite call s) (least : 0 ≤ s.count)
    (most : s.count ≤ call.nbyte) (more : 0 < s.x)
    (ends : loop call server false fuel s = some e) :
    ¬Right call false Sym.dev Sym.buf (finish call e) := by
  induction fuel generalizing s with
  | zero => simp [loop] at ends
  | succ fuel ih =>
      obtain ⟨kept, grows, room, later⟩ := block_write_keeps server least most
      have still : BadWrite call (block call server false s) := by
        obtain ⟨q, before, differs, other⟩ := bad
        have same := kept q (before more)
        refine ⟨q, fun next => (before more).trans_le (later next), ?_, ?_⟩
        · rw [same]
          exact differs.imp id fun counted => ⟨counted.1, by omega⟩
        · rw [same]
          exact other
      rw [loop] at ends
      split_ifs at ends with next
      · exact ih still (by omega) room next.2 ends
      · rw [← Option.some.inj ends]
        exact still.not_right

end Wrong

/-! ## The replies -/

section Replies

variable {s e : Io Sym} {k k' : ℕ} {c x : ℤ}

/-- A block that leaves a wrong byte. -/
theorem BadWrite.pass {fuel : ℕ} (bad : BadWrite call (block call server false s))
    (least : 0 ≤ (block call server false s).count)
    (most : (block call server false s).count ≤ call.nbyte)
    (ends : loop call server false fuel s = some e) :
    ¬Right call false Sym.dev Sym.buf (finish call e) := by
  cases fuel with
  | zero => simp [loop] at ends
  | succ fuel =>
      rw [loop] at ends
      split_ifs at ends with next
      · exact bad.run least most next.2 ends
      · rw [← Option.some.inj ends]
        exact bad.not_right

theorem offs_eq (count : s.count = c) : (offs s : ℤ) = max c 0 := by
  rw [offs]
  split_ifs <;> omega

/-- The block that is stored when a write is in step. -/
theorem Writing.storing (r : Writing call s k c) (got : Got call server k c x k') :
    ∃ s', Ready call s' c x ∧ s'.apos = s.apos ∧ s'.sent = k' ∧
      (∀ i, Stale (s.apos + call.blockSize) c (s'.abuf i)) ∧
      Storing call s' (block call server false s) (offs s)
        (if 0 ≤ c + x then min (c + x) call.nbyte else call.nbyte) (server.reply k') := by
  have least := r.least
  have most := r.most
  have count := r.count
  cases got with
  | read part reply =>
      have ready := r.ready_part server reply
      refine ⟨_, ready, rfl, congrArg (· + 1) r.sent, fun i => ?_, ?_⟩
      · by_cases inside : (i : ℤ) < server.reply k
        · have few := ready.few
          have place := r.place
          refine .inr (.inl ⟨s.apos + i, by omega, ?_⟩)
          simp only [absRead]
          rw [r.sent, splice_inside (Nat.zero_le i) (by omega), r.dev, Nat.sub_zero, written,
            if_neg (by push_cast; omega)]
        · exact (ready.old i (by omega)).mono (Nat.le_add_right _ _) le_rfl
      · have st := Balign.storing call server (absRead call server s)
          (offs s) (if 0 ≤ c + server.reply k then min (c + server.reply k) call.nbyte
            else call.nbyte)
        have sent : (absRead call server s).sent = k + 1 := congrArg (· + 1) r.sent
        rw [sent] at st
        rw [block_write_part call server (by rwa [count]) (by omega) (by omega)
          (by rwa [r.sent]), count, r.sent]
        have same : (if 0 ≤ c + server.reply k ∧ c + server.reply k ≤ call.nbyte then
            c + server.reply k else (call.nbyte : ℤ)) =
              if 0 ≤ c + server.reply k then min (c + server.reply k) call.nbyte
                else call.nbyte := by
          split_ifs <;> omega
        rw [same]
        exact st
  | whole whole =>
      refine ⟨s, r.ready_whole whole, rfl, r.sent, fun i =>
        (r.old i).mono (Nat.le_add_right _ _) le_rfl, ?_⟩
      have st := Balign.storing call server s (offs s)
        (c + call.blockSize)
      rw [r.sent] at st
      rw [block_write_whole call server (by rwa [count]) (by omega) (by omega), count]
      rw [Partial] at whole
      have same : (if 0 ≤ c + (call.blockSize : ℤ) then min (c + call.blockSize) call.nbyte
          else (call.nbyte : ℤ)) = c + call.blockSize := by
        split_ifs <;> omega
      rw [same]
      exact st

/-- In step with the blocks again. -/
theorem Writing.step (r : Writing call s k c) (got : Got call server k c call.blockSize k')
    (whole : server.reply k' = call.blockSize) (more : c + call.blockSize < call.nbyte) :
    Writing call (block call server false s) (k' + 1) (c + call.blockSize) ∧
      (block call server false s).x = call.blockSize := by
  have pos := call.blockSize_pos
  have least := r.least
  have place := r.place
  obtain ⟨s', ready, same, sent, hand, st⟩ := r.storing got
  rw [if_pos (by omega), min_eq_left (by omega)] at st
  have behind := st.place (by omega)
  have stored : Stored call c call.blockSize (server.reply k') :=
    ⟨whole.le, .inr (by omega)⟩
  have done : min (c + (call.blockSize : ℤ)) call.nbyte = c + call.blockSize :=
    min_eq_left (by omega)
  have good := Storing.good (done ▸ st) ready (offs_eq r.count) (by omega) stored
  rw [done] at good
  refine ⟨⟨st.sent.trans (by rw [sent]), st.count, ?_, by omega, by omega, ?_,
    st.buf.trans ready.buf, good, fun i => ?_⟩, st.x.trans whole⟩
  · rw [behind]
    push_cast
    omega
  · rw [st.st (by omega)]
    omega
  · rw [behind, same]
    have late := st.old ready (offs_eq r.count) (by omega)
      (fun i => by rw [same]; exact (hand i).mono le_rfl (by omega)) i
    rwa [same] at late

/-- Beside the blocks, after a short one. -/
theorem Writing.beside (r : Writing call s k c) (got : Got call server k c x k')
    (reaches : 0 ≤ c + x) (few : x < call.blockSize) (room : c + x < call.nbyte)
    (stored : Stored call c x (server.reply k')) (more : 0 < server.reply k') :
    Beside call (block call server false s) (k' + 1) (c + x) ∧
      (block call server false s).x = server.reply k' := by
  have place := r.place
  obtain ⟨s', ready, same, sent, hand, st⟩ := r.storing got
  have done : (if 0 ≤ c + x then min (c + x) call.nbyte else (call.nbyte : ℤ)) = c + x := by
    rw [if_pos reaches]
    exact min_eq_left (by omega)
  have done' : min (c + x) (call.nbyte : ℤ) = c + x := min_eq_left (by omega)
  have some_ := ready.some_
  rw [done] at st
  have behind := st.place more.le
  have good := Storing.good (done'.symm ▸ st) ready (offs_eq r.count) reaches stored
  rw [done'] at good
  refine ⟨⟨st.sent.trans (by rw [sent]), st.count, reaches, room, ?_, st.st more.le,
    st.buf.trans ready.buf, good, fun i => ?_⟩, st.x⟩
  · rw [behind, same]
    push_cast
    omega
  · rw [behind, same]
    have late := st.old ready (offs_eq r.count) (by omega)
      (fun i => by rw [same]; exact (hand i).mono le_rfl (by omega)) i
    rwa [same] at late

/-- Behind a short block, with nothing more at hand. -/
theorem Beside.right (r : Beside call s k c) (aside : Aside call server k c) :
    ∃ fuel e, loop call server false fuel s = some e ∧
      Right call false Sym.dev Sym.buf (finish call e) := by
  have pos := call.blockSize_pos
  have least := r.least
  have most := r.most
  have count := r.count
  obtain ⟨part, error | ⟨zero, last⟩⟩ := aside
  · have block := block_write_error call server (s := s)
      (by rwa [count]) (by omega) (by omega) (by rwa [r.sent])
    have x : (absRead call server s).x = server.reply k := by rw [← r.sent]; rfl
    refine ⟨1, _, loop_done ?_, right_of_write ?_ ?_ ?_⟩
    all_goals rw [block]
    · rw [x]
      omega
    · exact r.dev.trans (by rw [← count]; rfl)
    · exact r.count.trans_le most.le
    · exact .inr (by rw [x]; omega)
  · have block := block_write_part call server (s := s)
      (by rwa [count]) (by omega) (by omega) (by rw [r.sent]; exact zero.ge)
    have same : (if 0 ≤ s.count + server.reply s.sent ∧
        s.count + server.reply s.sent ≤ call.nbyte then
          s.count + server.reply s.sent else (call.nbyte : ℤ)) = c := by
      rw [r.sent, zero, count, if_pos (by omega)]
      omega
    rw [same] at block
    have st := storing call server (absRead call server s) (offs s) c
    have sent : (absRead call server s).sent = k + 1 := congrArg (· + 1) r.sent
    rw [sent, ← block] at st
    have x := st.x
    have dev := st.dev
    rw [Int.toNat_of_nonpos last, splice_zero] at dev
    refine ⟨1, _, loop_done (by rw [x]; omega), right_of_write ?_ ?_ ?_⟩
    · rw [st.count]
      exact dev.trans r.dev
    · rw [st.count]
      exact most.le
    · exact .inr (by omega)

/-- A write that ends well behind a short block had nothing more at hand. -/
theorem Beside.aside {fuel : ℕ} (r : Beside call s k c)
    (ends : loop call server false fuel s = some e)
    (right : Right call false Sym.dev Sym.buf (finish call e)) : Aside call server k c := by
  have pos := call.blockSize_pos
  have least := r.least
  have most := r.most
  have count := r.count
  have place := r.place
  obtain ⟨kept, grows, room, later⟩ := block_write_keeps server (s := s)
    (by omega) (by omega)
  -- Whatever is counted belongs in front of the block.
  have lost : c < (block call server false s).count →
      BadWrite call (block call server false s) := by
    intro more
    obtain ⟨q, place_q⟩ := Int.eq_ofNat_of_zero_le (show 0 ≤ (call.pos : ℤ) + c by omega)
    have same : (block call server false s).dev q = .dev q := by
      rw [kept q (by omega), r.dev, written, if_neg (by omega)]
    refine ⟨q, fun next => (by omega : q < s.apos).trans_le (later next), .inr ⟨by omega, by omega⟩,
      fun _ => ?_⟩
    rw [same]
    simp
  have fails : ¬BadWrite call (block call server false s) := fun bad =>
    bad.pass (by omega) room ends right
  by_cases part : Partial call c
  · refine ⟨part, ?_⟩
    by_cases error : server.reply k < 0
    · exact .inl error
    · have block := block_write_part call server (s := s)
        (by rwa [count]) (by omega) (by omega) (by rw [r.sent]; omega)
      rw [r.sent, count] at block
      have st := storing call server (absRead call server s) (offs s)
        (if 0 ≤ c + server.reply k ∧ c + server.reply k ≤ call.nbyte then c + server.reply k
          else (call.nbyte : ℤ))
      have sent : (absRead call server s).sent = k + 1 := congrArg (· + 1) r.sent
      rw [sent, ← block] at st
      by_cases some_ : 0 < server.reply k
      · refine absurd (lost ?_) fails
        rw [st.count]
        split_ifs <;> omega
      · have zero : server.reply k = 0 := by omega
        refine .inr ⟨zero, le_of_not_gt fun more => fails ?_⟩
        have stale : Stale s.apos c ((Balign.block call server false s).dev s.apos) := by
          have at_ := offs_eq count
          have here : (absRead call server s).apos = s.apos := rfl
          rw [st.dev, here, splice_inside le_rfl (by omega), st.abuf, splice_outside (.inr ?_)]
          · simp only [absRead]
            rw [r.sent, zero, Int.toNat_zero, splice_zero]
            exact r.old _
          · have begin_ := r.st
            simp only [absRead]
            rw [zero]
            split_ifs <;> omega
        have x := st.x
        have behind := st.place more.le
        refine ⟨s.apos, fun _ => ?_, .inl ?_, fun _ => ?_⟩
        · rw [behind]
          simp only [absRead]
          omega
        · intro same
          rw [same] at stale
          rcases stale with ⟨j, junk⟩ | ⟨q, before, dev⟩ | ⟨j, -, buf⟩
          · exact absurd junk (by simp)
          · have := Sym.dev.inj dev
            omega
          · exact absurd buf (by simp)
        · intro same
          rw [same] at stale
          rcases stale with ⟨j, junk⟩ | ⟨q, -, dev⟩ | ⟨j, before, buf⟩
          · exact absurd junk (by simp)
          · exact absurd dev (by simp)
          · have := Sym.buf.inj buf
            omega
  · refine absurd (lost ?_) fails
    have block := block_write_whole call server (s := s)
      (by rwa [count]) (by omega) (by omega)
    have st := storing call server s (offs s)
      (s.count + call.blockSize)
    rw [← block] at st
    rw [st.count]
    omega

/-- The write is right when its replies are fine. -/
theorem Writing.right (r : Writing call s k c) (fine : WriteFine call server k c) :
    ∃ fuel e, loop call server false fuel s = some e ∧
      Right call false Sym.dev Sym.buf (finish call e) := by
  have pos := call.blockSize_pos
  have size := call.blockSize_le
  have fits := call.fits
  induction fine generalizing s with
  | @error k c part error =>
      have least := r.least
      have most := r.most
      have count := r.count
      have pass := block_write_error call server (s := s)
        (by rwa [count]) (by omega) (by omega) (by rwa [r.sent])
      have x : (absRead call server s).x = server.reply k := by rw [← r.sent]; rfl
      refine ⟨1, _, loop_done ?_, right_of_write ?_ ?_ ?_⟩
      all_goals rw [pass]
      · rw [x]
        omega
      · exact r.dev.trans (by rw [← count]; rfl)
      · exact count.trans_le most
      · exact .inr (by rw [x]; omega)
  | @nothing k c none_ reply last =>
      have least := r.least
      have most := r.most
      have part : Partial call c := by
        rw [Partial]
        omega
      obtain ⟨s', ready, -, -, -, st⟩ := r.storing (.read part reply)
      have count := st.count
      have x := st.x
      have dev := st.dev
      rw [Int.toNat_of_nonpos last, splice_zero, ready.dev] at dev
      have zero : (block call server false s).count = 0 := by
        rw [count, none_]
        split_ifs <;> omega
      refine ⟨1, _, loop_done (by rw [x]; omega), right_of_write ?_ ?_ (.inr (by omega))⟩
      · rw [zero, dev]
        funext q
        rw [written, written, if_neg (by omega), if_neg (by omega)]
      · omega
  | @last k k' c x some_ got reaches stored ends =>
      obtain ⟨s', ready, -, -, -, st⟩ := r.storing got
      rw [if_pos reaches] at st
      have count := st.count
      have reply := st.x
      refine ⟨1, _, loop_done ?_, right_of_write ?_ ?_ ?_⟩
      · rw [more_iff (by omega) (by omega), count]
        omega
      · rw [count]
        exact st.good ready (offs_eq r.count) reaches stored
      · omega
      · omega
  | @next k k' c got whole more _ ih =>
      have least := r.least
      obtain ⟨next, x⟩ := r.step got whole more
      obtain ⟨fuel, e, ends, right⟩ := ih next
      have count := next.count
      refine ⟨fuel + 1, e, ?_, right⟩
      rw [loop_more ⟨(more_iff (by omega) (by omega)).mpr (by omega), by omega⟩, ends]
  | @aside k k' c x got reaches few room stored more aside =>
      obtain ⟨beside, x'⟩ := r.beside got reaches few room stored more
      obtain ⟨fuel, e, ends, right⟩ := beside.right aside
      have count := beside.count
      refine ⟨fuel + 1, e, ?_, right⟩
      rw [loop_more ⟨(more_iff (by omega) (by omega)).mpr (by omega), by omega⟩, ends]

/-- A write that ends well has such replies. -/
theorem Writing.fine {fuel : ℕ} (r : Writing call s k c)
    (ends : loop call server false fuel s = some e)
    (right : Right call false Sym.dev Sym.buf (finish call e)) : WriteFine call server k c := by
  have pos := call.blockSize_pos
  have size := call.blockSize_le
  have fits := call.fits
  induction fuel generalizing s k c with
  | zero => simp [loop] at ends
  | succ fuel ih =>
      have least := r.least
      have most := r.most
      have ends' := ends
      rw [loop] at ends
      have got : (Partial call c ∧ server.reply k < 0) ∨
          ∃ x k', Got call server k c x k' := by
        by_cases part : Partial call c
        · by_cases error : server.reply k < 0
          · exact .inl ⟨part, error⟩
          · exact .inr ⟨_, _, .read part (by omega)⟩
        · exact .inr ⟨_, _, .whole part⟩
      rcases got with ⟨part, error⟩ | ⟨x, k', got⟩
      · exact .error part error
      obtain ⟨s', ready, -, -, -, st⟩ := r.storing got
      have count := st.count
      have reply := st.x
      have bound := server.most k'
      by_cases none_ : call.nbyte = 0
      · have part : Partial call c := by
          rw [Partial]
          omega
        have zero : (block call server false s).count = 0 := by
          rw [count, none_]
          split_ifs <;> omega
        rw [if_neg (by rw [none_]; omega)] at ends
        obtain rfl := Option.some.inj ends
        cases got with
        | read _ at_hand =>
            refine .nothing none_ at_hand ?_
            have moved := right.moved
            simp only [finish, zero, reply] at moved
            norm_num at moved
            omega
        | whole whole => exact absurd part whole
      by_cases low : c + x < 0
      · rw [if_neg (by omega)] at st count
        have bad := st.overrun ready (offs_eq r.count) low bound (by omega)
        exact absurd right (bad.pass (by omega) count.le ends')
      rw [if_pos (by omega)] at st count
      by_cases stored : Stored call c x (server.reply k')
      swap
      · have bad := st.bad ready (offs_eq r.count) (by omega) bound stored
        exact absurd right (bad.pass (by omega) (by omega) ends')
      by_cases last : (call.nbyte : ℤ) ≤ c + x ∨ server.reply k' ≤ 0
      · exact .last (by omega) got (by omega) stored last
      rw [if_pos ⟨(more_iff (by omega) (by omega)).mpr (by omega), by omega⟩] at ends
      have few := ready.few
      by_cases whole : x = call.blockSize
      · subst whole
        have all : server.reply k' = call.blockSize := by
          rw [Stored] at stored
          omega
        exact .next got all (by omega) (ih (r.step got all (by omega)).1 ends)
      · have beside := (r.beside got (by omega) (by omega) (by omega) stored (by omega)).1
        exact .aside got (by omega) (by omega) (by omega) stored (by omega)
          (beside.aside ends right)

end Replies

/-- **A write is right for all contents exactly when its replies are fine.** -/
theorem write_iff (call : Call) (server : Server call) :
    (∀ dev buf junk : ℕ → UChar, Meets call server false none dev buf junk) ↔
      WriteFine call server 0 (alignDown call.pos call.blockSize - call.pos) := by
  rw [meets_iff_symbols]
  constructor
  · rintro ⟨fuel, o, done, right⟩
    obtain ⟨e, ends, rfl⟩ := Option.map_eq_some_iff.mp done
    exact (writing_start call).fine ends right
  · intro fine
    obtain ⟨fuel, e, ends, right⟩ := (writing_start call).right fine
    exact ⟨fuel, finish call e, congrArg (Option.map (finish call)) ends, right⟩

/-! ## Both -/

/-- The replies end a call well. Without memory the result has to be none by chance. -/
def Fine (call : Call) (server : Server call) (doRead : Bool) (memory : Option ℤ) : Prop :=
  match memory with
  | some x => x ≤ 0
  | none =>
      if doRead then ReadFine call server 0 (alignDown call.pos call.blockSize - call.pos)
      else WriteFine call server 0 (alignDown call.pos call.blockSize - call.pos)

/-- A read of ten bytes at 10, over blocks of 512 bytes. -/
def tenBytes : Call where
  blockSize := 512
  pos := 10
  nbyte := 10
  power := ⟨9, by decide, rfl⟩
  fits := by decide

end Vsta.Balign
