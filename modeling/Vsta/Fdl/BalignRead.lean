import Vsta.Fdl.Balign

/-!
# When an unaligned read is right

A read goes from block to block while the replies are whole blocks. It is right when the reply that
ends it does so in one of the ways of `ReadFine`: in particular, the first reply has to come as far
as the position of the file, since a count that is still negative passes for a large one, and behind
a short reply there has to be nothing more, since the next block is put directly behind it
(`read_iff`).
-/

set_option autoImplicit false

namespace Vsta.Balign

open Splice

/-- The replies from the `k`th message on end a read well, when `c` bytes were read. Before the
first block that is minus the offset in it. -/
inductive ReadFine (call : Call) (server : Server call) : ℕ → ℤ → Prop where
  | error {k : ℕ} {c : ℤ} : server.reply k < 0 → ReadFine call server k c
  | nothing {k : ℕ} {c : ℤ} : server.reply k = 0 → 0 ≤ c ∨ call.nbyte = 0 →
      ReadFine call server k c
  | done {k : ℕ} {c : ℤ} : 0 < call.nbyte → call.nbyte ≤ c + server.reply k →
      ReadFine call server k c
  | short {k : ℕ} {c : ℤ} : 0 < server.reply k → server.reply k < call.blockSize →
      0 ≤ c + server.reply k → c + server.reply k < call.nbyte → server.reply (k + 1) ≤ 0 →
      ReadFine call server k c
  | next {k : ℕ} {c : ℤ} : server.reply k = call.blockSize → c + call.blockSize < call.nbyte →
      ReadFine call server (k + 1) (c + call.blockSize) → ReadFine call server k c

variable {call : Call} {server : Server call}

/-! ## Counts -/

theorem Call.blockSize_pos (call : Call) : 0 < call.blockSize := by
  obtain ⟨k, -, size⟩ := call.power
  rw [size]
  exact Nat.two_pow_pos k

theorem Call.blockSize_le (call : Call) : call.blockSize ≤ 2 ^ 30 := by
  obtain ⟨k, small, size⟩ := call.power
  rw [size]
  exact Nat.pow_le_pow_right (by decide) small

/-- Where the first block starts. -/
theorem alignDown_spec (call : Call) :
    alignDown call.pos call.blockSize ≤ call.pos ∧
      call.pos < alignDown call.pos call.blockSize + call.blockSize := by
  obtain ⟨k, -, size⟩ := call.power
  have small : call.pos % 2 ^ k < 2 ^ k := Nat.mod_lt _ (Nat.two_pow_pos k)
  have least : call.pos % 2 ^ k ≤ call.pos := Nat.mod_le _ _
  rw [alignDown, size, Nat.and_two_pow_sub_one_eq_mod]
  omega

variable (call) in
theorem capped_eq (count : ℤ) (least : -2 ^ 31 ≤ count) (most : count < 2 ^ 32) :
    capped call count = if 0 ≤ count ∧ count ≤ call.nbyte then count else call.nbyte := by
  have fits := call.fits
  rw [capped, unsigned]
  split_ifs <;> omega

theorem more_iff {count : ℤ} (least : -2 ^ 31 ≤ count) (most : count < 2 ^ 32) :
    unsigned count < call.nbyte ↔ 0 ≤ count ∧ count < call.nbyte := by
  have fits := call.fits
  rw [unsigned]
  omega

/-! ## A read -/

/-- A read that has come to the `k`th message with `c` bytes, the blocks in step with them. -/
structure Reading (call : Call) (s : Io Sym) (k : ℕ) (c : ℤ) : Prop where
  sent : s.sent = k
  count : s.count = c
  place : (s.apos : ℤ) = call.pos + c
  least : -(call.blockSize : ℤ) < c
  most : c ≤ call.nbyte
  st : s.bufSt = (-c).toNat
  dev : s.dev = Sym.dev
  done : ∀ i : ℕ, (i : ℤ) < c → s.buf i = .dev (call.pos + i)
  first : c < 0 → s.abuf = Sym.junk

theorem reading_start (call : Call) :
    Reading call (symbols call) 0 (alignDown call.pos call.blockSize - call.pos) := by
  obtain ⟨least, most⟩ := alignDown_spec call
  refine ⟨rfl, rfl, ?_, by omega, by omega, ?_, rfl, fun i inside => absurd inside (by omega),
    fun _ => rfl⟩
  · change ((alignDown call.pos call.blockSize : ℕ) : ℤ) = _
    omega
  · change call.pos - alignDown call.pos call.blockSize = _
    omega

/-- A read that ends with what it has. -/
theorem right_of_read {e : Io Sym} (dev : e.dev = Sym.dev) (most : e.count ≤ call.nbyte)
    (done : ∀ i : ℕ, (i : ℤ) < e.count → e.buf i = .dev (call.pos + i))
    (ends : 0 < e.count ∨ e.x ≤ 0) : Right call true Sym.dev Sym.buf (finish call e) := by
  obtain ⟨result, few⟩ := finish_result call ends
  refine ⟨by omega, ?_, fun _ i inside => done i (by omega), fun q => ?_⟩
  · rw [result, finish_pos]
  · rw [if_neg (by simp)]
    exact congrFun dev q

section Step

variable {s : Io Sym} {k : ℕ} {c : ℤ}

variable (call) in
theorem block_read_error (sent : s.sent = k) (error : server.reply k < 0) :
    block call server true s = absRead call server s := by
  rw [block, if_pos rfl, readBlock]
  exact if_pos (by rw [absRead, sent]; exact error)

variable (call server) in
/-- What a reply to a read is capped to. -/
theorem block_read (sent : s.sent = k) (reply : 0 ≤ server.reply k)
    (least : -(call.blockSize : ℤ) < s.count) (most : s.count ≤ call.nbyte) :
    block call server true s = onward call
      { absRead call server s with
        count := if 0 ≤ s.count + server.reply k ∧ s.count + server.reply k ≤ call.nbyte then
          s.count + server.reply k else call.nbyte
        buf := splice (absRead call server s).abuf s.bufSt s.buf (offs s)
          ((if 0 ≤ s.count + server.reply k ∧ s.count + server.reply k ≤ call.nbyte then
            s.count + server.reply k else call.nbyte).toNat - offs s) } := by
  have size := call.blockSize_le
  have fits := call.fits
  have whole := server.most k
  have x : (absRead call server s).x = server.reply k := by rw [← sent]; rfl
  have cap := capped_eq call (s.count + server.reply k) (by omega) (by omega)
  rw [block, if_pos rfl, readBlock]
  dsimp only
  rw [x, if_neg (by omega), cap]
  exact if_neg (by split_ifs <;> omega)

/-- After a block of a read that came as far as the position. -/
structure ReadTo (call : Call) (s t : Io Sym) (x : ℤ) : Prop where
  count : t.count = min (s.count + x) call.nbyte
  x : t.x = x
  sent : t.sent = s.sent + 1
  place : t.apos = s.apos + call.blockSize
  st : t.bufSt = 0
  dev : t.dev = s.dev
  done : ∀ i : ℕ, (i : ℤ) < t.count → t.buf i = .dev (call.pos + i)

theorem Reading.readTo (server : Server call) (r : Reading call s k c) (reply : 0 ≤ server.reply k)
    (reaches : 0 ≤ c + server.reply k) :
    ReadTo call s (block call server true s) (server.reply k) := by
  have count := r.count
  have place := r.place
  rw [block_read call server r.sent reply (count ▸ r.least) (count ▸ r.most)]
  have cap : (if 0 ≤ s.count + server.reply k ∧ s.count + server.reply k ≤ call.nbyte then
      s.count + server.reply k else (call.nbyte : ℤ)) =
        min (s.count + server.reply k) call.nbyte := by
    split_ifs <;> omega
  rw [cap]
  refine ⟨rfl, by rw [← r.sent]; rfl, rfl, rfl, rfl, rfl, fun i inside => ?_⟩
  change (i : ℤ) < min (s.count + server.reply k) call.nbyte at inside
  simp only [onward, absRead]
  rw [r.sent]
  by_cases old : (i : ℤ) < c
  · have out : i < offs s := by
      rw [offs]
      split_ifs <;> omega
    rw [splice_outside (.inl out)]
    exact r.done i old
  · have st := r.st
    have least : offs s ≤ i := by
      rw [offs]
      split_ifs <;> omega
    have step : (s.bufSt + (i - offs s) : ℤ) = i - c := by
      rw [st]
      rw [offs] at least ⊢
      split_ifs at least ⊢ <;> omega
    rw [splice_inside least (by omega), splice_inside (by omega) (by omega), r.dev]
    refine congrArg Sym.dev ?_
    omega

/-- A block for which the count goes wrong: it is taken for the whole of the byte count. -/
theorem Reading.overrun (server : Server call) (r : Reading call s k c) (reply : 0 ≤ server.reply k)
    (shortOf : c + server.reply k < 0) :
    (block call server true s).count = call.nbyte ∧
      (block call server true s).x = server.reply k ∧
      (block call server true s).dev = Sym.dev ∧
      (0 < call.nbyte → (block call server true s).buf 0 ≠ .dev call.pos) := by
  have count := r.count
  rw [block_read call server r.sent reply (count ▸ r.least) (count ▸ r.most)]
  have cap : (if 0 ≤ s.count + server.reply k ∧ s.count + server.reply k ≤ call.nbyte then
      s.count + server.reply k else (call.nbyte : ℤ)) = call.nbyte := by
    rw [if_neg]
    omega
  rw [cap]
  refine ⟨rfl, by rw [← r.sent]; rfl, r.dev, fun some_ => ?_⟩
  have st := r.st
  have zero : offs s = 0 := by
    rw [offs]
    split_ifs <;> omega
  simp only [onward, absRead]
  rw [r.sent, zero, splice_inside le_rfl (by omega), splice_outside (.inr (by omega)),
    r.first (by omega)]
  simp

end Step

/-! ## Reads that go wrong stay wrong -/

/-- A byte of the buffer is not the one of the device. -/
def BadRead (call : Call) (s : Io Sym) : Prop :=
  ∃ i : ℕ, (i : ℤ) < s.count ∧ s.buf i ≠ .dev (call.pos + i)

theorem BadRead.not_right {e : Io Sym} (bad : BadRead call e) :
    ¬Right call true Sym.dev Sym.buf (finish call e) := by
  rintro right
  obtain ⟨i, inside, differs⟩ := bad
  refine differs (right.got rfl i ?_)
  simp only [finish]
  split_ifs <;> omega

theorem BadRead.loop {fuel : ℕ} {s e : Io Sym} (bad : BadRead call s) (nonneg : 0 ≤ s.count)
    (most : s.count ≤ call.nbyte) (ends : loop call server true fuel s = some e) :
    ¬Right call true Sym.dev Sym.buf (finish call e) := by
  induction fuel generalizing s with
  | zero => simp [Balign.loop] at ends
  | succ fuel ih =>
      have still : BadRead call (block call server true s) ∧
          0 ≤ (block call server true s).count ∧
          (block call server true s).count ≤ call.nbyte := by
        obtain ⟨i, inside, differs⟩ := bad
        by_cases error : server.reply s.sent < 0
        · rw [block_read_error call rfl error]
          exact ⟨⟨i, inside, differs⟩, nonneg, most⟩
        · have pos := call.blockSize_pos
          rw [block_read call server rfl (by omega) (by omega) most]
          have cap : (if 0 ≤ s.count + server.reply s.sent ∧
              s.count + server.reply s.sent ≤ call.nbyte then
                s.count + server.reply s.sent else (call.nbyte : ℤ)) =
                  min (s.count + server.reply s.sent) call.nbyte := by
            split_ifs <;> omega
          rw [cap]
          simp only [onward, absRead]
          refine ⟨⟨i, ?_, ?_⟩, by omega, by omega⟩
          · change (i : ℤ) < min (s.count + server.reply s.sent) call.nbyte
            omega
          · change splice _ _ s.buf (offs s) _ i ≠ _
            rwa [splice_outside (.inl (by rw [offs, if_pos nonneg]; omega))]
      rw [Balign.loop] at ends
      split_ifs at ends
      · exact ih still.1 still.2.1 still.2.2 ends
      · rw [← Option.some.inj ends]
        exact still.1.not_right

/-! ## The condition -/

theorem loop_done {fuel : ℕ} {doRead : Bool} {s : Io Sym}
    (ends : ¬(unsigned (block call server doRead s).count < call.nbyte ∧
      (block call server doRead s).x > 0)) :
    loop call server doRead (fuel + 1) s = some (block call server doRead s) := by
  rw [loop, if_neg ends]

theorem loop_more {fuel : ℕ} {doRead : Bool} {s : Io Sym}
    (more : unsigned (block call server doRead s).count < call.nbyte ∧
      (block call server doRead s).x > 0) :
    loop call server doRead (fuel + 1) s =
      loop call server doRead fuel (block call server doRead s) := by
  rw [loop, if_pos more]

/-- The block behind a short one, when there is nothing in it. -/
theorem read_behind {s t : Io Sym} {x : ℤ} (after : ReadTo call s t x) (dev : s.dev = Sym.dev)
    (nonneg : 0 ≤ t.count) (last : server.reply t.sent ≤ 0) :
    ∃ fuel e, loop call server true fuel t = some e ∧
      Right call true Sym.dev Sym.buf (finish call e) := by
  have most : t.count ≤ call.nbyte := by rw [after.count]; omega
  rcases lt_or_eq_of_le last with error | zero
  · have block := block_read_error call (s := t) rfl error
    refine ⟨1, _, loop_done ?_, right_of_read ?_ ?_ ?_ ?_⟩
    all_goals rw [block]
    · rintro ⟨-, more⟩
      exact absurd more (by simp only [absRead]; omega)
    · exact after.dev.trans dev
    · exact most
    · exact after.done
    · exact .inr (by simp only [absRead]; omega)
  · have pos := call.blockSize_pos
    have block := block_read call server (s := t) rfl zero.ge (by omega) most
    have cap : (if 0 ≤ t.count + server.reply t.sent ∧
        t.count + server.reply t.sent ≤ call.nbyte then
          t.count + server.reply t.sent else (call.nbyte : ℤ)) = t.count := by
      rw [if_pos (by omega)]
      omega
    have none_ : t.count.toNat - offs t = 0 := by
      rw [offs, if_pos nonneg, Nat.sub_self]
    rw [cap, none_, splice_zero] at block
    refine ⟨1, _, loop_done ?_, right_of_read ?_ ?_ ?_ ?_⟩
    all_goals rw [block]
    · rintro ⟨-, more⟩
      exact absurd more (by simp only [onward, absRead]; omega)
    · exact after.dev.trans dev
    · exact most
    · exact after.done
    · exact .inr (by simp only [onward, absRead]; omega)

section Condition

variable {s : Io Sym} {k : ℕ} {c : ℤ}

/-- In step with the blocks again. -/
theorem Reading.step (r : Reading call s k c) (whole : server.reply k = call.blockSize)
    (more : c + call.blockSize < call.nbyte) :
    Reading call (block call server true s) (k + 1) (c + call.blockSize) := by
  have least := r.least
  have pos := call.blockSize_pos
  have after := r.readTo server (by omega) (by omega)
  have count : (block call server true s).count = c + call.blockSize := by
    rw [after.count, r.count, whole]
    omega
  have done := after.done
  rw [count] at done
  refine ⟨after.sent.trans (congrArg (· + 1) r.sent), count, ?_, by omega, by omega, ?_,
    after.dev.trans r.dev, done, fun low => absurd low (by omega)⟩
  · have place := r.place
    rw [after.place]
    push_cast
    omega
  · rw [after.st]
    omega

/-- The replies end the read well. -/
theorem Reading.right (r : Reading call s k c) (fine : ReadFine call server k c) :
    ∃ fuel e, loop call server true fuel s = some e ∧
      Right call true Sym.dev Sym.buf (finish call e) := by
  have pos := call.blockSize_pos
  have size := call.blockSize_le
  have fits := call.fits
  induction fine generalizing s with
  | @error k c error =>
      have block := block_read_error call r.sent error
      have x : (absRead call server s).x = server.reply k := by rw [← r.sent]; rfl
      refine ⟨1, _, loop_done ?_, right_of_read ?_ ?_ ?_ ?_⟩
      all_goals rw [block]
      · rw [x]
        omega
      · exact r.dev
      · exact r.count.trans_le r.most
      · intro i inside
        exact r.done i (r.count ▸ inside)
      · exact .inr (by rw [x]; omega)
  | @nothing k c zero start =>
      by_cases low : c < 0
      · obtain ⟨count, x, dev, -⟩ := r.overrun server (by omega) (by omega)
        have none_ : call.nbyte = 0 := start.resolve_left (by omega)
        refine ⟨1, _, loop_done (by rw [x]; omega), right_of_read dev (by omega)
          (fun i inside => ?_) (.inr (by rw [x]; omega))⟩
        rw [count, none_] at inside
        omega
      · have after := r.readTo server (by omega) (by omega)
        have x := after.x
        refine ⟨1, _, loop_done (by rw [x]; omega), right_of_read (after.dev.trans r.dev)
          (by rw [after.count]; omega) after.done (.inr (by rw [x]; omega))⟩
  | @done k c some_ all =>
      have most := r.most
      have least := r.least
      have reply : 0 ≤ c + server.reply k := by omega
      by_cases negative : server.reply k < 0
      · omega
      have after := r.readTo server (by omega) reply
      have count : (block call server true s).count = call.nbyte := by
        rw [after.count, r.count]
        omega
      refine ⟨1, _, loop_done ?_, right_of_read (after.dev.trans r.dev) count.le after.done
        (.inl (by omega))⟩
      rw [more_iff (by omega) (by omega), count]
      omega
  | @short k c some_ few reaches room last =>
      have after := r.readTo server (by omega) reaches
      have count : (block call server true s).count = c + server.reply k := by
        rw [after.count, r.count]
        omega
      obtain ⟨fuel, e, ends, right⟩ := read_behind after r.dev (by omega)
        (by rw [after.sent, r.sent]; exact last)
      refine ⟨fuel + 1, e, ?_, right⟩
      rw [loop_more ⟨(more_iff (by omega) (by omega)).mpr (by omega), by rw [after.x]; omega⟩, ends]
  | @next k c whole more _ ih =>
      have least := r.least
      have after := r.readTo server (by omega) (by omega)
      have next := r.step whole more
      obtain ⟨fuel, e, ends, right⟩ := ih next
      refine ⟨fuel + 1, e, ?_, right⟩
      rw [loop_more ⟨(more_iff ?_ ?_).mpr ?_, by rw [after.x]; omega⟩, ends]
      all_goals rw [next.count]
      all_goals omega

/-- A read that ends well has such replies. -/
theorem Reading.fine {fuel : ℕ} {e : Io Sym} (r : Reading call s k c)
    (ends : loop call server true fuel s = some e)
    (right : Right call true Sym.dev Sym.buf (finish call e)) : ReadFine call server k c := by
  have pos := call.blockSize_pos
  have size := call.blockSize_le
  have fits := call.fits
  induction fuel generalizing s k c with
  | zero => simp [loop] at ends
  | succ fuel ih =>
      have least := r.least
      have most := r.most
      have few := server.most k
      by_cases error : server.reply k < 0
      · exact .error error
      by_cases low : c + server.reply k < 0
      · obtain ⟨count, x, dev, bad⟩ := r.overrun server (by omega) low
        have over_ : ¬(unsigned (block call server true s).count < call.nbyte ∧
            (block call server true s).x > 0) := by
          rw [more_iff (by omega) (by omega), count]
          omega
        rw [loop, if_neg over_] at ends
        obtain rfl := Option.some.inj ends
        by_cases none_ : call.nbyte = 0
        · have moved := right.moved
          simp only [finish, count, x, none_] at moved
          refine .nothing ?_ (.inr none_)
          norm_num at moved
          omega
        · have bad' : BadRead call (block call server true s) :=
            ⟨0, by rw [count]; omega, bad (by omega)⟩
          exact absurd right bad'.not_right
      have after := r.readTo server (by omega) (by omega)
      have count := after.count
      rw [r.count] at count
      by_cases zero : server.reply k = 0
      · exact .nothing zero (.inl (by omega))
      by_cases none_ : call.nbyte = 0
      · have over_ : ¬(unsigned (block call server true s).count < call.nbyte ∧
            (block call server true s).x > 0) := by
          rw [none_]
          omega
        rw [loop, if_neg over_] at ends
        obtain rfl := Option.some.inj ends
        have moved := right.moved
        have zero' : (block call server true s).count = 0 := by omega
        simp only [finish, zero', after.x] at moved
        norm_num at moved
        omega
      by_cases all : (call.nbyte : ℤ) ≤ c + server.reply k
      · exact .done (by omega) all
      have more : unsigned (block call server true s).count < call.nbyte ∧
          (block call server true s).x > 0 :=
        ⟨(more_iff (by omega) (by omega)).mpr (by omega), by rw [after.x]; omega⟩
      rw [loop, if_pos more] at ends
      by_cases whole : server.reply k = call.blockSize
      · have more' : c + call.blockSize < call.nbyte := by omega
        exact .next whole more' (ih (r.step whole more') ends)
      refine .short (by omega) (by omega) (by omega) (by omega) (le_of_not_gt fun again => ?_)
      -- The next block lands behind the short one.
      cases fuel with
      | zero => simp [loop] at ends
      | succ fuel =>
          have sent : (block call server true s).sent = k + 1 := after.sent.trans (by rw [r.sent])
          have reply := server.most (k + 1)
          have second := block_read call server sent again.le
            (by omega) (by omega)
          have bad : BadRead call (block call server true (block call server true s)) := by
            have place := r.place
            have behind := after.place
            refine ⟨(block call server true s).count.toNat, ?_, ?_⟩
            all_goals rw [second]
            · simp only [onward, absRead]
              split_ifs <;> omega
            · simp only [onward, absRead]
              have at_ : offs (block call server true s) =
                  (block call server true s).count.toNat := if_pos (by omega)
              rw [sent, at_, splice_inside le_rfl (by split_ifs <;> omega),
                after.st, Nat.sub_self, splice_inside le_rfl (by omega), after.dev, r.dev]
              intro same
              have place' := Sym.dev.inj same
              omega
          have nonneg : 0 ≤ (block call server true (block call server true s)).count := by
            rw [second]
            simp only [onward]
            split_ifs <;> omega
          have most' : (block call server true (block call server true s)).count ≤
              call.nbyte := by
            rw [second]
            simp only [onward]
            split_ifs <;> omega
          rw [loop] at ends
          split_ifs at ends
          · exact bad.loop nonneg most' ends right
          · obtain rfl := Option.some.inj ends
            exact bad.not_right right

end Condition

/-- **A read is right for all contents exactly when the replies end it well.** -/
theorem read_iff (call : Call) (server : Server call) :
    (∀ dev buf junk : ℕ → UChar, Meets call server true none dev buf junk) ↔
      ReadFine call server 0 (alignDown call.pos call.blockSize - call.pos) := by
  rw [meets_iff_symbols]
  constructor
  · rintro ⟨fuel, o, done, right⟩
    obtain ⟨e, ends, rfl⟩ := Option.map_eq_some_iff.mp done
    exact (reading_start call).fine ends right
  · intro fine
    obtain ⟨fuel, e, ends, right⟩ := (reading_start call).right fine
    exact ⟨fuel, finish call e, congrArg (Option.map (finish call)) ends, right⟩

end Vsta.Balign
