import Vsta.Abc.Coherent
import Vsta.Library.Ring
import Vsta.Library.Ensures
import Vsta.Library.Runs

/-!
# The buffer cache is a plain disk

The operations that the foreground queued and the background has not finished are a queue in the
ring; their buffers are the busy ones. With that, what each step does to the buffers and to the
queue keeps the cache in agreement with a plain disk, in every interleaving of the two threads
(`cache_right`). Nothing that was written is lost when a buffer is freed for another one, and behind
`sync_bufs` it is on the disk when the background has nothing more to do.
-/

set_option autoImplicit false

namespace Vsta.Abc

variable {α : Type} {s t : State α} {plain plain' : Plain α} {synced : Option (Option Handle)}
  {q : List (ULong × Op)} {pool : Hash (Buf α)} {d : ULong} {b b' : Buf α} {op : Op}

/-- The sectors in memory. -/
def total (pool : Hash (Buf α)) : ℕ := (pool.map fun e => e.2.bNsec).sum

theorem total_delete (found : pool.lookup d = some b) :
    total pool = b.bNsec + total (pool.delete d) := by
  have parts := (Hash.perm_delete found).map fun e => e.2.bNsec
  rw [total, parts.sum_nat, List.map_cons, List.sum_cons, total]

theorem total_modify (distinct : pool.Distinct) (found : pool.lookup d = some b) (b' : Buf α) :
    total (pool.modify d fun _ => b') + b.bNsec = total pool + b'.bNsec := by
  have found' : (pool.modify d fun _ => b').lookup d = some b' := by
    rw [Hash.lookup_modify, if_pos rfl, found]
    rfl
  rw [total_delete found', distinct.delete_modify, total_delete found]
  omega

/-! ## The queue -/

/-- The operations that the background has still to do; the first of the queue may be done and not
given back. -/
def todo (doing : Option ℕ) (q : List (ULong × Op)) : List (ULong × Op) :=
  match doing with
  | none => q
  | some _ => q.tail

/-- Where the two threads are in the ring. -/
def Turn (s : State α) (head : ℕ) (q : List (ULong × Op)) : Prop :=
  match s.doing with
  | none => s.next = head ∧ s.ready = q.length
  | some slot => slot = head ∧ q ≠ [] ∧ s.next = (head + 1) % NQIO ∧ s.ready + 1 = q.length

/-- A queue in a ring, and the places of the two threads. -/
def InRing (s : State α) (q : List (ULong × Op)) : Prop :=
  ∃ head, Ring.Holds NQIO s.qios head q ∧ s.qnext = (head + q.length) % NQIO ∧ Turn s head q

/-- The ring holds a queue of operations, and the busy buffers are those of it. -/
structure Queue (s : State α) (q : List (ULong × Op)) : Prop where
  ring : InRing s q
  once : (q.map Prod.fst).Nodup
  busy : ∀ d b, s.bufpool.lookup d = some b → (b.busy = true ↔ d ∈ q.map Prod.fst)
  there : ∀ d ∈ q.map Prod.fst, s.bufpool.lookup d ≠ none
  fills : ∀ d b, (d, Op.fill) ∈ q → s.bufpool.lookup d = some b → b.dirty = false

/-- What holds of the cache wherever the foreground is. -/
structure Core (s : State α) (plain : Plain α) (q : List (ULong × Op)) : Prop where
  co : Coherent s.disk s.bufpool plain
  queue : Queue s q
  listed : s.allbufs.Nodup ∧ ∀ d, d ∈ s.allbufs ↔ s.bufpool.lookup d ≠ none
  size : s.bufsize = total s.bufpool
  asleep : s.asleep = true → ∃ d b, s.bufpool.lookup d = some b ∧ b.want = true ∧ b.busy = true

/-- What the foreground relies on where it is. -/
def Ready (pool : Hash (Buf α)) : Fg α → Prop
  | .user | .inval _ _ => True
  | .loop left new => (∀ l, left = some l → ∀ d ∈ l, pool.lookup d ≠ none) ∧
      ∀ n, new = some n → 0 < n.nsec ∧ n.nsec ≤ EXTSIZ ∧ pool.lookup n.start = none ∧
        Alone pool n.start n.nsec
  | .queue d => ∃ b, pool.lookup d = some b ∧ b.busy = false ∧ b.dirty = false
  | .index d i n use => ∃ b, pool.lookup d = some b ∧ 0 < n ∧ i + n ≤ b.bNsec ∧ use.Sized n
  | .flush d => ∃ b, pool.lookup d = some b ∧ b.sec0 = true
  | .resize d newsize _ _ => pool.lookup d ≠ none ∧ 0 < newsize ∧ newsize ≤ EXTSIZ ∧
      Alone pool d newsize
  | .sync left _ => ∀ d ∈ left, pool.lookup d ≠ none

/-- What `sync_bufs` has to flush is before it or queued. -/
def Synced (s : State α) (synced : Option (Option Handle)) (q : List (ULong × Op)) : Prop :=
  ∀ handle, synced = some handle → ∀ d b, s.bufpool.lookup d = some b → b.wanted handle = true →
    (∃ left, s.fg = .sync left handle ∧ d ∈ left) ∨ (d, Op.flush) ∈ todo s.doing q

/-- What holds in every state. -/
structure Good (s : State α) (plain : Plain α) (synced : Option (Option Handle))
    (q : List (ULong × Op)) : Prop where
  core : Core s plain q
  ready : Ready s.bufpool s.fg
  synced : Synced s synced q

theorem lookup_replace (found : pool.lookup d = some b) (b' : Buf α) (d' : ULong) :
    (pool.modify d fun _ => b').lookup d' = if d' = d then some b' else pool.lookup d' := by
  rw [Hash.lookup_modify, found]
  rfl

theorem lookup_replace_none (found : pool.lookup d = some b) (b' : Buf α) (d' : ULong) :
    (pool.modify d fun _ => b').lookup d' = none ↔ pool.lookup d' = none := by
  rw [lookup_replace found]
  split_ifs with here
  · rw [here, found]
    exact ⟨nofun, nofun⟩
  · rfl

/-- A buffer changes. -/
theorem Core.change {q' : List (ULong × Op)} (core : Core s plain q)
    (found : s.bufpool.lookup d = some b) (b' : Buf α) (pool : t.bufpool = s.bufpool.modify d fun _ => b')
    (co : Coherent t.disk (s.bufpool.modify d fun _ => b') plain') (queue : Queue t q')
    (listed : t.allbufs.Perm s.allbufs) (size : t.bufsize + b.bNsec = s.bufsize + b'.bNsec)
    (asleep : t.asleep = true → (b'.want = true ∧ b'.busy = true) ∨
      (s.asleep = true ∧ (b.want = true → b.busy = true → b'.want = true ∧ b'.busy = true))) :
    Core t plain' q' := by
  have look : ∀ d', t.bufpool.lookup d' = if d' = d then some b' else s.bufpool.lookup d' :=
    fun d' => pool ▸ lookup_replace found b' d'
  refine ⟨pool ▸ co, queue, ⟨listed.nodup_iff.mpr core.listed.1, fun d' => ?_⟩, ?_, fun sleeps => ?_⟩
  · rw [listed.mem_iff, core.listed.2, Ne, Ne, pool, lookup_replace_none found]
  · have sum := total_modify core.co.distinct found b'
    have before := core.size
    rw [pool]
    omega
  · rcases asleep sleeps with wants | ⟨was, kept⟩
    · exact ⟨d, b', by rw [look, if_pos rfl], wants⟩
    · obtain ⟨d', c, is, want, busy⟩ := core.asleep was
      by_cases here : d' = d
      · subst here
        obtain rfl := Option.some.inj (found.symm.trans is)
        exact ⟨d', b', by rw [look, if_pos rfl], kept want busy⟩
      · exact ⟨d', c, by rw [look, if_neg here, is], want, busy⟩

theorem InRing.same (ring : InRing s q) (qios : t.qios = s.qios) (qnext : t.qnext = s.qnext)
    (next : t.next = s.next) (ready : t.ready = s.ready) (doing : t.doing = s.doing) :
    InRing t q := by
  obtain ⟨head, holds, place, turn⟩ := ring
  refine ⟨head, qios ▸ holds, qnext ▸ place, ?_⟩
  unfold Turn at turn ⊢
  rwa [next, ready, doing]

/-- A buffer changes, and the queue does not. -/
theorem Queue.update (queue : Queue s q) (found : s.bufpool.lookup d = some b)
    (pool : t.bufpool = s.bufpool.modify d fun _ => b') (ring : InRing t q)
    (busy : b'.busy = b.busy) (dirty : b.busy = true → b.dirty = false → b'.dirty = false) :
    Queue t q := by
  have look : ∀ d', t.bufpool.lookup d' = if d' = d then some b' else s.bufpool.lookup d' :=
    fun d' => pool ▸ lookup_replace found b' d'
  refine ⟨ring, queue.once, fun d' c is => ?_, fun d' member => ?_, fun d' c member is => ?_⟩
  · rw [look] at is
    split_ifs at is with here
    · rw [← Option.some.inj is, busy, here]
      exact queue.busy d b found
    · exact queue.busy d' c is
  · rw [pool, Ne, lookup_replace_none found]
    exact queue.there d' member
  · rw [look] at is
    split_ifs at is with here
    · rw [← Option.some.inj is]
      refine dirty ((queue.busy d b found).mpr ?_) (queue.fills d b (here ▸ member) found)
      exact here ▸ List.mem_map_of_mem (f := Prod.fst) member
    · exact queue.fills d' c member is

/-- What the cache is does not depend on where the foreground is. -/
theorem Core.at_ (core : Core s plain q) (fg : Fg α) : Core { s with fg := fg } plain q :=
  ⟨core.co, ⟨core.queue.ring, core.queue.once, core.queue.busy, core.queue.there, core.queue.fills⟩,
    core.listed, core.size, core.asleep⟩

theorem Core.there (core : Core s plain q) (member : d ∈ s.allbufs) :
    ∃ b, s.bufpool.lookup d = some b :=
  Option.ne_none_iff_exists'.mp ((core.listed.2 d).mp member)

theorem todo_append (turn : ∃ head, Turn s head q) (e : ULong × Op) :
    todo s.doing (q ++ [e]) = todo s.doing q ++ [e] := by
  obtain ⟨head, turn⟩ := turn
  unfold Turn at turn
  cases doing : s.doing with
  | none => rfl
  | some slot =>
      rw [doing] at turn
      obtain ⟨-, some_, -⟩ := turn
      exact List.tail_append_of_ne_nil some_

theorem Turn.push {head : ℕ} (turn : Turn s head q) (e : ULong × Op) (next : t.next = s.next)
    (ready : t.ready = s.ready + 1) (doing : t.doing = s.doing) : Turn t head (q ++ [e]) := by
  unfold Turn at turn ⊢
  rw [doing, next, ready, List.length_append, List.length_singleton]
  cases is : s.doing with
  | none =>
      rw [is] at turn
      exact ⟨turn.1, congrArg (· + 1) turn.2⟩
  | some slot =>
      rw [is] at turn
      obtain ⟨here, -, behind, count⟩ := turn
      exact ⟨here, List.append_ne_nil_of_right_ne_nil _ (List.cons_ne_nil _ _), behind,
        congrArg (· + 1) count⟩

/-- An operation is queued. -/
theorem Queue.push (queue : Queue s q) (found : s.bufpool.lookup d = some b)
    (idle : b.busy = false) (clean : op = .fill → b.dirty = false) (free : s.qios s.qnext = none)
    (pool : t.bufpool = s.bufpool.modify d fun _ => { b with busy := true })
    (qios : t.qios = Function.update s.qios s.qnext (some (d, op)))
    (qnext : t.qnext = (s.qnext + 1) % NQIO) (next : t.next = s.next)
    (ready : t.ready = s.ready + 1) (doing : t.doing = s.doing) : Queue t (q ++ [(d, op)]) := by
  have new : d ∉ q.map Prod.fst := fun member =>
    absurd ((queue.busy d b found).mpr member) (by rw [idle]; exact Bool.false_ne_true)
  have look : ∀ d', t.bufpool.lookup d' =
      if d' = d then some { b with busy := true } else s.bufpool.lookup d' :=
    fun d' => pool ▸ lookup_replace found _ d'
  have members : ∀ d', d' ∈ (q ++ [(d, op)]).map Prod.fst ↔ d' ∈ q.map Prod.fst ∨ d' = d := by
    intro d'
    rw [List.map_append, List.map_singleton, List.mem_append, List.mem_singleton]
  obtain ⟨head, holds, place, turn⟩ := queue.ring
  refine ⟨⟨head, ?_, ?_, turn.push _ next ready doing⟩, ?_, fun d' c is => ?_,
    fun d' member => ?_, fun d' c member is => ?_⟩
  · rw [place] at free
    rw [qios, place]
    exact holds.push free
  · rw [qnext, place, Nat.mod_add_mod, List.length_append, List.length_singleton, Nat.add_assoc]
  · rw [List.map_append, List.map_singleton, List.nodup_append]
    exact ⟨queue.once, List.nodup_singleton d, fun a member b is => by
      rw [List.mem_singleton.mp is]
      rintro rfl
      exact new member⟩
  · rw [look] at is
    rw [members]
    split_ifs at is with here
    · rw [← Option.some.inj is]
      exact ⟨fun _ => .inr here, fun _ => rfl⟩
    · rw [queue.busy d' c is]
      exact ⟨.inl, fun either => either.resolve_right here⟩
  · rw [pool, Ne, lookup_replace_none found]
    rcases (members d').mp member with before | rfl
    · exact queue.there d' before
    · rw [found]
      exact Option.some_ne_none b
  · rw [look] at is
    rw [List.mem_append, List.mem_singleton] at member
    split_ifs at is with here
    · rw [← Option.some.inj is]
      rcases member with before | same
      · exact absurd (here ▸ List.mem_map_of_mem (f := Prod.fst) before) new
      · exact clean (Prod.mk.inj same).2.symm
    · rcases member with before | same
      · exact queue.fills d' c before is
      · exact absurd (Prod.mk.inj same).1 here

/-- An operation is queued, or has to wait for a place. -/
theorem Core.qio (core : Core s plain q) (found : s.bufpool.lookup d = some b)
    (idle : b.busy = false) (clean : op = .fill → b.dirty = false) :
    (s.qio d op).Ensures (· = .wait) fun t => Core t plain (q ++ [(d, op)]) ∧ t.doing = s.doing ∧
      t.bufpool = s.bufpool.modify d fun _ => { b with busy := true } := by
  simp only [State.qio, State.buf, found, Except.ok_bind]
  cases free : s.qios s.qnext with
  | some _ => exact rfl
  | none =>
      refine ⟨core.change found { b with busy := true } rfl
        (core.co.flags found ⟨rfl, rfl, rfl, rfl⟩)
        (core.queue.push found idle clean free rfl rfl rfl rfl rfl rfl) (List.Perm.refl _) rfl
        fun sleeps => .inr ⟨sleeps, fun want _ => ⟨want, rfl⟩⟩, rfl, rfl⟩

/-- A buffer is freed. -/
theorem Core.free (core : Core s plain q) (found : s.bufpool.lookup d = some b)
    (idle : b.busy = false) (co : Coherent s.disk (s.bufpool.delete d) plain') :
    Core (s.freeBuf d b) plain' q := by
  have look := fun d' => core.co.distinct.lookup_delete d d'
  have new : ∀ d' ∈ q.map Prod.fst, d' ≠ d := by
    rintro d' member rfl
    exact absurd ((core.queue.busy d' b found).mpr member) (by rw [idle]; exact Bool.false_ne_true)
  have before : ∀ {d' c}, (s.bufpool.delete d).lookup d' = some c →
      s.bufpool.lookup d' = some c := fun {d' c} is => by
    rw [look] at is
    split_ifs at is
    exact is
  refine ⟨co, ⟨core.queue.ring, core.queue.once, fun d' c is => core.queue.busy d' c (before is),
    fun d' member => ?_, fun d' c member is => core.queue.fills d' c member (before is)⟩,
    ⟨core.listed.1.erase d, fun d' => ?_⟩, ?_, fun sleeps => ?_⟩
  · show (s.bufpool.delete d).lookup d' ≠ none
    rw [look, if_neg (new d' member)]
    exact core.queue.there d' member
  · show d' ∈ s.allbufs.erase d ↔ (s.bufpool.delete d).lookup d' ≠ none
    rw [core.listed.1.mem_erase_iff, core.listed.2, look]
    split_ifs with here
    · exact ⟨fun both => absurd here both.1, fun none_ => absurd rfl none_⟩
    · exact ⟨And.right, fun there => ⟨here, there⟩⟩
  · show s.bufsize - b.bNsec = total (s.bufpool.delete d)
    rw [core.size, total_delete found, Nat.add_sub_cancel_left]
  · obtain ⟨d', c, is, want, busy⟩ := core.asleep sleeps
    refine ⟨d', c, ?_, want, busy⟩
    show (s.bufpool.delete d).lookup d' = some c
    rw [look, if_neg, is]
    rintro rfl
    obtain rfl := Option.some.inj (found.symm.trans is)
    rw [idle] at busy
    cases busy

/-! ## The background -/

/-- What the foreground relies on stays when the background changes a buffer. -/
theorem Ready.replace {fg : Fg α} (ready : Ready pool fg) (found : pool.lookup d = some b)
    (size : b'.bNsec = b.bNsec) (sec0 : b.sec0 = true → b'.sec0 = true)
    (busy : ∀ d, fg = .queue d → b.busy = true) :
    Ready (pool.modify d fun _ => b') fg := by
  have look := lookup_replace found b'
  have there : ∀ d', (pool.modify d fun _ => b').lookup d' = none ↔ pool.lookup d' = none :=
    lookup_replace_none found b'
  have alone : ∀ {d' n}, Alone pool d' n → Alone (pool.modify d fun _ => b') d' n := by
    intro d' n alone d₂ c a other is low high
    rw [look] at is
    split_ifs at is with here
    · obtain rfl := Option.some.inj is
      exact alone d₂ b a other (here ▸ found) low (size ▸ high)
    · exact alone d₂ c a other is low high
  cases fg with
  | user => trivial
  | inval d' len => trivial
  | loop left new =>
      refine ⟨fun l is d' member => ?_, fun n is => ?_⟩
      · rw [Ne, there]
        exact ready.1 l is d' member
      · obtain ⟨pos, le, fresh, far⟩ := ready.2 n is
        exact ⟨pos, le, (there _).mpr fresh, alone far⟩
  | queue d' =>
      obtain ⟨c, is, idle, clean⟩ := ready
      have other : d' ≠ d := by
        rintro rfl
        obtain rfl := Option.some.inj (found.symm.trans is)
        rw [busy d' rfl] at idle
        cases idle
      exact ⟨c, by rw [look, if_neg other, is], idle, clean⟩
  | index d' i n use =>
      obtain ⟨c, is, bounds⟩ := ready
      by_cases here : d' = d
      · subst here
        obtain rfl := Option.some.inj (found.symm.trans is)
        exact ⟨b', by rw [look, if_pos rfl], size ▸ bounds⟩
      · exact ⟨c, by rw [look, if_neg here, is], bounds⟩
  | flush d' =>
      obtain ⟨c, is, valid⟩ := ready
      by_cases here : d' = d
      · subst here
        obtain rfl := Option.some.inj (found.symm.trans is)
        exact ⟨b', by rw [look, if_pos rfl], sec0 valid⟩
      · exact ⟨c, by rw [look, if_neg here, is], valid⟩
  | resize d' newsize fill memory =>
      obtain ⟨known, pos, le, far⟩ := ready
      exact ⟨by rw [Ne, there]; exact known, pos, le, alone far⟩
  | sync left handle =>
      intro d' member
      rw [Ne, there]
      exact ready d' member

/-- The first operation of the queue is that at the head. -/
theorem Queue.first {head : ℕ} {rest : List (ULong × Op)} (queue : Queue s ((d, op) :: rest))
    (holds : Ring.Holds NQIO s.qios head ((d, op) :: rest)) :
    s.qios head = some (d, op) ∧ ∃ b, s.bufpool.lookup d = some b ∧ b.busy = true := by
  refine ⟨holds.at_head, ?_⟩
  obtain ⟨b, found⟩ := Option.ne_none_iff_exists'.mp (queue.there d List.mem_cons_self)
  exact ⟨b, found, (queue.busy d b found).mpr List.mem_cons_self⟩

theorem modify_self (distinct : pool.Distinct) (found : pool.lookup d = some b) :
    (pool.modify d fun _ => b) = pool := by
  rw [Hash.modify, Hash.mapVals]
  refine (List.map_congr_left fun node member => ?_).trans (List.map_id _)
  split_ifs with here
  · have is : pool.lookup node.1 = some node.2 := distinct.lookup_of_mem member
    rw [here, found] at is
    rw [Option.some.inj is, id]
  · rfl

/-- An operation changes its buffer, which is clean afterwards if it was or is flushed. -/
theorem execQio_spec (co : Coherent s.disk s.bufpool plain) (found : s.bufpool.lookup d = some b)
    (fills : op = .fill → b.dirty = false) : ∃ t b', s.execQio d op = .ok t ∧
      t.bufpool = s.bufpool.modify d (fun _ => b') ∧
      Coherent t.disk (s.bufpool.modify d fun _ => b') plain ∧
      t = { s with disk := t.disk, bufpool := t.bufpool } ∧ b'.bNsec = b.bNsec ∧
      (b.sec0 = true → b'.sec0 = true) ∧ b'.busy = b.busy ∧ b'.want = b.want ∧ b'.dirty = false := by
  have shape := co.shape d b found
  simp only [State.execQio, State.buf, found, Except.ok_bind]
  cases op with
  | fill =>
      have loads : Loads s.disk d.toNat b (b.fillAll s.disk d.toNat) :=
        loads_fillAll shape fun _ => fills rfl
      exact ⟨_, b.fillAll s.disk d.toNat, rfl, rfl, co.loads found loads, rfl, loads.size, loads.sec0,
        rfl, rfl, fills rfl⟩
  | flush =>
      cases dirty : b.dirty with
      | false =>
          refine ⟨s, b, rfl, (modify_self co.distinct found).symm, ?_, rfl, rfl, id, rfl, rfl, dirty⟩
          rwa [modify_self co.distinct found]
      | true =>
          exact ⟨s.writeBuf d b, b.clean, rfl, rfl, co.written found (shape.dirty dirty), rfl, rfl, id,
            rfl, rfl, rfl⟩

/-- The background does an operation. -/
theorem Good.work (good : Good s plain synced q) : s.work.Ensures (· = .wait) fun out =>
    Good out.1 (out.2.onto plain) synced q ∧ out.2 = .quiet := by
  obtain ⟨core, ready, syncs⟩ := good
  rw [State.work]
  refine Except.Ensures.ite (fun _ => rfl) fun go => ?_
  obtain ⟨some_, idle⟩ : s.ready ≠ 0 ∧ s.doing = none := by simpa using go
  obtain ⟨head, holds, place, turn⟩ := core.queue.ring
  unfold Turn at turn
  rw [idle] at turn
  obtain ⟨next, count⟩ := turn
  cases q with
  | nil => exact absurd count some_
  | cons e rest =>
      obtain ⟨d, op⟩ := e
      obtain ⟨first, b, found, busy⟩ := core.queue.first holds
      obtain ⟨t, b', run, pool, co, same, size, sec0, busy', want, clean⟩ :=
        execQio_spec core.co found fun fill => core.queue.fills d b (fill ▸ List.mem_cons_self) found
      rw [next, first]
      simp only [run, Except.ok_bind]
      have ring : InRing { t with
          next := (head + 1) % NQIO, ready := s.ready - 1, doing := some head } ((d, op) :: rest) := by
        refine ⟨head, ?_, ?_, rfl, List.cons_ne_nil _ _, rfl, ?_⟩
        · exact (congrArg State.qios same).symm ▸ holds
        · exact (congrArg State.qnext same).trans place
        · show s.ready - 1 + 1 = _
          omega
      refine ⟨⟨core.change found b' pool co (core.queue.update found pool ring busy' fun _ _ => clean)
        (by rw [congrArg State.allbufs same]) ?_
        fun sleeps => .inr ⟨?_, fun wants was => ⟨want.trans wants, busy'.trans was⟩⟩, ?_,
        fun handle is d' c found' wanted => ?_⟩, rfl⟩
      · show t.bufsize + b.bNsec = s.bufsize + b'.bNsec
        rw [congrArg State.bufsize same, size]
      · exact (congrArg State.asleep same).symm.trans sleeps
      · show Ready t.bufpool t.fg
        rw [congrArg State.fg same, pool]
        exact ready.replace found size sec0 fun _ _ => busy
      · have look : t.bufpool.lookup d' = if d' = d then some b' else s.bufpool.lookup d' :=
          pool ▸ lookup_replace found b' d'
        have found' := look.symm.trans found'
        split_ifs at found' with here
        · rw [← Option.some.inj found', Buf.wanted, clean] at wanted
          cases wanted
        · rcases syncs handle is d' c found' wanted with ⟨left, at_, member⟩ | queued
          · exact .inl ⟨left, (congrArg State.fg same).trans at_, member⟩
          · rw [idle] at queued
            rcases List.mem_cons.mp queued with first' | behind
            · exact absurd (Prod.mk.inj first').1 here
            · exact .inr behind

/-- The background gives a buffer back. -/
theorem Good.done (good : Good s plain synced q) : s.done.Ensures (· = .wait) fun out =>
    (∃ q', Good out.1 (out.2.onto plain) synced q') ∧ out.2 = .quiet := by
  obtain ⟨core, ready, syncs⟩ := good
  obtain ⟨head, holds, place, turn⟩ := core.queue.ring
  rw [State.done]
  cases doing : s.doing with
  | none => exact rfl
  | some slot =>
      unfold Turn at turn
      rw [doing] at turn
      obtain ⟨rfl, some_, next, count⟩ := turn
      obtain ⟨⟨d, op⟩, rest, rfl⟩ := List.exists_cons_of_ne_nil some_
      obtain ⟨first, b, found, busy⟩ := core.queue.first holds
      simp only [first, State.buf, found, Except.ok_bind]
      have once := core.queue.once
      rw [List.map_cons, List.nodup_cons] at once
      let b' : Buf α := { b with busy := false, want := false }
      have look := lookup_replace found b'
      have queue : Queue { s.setBuf d b' with
          qios := Function.update s.qios slot none, doing := none,
          asleep := if b.want then false else s.asleep } rest := by
        refine ⟨⟨(slot + 1) % NQIO, holds.pop, ?_, next, Nat.succ.inj count⟩, once.2, fun d' c is => ?_,
          fun d' member => ?_, fun d' c member is => ?_⟩
        · show s.qnext = _
          rw [place, Nat.mod_add_mod, List.length_cons, Nat.add_assoc, Nat.add_comm 1]
        · have is := (look d').symm.trans is
          split_ifs at is with here
          · rw [← Option.some.inj is, here]
            exact ⟨nofun, fun member => absurd member once.1⟩
          · rw [core.queue.busy d' c is, List.map_cons, List.mem_cons]
            exact ⟨fun either => either.resolve_left here, .inr⟩
        · show (s.bufpool.modify d fun _ => b').lookup d' ≠ none
          rw [Ne, lookup_replace_none found]
          exact core.queue.there d' (List.mem_cons_of_mem _ member)
        · have is := (look d').symm.trans is
          split_ifs at is with here
          · exact absurd (List.mem_map.mpr ⟨_, member, here⟩) once.1
          · exact core.queue.fills d' c (List.mem_cons_of_mem _ member) is
      refine ⟨⟨rest, core.change found b' rfl (core.co.flags found ⟨rfl, rfl, rfl, rfl⟩) queue
        (List.Perm.refl _) rfl fun sleeps => ?_, ?_, ?_⟩, rfl⟩
      · cases want : b.want with
        | true =>
            have sleeps : (if b.want then false else s.asleep) = true := sleeps
            rw [want, if_pos rfl] at sleeps
            cases sleeps
        | false =>
            have sleeps : (if b.want then false else s.asleep) = true := sleeps
            rw [want, if_neg Bool.false_ne_true] at sleeps
            exact .inr ⟨sleeps, nofun⟩
      · exact ready.replace found rfl id fun _ _ => busy
      · intro handle is d' c found' wanted
        have found' := (look d').symm.trans found'
        have before : ∃ c', s.bufpool.lookup d' = some c' ∧ c'.wanted handle = true := by
          split_ifs at found' with here
          · rw [← Option.some.inj found'] at wanted
            exact ⟨b, here ▸ found, wanted⟩
          · exact ⟨c, found', wanted⟩
        obtain ⟨c', was, wanted'⟩ := before
        rcases syncs handle is d' c' was wanted' with at_ | queued
        · exact .inl at_
        · rw [doing] at queued
          exact .inr queued

/-! ## The foreground -/

/-- What is known to be flushed when a step of a call went on. -/
def settled (synced : Option (Option Handle)) : Note α → Option (Option Handle)
  | .stored _ _ => none
  | _ => synced

/-- What was read is what is on the plain disk. -/
def Note.Agrees (plain : Plain α) : Note α → Prop
  | .read a data => ∀ j v, j < data.length → plain (a + j) = some v → data[j]? = some v
  | _ => True

/-- What a step of the foreground leaves. -/
def Goes (plain : Plain α) (synced : Option (Option Handle)) (out : State α × Note α) : Prop :=
  (∃ q, Good out.1 (out.2.onto plain) (settled synced out.2) q) ∧ out.2.Agrees plain

/-- Outside of `sync_bufs`, what has to be flushed is queued. -/
theorem Synced.next {q' : List (ULong × Op)} (syncs : Synced s synced q)
    (elsewhere : ∀ left handle, s.fg ≠ .sync left handle)
    (queued : ∀ e ∈ todo s.doing q, e ∈ todo t.doing q')
    (pool : ∀ d b, t.bufpool.lookup d = some b → ∀ handle, b.wanted handle = true →
      ∃ b', s.bufpool.lookup d = some b' ∧ b'.wanted handle = true) : Synced t synced q' := by
  intro handle is d b found wanted
  obtain ⟨b', found', wanted'⟩ := pool d b found handle wanted
  rcases syncs handle is d b' found' wanted' with ⟨left, at_, -⟩ | member
  · exact absurd at_ (elsewhere left handle)
  · exact .inr (queued _ member)

theorem wanted_replace (found : pool.lookup d = some b) (b' : Buf α)
    (same : ∀ handle, b'.wanted handle = true → b.wanted handle = true) (d' : ULong) (c : Buf α)
    (is : (pool.modify d fun _ => b').lookup d' = some c) (handle : Option Handle)
    (wanted : c.wanted handle = true) :
    ∃ c', pool.lookup d' = some c' ∧ c'.wanted handle = true := by
  rw [lookup_replace found] at is
  split_ifs at is with here
  · rw [← Option.some.inj is] at wanted
    exact ⟨b, here ▸ found, same handle wanted⟩
  · exact ⟨c, is, wanted⟩

/-- The foreground sleeps. -/
theorem Good.sleep (good : Good s plain synced q) (found : s.bufpool.lookup d = some b)
    (busy : b.busy = true) :
    Good { s.setBuf d { b with want := true } with asleep := true } plain synced q := by
  obtain ⟨core, ready, syncs⟩ := good
  refine ⟨core.change found { b with want := true } rfl
    (core.co.flags found ⟨rfl, rfl, rfl, rfl⟩)
    (core.queue.update found rfl (core.queue.ring.same rfl rfl rfl rfl rfl) rfl fun _ => id)
    (List.Perm.refl _) rfl fun _ => .inl ⟨rfl, busy⟩,
    ready.replace found rfl id fun _ _ => busy, fun handle is d' c found' wanted => ?_⟩
  obtain ⟨c', before, wanted'⟩ := wanted_replace found { b with want := true } (fun _ => id) d' c
    found' handle wanted
  exact syncs handle is d' c' before wanted'

/-- The foreground waits for a buffer, or uses it when it is not busy. -/
theorem Good.get (good : Good s plain synced q) (found : s.bufpool.lookup d = some b)
    {rest : Buf α → M (State α × Note α)}
    (goes : b.busy = false → (rest b).Ensures (· = .wait) (Goes plain synced)) :
    (s.get d rest).Ensures (· = .wait) (Goes plain synced) := by
  simp only [State.get, State.buf, found, Except.ok_bind]
  refine Except.Ensures.ite (fun busy => ?_) fun idle => goes (by simpa using idle)
  exact ⟨⟨q, good.sleep found busy⟩, trivial⟩

/-- A buffer that is not busy changes, and the foreground is done with it. -/
theorem Good.step (good : Good s plain synced q) (found : s.bufpool.lookup d = some b)
    (idle : b.busy = false) (awake : s.asleep = false)
    (elsewhere : ∀ left handle, s.fg ≠ .sync left handle)
    (pool : t.bufpool = s.bufpool.modify d fun _ => b')
    (co : Coherent t.disk (s.bufpool.modify d fun _ => b') plain')
    (ring : t.qios = s.qios ∧ t.qnext = s.qnext ∧ t.next = s.next ∧ t.ready = s.ready ∧
      t.doing = s.doing ∧ t.asleep = s.asleep)
    (busy : b'.busy = b.busy) (listed : t.allbufs.Perm s.allbufs)
    (size : t.bufsize + b.bNsec = s.bufsize + b'.bNsec) (ready : Ready t.bufpool t.fg)
    {synced' : Option (Option Handle)}
    (syncs : synced' = none ∨ synced' = synced ∧
      ∀ handle, b'.wanted handle = true → b.wanted handle = true) :
    Good t plain' synced' q := by
  obtain ⟨qios, qnext, next, count, doing, asleep⟩ := ring
  refine ⟨good.core.change found b' pool co (good.core.queue.update found pool
    (good.core.queue.ring.same qios qnext next count doing) busy fun yes => ?_) listed size
      fun sleeps => ?_, ready, ?_⟩
  · rw [idle] at yes
    cases yes
  · rw [asleep, awake] at sleeps
    cases sleeps
  · rcases syncs with rfl | ⟨rfl, same⟩
    · intro handle is
      cases is
    · refine good.synced.next elsewhere (fun e member => doing ▸ member) ?_
      rw [pool]
      exact wanted_replace found b' same

theorem Loads.wanted {disk : ℕ → α} {start : ℕ} (loads : Loads disk start b b')
    (handle : Option Handle) (wanted : b'.wanted handle = true) : b.wanted handle = true := by
  rw [Buf.wanted] at wanted ⊢
  rwa [← loads.dirty, ← loads.rest.2]

theorem movehead_perm (core : Core s plain q) (found : s.bufpool.lookup d = some b) :
    (s.movehead d).allbufs.Perm s.allbufs :=
  (List.perm_cons_erase ((core.listed.2 d).mpr (by rw [found]; exact Option.some_ne_none b))).symm

theorem Good.index (good : Good s plain synced q) (awake : s.asleep = false) {i n : ℕ}
    {use : Use α} (fg : s.fg = .index d i n use) :
    (s.indexBuf d i n use).Ensures (· = .wait) (Goes plain synced) := by
  have ready := good.ready
  rw [fg] at ready
  obtain ⟨b, found, pos, inside, sized⟩ := ready
  have elsewhere : ∀ left handle, s.fg ≠ .sync left handle := by
    rw [fg]
    exact nofun
  have loads : Loads s.disk d.toNat b (b.load s.disk d.toNat i n) :=
    loads_load (good.core.co.shape d b found)
  refine good.get found fun idle => ?_
  cases use with
  | load =>
      have co := good.core.co.loads found loads
      refine ⟨⟨q, good.step (t := ({ s.movehead d with fg := .user } : State α).setBuf d
        (b.load s.disk d.toNat i n)) found idle awake elsewhere rfl co
        ⟨rfl, rfl, rfl, rfl, rfl, rfl⟩ loads.rest.1 (movehead_perm good.core found)
        (by rw [loads.size]; rfl) trivial (.inr ⟨rfl, loads.wanted⟩)⟩, fun j v short has => ?_⟩
      have short : j < n := (List.length_take_le _ _).trans_lt' short
      rw [List.getElem?_take_of_lt short, List.getElem?_drop]
      refine co.cached d _ (i + j) v ((lookup_replace found _ d).trans (if_pos rfl)) ?_
        (load_valid (good.core.co.shape d b found) (Nat.le_add_right i j) (by omega))
        (by rwa [← Nat.add_assoc])
      rw [loads.size]
      omega
  | store data handle =>
      have size : (((b.load s.disk d.toNat i n).poke i data).dirtyBuf handle).bNsec = b.bNsec :=
        (length_poke _ (by rw [loads.size, sized]; exact inside)).trans loads.size
      exact ⟨⟨q, good.step (t := ({ s.movehead d with fg := .user } : State α).setBuf d
        (((b.load s.disk d.toNat i n).poke i data).dirtyBuf handle)) found idle awake elsewhere rfl
        (good.core.co.stored found ⟨pos, inside⟩ sized handle) ⟨rfl, rfl, rfl, rfl, rfl, rfl⟩
        loads.rest.1 (movehead_perm good.core found) (by rw [size]; rfl) trivial (.inl rfl)⟩,
        trivial⟩

theorem Good.flush (good : Good s plain synced q) (awake : s.asleep = false) (fg : s.fg = .flush d) :
    (s.get d fun b => .ok ({ s.writeBuf d b with fg := .user }, .quiet)).Ensures (· = .wait)
      (Goes plain synced) := by
  have ready := good.ready
  rw [fg] at ready
  obtain ⟨b, found, sec0⟩ := ready
  refine good.get found fun idle => ⟨⟨q, ?_⟩, trivial⟩
  exact good.step (t := { s.writeBuf d b with fg := .user }) found idle awake
    (by rw [fg]; exact nofun) rfl (good.core.co.written found sec0) ⟨rfl, rfl, rfl, rfl, rfl, rfl⟩ rfl
    (List.Perm.refl _) rfl trivial (.inr ⟨rfl, nofun⟩)

theorem Good.resize (good : Good s plain synced q) (awake : s.asleep = false) {newsize : ℕ}
    {fill : Bool} {memory : Option (ℕ → α)} (fg : s.fg = .resize d newsize fill memory) :
    (s.resizeBuf d newsize fill memory).Ensures (· = .wait) (Goes plain synced) := by
  have ready := good.ready
  rw [fg] at ready
  obtain ⟨there, pos, le, alone⟩ := ready
  obtain ⟨b, found⟩ := Option.ne_none_iff_exists'.mp there
  have elsewhere : ∀ left handle, s.fg ≠ .sync left handle := by
    rw [fg]
    exact nofun
  refine good.get found fun idle => ?_
  cases memory with
  | none =>
      exact ⟨⟨q, good.core.at_ .user, trivial,
        good.synced.next elsewhere (fun _ => id) fun d' c is handle wanted => ⟨c, is, wanted⟩⟩,
        trivial⟩
  | some memory =>
      have size := length_resized b s.disk d.toNat newsize fill memory
      have enough : b.bNsec ≤ s.bufsize + newsize := by
        rw [good.core.size, total_delete found]
        omega
      let s' := s.setBuf d (b.resized s.disk d.toNat newsize fill memory)
      refine ⟨⟨q, good.step (t := { s' with
          bufsize := s.bufsize + newsize - b.bNsec, fg := .loop none none }) found idle awake elsewhere
        rfl (good.core.co.resize found memory pos le alone) ⟨rfl, rfl, rfl, rfl, rfl, rfl⟩ rfl
        (List.Perm.refl _) ?_ ⟨nofun, nofun⟩ (.inr ⟨?_, fun handle wanted => wanted⟩)⟩, ?_⟩
      · rw [size]
        exact Nat.sub_add_cancel enough
      · show settled synced (b.lost d.toNat newsize fill) = synced
        rw [Buf.lost]
        split_ifs <;> rfl
      · show (b.lost d.toNat newsize fill).Agrees plain
        rw [Buf.lost]
        split_ifs <;> trivial

/-- The foreground frees a buffer. -/
theorem Good.free (good : Good s plain synced q) (found : s.bufpool.lookup d = some b)
    (idle : b.busy = false) (elsewhere : ∀ left handle, s.fg ≠ .sync left handle) {fg : Fg α}
    (co : Coherent s.disk (s.bufpool.delete d) plain') (ready : Ready (s.bufpool.delete d) fg) :
    Good { s.freeBuf d b with fg := fg } plain' synced q := by
  refine ⟨(good.core.free found idle co).at_ fg, ready, good.synced.next elsewhere (fun _ => id)
    fun d' c is handle wanted => ⟨c, ?_, wanted⟩⟩
  have is : (s.bufpool.delete d).lookup d' = some c := is
  rw [good.core.co.distinct.lookup_delete] at is
  split_ifs at is
  exact is

theorem Good.inval (good : Good s plain synced q) {len : ℕ} (fg : s.fg = .inval d len) :
    (s.invalBuf d len).Ensures (· = .wait) (Goes plain synced) := by
  have elsewhere : ∀ left handle, s.fg ≠ .sync left handle := by
    rw [fg]
    exact nofun
  have ready : ∀ pool : Hash (Buf α), Ready pool
      (if len ≤ EXTSIZ then .user else .inval (d + BitVec.ofNat 32 EXTSIZ) (len - EXTSIZ) : Fg α) := by
    intro pool
    split_ifs <;> trivial
  rw [State.invalBuf]
  cases found : s.bufpool.lookup d with
  | none =>
      exact ⟨⟨q, good.core.at_ _, ready _,
        good.synced.next elsewhere (fun _ => id) fun d' c is handle wanted => ⟨c, is, wanted⟩⟩,
        trivial⟩
  | some b =>
      exact good.get found fun idle => ⟨⟨q, good.free found idle elsewhere
        (good.core.co.given_up found) (ready _)⟩, trivial⟩

theorem Core.insert (core : Core s plain q) {new : New α} (memory : ℕ → α) (fg : Fg α)
    (fresh : s.bufpool.lookup new.start = none) (pos : 0 < new.nsec) (le : new.nsec ≤ EXTSIZ)
    (alone : Alone s.bufpool new.start new.nsec) (data : Buf α)
    (is : data = ⟨(List.range new.nsec).map memory, !new.fill, !new.fill, false, false, false, 0, []⟩) :
    Core { s with
      bufpool := s.bufpool.insert new.start data
      allbufs := s.allbufs ++ [new.start]
      bufsize := s.bufsize + new.nsec
      fg := fg } ((if new.fill then Note.quiet else .gone new.start.toNat new.nsec).onto plain) q := by
  have look : ∀ d, (s.bufpool.insert new.start data).lookup d =
      if d = new.start then some data else s.bufpool.lookup d := Hash.lookup_insert _ _ _
  have queued : ∀ d ∈ q.map Prod.fst, d ≠ new.start := by
    rintro d member rfl
    exact core.queue.there _ member fresh
  refine ⟨by rw [is]; exact core.co.found memory fresh pos le alone,
    ⟨core.queue.ring.same rfl rfl rfl rfl rfl, core.queue.once, fun d b found => ?_,
      fun d member => ?_, fun d b member found => ?_⟩, ⟨?_, fun d => ?_⟩, ?_, fun sleeps => ?_⟩
  · have found := (look d).symm.trans found
    split_ifs at found with here
    · rw [← Option.some.inj found, is]
      exact ⟨nofun, fun member => absurd here (queued d member)⟩
    · exact core.queue.busy d b found
  · show (s.bufpool.insert new.start data).lookup d ≠ none
    rw [look, if_neg (queued d member)]
    exact core.queue.there d member
  · have found := (look d).symm.trans found
    rw [if_neg (queued d (List.mem_map_of_mem (f := Prod.fst) member))] at found
    exact core.queue.fills d b member found
  · show (s.allbufs ++ [new.start]).Nodup
    refine List.nodup_append.mpr ⟨core.listed.1, List.nodup_singleton _, fun a member b same => ?_⟩
    rw [List.mem_singleton.mp same]
    rintro rfl
    exact (core.listed.2 _).mp member fresh
  · show d ∈ s.allbufs ++ [new.start] ↔ (s.bufpool.insert new.start data).lookup d ≠ none
    rw [List.mem_append, List.mem_singleton, core.listed.2, look]
    split_ifs with here
    · exact ⟨fun _ => Option.some_ne_none _, fun _ => .inr here⟩
    · exact ⟨fun either => either.resolve_right here, .inl⟩
  · show s.bufsize + new.nsec = total (s.bufpool.insert new.start data)
    rw [core.size, total, total, Hash.insert, List.map_cons, List.sum_cons, is, Buf.bNsec,
      List.length_map, List.length_range, Nat.add_comm]
  · obtain ⟨d, b, found, want, busy⟩ := core.asleep sleeps
    refine ⟨d, b, ?_, want, busy⟩
    show (s.bufpool.insert new.start data).lookup d = some b
    rw [look, if_neg, found]
    rintro rfl
    rw [fresh] at found
    cases found

/-- The foreground goes elsewhere, and the buffers stay. -/
theorem Good.at_ (good : Good s plain synced q)
    (elsewhere : ∀ left handle, s.fg ≠ .sync left handle) {fg : Fg α}
    (ready : Ready s.bufpool fg) : Goes plain synced ({ s with fg := fg }, .quiet) :=
  ⟨⟨q, good.core.at_ fg, ready,
    good.synced.next elsewhere (fun _ => id) fun _ c is _ wanted => ⟨c, is, wanted⟩⟩, trivial⟩

theorem Good.found (good : Good s plain synced q) {new : New α}
    (fg : s.fg = .loop none (some new)) :
    (s.insertBuf new).Ensures (· = .wait) (Goes plain synced) := by
  have ready := good.ready
  rw [fg] at ready
  obtain ⟨pos, le, fresh, alone⟩ := ready.2 new rfl
  have elsewhere : ∀ left handle, s.fg ≠ .sync left handle := by
    rw [fg]
    exact nofun
  rw [State.insertBuf]
  cases new.memory with
  | none => exact good.at_ elsewhere trivial
  | some memory =>
      refine ⟨⟨q, good.core.insert memory (if new.bg then .queue new.start else .user) fresh pos le
        alone _ rfl, ?_, ?_⟩, ?_⟩
      · show Ready (s.bufpool.insert new.start _) (if new.bg then .queue new.start else .user)
        split_ifs
        · exact ⟨_, (Hash.lookup_insert _ _ _ _).trans (if_pos rfl), rfl, rfl⟩
        · trivial
      · have same : settled synced (if new.fill then Note.quiet (α := α)
            else .gone new.start.toNat new.nsec) = synced := by
          split_ifs <;> rfl
        show Synced _ (settled synced _) q
        rw [same]
        refine good.synced.next elsewhere (fun _ => id) fun d b is handle wanted => ?_
        have is := (Hash.lookup_insert _ _ _ _).symm.trans is
        split_ifs at is with here
        · rw [← Option.some.inj is] at wanted
          cases wanted
        · exact ⟨b, is, wanted⟩
      · show (if new.fill then Note.quiet else .gone new.start.toNat new.nsec).Agrees plain
        split_ifs <;> trivial

/-- An operation that the foreground queues on its way. -/
theorem Good.queue (good : Good s plain synced q) (found : s.bufpool.lookup d = some b)
    (idle : b.busy = false) (clean : op = .fill → b.dirty = false) (fg : Fg α)
    (ready : Ready (s.bufpool.modify d fun _ => { b with busy := true }) fg)
    (syncs : ∀ handle, synced = some handle → ∀ d' c, s.bufpool.lookup d' = some c →
      c.wanted handle = true → (∃ left, fg = .sync left handle ∧ d' ∈ left) ∨
        (d', Op.flush) ∈ todo s.doing q ∨ (d', Op.flush) = (d, op)) :
    ((s.qio d op).bind fun t => .ok ({ t with fg := fg }, .quiet)).Ensures (· = .wait)
      (Goes plain synced) := by
  have turn : ∃ head, Turn s head q := good.core.queue.ring.imp fun _ holds => holds.2.2
  refine (good.core.qio found idle clean).bind fun t holds => ?_
  obtain ⟨core, doing, pool⟩ := holds
  refine ⟨⟨_, core.at_ fg, pool ▸ ready, fun handle is d' c found' wanted => ?_⟩, trivial⟩
  have found' : t.bufpool.lookup d' = some c := found'
  rw [pool] at found'
  obtain ⟨c', before, wanted'⟩ :=
    wanted_replace found { b with busy := true } (fun _ => id) d' c found' handle wanted
  show _ ∨ (d', Op.flush) ∈ todo t.doing (q ++ [(d, op)])
  rw [doing, todo_append turn, List.mem_append, List.mem_singleton]
  exact syncs handle is d' c' before wanted'

/-- What a new buffer needs stays when others are freed or change. -/
theorem Ready.loop {left left' : Option (List ULong)} {new : Option (New α)} {pool' : Hash (Buf α)}
    (ready : Ready pool (.loop left new))
    (before : ∀ d b, pool'.lookup d = some b →
      ∃ b', pool.lookup d = some b' ∧ b'.bNsec = b.bNsec)
    (there : ∀ l, left' = some l → ∀ d ∈ l, pool'.lookup d ≠ none) :
    Ready pool' (.loop left' new) := by
  refine ⟨there, fun n is => ?_⟩
  obtain ⟨pos, le, fresh, alone⟩ := ready.2 n is
  refine ⟨pos, le, ?_, fun d b a other found low high => ?_⟩
  · by_contra some_
    obtain ⟨b, found⟩ := Option.ne_none_iff_exists'.mp some_
    obtain ⟨b', was, -⟩ := before _ b found
    rw [fresh] at was
    cases was
  · obtain ⟨b', was, size⟩ := before d b found
    exact alone d b' a other was low (size ▸ high)

theorem Good.room (good : Good s plain synced q) {left : Option (List ULong)}
    {new : Option (New α)} (fg : s.fg = .loop left new) :
    (s.makeRoom left new).Ensures (· = .wait) (Goes plain synced) := by
  have ready := good.ready
  rw [fg] at ready
  have elsewhere : ∀ left handle, s.fg ≠ .sync left handle := by
    rw [fg]
    exact nofun
  have same : ∀ d b, s.bufpool.lookup d = some b →
      ∃ b', s.bufpool.lookup d = some b' ∧ b'.bNsec = b.bNsec := fun d b is => ⟨b, is, rfl⟩
  rw [State.makeRoom.eq_def]
  cases left with
  | none =>
      refine Except.Ensures.ite (fun _ => good.at_ elsewhere (ready.loop same ?_)) fun _ => ?_
      · intro l is d member
        rw [← Option.some.inj is, List.mem_reverse] at member
        exact (good.core.listed.2 d).mp member
      · cases new with
        | none => exact good.at_ elsewhere trivial
        | some new => exact good.found fg
  | some left =>
      cases left with
      | nil => exact good.at_ elsewhere (ready.loop same nofun)
      | cons d left =>
          obtain ⟨b, found⟩ :=
            Option.ne_none_iff_exists'.mp (ready.1 _ rfl d List.mem_cons_self)
          have there : ∀ l, some left = some l → ∀ d ∈ l, s.bufpool.lookup d ≠ none :=
            fun l is d' member => ready.1 _ rfl d'
              (List.mem_cons_of_mem _ (Option.some.inj is ▸ member))
          simp only [State.buf, found, Except.ok_bind]
          refine Except.Ensures.ite (fun _ => good.at_ elsewhere (ready.loop same there))
            fun free => ?_
          have idle : b.busy = false := by
            cases busy : b.busy with
            | false => rfl
            | true =>
                rw [busy, Bool.or_true] at free
                exact absurd rfl free
          refine Except.Ensures.ite (fun clean => ?_) fun dirty => ?_
          · have clean : b.dirty = false := by simpa using clean
            refine ⟨⟨q, good.free found idle elsewhere ?_ (ready.loop (fun d' c is => ?_) nofun)⟩,
              trivial⟩
            · exact good.core.co.free found (fun _ => .inl rfl) fun _ _ _ _ => clean
            · rw [good.core.co.distinct.lookup_delete] at is
              split_ifs at is
              exact ⟨c, is, rfl⟩
          · have flush : Op.flush = .fill → b.dirty = false := nofun
            refine good.queue found idle flush (.loop (some left) new) (ready.loop (fun d' c is => ?_) fun l is d' member => ?_)
              fun handle is d' c found' wanted => ?_
            · rw [lookup_replace found] at is
              split_ifs at is with here
              · exact ⟨b, here ▸ found, by rw [← Option.some.inj is]; rfl⟩
              · exact ⟨c, is, rfl⟩
            · rw [Ne, lookup_replace_none found]
              exact there l is d' member
            · rcases good.synced handle is d' c found' wanted with ⟨l, at_, -⟩ | queued
              · exact absurd at_ (elsewhere l handle)
              · exact .inr (.inl queued)

/-- What is left of a list that `sync_bufs` went on in. -/
theorem Good.skip (good : Good s plain synced q) {left : List ULong} {handle : Option Handle}
    (fg : s.fg = .sync (d :: left) handle) (found : s.bufpool.lookup d = some b)
    (unwanted : b.wanted handle = false) :
    Goes plain synced ({ s with fg := .sync left handle }, .quiet) := by
  have ready := good.ready
  rw [fg] at ready
  refine ⟨⟨q, good.core.at_ _, fun d' member => ready d' (List.mem_cons_of_mem _ member),
    fun handle' is d' c found' wanted => ?_⟩, trivial⟩
  rcases good.synced handle' is d' c found' wanted with ⟨l, at_, member⟩ | queued
  · rw [fg] at at_
    obtain ⟨rfl, rfl⟩ := Fg.sync.inj at_
    rcases List.mem_cons.mp member with rfl | later
    · obtain rfl := Option.some.inj (found.symm.trans found')
      rw [unwanted] at wanted
      cases wanted
    · exact .inl ⟨left, rfl, later⟩
  · exact .inr queued

theorem Good.sync (good : Good s plain synced q) {left : List ULong} {handle : Option Handle}
    (fg : s.fg = .sync left handle) :
    (s.syncBufs left handle).Ensures (· = .wait) (Goes plain synced) := by
  have ready := good.ready
  rw [fg] at ready
  cases left with
  | nil =>
      refine ⟨⟨q, good.core.at_ _, trivial, fun handle' is d' c found' wanted => ?_⟩, trivial⟩
      rcases good.synced handle' is d' c found' wanted with ⟨l, at_, member⟩ | queued
      · rw [fg] at at_
        obtain ⟨rfl, -⟩ := Fg.sync.inj at_
        cases member
      · exact .inr queued
  | cons d left =>
      obtain ⟨b, found⟩ := Option.ne_none_iff_exists'.mp (ready d List.mem_cons_self)
      rw [State.syncBufs.eq_def]
      simp only [State.buf, found, Except.ok_bind]
      refine Except.Ensures.ite (fun clean => good.skip fg found ?_) fun dirty => ?_
      · rw [Buf.wanted, show b.dirty = false by simpa using clean]
        rfl
      · refine good.get found fun idle => Except.Ensures.ite (fun other => ?_) fun wants => ?_
        · exact good.skip fg found (by simpa using other)
        · have flush : Op.flush = .fill → b.dirty = false := nofun
          refine good.queue found idle flush (.sync left handle) (fun d' member => ?_) fun handle' is d' c found' wanted => ?_
          · rw [Ne, lookup_replace_none found]
            exact ready d' (List.mem_cons_of_mem _ member)
          · rcases good.synced handle' is d' c found' wanted with ⟨l, at_, member⟩ | queued
            · rw [fg] at at_
              obtain ⟨rfl, rfl⟩ := Fg.sync.inj at_
              rcases List.mem_cons.mp member with rfl | later
              · exact .inr (.inr rfl)
              · exact .inl ⟨left, rfl, later⟩
            · exact .inr (.inl queued)

/-- **The foreground goes on, or waits.** -/
theorem Good.go (good : Good s plain synced q) :
    s.go.Ensures (· = .wait) (Goes plain synced) := by
  rw [State.go]
  refine Except.Ensures.ite (fun _ => rfl) fun awake => ?_
  have awake : s.asleep = false := by simpa using awake
  cases fg : s.fg with
  | user => exact rfl
  | loop left new => exact good.room fg
  | queue d =>
      have ready := good.ready
      rw [fg] at ready
      obtain ⟨b, found, idle, clean⟩ := ready
      refine good.queue found idle (fun _ => clean) .user trivial fun handle is d' c found' wanted => ?_
      rcases good.synced handle is d' c found' wanted with ⟨l, at_, -⟩ | queued
      · rw [fg] at at_
        cases at_
      · exact .inr (.inl queued)
  | index d i n use => exact good.index awake fg
  | flush d => exact good.flush awake fg
  | resize d newsize fill memory => exact good.resize awake fg
  | inval d len => exact good.inval fg
  | sync left handle => exact good.sync fg

/-- The locks of a buffer change. -/
theorem Good.locks (good : Good s plain synced q) (found : s.bufpool.lookup d = some b)
    (fg : s.fg = .user) (n : ℕ) : Good (s.setBuf d { b with bLocks := n }) plain synced q := by
  obtain ⟨core, ready, syncs⟩ := good
  refine ⟨core.change found { b with bLocks := n } rfl (core.co.flags found ⟨rfl, rfl, rfl, rfl⟩)
    (core.queue.update found rfl (core.queue.ring.same rfl rfl rfl rfl rfl) rfl fun _ => id)
    (List.Perm.refl _) rfl fun sleeps => .inr ⟨sleeps, fun want busy => ⟨want, busy⟩⟩, ?_, ?_⟩
  · show Ready _ s.fg
    rw [fg]
    trivial
  · exact syncs.next (by rw [fg]; exact nofun) (fun _ => id)
      (wanted_replace found { b with bLocks := n } fun _ => id)

/-- **A call that keeps to the conditions goes through, up to where it may wait.** -/
theorem Good.call {w : World α} (good : Good w.server w.plain w.synced q) (c : Call α)
    (meets : Meets w (.call c)) : (w.server.call c).Ensures (· = .wait) fun out =>
      (∃ q, Good out.1 (out.2.onto w.plain) (w.syncs (.call c) out.2) q) ∧ out.2.Agrees w.plain := by
  rw [State.call.eq_def]
  cases fg : w.server.fg with
  | user =>
      have elsewhere : ∀ left handle, w.server.fg ≠ .sync left handle := by
        rw [fg]
        exact nofun
      have still : (∃ q, Good w.server w.plain w.synced q) ∧ Note.quiet.Agrees w.plain :=
        ⟨⟨q, good⟩, trivial⟩
      cases c with
      | find new =>
          obtain ⟨pos, le, alone⟩ := meets
          simp only
          cases fresh : w.server.bufpool.lookup new.start with
          | some _ => exact still
          | none =>
              refine good.at_ elsewhere ⟨nofun, fun n is => ?_⟩
              rw [← Option.some.inj is]
              exact ⟨pos, le, fresh, alone fresh⟩
      | resize d newsize fill memory =>
          obtain ⟨pos, le, alone⟩ := meets
          simp only
          cases found : w.server.bufpool.lookup d with
          | none => exact still
          | some b =>
              have core : Core (w.server.movehead d) w.plain q :=
                ⟨good.core.co, ⟨good.core.queue.ring, good.core.queue.once, good.core.queue.busy,
                  good.core.queue.there, good.core.queue.fills⟩,
                  ⟨(movehead_perm good.core found).nodup_iff.mpr good.core.listed.1, fun d' =>
                    (movehead_perm good.core found).mem_iff.trans (good.core.listed.2 d')⟩,
                  good.core.size, good.core.asleep⟩
              have synced : ∀ fg, Synced { w.server.movehead d with fg := fg } w.synced q := fun fg =>
                good.synced.next elsewhere (fun _ => id) fun d' c is _ wanted => ⟨c, is, wanted⟩
              refine Except.Ensures.ite (fun _ => ⟨⟨q, core, ?_, synced _⟩, trivial⟩) fun _ =>
                ⟨⟨q, core.at_ _, ?_, synced _⟩, trivial⟩
              · show Ready w.server.bufpool w.server.fg
                exact good.ready
              · have known : w.server.bufpool.lookup d ≠ none := by
                  rw [found]
                  exact Option.some_ne_none b
                exact ⟨known, pos, le, alone known⟩
      | index d i n use => exact good.at_ elsewhere meets
      | lock d =>
          obtain ⟨b, found⟩ := Option.ne_none_iff_exists'.mp meets
          simp only [State.buf, found, Except.ok_bind]
          exact ⟨⟨q, good.locks found fg _⟩, trivial⟩
      | unlock d =>
          obtain ⟨b, found⟩ := Option.ne_none_iff_exists'.mp meets
          simp only [State.buf, found, Except.ok_bind]
          exact ⟨⟨q, good.locks found fg _⟩, trivial⟩
      | sync d =>
          obtain ⟨b, found⟩ := Option.ne_none_iff_exists'.mp meets
          simp only [State.buf, found, Except.ok_bind]
          refine Except.Ensures.ite (fun _ => still) fun dirty => ?_
          refine good.at_ elsewhere ⟨b, found, (good.core.co.shape d b found).dirty ?_⟩
          simpa using dirty
      | inval d len => exact good.at_ elsewhere trivial
      | syncAll handle =>
          refine ⟨⟨q, good.core.at_ _, fun d member => (good.core.listed.2 d).mp member,
            fun handle' is d b found wanted => .inl ⟨w.server.allbufs, ?_, ?_⟩⟩, trivial⟩
          · rw [← Option.some.inj is]
          · refine (good.core.listed.2 d).mpr ?_
            rw [show w.server.bufpool.lookup d = some b from found]
            exact Option.some_ne_none b
  | _ => exact rfl

/-! ## Runs -/

theorem start_good (disk : ℕ → α) (coresec : ℕ) :
    Good (start disk coresec) (fun a => some (disk a)) none [] := by
  refine ⟨⟨coherent_start disk, ⟨⟨0, .nil (by decide), rfl, rfl, rfl⟩, List.nodup_nil, nofun, nofun,
    nofun⟩, ⟨List.nodup_nil, fun d => ⟨nofun, fun there => absurd rfl there⟩⟩, rfl, nofun⟩, trivial,
    nofun⟩

/-- What holds of the cache, the plain disk and what is known to be flushed, in every run. -/
def World.Kept (w : World α) : Prop := ∃ q, Good w.server w.plain w.synced q

/-- Every step that keeps to the conditions goes through or waits, and keeps what holds. -/
theorem Good.exec {w : World α} (good : Good w.server w.plain w.synced q) (label : Label α)
    (meets : Meets w label) : (w.server.exec label).Ensures (· = .wait) fun out =>
      (∃ q, Good out.1 (out.2.onto w.plain) (w.syncs label out.2) q) ∧
        out.2.Agrees w.plain := by
  cases label with
  | call c => exact good.call c meets
  | go =>
      refine good.go.mono fun out goes => ?_
      have same : w.syncs .go out.2 = settled w.synced out.2 := by
        cases out.2 <;> rfl
      rw [same]
      exact goes
  | work =>
      refine good.work.mono fun out holds => ?_
      obtain ⟨t, note⟩ := out
      obtain ⟨good', rfl⟩ := holds
      exact ⟨⟨q, good'⟩, trivial⟩
  | done =>
      refine good.done.mono fun out holds => ?_
      obtain ⟨t, note⟩ := out
      obtain ⟨good', rfl⟩ := holds
      exact ⟨good', trivial⟩

/-- No call is going on, and the background has nothing to do. -/
def Idle (s : State α) : Prop := s.fg = .user ∧ s.ready = 0 ∧ s.doing = none

/-- The cache is a plain disk. What is read is what is on the plain disk; so is what is on the disk
where no dirty buffer has it; behind `sync_bufs` what it is about is flushed when the cache is idle,
and without a handle the disk is the plain disk. No pointer leads nowhere, whoever sleeps is woken,
and `bufsize` is what is in memory. -/
structure Right (w : World α) : Prop where
  reads : ∀ label s a data, Meets w label → w.server.exec label = .ok (s, .read a data) →
    ∀ j v, j < data.length → w.plain (a + j) = some v → data[j]? = some v
  flushed : ∀ a v, w.plain a = some v → (∀ d b, w.server.bufpool.lookup d = some b →
    d.toNat ≤ a → a < d.toNat + b.bNsec → b.dirty = false) → w.server.disk a = v
  synced : ∀ handle, w.synced = some handle → Idle w.server → ∀ d b,
    w.server.bufpool.lookup d = some b → b.wanted handle = false
  saved : w.synced = some none → Idle w.server → ∀ a v, w.plain a = some v → w.server.disk a = v
  sound : ∀ label, Meets w label → w.server.exec label ≠ .error .wild
  woken : w.server.asleep = true →
    (∃ out, w.server.exec .work = .ok out) ∨ ∃ out, w.server.exec .done = .ok out
  counted : w.server.bufsize = total w.server.bufpool

theorem Good.flushed (good : Good s plain synced q) {a : ℕ} {v : α} (has : plain a = some v)
    (clean : ∀ d b, s.bufpool.lookup d = some b → d.toNat ≤ a → a < d.toNat + b.bNsec →
      b.dirty = false) : s.disk a = v := by
  rcases good.core.co.kept a v has with on | ⟨d, b, i, found, inside, rfl, -, dirty⟩
  · exact on
  · rw [clean d b found (Nat.le_add_right _ _) (Nat.add_lt_add_left inside _)] at dirty
    cases dirty

/-- When nothing is left to do, nothing is queued. -/
theorem Good.idle (good : Good s plain synced q) (idle : Idle s) : q = [] := by
  obtain ⟨-, none_, doing⟩ := idle
  obtain ⟨head, -, -, turn⟩ := good.core.queue.ring
  unfold Turn at turn
  rw [doing, none_] at turn
  exact List.length_eq_zero_iff.mp turn.2.symm

theorem Good.all_flushed (good : Good s plain synced q) (idle : Idle s) {handle : Option Handle}
    (is : synced = some handle) (found : s.bufpool.lookup d = some b) :
    b.wanted handle = false := by
  by_contra wanted
  rcases good.synced handle is d b found (by simpa using wanted) with ⟨left, at_, -⟩ | queued
  · rw [idle.1] at at_
    cases at_
  · rw [good.idle idle, idle.2.2] at queued
    cases queued

/-- Whoever sleeps waits for an operation that the background has to do or to give back. -/
theorem Good.woken (good : Good s plain synced q) (sleeps : s.asleep = true) :
    (∃ out, s.exec .work = .ok out) ∨ ∃ out, s.exec .done = .ok out := by
  obtain ⟨d, b, found, -, busy⟩ := good.core.asleep sleeps
  have queued := (good.core.queue.busy d b found).mp busy
  obtain ⟨head, holds, -, turn⟩ := good.core.queue.ring
  cases q with
  | nil => cases queued
  | cons e rest =>
      obtain ⟨d', op⟩ := e
      obtain ⟨first, c, found', -⟩ := good.core.queue.first holds
      unfold Turn at turn
      cases doing : s.doing with
      | none =>
          rw [doing] at turn
          obtain ⟨next, count⟩ := turn
          obtain ⟨t, -, run, -⟩ := execQio_spec good.core.co found' fun fill =>
            good.core.queue.fills d' c (fill ▸ List.mem_cons_self) found'
          left
          simp only [State.exec, State.work, count, doing, next, first, run]
          exact ⟨_, rfl⟩
      | some slot =>
          rw [doing] at turn
          obtain ⟨rfl, -⟩ := turn
          right
          simp only [State.exec, State.done, doing, first, State.buf, found']
          exact ⟨_, rfl⟩

/-- `World.Step` as a function. -/
def World.next (w : World α) (label : Label α) : Option (World α) :=
  match w.server.exec label with
  | .ok (s, note) => some ⟨s, note.onto w.plain, w.syncs label note⟩
  | .error _ => none

theorem World.step_of_next {w w' : World α} {label : Label α} (is : w.next label = some w') :
    w.Step label w' := by
  unfold World.next at is
  cases run : w.server.exec label with
  | error e =>
      rw [run] at is
      cases is
  | ok out =>
      obtain ⟨s, note⟩ := out
      rw [run] at is
      obtain rfl := Option.some.inj is
      exact ⟨note, run, rfl, rfl⟩

/-- A call keeps to the conditions; a second `find_buf` is not among them. -/
def fit (w : World α) : Label α → Bool
  | .call (.find new) => 0 < new.nsec && new.nsec ≤ EXTSIZ && w.server.bufpool.isEmpty
  | .call (.index d i n (.store data _)) =>
      (w.server.bufpool.lookup d).any fun b => 0 < n && i + n ≤ b.bNsec && data.length = n
  | .call (.syncAll _) | .go | .work | .done => true
  | _ => false

theorem meets_of_fit {w : World α} {label : Label α} (good : fit w label = true) :
    Meets w label := by
  unfold fit at good
  split at good
  case h_1 new =>
    simp only [Bool.and_eq_true, decide_eq_true_eq, List.isEmpty_iff] at good
    obtain ⟨⟨pos, le⟩, none_⟩ := good
    refine ⟨pos, le, fun _ d' b a _ found => ?_⟩
    rw [none_] at found
    cases found
  case h_2 d i n data handle =>
    obtain ⟨b, found, good⟩ := (Option.any_eq_true _ _).mp good
    simp only [Bool.and_eq_true, decide_eq_true_eq] at good
    exact ⟨b, found, good.1.1, good.1.2, good.2⟩
  all_goals first | exact trivial | cases good

/-- Two sectors are mapped and the second is written; then everything is flushed. -/
def flushing : List (Label ℕ) :=
  [.call (.find ⟨4, 2, true, false, some fun _ => 0⟩), .go,
    .call (.index 4 1 1 (.store [9] none)), .go,
    .call (.syncAll none), .go, .go, .work, .done]

def disk : ℕ → ℕ := fun a => a

def flushed : World ℕ :=
  (Transition.follow World.next fit (World.start disk 8) flushing).get (by decide +kernel)

theorem flushed_run : Transition.Reaches World.Step Meets (World.start disk 8) flushed :=
  (Transition.Reaches.refl _).followed (fun _ _ => meets_of_fit)
    (fun _ _ _ _ => World.step_of_next) (Option.some_get _).symm

end Vsta.Abc
