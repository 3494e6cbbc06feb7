import Vsta.Env.Requests
import Vsta.Library.Runs

/-!
# The references of the environment server in every run

Between requests no reference is in hand: the count of a node is the number of its places in lists
and of the pointers to it, and the count of a string is the number of nodes that have it; whatever
is not pointed at was freed, once (`Intact`). That is so in runs of requests that meet `Fits`
(`env_refs`): with others a parent stays counted by a home that is gone (`home_leaks`), or a node is
used that is not there.
-/

set_option autoImplicit false

namespace Vsta.Env

open Vstafs

/-- What is shown of a request. -/
def Goes (s : State) (label : Outcome × Action) : Prop :=
  ∃ t r, s.exec label.1 label.2 = .ok (t, r) ∧ Intact t

variable {s : State} {a : ULong}

theorem lookup_start : start.nodes.lookup a =
    if a = rootnode then some ⟨[0x2F], true, none, 1, false, none, 0⟩ else none :=
  Hash.lookup_insert [] rootnode _ a

theorem start_intact : Intact start := by
  have only : ∀ a n, start.nodes.lookup a = some n →
      a = rootnode ∧ n = ⟨[0x2F], true, none, 1, false, none, 0⟩ := by
    intro a n found
    rw [lookup_start] at found
    split_ifs at found with top
    exact ⟨top, (Option.some.inj found).symm⟩
  refine ⟨⟨List.nodup_singleton _, List.nodup_nil, fun a n found => ?_, fun a n p found up => ?_,
    nofun, nofun, ⟨_, rfl, rfl, rfl⟩, fun a n found _ => (only a n found).1, fun a n found => ?_,
    ?_⟩, ⟨List.nodup_nil, nofun, fun a n v found value => ?_, nofun, fun _ => rfl⟩,
    fun a n found => ?_, nofun, nofun, nofun, nofun⟩
  · obtain ⟨rfl, rfl⟩ := only a n found
    rfl
  · obtain ⟨rfl, rfl⟩ := only a n found
    cases up
  · obtain ⟨rfl, rfl⟩ := only a n found
    exact Nat.one_pos
  · have nothing : Srv.Ledger ([] : Hash Node) [] [] := fun _ => rfl
    exact nothing.alloc rfl _
  · obtain ⟨rfl, rfl⟩ := only a n found
    cases value
  · obtain ⟨rfl, rfl⟩ := only a n found
    exact Nat.one_pos

/-- **In every run of requests that meet `Fits`, the count of each node is the number of its places
in lists, of its children and of the pointers of clients to it, the count of each string is the
number of nodes that have it, what is not pointed at has been freed, once, and what the root, a node
or a client points at is there.** Every such request goes through, without a failed assertion. -/
theorem env_refs (run : Transition.Reaches Step Fits start s) :
    Intact s ∧ ∀ label, Legal s label → Fits s label → Goes s label := by
  have intact : Intact s := by
    refine run.invariant start_intact ?_
    rintro source label target intact fits ⟨legal, reply, done⟩
    obtain ⟨t, r, done', intact', -⟩ := exec_spec intact legal fits
    rw [done] at done'
    obtain ⟨rfl, rfl⟩ : target = t ∧ reply = r := by simpa using done'
    exact intact'
  refine ⟨intact, fun label legal fits => ?_⟩
  obtain ⟨t, r, done, intact', -⟩ := exec_spec intact legal fits
  exact ⟨t, r, done, intact'⟩

/-! ## Fixed runs -/

instance (label : Outcome × Action) : Decidable (Legal s label) := by
  unfold Legal
  have memory : Decidable (∀ a ∈ label.1.news, s.nodes.lookup a = none) := List.decidableBAll _ _
  split <;> infer_instance

/-- A request that meets the condition, as far as it can be seen from the clients. -/
def fitting (s : State) (label : Outcome × Action) : Bool :=
  match label.2 with
  | .open_ _ _ _ => label.1.node.isSome && label.1.entry
  | .fork _ => label.1.copies.all fun copy => copy.all label.1.copyEntry
  | .disconnect h => (s.filehash.lookup h).all fun f => f.fHome.isNone || s.filehash.any fun node =>
      node.1 ≠ h && (s.filehash.lookup node.1).any fun g => g.group = f.group
  | _ => true

theorem fits_of_fitting (label : Outcome × Action) (good : fitting s label = true) :
    Fits s label := by
  obtain ⟨x, act⟩ := label
  cases act with
  | open_ h name mArg =>
      intro f _ _
      obtain ⟨memory, entry⟩ := (Bool.and_eq_true _ _).mp good
      exact ⟨Option.isSome_iff_ne_none.mp memory, fun _ => entry⟩
  | fork h =>
      intro f _ _ _ b member
      exact List.all_eq_true.mp good (some b) member
  | disconnect h =>
      intro f client home
      simp only [fitting, client, Option.all_some, Bool.or_eq_true, Option.isNone_iff_eq_none, home,
        false_or, List.any_eq_true] at good
      obtain ⟨⟨k, _⟩, -, other⟩ := good
      obtain ⟨apart, same⟩ := (Bool.and_eq_true _ _).mp other
      obtain ⟨g, client', same⟩ := (Option.any_eq_true _ _).mp same
      exact ⟨k, g, of_decide_eq_true apart, client', of_decide_eq_true same⟩
  | connect h mArg => trivial
  | dup h mArg => trivial
  | remove h name => trivial

/-- What a request that goes through leaves. -/
def next (s : State) (label : Outcome × Action) : Option State :=
  (s.exec label.1 label.2).toOption.map Prod.fst

theorem step_of_next {label : Outcome × Action} {t : State} (legal : Legal s label)
    (taken : next s label = some t) : Step s label t := by
  refine ⟨legal, ?_⟩
  rw [next] at taken
  cases done : s.exec label.1 label.2 with
  | error fault =>
      rw [done] at taken
      cases taken
  | ok result =>
      rw [done] at taken
      obtain rfl := Option.some.inj taken
      exact ⟨result.2, rfl⟩

/-- A request that is granted, with memory for a node and a string. -/
def granted (a v : ULong) : Outcome :=
  ⟨ACC_READ ||| ACC_WRITE ||| ACC_CHMOD, true, true, some a, some v, some 0, true, none, [],
    fun _ => true⟩

/-- A client makes a home and a variable in it, and another one gets a copy of the home. -/
def forking : List (Outcome × Action) :=
  [(granted 0x2000 0x8000, .connect 1 0x6), (granted 0x2000 0x8000, .open_ 1 [0x23] 0x36),
    (granted 0x3000 0x8000, .open_ 1 [0x61] 0x16), (granted 0x4000 0x9000, .dup 1 2),
    ({ granted 0x6000 0x9000 with clone := some 0x4000, copies := [some 0x5000] }, .fork 2)]

/-- The tree after that: two homes, with a variable each, that share a string. -/
def shared : State :=
  ⟨[(0x5000, ⟨[0x61], false, some 0x8000, 1, true, some 0x4000, 4⟩),
      (0x4000, ⟨[], true, none, 2, false, some rootnode, 3⟩),
      (0x3000, ⟨[0x61], false, some 0x8000, 3, true, some 0x2000, 2⟩),
      (0x2000, ⟨[], true, none, 2, false, some rootnode, 1⟩),
      (rootnode, ⟨[0x2F], true, none, 3, false, none, 0⟩)],
    [(0x8000, ⟨2, [0]⟩)],
    [(2, ⟨some 0x3000, some 0x4000, 0, 0x46, 1⟩), (1, ⟨some 0x3000, some 0x2000, 0, 0x46, 0⟩)],
    2, [0x5000, 0x4000, 0x3000, 0x2000, rootnode], [], [0x8000], []⟩

set_option maxRecDepth 4000 in
theorem shared_run : Transition.Reaches Step Fits start shared :=
  (Transition.Reaches.refl start).followed
    (fun s label good => fits_of_fitting label (Bool.and_eq_true _ _ ▸ good).2)
    (fun s label t good => step_of_next (of_decide_eq_true (Bool.and_eq_true _ _ ▸ good).1))
    (show Transition.follow next (fun s l => decide (Legal s l) && fitting s l) start forking =
      some shared from rfl)

/-- Every request that meets the condition goes through; the copy of the home is there for the
client that forked. -/
theorem env_refs_shared : Transition.Reaches Step Fits start shared ∧ Intact shared ∧
    (∀ label, Legal shared label → Fits shared label → Goes shared label) ∧
    (shared.exec (granted 0x6000 0x9000) (.open_ 2 [0x23] 0x4)).isOk = true :=
  have holds := env_refs shared_run
  ⟨shared_run, holds.1, holds.2, rfl⟩

/-- A client makes a home and leaves. -/
def homeless : List (Outcome × Action) :=
  [(granted 0x2000 0x8000, .connect 1 0x6), (granted 0x2000 0x8000, .open_ 1 [0x23] 0x36),
    (granted 0x3000 0x8000, .disconnect 1)]

/-- There is no place in a list for a node that a client makes. -/
def placeless : List (Outcome × Action) :=
  [(granted 0x2000 0x8000, .connect 1 0x6),
    ({ granted 0x2000 0x8000 with entry := false }, .open_ 1 [0x61] 0x36)]

/-- **A home that is torn down stays counted at its parent**, where no node and no client is any
more; and a directory in which no node could be made is counted once less than it is pointed at: the
server fails the assertion on the root when its client leaves. -/
theorem home_leaks :
    (∃ s r, Transition.Reaches Step Transition.Any start s ∧ s.filehash = [] ∧
      s.nodes = [(rootnode, r)] ∧ r.nRefs = 2 ∧ named s rootnode = 1) ∧
    ∃ s r, Transition.Reaches Step Transition.Any start s ∧
      s.nodes.lookup rootnode = some r ∧ r.nRefs = 1 ∧ named s rootnode = 2 ∧
      s.exec (granted 0x3000 0x8000) (.disconnect 1) = .error .assfail := by
  have run : ∀ labels s, Transition.follow next (fun s l => decide (Legal s l)) start labels = some s →
      Transition.Reaches Step Transition.Any start s := fun labels s followed =>
    (Transition.Reaches.refl start).followed (fun _ _ _ => trivial)
      (fun s label t good => step_of_next (of_decide_eq_true good)) followed
  exact ⟨⟨_, _, run homeless _ rfl, rfl, rfl, rfl, rfl⟩, _, _, run placeless _ rfl, rfl, rfl, rfl, rfl⟩

end Vsta.Env
