import Mathlib.Logic.Function.Basic
import Mathlib.Data.List.Nodup

/-!
# Connections that are answered

A server has connections, each with at most one request outstanding. `Lines` follows which of them
wait for an answer, and whether an answer was ever sent to one that did not. The one fact a server
is proved with is `Lines.answered`: answers to different connections that all wait leave exactly
those idle, and none goes astray.
-/

set_option autoImplicit false

namespace Service

/-- A connection: there is none, it has no request outstanding, or its request has not been
answered. -/
inductive Conn where
  | absent | idle | waiting
  deriving DecidableEq, Repr

/-- The connections. `stray` records that an answer was sent to one with no outstanding request. -/
structure Lines (Handle : Type*) where
  conn : Handle → Conn
  stray : Bool

namespace Lines

variable {Handle : Type*} [DecidableEq Handle] {l : Lines Handle} {h : Handle}

/-- A connection changes. -/
def set (l : Lines Handle) (h : Handle) (c : Conn) : Lines Handle :=
  { l with conn := Function.update l.conn h c }

/-- An answer reaches its connection. -/
def deliver (l : Lines Handle) (h : Handle) : Lines Handle :=
  if l.conn h = .waiting then l.set h .idle else { l with stray := true }

/-- Answers, in order. -/
def deliverAll (l : Lines Handle) (sent : List Handle) : Lines Handle := sent.foldl deliver l

@[simp] theorem set_stray (c : Conn) : (l.set h c).stray = l.stray := rfl

@[simp] theorem set_same (c : Conn) : (l.set h c).conn h = c := Function.update_self ..

theorem set_conn (c : Conn) (other : Handle) :
    (l.set h c).conn other = if other = h then c else l.conn other :=
  Function.update_apply ..

/-- **Answers to different connections that all wait leave those idle, and none goes astray.** -/
theorem answered {sent : List Handle} (once : sent.Nodup)
    (wait : ∀ h ∈ sent, l.conn h = .waiting) :
    (l.deliverAll sent).stray = l.stray ∧
      ∀ h, (l.deliverAll sent).conn h = if h ∈ sent then .idle else l.conn h := by
  induction sent generalizing l with
  | nil => exact ⟨rfl, fun _ => rfl⟩
  | cons first rest ih =>
      obtain ⟨fresh, once⟩ := List.nodup_cons.mp once
      have now : l.deliver first = l.set first .idle := if_pos (wait first List.mem_cons_self)
      have later : ∀ h ∈ rest, (l.set first .idle).conn h = .waiting := by
        intro h member
        rw [set_conn, if_neg (fun same : h = first => fresh (same ▸ member))]
        exact wait h (List.mem_cons_of_mem _ member)
      obtain ⟨stray, conn⟩ := ih once later
      rw [deliverAll, List.foldl_cons, now]
      refine ⟨stray, fun h => (conn h).trans ?_⟩
      by_cases among : h ∈ rest
      · simp [among]
      · by_cases same : h = first
        · simp [same]
        · simp [among, same, set_conn]

end Lines

end Service
