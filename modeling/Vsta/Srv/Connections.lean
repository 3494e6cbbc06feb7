import Vsta.Library.Lines
import Vsta.Vstafs.Requests
import Mathlib.Tactic.Tauto

/-!
# The connections of a server

What every server under `srv` has in common: the kernel hands it messages of connections, one
request at a time from each, and takes its answers back. `after` is what a message and its answers
leave of the connections, and `Agree` says that they agree with the server: the connections that
exist are its clients, those that wait are the ones it keeps, and no answer has gone astray. A
server that answers, once, the sender or clients it kept, and keeps the others, goes on agreeing
(`Agree.serve`).
-/

set_option autoImplicit false

namespace Vsta.Srv

open Service Vstafs

/-- The messages that can arrive. A connect and a duplicate name a connection that does not exist
yet; a connection sends one request at a time, but it may be closed or aborted while its request is
outstanding. -/
def Legal (l : Lines Handle) (m : Msg) : Prop :=
  match m.mOp with
  | .M_CONNECT => l.conn m.mSender = .absent
  | .M_DISCONNECT => l.conn m.mSender ≠ .absent
  | .M_ABORT => l.conn m.mSender ≠ .absent
  | .M_DUP => l.conn m.mSender = .idle ∧ l.conn m.mArg = .absent
  | _ => l.conn m.mSender = .idle

instance (l : Lines Handle) (m : Msg) : Decidable (Legal l m) := by
  unfold Legal
  split <;> infer_instance

/-- What the kernel makes of a connect that was refused and of a duplicate that was granted. -/
def settle (l : Lines Handle) (m : Msg) (sent : List Sent) : Lines Handle :=
  match m.mOp with
  | .M_CONNECT => if msgAccept m.mSender ∈ sent then l else l.set m.mSender .absent
  | .M_DUP => if msgReply m.mSender ∈ sent then l.set m.mArg .idle else l
  | _ => l

/-- What a message and the answers to it leave of the connections. -/
def after (l : Lines Handle) (m : Msg) (sent : List Sent) : Lines Handle :=
  settle ((l.set m.mSender (if m.mOp = .M_DISCONNECT then .absent else .waiting)).deliverAll
    (sent.map Sent.who)) m sent

/-- No connection yet. -/
def noLines : Lines Handle := ⟨fun _ => .absent, false⟩

/-- Operations whose answer is all that happens to the connections. -/
def Plain (op : Op) : Prop := op ≠ .M_CONNECT ∧ op ≠ .M_DISCONNECT ∧ op ≠ .M_DUP

/-- The connections agree with the clients of a server and those among them that it keeps. -/
structure Agree (l : Lines Handle) (client kept : Handle → Prop) : Prop where
  noStray : l.stray = false
  known : ∀ h, l.conn h = .absent ↔ ¬client h
  waits : ∀ h, l.conn h = .waiting ↔ kept h

/-- One message: who is answered, once each, was the sender or was kept; and those of them that are
not answered are kept. -/
structure Serves (m : Msg) (sent : List Sent) (kept kept' : Handle → Prop) : Prop where
  once : (sent.map Sent.who).Nodup
  due : ∀ h ∈ sent.map Sent.who, h = m.mSender ∨ kept h
  keeps : ∀ h, kept' h ↔ (h = m.mSender ∨ kept h) ∧ h ∉ sent.map Sent.who

variable {l : Lines Handle} {m : Msg} {sent : List Sent} {client client' kept kept' : Handle → Prop}

/-- One answer, to the sender. -/
theorem serves_answer {answer : Sent} (who : answer.who = m.mSender)
    (keeps : ∀ h, kept' h ↔ kept h ∧ h ≠ m.mSender) : Serves m [answer] kept kept' := by
  refine ⟨List.nodup_singleton _, fun h member => .inl ?_, fun h => ?_⟩
  · simpa [who] using member
  · rw [keeps h]
    simp only [List.map_cons, List.map_nil, List.mem_singleton, who]
    tauto

theorem noLines_agree : Agree noLines (fun _ => False) fun _ => False := by
  constructor <;> simp [noLines]

theorem Agree.congr (agree : Agree l client kept) (clients : ∀ h, client' h ↔ client h)
    (keeps : ∀ h, kept' h ↔ kept h) : Agree l client' kept' :=
  ⟨agree.noStray, fun h => (agree.known h).trans (not_congr (clients h).symm),
    fun h => (agree.waits h).trans (keeps h).symm⟩

/-- The sender of a request is a client. -/
theorem Agree.sender (agree : Agree l client kept) (legal : Legal l m) (op : m.mOp ≠ .M_CONNECT) :
    client m.mSender := by
  have there : l.conn m.mSender ≠ .absent := by
    revert legal
    rw [Legal.eq_def]
    split
    · exact absurd ‹_› op
    · exact id
    · exact id
    · rintro ⟨idle, -⟩
      simp [idle]
    · intro idle
      simp [idle]
  by_contra gone
  exact there ((agree.known _).mpr gone)

/-- What the answers leave, before a connect is refused or a duplicate made. -/
theorem Agree.answered (agree : Agree l client kept) (open_ : m.mOp ≠ .M_DISCONNECT)
    (serves : Serves m sent kept kept') :
    ((l.set m.mSender (if m.mOp = .M_DISCONNECT then .absent else .waiting)).deliverAll
      (sent.map Sent.who)).stray = false ∧
    ∀ h, ((l.set m.mSender (if m.mOp = .M_DISCONNECT then .absent else .waiting)).deliverAll
        (sent.map Sent.who)).conn h =
      if h ∈ sent.map Sent.who then .idle else if h = m.mSender then .waiting else l.conn h := by
  rw [if_neg open_]
  have wait : ∀ h ∈ sent.map Sent.who, (l.set m.mSender .waiting).conn h = .waiting := by
    intro h member
    rw [Lines.set_conn]
    rcases serves.due h member with same | held
    · rw [if_pos same]
    · split
      · rfl
      · exact (agree.waits h).mpr held
  obtain ⟨stray, conn⟩ := Lines.answered serves.once wait
  refine ⟨stray.trans agree.noStray, fun h => (conn h).trans ?_⟩
  rw [Lines.set_conn]

/-- **A server that answers once, and keeps the others, goes on agreeing with the connections.** -/
theorem Agree.serve (agree : Agree l client kept) (legal : Legal l m) (plain : Plain m.mOp)
    (serves : Serves m sent kept kept') : Agree (after l m sent) client kept' := by
  have sender := agree.sender legal plain.1
  obtain ⟨stray, conn⟩ := agree.answered plain.2.1 serves
  have same : after l m sent =
      (l.set m.mSender (if m.mOp = .M_DISCONNECT then .absent else .waiting)).deliverAll
        (sent.map Sent.who) := by
    obtain ⟨connect, -, dup⟩ := plain
    rw [after, settle.eq_def]
    split <;> simp_all
  rw [same]
  refine ⟨stray, fun h => ?_, fun h => ?_⟩
  · rw [conn, ← agree.known h]
    split_ifs with answered here
    · rcases serves.due h answered with rfl | held
      · simpa using (agree.known _).not.mpr (not_not.mpr sender)
      · simp [(agree.waits h).mpr held]
    · subst here
      simpa using (agree.known _).not.mpr (not_not.mpr sender)
    · rfl
  · rw [conn, serves.keeps h]
    split_ifs with answered here
    · simp [answered]
    · simp [here, here ▸ answered]
    · simp [here, answered, agree.waits h]

/-- A connect: the client is accepted, or refused and gone. -/
theorem Agree.connect (agree : Agree l client kept) (op : m.mOp = .M_CONNECT)
    (legal : Legal l m) (accepted : Prop) [Decidable accepted] (e : FsErr) :
    Agree (after l m [if accepted then msgAccept m.mSender else msgErr m.mSender e])
      (fun h => client h ∨ (accepted ∧ h = m.mSender)) kept := by
  have absent : l.conn m.mSender = .absent := by simpa [Legal, op] using legal
  have noClient := (agree.known _).mp absent
  have notKept : ¬kept m.mSender := fun held => by simp [(agree.waits _).mpr held] at absent
  by_cases yes : accepted
  · simp only [yes, if_true, true_and]
    have now : after l m [msgAccept m.mSender] =
        ((l.set m.mSender .waiting).deliver m.mSender) := by
      simp [after, settle, op, Lines.deliverAll, msgAccept]
    have idle : (l.set m.mSender .waiting).deliver m.mSender =
        (l.set m.mSender .waiting).set m.mSender .idle := if_pos (Lines.set_same _)
    rw [now, idle]
    refine ⟨agree.noStray, fun h => ?_, fun h => ?_⟩
    · by_cases same : h = m.mSender
      · simp [same]
      · simp [same, Lines.set_conn, agree.known]
    · by_cases same : h = m.mSender
      · simp [same, notKept]
      · simp [same, Lines.set_conn, agree.waits]
  · simp only [yes, if_false, false_and, or_false]
    have now : after l m [msgErr m.mSender e] =
        ((l.set m.mSender .waiting).deliver m.mSender).set m.mSender .absent := by
      simp [after, settle, op, Lines.deliverAll, msgAccept, msgErr]
    have idle : (l.set m.mSender .waiting).deliver m.mSender =
        (l.set m.mSender .waiting).set m.mSender .idle := if_pos (Lines.set_same _)
    rw [now, idle]
    refine ⟨agree.noStray, fun h => ?_, fun h => ?_⟩
    · by_cases same : h = m.mSender
      · simp [same, noClient]
      · simp [same, Lines.set_conn, agree.known]
    · by_cases same : h = m.mSender
      · simp [same, notKept]
      · simp [same, Lines.set_conn, agree.waits]

/-- A duplicate: the new client is there, or not. -/
theorem Agree.dup (agree : Agree l client kept) (op : m.mOp = .M_DUP) (legal : Legal l m)
    (granted : Prop) [Decidable granted] (e : FsErr) :
    Agree (after l m [if granted then msgReply m.mSender else msgErr m.mSender e])
      (fun h => client h ∨ (granted ∧ h = m.mArg)) kept := by
  have both : l.conn m.mSender = .idle ∧ l.conn m.mArg = .absent := by
    simpa [Legal, op] using legal
  obtain ⟨idle, absent⟩ := both
  have notKept : ¬kept m.mSender := fun held => by simp [(agree.waits _).mpr held] at idle
  have newKept : ¬kept m.mArg := fun held => by simp [(agree.waits _).mpr held] at absent
  have back : (l.set m.mSender .waiting).deliver m.mSender = l := by
    have now : (l.set m.mSender .waiting).deliver m.mSender =
        (l.set m.mSender .waiting).set m.mSender .idle := if_pos (Lines.set_same _)
    rw [now, Lines.set, Lines.set]
    simp only [Function.update_idem, ← idle, Function.update_eq_self]
  by_cases yes : granted
  · simp only [yes, if_true, true_and]
    have now : after l m [msgReply m.mSender] = l.set m.mArg .idle := by
      rw [after, settle.eq_def]
      simp only [op, reduceCtorEq, if_false, List.map_cons, List.map_nil, msgReply,
        List.mem_singleton, if_true]
      rw [Lines.deliverAll, List.foldl_cons, List.foldl_nil, back]
    rw [now]
    refine ⟨agree.noStray, fun h => ?_, fun h => ?_⟩
    · by_cases same : h = m.mArg
      · simp [same]
      · simp [same, Lines.set_conn, agree.known]
    · by_cases same : h = m.mArg
      · simp [same, newKept]
      · simp [same, Lines.set_conn, agree.waits]
  · simp only [yes, if_false, false_and, or_false]
    have now : after l m [msgErr m.mSender e] = l := by
      rw [after, settle.eq_def]
      simp only [op, reduceCtorEq, if_false, List.map_cons, List.map_nil, msgReply, msgErr,
        List.mem_singleton, Sent.mk.injEq, and_false]
      rw [Lines.deliverAll, List.foldl_cons, List.foldl_nil, back]
    rw [now]
    exact agree

/-- A client goes, and others that the server kept may be answered for it. -/
theorem Agree.depart (agree : Agree l client kept) (op : m.mOp = .M_DISCONNECT)
    (once : (sent.map Sent.who).Nodup)
    (due : ∀ h ∈ sent.map Sent.who, kept h ∧ h ≠ m.mSender) :
    Agree (after l m sent) (fun h => client h ∧ h ≠ m.mSender)
      fun h => kept h ∧ h ≠ m.mSender ∧ h ∉ sent.map Sent.who := by
  have wait : ∀ h ∈ sent.map Sent.who, (l.set m.mSender .absent).conn h = .waiting := by
    intro h member
    rw [Lines.set_conn, if_neg (due h member).2]
    exact (agree.waits h).mpr (due h member).1
  obtain ⟨stray, conn⟩ := Lines.answered once wait
  have same : after l m sent = (l.set m.mSender .absent).deliverAll (sent.map Sent.who) := by
    rw [after, settle.eq_def, if_pos op]
    simp only [op]
  rw [same]
  refine ⟨stray.trans agree.noStray, fun h => ?_, fun h => ?_⟩
  · rw [conn, Lines.set_conn]
    split_ifs with answered here
    · have waits := (agree.waits h).mpr (due h answered).1
      have there := (agree.known h).not.mp (by simp [waits])
      simp [not_not.mp there, (due h answered).2]
    · simp [here]
    · simp [here, agree.known]
  · rw [conn, Lines.set_conn]
    split_ifs with answered here
    · simp [answered]
    · simp [here]
    · simp [answered, here, agree.waits]

/-- A client goes that waited for nothing. -/
theorem Agree.disconnect (agree : Agree l client kept) (op : m.mOp = .M_DISCONNECT)
    (idle : ¬kept m.mSender) (once : (sent.map Sent.who).Nodup)
    (due : ∀ h ∈ sent.map Sent.who, kept h) :
    Agree (after l m sent) (fun h => client h ∧ h ≠ m.mSender)
      fun h => kept h ∧ h ∉ sent.map Sent.who := by
  have other : ∀ h, kept h → h ≠ m.mSender := fun h held same => idle (same ▸ held)
  refine (agree.depart op once fun h member => ⟨due h member, other h (due h member)⟩).congr
    (fun _ => Iff.rfl) fun h => ?_
  exact ⟨fun ⟨held, out⟩ => ⟨held, other h held, out⟩, fun ⟨held, _, out⟩ => ⟨held, out⟩⟩

end Vsta.Srv
