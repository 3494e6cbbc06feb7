import Vsta.Env.Refs
import Vsta.Env.Contents

/-!
# A home after a fork

The requests of the environment server, with reads, writes and seeks. What is done to the variables
of a directory is recorded in the log of the directory: that one is made, emptied or removed, that a
home is filled with copies, that bytes are written at a place. A log is replayed alone. Where the
variables of every directory are what its log makes of them, what a group reads in its home does not
depend on what others do in theirs.

`env_write` changes a string in place. A fork shares the strings, so that a write to one of the
copies is seen in the others. `homes_apart` is about the runs in which no shared string is written.

The requests are those of `Vsta.Env.Server`, and memory is that of `Vsta.Env.Contents`. What a read
of a directory lists is left out, and how far it moves the place of the client is what it finds.
-/

set_option autoImplicit false

namespace Vsta.EnvFork

open Vstafs Env

/-- What a write finds: memory, and what is in it. -/
structure Memory where
  buf : Bool
  fresh : ℕ → UChar

/-- A request of a client. -/
inductive Op where
  | request (x : Outcome) (act : Action)
  | seek (h : Handle) (mArg : ULong)
  | read (h : Handle) (mArg listed : ULong)
  | write (h : Handle) (x : Memory) (data : List UChar)

inductive Answer where
  | reply (r : Reply)
  | refused (e : EnvValue.Err)
  | data (bytes : List UChar)
  | listing

/-- What ends the server, in a request or in the use of a string. -/
inductive Wrong where
  | request (fault : Env.Fault)
  | memory (fault : EnvValue.Fault)

abbrev M := Except Wrong

/-- A part of a request. -/
def request {α : Type} : Except Env.Fault α → M α
  | .ok r => .ok r
  | .error fault => .error (.request fault)

/-- A part of a request that uses a string. -/
def memory {α : Type} : EnvValue.M α → M α
  | .ok r => .ok r
  | .error fault => .error (.memory fault)

/-! ## Strings -/

/-- The size that `env_write` asks for. -/
def newlen (pos : ULong) (data : List UChar) : ℕ :=
  (pos + BitVec.ofNat 32 data.length + 1).toNat

/-- The memory that `env_write` makes of a string. -/
def writeText (x : Memory) (block : List UChar) (pos : ULong) (data : List UChar) :
    EnvValue.M (Except EnvValue.Err (List UChar)) := do
  let oldlen := (← EnvValue.strlen block) + 1
  if EnvValue.MAX_STRING ≤ newlen pos data then return .error .E2BIG
  let size := if newlen pos data < oldlen then oldlen else newlen pos data
  if !x.buf then return .error .ENOMEM
  let buf ← EnvValue.strcpy (EnvValue.malloc x.fresh size) block
  let buf ← EnvValue.put buf pos.toNat data
  let buf ← EnvValue.put buf (size - 1) [0#8]
  return .ok buf

/-- The bytes that `env_read` sends. -/
def readText (block : List UChar) (pos mArg : ULong) : EnvValue.M (List UChar) := do
  let buf := block.drop pos.toNat
  let len ← EnvValue.strlen buf
  return buf.take (if len < mArg.toNat then len else mArg.toNat)

/-! ## Requests -/

variable (s : State)

/-- `n->n_val`. -/
def nVal (n : Node) : Except Env.Fault (ULong × Str) :=
  match n.nVal with
  | none => .error .wild
  | some v => match s.strings.lookup v with
    | none => .error .wild
    | some str => .ok (v, str)

/-- `env_seek`. -/
def envSeek (h : Handle) (mArg : ULong) : M (State × Answer) := do
  let f ← request (s.file h)
  if mArg.toInt < 0 then return (s, .refused .EINVAL)
  return (s.setFile h { f with fPos := mArg }, .reply .ok)

/-- `env_write`. -/
def envWrite (h : Handle) (x : Memory) (data : List UChar) : M (State × Answer) := do
  let f ← request (s.file h)
  let a ← request (State.deep f.fNode)
  let n ← request (s.node a)
  if n.nInternal || !has f.fMode ACC_WRITE then return (s, .refused .EPERM)
  let (v, str) ← request (nVal s n)
  match ← memory (writeText x str.sVal f.fPos data) with
  | .error e => return (s, .refused e)
  | .ok buf =>
    let s := { s with strings := s.strings.modify v fun str => { str with sVal := buf } }
    return (s.setFile h { f with fPos := f.fPos + BitVec.ofNat 32 data.length }, .reply .ok)

/-- `env_read`. -/
def envRead (h : Handle) (mArg listed : ULong) : M (State × Answer) := do
  let f ← request (s.file h)
  let a ← request (State.deep f.fNode)
  let n ← request (s.node a)
  if n.nInternal then return (s.setFile h { f with fPos := f.fPos + listed }, .listing)
  let (_, str) ← request (nVal s n)
  let bytes ← memory (readText str.sVal f.fPos mArg)
  return (s.setFile h { f with fPos := f.fPos + BitVec.ofNat 32 bytes.length }, .data bytes)

/-- One message. -/
def exec : Op → M (State × Answer)
  | .request x act => do
    let (s, r) ← request (s.exec x act)
    return (s, .reply r)
  | .seek h mArg => envSeek s h mArg
  | .read h mArg listed => envRead s h mArg listed
  | .write h x data => envWrite s h x data

/-! ## What is done in a directory -/

/-- A name in a directory and what it stands for. -/
abbrev Entry := List UChar × Var

/-- What is done to the entries of a directory, which are found by their nodes. -/
inductive Deed where
  | now (b : ULong) (e : Option Entry)
  | copies (es : List (ULong × Entry))
  | wrote (b : ULong) (x : Memory) (pos : ULong) (data : List UChar)

/-- A variable after a write. -/
def rewritten (x : Memory) (pos : ULong) (data : List UChar) : Var → Var
  | .file (some block) =>
    match writeText x block pos data with
    | .ok (.ok buf) => .file (some buf)
    | _ => .file (some block)
  | other => other

def Deed.onto (entries : ULong → Option Entry) : Deed → ULong → Option Entry
  | .now b e => Function.update entries b e
  | .copies es => es.foldl (fun m e => Function.update m e.1 (some e.2)) entries
  | .wrote b x pos data =>
    Function.update entries b ((entries b).map fun e => (e.1, rewritten x pos data e.2))

/-- What the deeds come to, the last one first. -/
def replay : List Deed → ULong → Option Entry
  | [] => fun _ => none
  | d :: ds => d.onto (replay ds)

/-- The entries of a directory, of those of all. -/
def entriesOf (leaves : ULong → Option Leaf) (a b : ULong) : Option Entry :=
  (leaves b).bind fun l => if l.1 = a then some l.2 else none

/-- The entries of a directory. -/
def entries (a b : ULong) : Option Entry := entriesOf (leaf s) a b

/-- The copies that `clone_node` makes. -/
def copyList : Hash Node → List (Option ULong) → List (ULong × Entry)
  | [], _ => []
  | (_, n2) :: rest, copies =>
    if n2.nInternal then copyList rest copies
    else match copies with
      | [] => []
      | none :: copies => copyList rest copies
      | some b :: copies => (b, n2.nName, var s n2) :: copyList rest copies

/-- A node that a request makes, empties or removes, in its directory. -/
def changed (b : ULong) : Option Leaf → Option Leaf → Option (ULong × Deed)
  | some (p, _), l => some (p, .now b (l.map Prod.snd))
  | none, some (p, e) => some (p, .now b (some e))
  | none, none => none

/-- The directory of a node that a request touches, and what is done to it there. -/
def deed : Op → Option (ULong × Deed)
  | .request x (.fork h) =>
    match (s.filehash.lookup h).bind File.fHome, x.clone with
    | some old, some a => some (a, .copies (copyList s (s.elems old) x.copies))
    | _, _ => none
  | .request x act =>
    (touched s x act).bind fun (b, l) => changed b (leaf s b) l
  | .write h x data =>
    (s.filehash.lookup h).bind fun f => f.fNode.bind fun b => (leaf s b).bind fun l =>
      match l.2.2 with
      | .file (some _) =>
        if has f.fMode ACC_WRITE then some (l.1, .wrote b x f.fPos data) else none
      | _ => none
  | .seek _ _ | .read _ _ _ => none

/-- The server, and what was done in each directory. -/
structure World where
  server : State
  log : ULong → List Deed

def World.start : World := ⟨Env.start, fun _ => []⟩

def World.logged (w : World) (op : Op) : ULong → List Deed :=
  match deed w.server op with
  | some (a, d) => Function.update w.log a (d :: w.log a)
  | none => w.log

/-- A message that can come. -/
def Possible (s : State) : Op → Prop
  | .request x act => Legal s (x, act)
  | _ => True

/-- One message after the other. -/
def World.Step (w : World) (op : Op) (w' : World) : Prop :=
  Possible w.server op ∧ (∃ answer, exec w.server op = .ok (w'.server, answer)) ∧
    w'.log = w.logged op

/-! ## What is claimed -/

/-- A client works in a directory: it opens or removes a name of it, but for the home, or writes to
one of its variables. -/
def Works : Op → ULong → Prop
  | .request _ (.open_ h name _), a =>
    name ≠ homeName ∧ ∃ f, s.filehash.lookup h = some f ∧ f.fNode = some a
  | .request _ (.remove h _), a => ∃ f, s.filehash.lookup h = some f ∧ f.fNode = some a
  | .write h _ _, a => ∃ f b e, s.filehash.lookup h = some f ∧ f.fNode = some b ∧
      leaf s b = some (a, e)
  | _, _ => False

/-- The variables of each directory are what was done there makes of them, a variable is read as
that, and who works in a directory does nothing elsewhere. -/
structure Right (w : World) : Prop where
  kept : ∀ a, entries w.server a = replay (w.log a)
  read : ∀ h mArg listed f a b e, w.server.filehash.lookup h = some f → f.fNode = some b →
    leaf w.server b = some (a, e) → ∀ s bytes,
    exec w.server (.read h mArg listed) = .ok (s, .data bytes) →
    ∃ name block, replay (w.log a) b = some (name, .file (some block)) ∧
      readText block f.fPos mArg = .ok bytes
  apart : ∀ op a b d, Possible w.server op → Works w.server op a →
    deed w.server op = some (b, d) → b = a

/-- The condition: that of the other requests, and a write that goes through is to a string that one
node has. -/
def Meets (w : World) : Op → Prop
  | .request x act => Fits w.server (x, act)
  | .write h x data => ∀ f b n v str, w.server.filehash.lookup h = some f → f.fNode = some b →
      w.server.nodes.lookup b = some n → n.nVal = some v → w.server.strings.lookup v = some str →
      has f.fMode ACC_WRITE = true → newlen f.fPos data < EnvValue.MAX_STRING → x.buf = true →
      str.sRefs = 1
  | _ => True

variable {s t : State} {a b p v : ULong} {n : Node} {f : File} {h : Handle} {l : Option Leaf}
  {leaves : ULong → Option Leaf}

/-! ## Entries -/

/-- The entries of all directories after something was done in one of them. -/
def settle (all : ULong → ULong → Option Entry) :
    Option (ULong × Deed) → ULong → ULong → Option Entry
  | some (a, d) => Function.update all a (d.onto (all a))
  | none => all

theorem replay_logged (w : World) (op : Op) : (fun a => replay (w.logged op a)) =
    settle (fun a => replay (w.log a)) (deed w.server op) := by
  rw [World.logged]
  cases deed w.server op with
  | none => rfl
  | some done =>
      obtain ⟨p, d⟩ := done
      funext a
      by_cases here : a = p
      · subst here
        simp only [settle, Function.update_self, replay]
      · simp only [settle, Function.update_of_ne here]

theorem elsewhere (inside : ∀ q ∈ l, q.1 = p) (other : a ≠ p) :
    (l.bind fun q => if q.1 = a then some q.2 else none) = none := by
  cases l with
  | none => rfl
  | some q => rw [Option.bind_some, inside q rfl, if_neg other.symm]

/-- A node comes, changes or goes in a directory. -/
theorem entriesOf_update (was : ∀ q ∈ leaves b, q.1 = p) (is : ∀ q ∈ l, q.1 = p) :
    entriesOf (Function.update leaves b l) = Function.update (entriesOf leaves) p
      (Function.update (entriesOf leaves p) b (l.map Prod.snd)) := by
  funext a c
  by_cases dir : a = p
  · subst dir
    rw [Function.update_self]
    by_cases here : c = b
    · subst here
      rw [Function.update_self, entriesOf, Function.update_self]
      cases l with
      | none => rfl
      | some q => rw [Option.bind_some, is q rfl, if_pos rfl, Option.map_some]
    · rw [Function.update_of_ne here, entriesOf, Function.update_of_ne here, entriesOf]
  · rw [Function.update_of_ne dir, entriesOf, entriesOf]
    by_cases here : c = b
    · subst here
      rw [Function.update_self, elsewhere is dir, elsewhere was dir]
    · rw [Function.update_of_ne here]

/-! ## Requests -/

theorem leaf_entry (tree : Tree s []) {name : List UChar} (found : s.entry a name = some (b, n)) :
    leaf s b = some (a, name, var s n) := by
  obtain ⟨there, list, up, named⟩ := entry_spec tree found
  rw [leaf, there, Option.bind_some, if_pos list, up, named, Option.map_some]

/-- A request touches a node in one directory: the one in which the client works. -/
theorem touched_spec {x : Outcome} {act : Action} (intact : Intact s) (legal : Legal s (x, act))
    (is : touched s x act = some (b, l)) : ∃ p, (∀ q ∈ leaf s b, q.1 = p) ∧
      (∀ q ∈ l, q.1 = p) ∧ ∀ a, Works s (.request x act) a → p = a := by
  have tree := intact.tree
  cases act with
  | connect h mArg => cases is
  | dup h mArg => cases is
  | fork h => cases is
  | disconnect h => cases is
  | remove h name =>
      simp only [touched, Option.bind_eq_bind, Option.bind_eq_some_iff] at is
      obtain ⟨f, client, a, at_, m, there, is⟩ := is
      split_ifs at is
      simp only [Option.bind_eq_some_iff] at is
      obtain ⟨⟨c, m⟩, found, is⟩ := is
      split_ifs at is
      obtain ⟨rfl, rfl⟩ := Prod.mk.inj (Option.some.inj is)
      refine ⟨a, fun q member => ?_, fun q member => absurd member (Option.not_mem_none q),
        fun d works => ?_⟩
      · rw [leaf_entry tree found] at member
        rw [← Option.some.inj member]
      · obtain ⟨g, client', at'⟩ := works
        rw [client] at client'
        obtain rfl := Option.some.inj client'
        exact Option.some.inj (at_.symm.trans at')
  | open_ h name mArg =>
      simp only [touched, Option.bind_eq_bind, Option.bind_eq_some_iff] at is
      obtain ⟨f, client, a, at_, m, there, is⟩ := is
      split at is
      · cases is
      have works : ∀ d, Works s (.request x (.open_ h name mArg)) d → name ≠ homeName ∧ a = d := by
        rintro d ⟨other, g, client', at'⟩
        rw [client] at client'
        obtain rfl := Option.some.inj client'
        exact ⟨other, Option.some.inj (at_.symm.trans at')⟩
      cases found : s.found f a name with
      | some e =>
          obtain ⟨c, m⟩ := e
          simp only [found] at is
          split_ifs at is
          obtain ⟨rfl, rfl⟩ := Prod.mk.inj (Option.some.inj is)
          -- an open of the home empties the home itself
          by_cases home : name = homeName
          · refine ⟨(leaf s c).elim 0 Prod.fst, fun q member => ?_, fun q member => ?_,
              fun d at' => absurd home (works d at').1⟩
            · rw [Option.mem_def.mp member]
              rfl
            · obtain ⟨r, before, rfl⟩ := Option.map_eq_some_iff.mp member
              rw [before]
              rfl
          · rw [State.found, if_neg home] at found
            rw [leaf_entry tree found]
            refine ⟨a, fun q member => ?_, fun q member => ?_, fun d at' => (works d at').2⟩
            · rw [← Option.some.inj member]
            · rw [← Option.some.inj member]
      | none =>
          simp only [found] at is
          split_ifs at is
          obtain ⟨c, memory, is⟩ := Option.map_eq_some_iff.mp is
          obtain ⟨rfl, rfl⟩ := Prod.mk.inj is
          have absent : s.nodes.lookup c = none := legal.1 c (List.mem_append_left _
            (List.mem_append_left _ (Option.mem_toList.mpr memory)))
          refine ⟨a, fun q member => ?_, fun q member => ?_, fun d at' => (works d at').2⟩
          · rw [leaf, absent] at member
            cases member
          · rw [← Option.some.inj member]

theorem deed_request {x : Outcome} {act : Action} (other : ∀ h, act ≠ .fork h) :
    deed s (.request x act) = (touched s x act).bind fun (b, l) => changed b (leaf s b) l := by
  cases act with
  | fork h => exact absurd rfl (other h)
  | _ => rfl

/-- What a node was and what it is now say in which directory it changed. -/
theorem changed_dir {o : Option Leaf} {d : Deed} (was : ∀ q ∈ o, q.1 = p) (is : ∀ q ∈ l, q.1 = p)
    (done : changed b o l = some (a, d)) : a = p := by
  cases o with
  | some q =>
      obtain ⟨rfl, -⟩ := Prod.mk.inj (Option.some.inj done)
      exact was q rfl
  | none =>
      cases l with
      | some q =>
          obtain ⟨rfl, -⟩ := Prod.mk.inj (Option.some.inj done)
          exact is q rfl
      | none => cases done

theorem settle_changed (was : ∀ q ∈ leaves b, q.1 = p) (is : ∀ q ∈ l, q.1 = p) :
    entriesOf (Function.update leaves b l) =
      settle (entriesOf leaves) (changed b (leaves b) l) := by
  cases before : leaves b with
  | some q =>
      obtain rfl := was q before
      exact entriesOf_update was is
  | none =>
      cases l with
      | some q =>
          obtain rfl := is q rfl
          exact entriesOf_update was is
      | none =>
          rw [← before, Function.update_eq_self, before]
          rfl

/-- The copies of a home are entries of the new one. -/
theorem entriesOf_copied (elems : Hash Node) {copies : List (Option ULong)}
    (clean : ∀ b, some b ∈ copies → ∀ q ∈ leaves b, q.1 = a) :
    entriesOf (copied s a elems copies leaves) = Function.update (entriesOf leaves) a
      ((Deed.copies (copyList s elems copies)).onto (entriesOf leaves a)) := by
  induction elems generalizing copies leaves with
  | nil => exact (Function.update_eq_self a _).symm
  | cons e rest ih =>
      obtain ⟨k, n2⟩ := e
      rw [copied.eq_def, copyList.eq_def]
      by_cases dir : n2.nInternal = true
      · simp only [if_pos dir]
        exact ih clean
      simp only [if_neg dir]
      cases copies with
      | nil => exact (Function.update_eq_self a _).symm
      | cons copy copies =>
          cases copy with
          | none => exact ih fun b member => clean b (List.mem_cons_of_mem _ member)
          | some b =>
              have own : ∀ q ∈ some ((a, n2.nName, var s n2) : Leaf), q.1 = a := by
                intro q is
                rw [← Option.some.inj is]
              have clean' : ∀ c, some c ∈ copies → ∀ q ∈ Function.update leaves b
                  (some (a, n2.nName, var s n2)) c, q.1 = a := by
                intro c member
                by_cases here : c = b
                · rw [here, Function.update_self]
                  exact own
                · rw [Function.update_of_ne here]
                  exact clean c (List.mem_cons_of_mem _ member)
              rw [ih clean', entriesOf_update (clean b List.mem_cons_self) own,
                Function.update_self, Function.update_idem]
              rfl

/-- What a request leaves is what is done in a directory. -/
theorem settle_request {x : Outcome} {act : Action} (intact : Intact s)
    (legal : Legal s (x, act)) :
    entriesOf (after s x act) = settle (entriesOf (leaf s)) (deed s (.request x act)) := by
  have one : ∀ act, Legal s (x, act) → (∀ h, act ≠ .fork h) →
      entriesOf (after s x act) = settle (entriesOf (leaf s)) (deed s (.request x act)) := by
    intro act legal other
    have is : after s x act = touch (leaf s) (touched s x act) := by
      cases act <;> first | rfl | exact absurd rfl (other _)
    rw [is, deed_request other]
    cases what : touched s x act with
    | none => rfl
    | some change =>
        obtain ⟨b, l⟩ := change
        obtain ⟨p, was, now, -⟩ := touched_spec intact legal what
        exact settle_changed was now
  cases act with
  | fork h =>
      rw [after, deed]
      cases home : (s.filehash.lookup h).bind File.fHome with
      | none => rfl
      | some old =>
          cases memory : x.clone with
          | none => rfl
          | some a =>
              refine entriesOf_copied (s.elems old) fun b member q found => ?_
              have absent : s.nodes.lookup b = none := legal.1 b (List.mem_append_right _
                (List.mem_flatMap.mpr ⟨some b, member, Option.mem_toList.mpr rfl⟩))
              rw [leaf, absent] at found
              cases found
  | connect h mArg => exact one _ legal (by simp)
  | dup h mArg => exact one _ legal (by simp)
  | open_ h name mArg => exact one _ legal (by simp)
  | remove h name => exact one _ legal (by simp)
  | disconnect h => exact one _ legal (by simp)

/-! ## Reads, writes and seeks -/

/-- What came before in something that goes through. -/
theorem parts_of_ok {ε α β : Type} {e : Except ε α} {rest : α → Except ε β} {r : β}
    (run : (e >>= rest) = .ok r) : ∃ a, e = .ok a ∧ rest a = .ok r := by
  cases e with
  | error fault => cases run
  | ok a => exact ⟨a, rfl, run⟩

theorem request_ok {α : Type} {e : Except Env.Fault α} {r : α} (run : request e = .ok r) :
    e = .ok r := by
  cases e with
  | error fault => cases run
  | ok a => exact congrArg Except.ok (Except.ok.inj run)

theorem memory_ok {α : Type} {e : EnvValue.M α} {r : α} (run : memory e = .ok r) :
    e = .ok r := by
  cases e with
  | error fault => cases run
  | ok a => exact congrArg Except.ok (Except.ok.inj run)

theorem file_ok (run : s.file h = .ok f) : s.filehash.lookup h = some f := by
  rw [State.file] at run
  cases client : s.filehash.lookup h with
  | none =>
      rw [client] at run
      cases run
  | some g =>
      rw [client] at run
      rw [Except.ok.inj run]

theorem node_ok (run : s.node a = .ok n) : s.nodes.lookup a = some n := by
  rw [State.node] at run
  cases there : s.nodes.lookup a with
  | none =>
      rw [there] at run
      cases run
  | some m =>
      rw [there] at run
      rw [Except.ok.inj run]

theorem deep_ok {o : Option ULong} (run : State.deep o = .ok a) : o = some a := by
  cases o with
  | none => cases run
  | some b => exact congrArg some (Except.ok.inj run)

theorem nVal_ok {str : Str} (run : nVal s n = .ok (v, str)) :
    n.nVal = some v ∧ s.strings.lookup v = some str := by
  rw [nVal] at run
  cases value : n.nVal with
  | none =>
      rw [value] at run
      cases run
  | some w =>
      cases there : s.strings.lookup w with
      | none =>
          simp only [value, there] at run
          cases run
      | some str' =>
          simp only [value, there] at run
          obtain ⟨rfl, rfl⟩ := Prod.mk.inj (Except.ok.inj run)
          exact ⟨rfl, there⟩

/-- The client of a message and the node it is at. -/
structure At (s : State) (h : Handle) (f : File) (b : ULong) (n : Node) : Prop where
  client : s.filehash.lookup h = some f
  place : f.fNode = some b
  there : s.nodes.lookup b = some n

/-- The client is at a node that is a variable, with its string. -/
structure AtVar (s : State) (h : Handle) (f : File) (b : ULong) (n : Node) (v : ULong)
    (str : Str) : Prop extends At s h f b n where
  file : n.nInternal = false
  value : n.nVal = some v
  string : s.strings.lookup v = some str

theorem AtVar.var {str : Str} (at_ : AtVar s h f b n v str) :
    Env.var s n = .file (some str.sVal) := by
  rw [Env.var, at_.file, if_neg Bool.false_ne_true, at_.value, Option.bind_some, text, at_.string,
    Option.map_some]

/-- A seek changes nothing but the place of the client. -/
theorem seek_cases {mArg : ULong} {answer : Answer}
    (run : exec s (.seek h mArg) = .ok (t, answer)) :
    t = s ∨ ∃ f pos, s.filehash.lookup h = some f ∧ t = s.setFile h { f with fPos := pos } := by
  rw [exec, envSeek] at run
  obtain ⟨f, client, run⟩ := parts_of_ok run
  split_ifs at run
  · exact .inl (Prod.mk.inj (Except.ok.inj run)).1.symm
  · exact .inr ⟨f, mArg, file_ok (request_ok client), (Prod.mk.inj (Except.ok.inj run)).1.symm⟩

/-- So does a read, which answers what is in the string from there on. -/
theorem read_cases {mArg listed : ULong} {answer : Answer}
    (run : exec s (.read h mArg listed) = .ok (t, answer)) :
    ∃ f, (∃ pos, t = s.setFile h { f with fPos := pos }) ∧
      ((∃ b n, At s h f b n ∧ n.nInternal = true ∧ answer = .listing) ∨
        ∃ b n v str bytes, AtVar s h f b n v str ∧ readText str.sVal f.fPos mArg = .ok bytes ∧
          answer = .data bytes) := by
  rw [exec, envRead] at run
  obtain ⟨f, client, run⟩ := parts_of_ok run
  obtain ⟨b, place, run⟩ := parts_of_ok run
  obtain ⟨n, there, run⟩ := parts_of_ok run
  have at_ : At s h f b n :=
    ⟨file_ok (request_ok client), deep_ok (request_ok place), node_ok (request_ok there)⟩
  split_ifs at run with dir
  · obtain ⟨rfl, rfl⟩ := Prod.mk.inj (Except.ok.inj run)
    exact ⟨f, ⟨_, rfl⟩, .inl ⟨b, n, at_, dir, rfl⟩⟩
  · obtain ⟨⟨v, str⟩, value, run⟩ := parts_of_ok run
    obtain ⟨bytes, text, run⟩ := parts_of_ok run
    obtain ⟨rfl, rfl⟩ := Prod.mk.inj (Except.ok.inj run)
    obtain ⟨value, string⟩ := nVal_ok (request_ok value)
    exact ⟨f, ⟨_, rfl⟩, .inr ⟨b, n, v, str, bytes, ⟨at_, Bool.eq_false_iff.mpr dir, value, string⟩,
      memory_ok text, rfl⟩⟩

/-- What a write does to the string. -/
def rewrite (s : State) (v : ULong) (buf : List UChar) : State :=
  { s with strings := s.strings.modify v fun str => { str with sVal := buf } }

/-- A write is refused, or changes the string of the node. -/
theorem write_cases {x : Memory} {data : List UChar} {answer : Answer}
    (run : exec s (.write h x data) = .ok (t, answer)) :
    ∃ f b n, At s h f b n ∧
      ((t = s ∧ (n.nInternal || !has f.fMode ACC_WRITE) = true) ∨
        ∃ v str, AtVar s h f b n v str ∧ has f.fMode ACC_WRITE = true ∧
          ((t = s ∧ ∃ e, writeText x str.sVal f.fPos data = .ok (.error e)) ∨
            ∃ buf pos, writeText x str.sVal f.fPos data = .ok (.ok buf) ∧
              t = (rewrite s v buf).setFile h { f with fPos := pos })) := by
  rw [exec, envWrite] at run
  obtain ⟨f, client, run⟩ := parts_of_ok run
  obtain ⟨b, place, run⟩ := parts_of_ok run
  obtain ⟨n, there, run⟩ := parts_of_ok run
  have at_ : At s h f b n :=
    ⟨file_ok (request_ok client), deep_ok (request_ok place), node_ok (request_ok there)⟩
  refine ⟨f, b, n, at_, ?_⟩
  split_ifs at run with closed
  · exact .inl ⟨(Prod.mk.inj (Except.ok.inj run)).1.symm, closed⟩
  · obtain ⟨dir, mode⟩ : n.nInternal = false ∧ has f.fMode ACC_WRITE = true := by simpa using closed
    obtain ⟨⟨v, str⟩, value, run⟩ := parts_of_ok run
    obtain ⟨out, text, run⟩ := parts_of_ok run
    obtain ⟨value, string⟩ := nVal_ok (request_ok value)
    refine .inr ⟨v, str, ⟨at_, dir, value, string⟩, mode, ?_⟩
    cases out with
    | error e => exact .inl ⟨(Prod.mk.inj (Except.ok.inj run)).1.symm, e, memory_ok text⟩
    | ok buf => exact .inr ⟨buf, _, memory_ok text, (Prod.mk.inj (Except.ok.inj run)).1.symm⟩

/-- A write goes through where the string is short enough and there is memory. -/
theorem writeText_ok {x : Memory} {block data buf : List UChar} {pos : ULong}
    (run : writeText x block pos data = .ok (.ok buf)) :
    newlen pos data < EnvValue.MAX_STRING ∧ x.buf = true := by
  rw [writeText] at run
  obtain ⟨len, -, run⟩ := parts_of_ok run
  split_ifs at run with long dry
  · cases Except.ok.inj run
  · cases Except.ok.inj run
  · exact ⟨not_le.mp long, by simpa using dry⟩

/-! ## What is kept -/

/-- A client is at another place in its variable. -/
theorem intact_setPos (intact : Intact s) (client : s.filehash.lookup h = some f) (pos : ULong) :
    Intact (s.setFile h { f with fPos := pos }) := by
  have tree : Tree (s.setFile h { f with fPos := pos }) [] :=
    intact.tree.setFile client fun _ => rfl
  refine ⟨tree, intact.vals.setFile intact.tree h _, intact.live, ?_⟩
  refine intact.placed.next (o := none) (h := h) (Grows.refl s) tree le_rfl (fun k g found other => ?_)
    fun g found => ?_
  · rwa [lookup_setFile client, if_neg other] at found
  · rw [lookup_setFile client, if_pos rfl] at found
    obtain rfl := Option.some.inj found
    exact ⟨intact.placed.stands h f client, intact.placed.inner h f client,
      intact.placed.fresh h f client,
      fun k g other _ same => intact.placed.share h f k g client other same⟩

/-- A string of which the memory changes is counted as before. -/
theorem intact_rewrite (intact : Intact s) (v : ULong) (buf : List UChar) :
    Intact (rewrite s v buf) := by
  have look : ∀ w, (rewrite s v buf).strings.lookup w =
      if w = v then (s.strings.lookup v).map fun str => { str with sVal := buf }
      else s.strings.lookup w := fun w =>
    Hash.lookup_modify s.strings v (fun str => { str with sVal := buf }) w
  have there : ∀ w, (rewrite s v buf).strings.lookup w = none ↔
      s.strings.lookup w = none := by
    intro w
    rw [look]
    split_ifs with here
    · rw [here, Option.map_eq_none_iff]
    · rfl
  refine ⟨intact.tree.client rfl rfl rfl intact.tree.clientKeys fun _ => rfl,
    ⟨intact.vals.keys.modify v fun str => { str with sVal := buf }, fun w str found => ?_, fun a n w found value => ?_, nofun,
      intact.vals.ledger.modify v fun str => { str with sVal := buf }⟩, intact.live,
    ⟨intact.placed.stands, intact.placed.share, intact.placed.inner, intact.placed.fresh⟩⟩
  · rw [look] at found
    split_ifs at found with here
    · obtain ⟨before, known, rfl⟩ := Option.map_eq_some_iff.mp found
      exact here ▸ intact.vals.refs v before known
    · exact intact.vals.refs w str found
  · rw [Ne, there]
    exact intact.vals.there a n w found value

/-- A string with one reference is that of one node. -/
theorem holder_unique {m : Node} {str : Str} (intact : Intact s) (there : s.nodes.lookup b = some n)
    (value : n.nVal = some v) (string : s.strings.lookup v = some str) (one : str.sRefs = 1)
    (other : s.nodes.lookup a = some m) (value' : m.nVal = some v) : a = b := by
  by_contra apart
  obtain ⟨count, -⟩ := intact.vals.refs v str string
  have own : 0 < (Node.val n).count v := by
    rw [List.count_pos_iff, Node.val, value]
    exact List.mem_singleton_self v
  have stays : (s.nodes.delete b).lookup a = some m := by
    rw [intact.tree.nodeKeys.lookup_delete, if_neg apart, other]
  have more : 0 < Srv.pointers Node.val (s.nodes.delete b) v :=
    Srv.pointers_pos stays (Option.mem_toList.mpr value')
  rw [one, Srv.pointers_delete there] at count
  rw [List.count_nil] at count
  omega

/-- The variable of the node changes, and no other. -/
theorem leaf_rewrite {str : Str} (intact : Intact s) (at_ : AtVar s h f b n v str)
    (one : str.sRefs = 1) (buf : List UChar) : leaf (rewrite s v buf) =
      Function.update (leaf s) b ((leaf s b).map fun q => (q.1, q.2.1, .file (some buf))) := by
  have new : text (rewrite s v buf) v = some buf := by
    rw [text, rewrite, Hash.lookup_modify, if_pos rfl, at_.string]
    rfl
  funext c
  by_cases here : c = b
  · rw [here, Function.update_self, leaf, leaf, show (rewrite s v buf).nodes = s.nodes from rfl,
      at_.there, Option.bind_some, Option.bind_some, var, at_.file, if_neg Bool.false_ne_true,
      at_.value, Option.bind_some, new]
    split_ifs
    · rw [Option.map_map]
      rfl
    · rfl
  · rw [Function.update_of_ne here]
    refine leaf_same rfl fun m w found value => ?_
    rw [text, rewrite, Hash.lookup_modify, if_neg, text]
    rintro rfl
    exact here (holder_unique intact at_.there at_.value at_.string one found value)

theorem leaf_var {q : Leaf} (there : s.nodes.lookup b = some n) (found : leaf s b = some q) :
    q.2.2 = var s n := by
  rw [leaf, there, Option.bind_some] at found
  split_ifs at found
  obtain ⟨p, -, rfl⟩ := Option.map_eq_some_iff.mp found
  rfl

theorem deed_write (at_ : At s h f b n) (x : Memory) (data : List UChar) :
    deed s (.write h x data) = (leaf s b).bind fun q => match var s n with
      | .file (some _) =>
        if has f.fMode ACC_WRITE then some (q.1, .wrote b x f.fPos data) else none
      | _ => none := by
  simp only [deed, at_.client, at_.place, Option.bind_some]
  cases found : leaf s b with
  | none => rfl
  | some q => rw [Option.bind_some, Option.bind_some, leaf_var at_.there found]

/-- What is recorded of a write is that the variable is rewritten. -/
theorem settle_write {str : Str} (at_ : AtVar s h f b n v str) (mode : has f.fMode ACC_WRITE = true)
    (x : Memory) (data : List UChar) :
    settle (entriesOf (leaf s)) (deed s (.write h x data)) =
      entriesOf (Function.update (leaf s) b ((leaf s b).map fun q =>
        (q.1, q.2.1, rewritten x f.fPos data (.file (some str.sVal))))) := by
  rw [deed_write at_.toAt, at_.var]
  cases found : leaf s b with
  | none =>
      rw [Option.map_none, ← found, Function.update_eq_self, found]
      rfl
  | some q =>
      have own : entriesOf (leaf s) q.1 b = some q.2 := by
        rw [entriesOf, found, Option.bind_some, if_pos rfl]
      rw [entriesOf_update (p := q.1), Option.bind_some, if_pos mode, settle, Deed.onto, own,
        Option.map_some, Option.map_some, Option.map_some, leaf_var at_.there found, at_.var]
      · intro r is
        rw [Option.some.inj (found.symm.trans is)]
      · intro r is
        rw [← Option.some.inj is]

/-- **A step keeps the counts, and leaves what is done in a directory.** -/
theorem step_spec {op : Op} {answer : Answer} (log : ULong → List Deed) (intact : Intact s)
    (possible : Possible s op) (meets : Meets ⟨s, log⟩ op) (run : exec s op = .ok (t, answer)) :
    Intact t ∧ entriesOf (leaf t) = settle (entriesOf (leaf s)) (deed s op) := by
  cases op with
  | request x act =>
      obtain ⟨out, done, run⟩ := parts_of_ok run
      obtain ⟨rfl, rfl⟩ := Prod.mk.inj (Except.ok.inj run)
      obtain ⟨t, r, done', intact', is⟩ := exec_spec intact possible meets
      rw [request_ok done] at done'
      obtain rfl := Except.ok.inj done'
      exact ⟨intact', by rw [is]; exact settle_request intact possible⟩
  | seek h mArg =>
      rcases seek_cases run with rfl | ⟨f, pos, client, rfl⟩
      · exact ⟨intact, rfl⟩
      · exact ⟨intact_setPos intact client pos, rfl⟩
  | read h mArg listed =>
      obtain ⟨f, ⟨pos, rfl⟩, ⟨b, n, at_, -⟩ | ⟨b, n, v, str, bytes, at_, -⟩⟩ := read_cases run
      · exact ⟨intact_setPos intact at_.client pos, rfl⟩
      · exact ⟨intact_setPos intact at_.client pos, rfl⟩
  | write h x data =>
      obtain ⟨f, b, n, at_, ⟨rfl, closed⟩ | ⟨v, str, var, mode, outcome⟩⟩ := write_cases run
      · refine ⟨intact, ?_⟩
        have none_ : deed t (.write h x data) = none := by
          rw [deed_write at_]
          cases leaf t b with
          | none => rfl
          | some q =>
              rw [Option.bind_some]
              cases dir : n.nInternal with
              | true => rw [Env.var, dir, if_pos rfl]
              | false =>
                  have mode : has f.fMode ACC_WRITE = false := by simpa [dir] using closed
                  rw [mode, if_neg Bool.false_ne_true]
                  cases var t n with
                  | dir => rfl
                  | file text => cases text <;> rfl
        rw [none_]
        rfl
      · rw [settle_write var mode]
        rcases outcome with ⟨rfl, e, refused⟩ | ⟨buf, pos, written, rfl⟩
        · have same : rewritten x f.fPos data (.file (some str.sVal)) = .file (some str.sVal) := by
            rw [rewritten, refused]
          refine ⟨intact, ?_⟩
          rw [same, ← var.var]
          refine congrArg entriesOf (Function.update_eq_self b _).symm |>.trans ?_
          congr 2
          cases found : leaf t b with
          | none => rfl
          | some q => rw [Option.map_some, ← leaf_var at_.there found]
        · obtain ⟨short, memory⟩ := writeText_ok written
          have one : str.sRefs = 1 :=
            meets f b n v str var.client var.place var.there var.value var.string mode short memory
          have new : rewritten x f.fPos data (.file (some str.sVal)) = .file (some buf) := by
            rw [rewritten, written]
          refine ⟨intact_setPos (intact_rewrite intact v buf) var.client pos, ?_⟩
          rw [new, ← leaf_rewrite intact var one]
          rfl

/-! ## Runs -/

/-- What holds in every state that is reached. -/
structure Good (w : World) : Prop where
  intact : Intact w.server
  kept : entriesOf (leaf w.server) = fun a => replay (w.log a)

theorem start_good : Good World.start := by
  refine ⟨start_intact, ?_⟩
  funext a b
  have none_ : leaf Env.start b = none := by
    rw [leaf, lookup_start]
    split_ifs
    · rfl
    · rfl
  rw [entriesOf, World.start, none_]
  rfl

theorem Good.step {w w' : World} {op : Op} (good : Good w) (meets : Meets w op)
    (step : w.Step op w') : Good w' := by
  obtain ⟨possible, ⟨answer, run⟩, log⟩ := step
  obtain ⟨intact, is⟩ := step_spec w.log good.intact possible meets run
  refine ⟨intact, ?_⟩
  rw [log, replay_logged, is, good.kept]

theorem Good.right {w : World} (good : Good w) : Right w := by
  have kept : ∀ a, entries w.server a = replay (w.log a) := fun a => congrFun good.kept a
  refine ⟨kept, fun h mArg listed f a b e client place found s bytes run => ?_,
    fun op a b d possible works is => ?_⟩
  · obtain ⟨g, -, ⟨c, n, at_, -, listing⟩ | ⟨c, n, v, str, bytes', at_, text, data⟩⟩ :=
      read_cases run
    · cases listing
    · obtain rfl := Answer.data.inj data
      obtain rfl := Option.some.inj (client.symm.trans at_.client)
      obtain rfl := Option.some.inj (place.symm.trans at_.place)
      refine ⟨e.1, str.sVal, ?_, text⟩
      rw [← kept, entries, entriesOf, found, Option.bind_some, if_pos rfl, ← at_.var,
        ← leaf_var at_.there found]
  · cases op with
    | seek h mArg => exact works.elim
    | read h mArg listed => exact works.elim
    | write h x data =>
        obtain ⟨f, c, e, client, place, found⟩ := works
        simp only [deed, client, place, found, Option.bind_some] at is
        split at is
        · split_ifs at is
          exact (Prod.mk.inj (Option.some.inj is)).1.symm
        · cases is
    | request x act =>
        have other : ∀ h, act ≠ .fork h := by
          rintro h rfl
          exact works
        rw [deed_request other] at is
        obtain ⟨⟨c, l⟩, what, is⟩ := Option.bind_eq_some_iff.mp is
        obtain ⟨p, was, now, own⟩ := touched_spec good.intact possible what
        exact (changed_dir was now is).trans (own a works)

/-- What a message that goes through leaves. -/
def World.next (w : World) (op : Op) : Option World :=
  (exec w.server op).toOption.map fun out => ⟨out.1, w.logged op⟩

instance (s : State) (op : Op) : Decidable (Possible s op) := by
  cases op <;> unfold Possible <;> infer_instance

theorem step_of_next {w w' : World} {op : Op} (possible : Possible w.server op)
    (taken : w.next op = some w') : w.Step op w' := by
  rw [World.next] at taken
  cases done : exec w.server op with
  | error fault =>
      rw [done] at taken
      cases taken
  | ok out =>
      rw [done] at taken
      obtain rfl := Option.some.inj taken
      exact ⟨possible, ⟨out.2, done⟩, rfl⟩

/-- A message that meets the condition, as far as that is seen from the clients. -/
def fit (w : World) : Op → Bool
  | .request x act => fitting w.server (x, act)
  | .seek _ _ | .read _ _ _ => true
  | .write _ _ _ => w.server.strings.all fun str => str.2.sRefs = 1

theorem meets_of_fit {w : World} {op : Op} (good : fit w op = true) : Meets w op := by
  cases op with
  | request x act => exact fits_of_fitting (x, act) good
  | seek h mArg => trivial
  | read h mArg listed => trivial
  | write h x data =>
      intro f b n v str _ _ _ _ string _ _ _
      exact of_decide_eq_true (List.all_eq_true.mp good (v, str) (Hash.mem_of_lookup string))

/-- Memory for a write. -/
def room : Memory := ⟨true, fun _ => 0⟩

/-- A client makes a home and a variable in it, which it writes, and another one forks. -/
def forks : List Op :=
  (forking.take 3).map (fun label => .request label.1 label.2) ++ [.write 1 room [0x78]] ++
    (forking.drop 3).map fun label => .request label.1 label.2

/-- Messages one after the other. -/
def World.following (w : World) (ops : List Op) : World :=
  ops.foldl (fun w op => (w.next op).getD w) w

def forked : World := World.start.following forks

theorem follow_following {ok : World → Op → Bool} (ops : List Op) (w : World)
    (goes : (Transition.follow World.next ok w ops).isSome = true) :
    Transition.follow World.next ok w ops = some (w.following ops) := by
  induction ops generalizing w with
  | nil => rfl
  | cons op rest ih =>
      rw [Transition.follow] at goes ⊢
      split_ifs at goes ⊢
      swap
      · cases goes
      cases taken : w.next op with
      | none =>
          rw [taken] at goes
          cases goes
      | some w' =>
          rw [taken] at goes
          have is : w.following (op :: rest) = w'.following rest := by
            rw [World.following, List.foldl_cons, taken]
            rfl
          rw [Option.bind_some, is]
          exact ih w' goes

theorem forked_run : Transition.Reaches World.Step Meets World.start forked :=
  (Transition.Reaches.refl World.start).followed
    (fun w op good => meets_of_fit (Bool.and_eq_true _ _ ▸ good).2)
    (fun w op w' good => step_of_next (of_decide_eq_true (Bool.and_eq_true _ _ ▸ good).1))
    (@follow_following (fun w op => decide (Possible w.server op) && fit w op) forks World.start
      (by decide +kernel))

/-- The client that was there before writes to its variable. -/
def spilt : World := forked.following [.write 1 room [0x79]]

/-- **A write to one copy of a variable is seen in the other**, in which nothing was done. -/
theorem write_spills : Transition.Reaches World.Step Transition.Any World.start spilt ∧
    ¬Right spilt := by
  have run : Transition.Reaches World.Step Transition.Any World.start forked :=
    forked_run.mono fun _ _ _ => trivial
  refine ⟨run.followed (fun _ _ _ => trivial)
    (fun w op w' good => step_of_next (of_decide_eq_true good))
    (@follow_following (fun w op => decide (Possible w.server op)) _ forked (by decide +kernel)), fun right => ?_⟩
  have same := congrFun (right.kept 0x4000) 0x5000
  have differ : entries spilt.server 0x4000 0x5000 ≠ replay (spilt.log 0x4000) 0x5000 := by
    decide +kernel
  exact differ same

end Vsta.EnvFork
