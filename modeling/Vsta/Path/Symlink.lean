import Vsta.Path.Dotdot
import Mathlib.Data.List.TakeWhile

/-!
# The walk of a path with symbolic links

`try_open` of `lib/open.c` sends the elements of a path to the server of a mount, one at a time. The
server answers that the port is at the new node, that the element is a symbolic link, or with an
error. The contents of a link are read by `follow_symlink` over a port of its own, and what is left
of the path is put behind them.

The port over which a link was read is disconnected when the link could not be read, and never when
it could: a walk keeps one port for each link it followed (`walk_ports`). Behind the contents there
is room for the rest of the path and its terminator, and not for the slash between them
(`newpath_top`). So a walk is what it should be exactly when no link is followed
(`walk_safe_iff`); that it ends is part of its definition, `MAXLINK` bounds the links and the length
of the path bounds the elements between two of them.
-/

set_option autoImplicit false

namespace Vsta.Paths

abbrev MAXLINK : ℕ := 16
abbrev MAXSYMLEN : ℕ := 128
abbrev ACC_EXEC : ℕ := 0x1
abbrev ACC_READ : ℕ := 0x4
abbrev ACC_SYM : ℕ := 0x8

/-- The arguments of an `FS_OPEN`. -/
structure OpenMsg where
  name : Text
  arg : ℕ
  arg1 : ℕ
  deriving DecidableEq

/-- The answer to the `FS_OPEN` of an element. -/
inductive Reply (N : Type) where
  | walked (node : N)
  | symlink
  | failed

/-- A symbolic link, and what becomes of an attempt to read it: whether a port can be cloned, the
link opened and its size found, whether there is memory, and how much is read. -/
structure Link where
  contents : Text
  clones : Bool
  opens : Bool
  stats : Bool
  memory : Bool
  read : Option ℕ
  heap : ℕ → UChar

/-- A tree of directories and links, and the environment. `link` is what is found at the nth attempt
to read a link, and `stale` is what `free` leaves of a string. -/
structure World (N : Type) where
  answer : N → OpenMsg → Reply N
  link : ℕ → N → OpenMsg → Link
  getenv : Text → Option Text
  stale : Text → Text

/-- What a walk does that its caller does not see: the ports it clones and disconnects, and the
paths it builds from a link and the rest of a path. -/
inductive Event where
  | cloned (port : ℕ)
  | disconnected (port : ℕ)
  | built (port : ℕ) (contents : Text) (rest : Option Text) (newpath : Buf)

/-- Where a walk gets to, and what is left of the string it was given. -/
structure Outcome (N : Type) where
  events : List Event
  dir : Option N
  left : Text

/-! ## The functions -/

/-- The string is copied to a place in the buffer. -/
def Buf.put (b : Buf) (p : ℕ) (text : Text) : Buf :=
  { b with
    bytes := fun i => if p ≤ i ∧ i < p + text.length then text.getD (i - p) 0 else b.bytes i
    top := if text = [] then b.top else max b.top (p + text.length - 1) }

/-- What is written behind the contents of a link. -/
def tail (rest : Option Text) : Text :=
  match rest with
  | none => [0]
  | some rest => slash :: rest ++ [0]

/-- The buffer for the new path. -/
def buffer (l : Link) (rest : Option Text) : Buf where
  bytes := l.heap
  size := l.contents.length + (rest.elim 0 List.length) + 1
  top := 0

/-- The new path, when `x` bytes of the contents are read. -/
def newpath (l : Link) (x : ℕ) (rest : Option Text) : Buf :=
  ((buffer l rest).put 0 (l.contents.take x)).put l.contents.length (tail rest)

/-- `follow_symlink`. -/
def followSymlink (l : Link) (port2 : ℕ) (rest : Option Text) : List Event × Option Text :=
  let bail := ([.cloned port2, .disconnected port2], none)
  if !l.clones then ([], none)
  else if !l.opens then bail
  else if !l.stats then bail
  else if l.contents.length > MAXSYMLEN then bail
  else if !l.memory then bail
  else
    match l.read with
    | none => bail
    | some x =>
        let b := newpath l x rest
        ([.cloned port2, .built port2 l.contents rest b], some (b.str 0))

/-- The next element of a path, and what is behind its slash. -/
def element (file : Text) : Text × Option Text :=
  let file := file.dropWhile (· = slash)
  (file.takeWhile (· ≠ slash),
    if slash ∈ file then some (file.drop ((file.takeWhile (· ≠ slash)).length + 1)) else none)

theorem element_lt {file rest : Text} (more : (element file).2 = some rest) :
    rest.length < file.length := by
  rw [element] at more
  split_ifs at more with marked
  have shorter : (file.dropWhile (· = slash)).length ≤ file.length :=
    (List.dropWhile_suffix _).length_le
  have some_ : 0 < (file.dropWhile (· = slash)).length := List.length_pos_of_mem marked
  rw [← Option.some.inj more, List.length_drop]
  omega

variable {N : Type} (w : World N) (mask mode : ℕ)

/-- An element that is mapped to the environment. -/
def mapped (elem : Text) : Option Text :=
  match elem with
  | c :: d :: more => if c = 64 ∧ 65 ≤ d ∧ d ≤ 90 then w.getenv (d :: more) else none
  | _ => none

/-- The message that walks down to an element. -/
def request (part : Text × Option Text) : OpenMsg where
  name := (mapped w part.1).getD part.1
  arg := if part.2.isSome then ACC_EXEC else mode
  arg1 := if part.2.isSome then 0 else mask

/-- The message that opens a link. The storage of an element from the environment is free then. -/
def linkRequest (part : Text × Option Text) : OpenMsg where
  name := ((mapped w part.1).map w.stale).getD part.1
  arg := ACC_READ + ACC_SYM
  arg1 := 0

/-- What is left of a path in which the slash behind the next element is not put back. -/
def cutoff (file : Text) : Text :=
  file.take (file.length - ((element file).2.elim 0 fun rest => rest.length + 1))

/-- The loop of `try_open`. -/
def walk (nlink : ℕ) (dir : N) (file : Text) : Outcome N :=
  match w.answer dir (request w mask mode (element file)) with
  | .failed => ⟨[], none, file⟩
  | .walked next =>
      match more : (element file).2 with
      | none => ⟨[], some next, file⟩
      | some rest =>
          let out := walk nlink next rest
          ⟨out.events, out.dir, file.take (file.length - rest.length) ++ out.left⟩
  | .symlink =>
      if nlink ≥ MAXLINK then ⟨[], none, cutoff file⟩
      else
        let l := w.link nlink dir (linkRequest w (element file))
        match followSymlink l nlink (element file).2 with
        | (events, none) => ⟨events, none, file⟩
        | (events, some path) =>
            let out := walk (nlink + 1) dir path
            ⟨events ++ out.events, out.dir, cutoff file⟩
  termination_by (MAXLINK - nlink, file.length)
  decreasing_by
  · exact Prod.Lex.right _ (element_lt more)
  · exact Prod.Lex.left _ _ (by omega)

/-- `try_open`. -/
def tryOpen (newfile : N) (file : Text) : Outcome N :=
  if file = [] then ⟨[], some newfile, file⟩ else walk w mask mode 0 newfile file

/-! ## What it is for -/

/-- **A walk writes in its buffers alone, expands a link to its contents, a slash and the rest of
the path, and has disconnected the ports it cloned.** -/
structure Safe (events : List Event) : Prop where
  inside : ∀ port contents rest b, .built port contents rest b ∈ events → b.top < b.size
  expands : ∀ port contents rest b, .built port contents rest b ∈ events →
    b.str 0 = contents ++ (rest.elim [] fun rest => slash :: rest)
  released : ∀ port, .cloned port ∈ events → .disconnected port ∈ events

/-- A link can be read. -/
def Link.Readable (l : Link) : Prop :=
  l.clones ∧ l.opens ∧ l.stats ∧ l.contents.length ≤ MAXSYMLEN ∧ l.memory ∧ l.read.isSome

/-- The first link on a walk: its directory, and the path from it on. -/
def firstLink (dir : N) (file : Text) : Option (N × Text) :=
  match w.answer dir (request w mask mode (element file)) with
  | .failed => none
  | .walked next =>
      match more : (element file).2 with
      | none => none
      | some rest => firstLink next rest
  | .symlink => some (dir, file)
  termination_by file.length
  decreasing_by exact element_lt more

/-- No link is followed on a walk: there is none, or the first one cannot be read. -/
def NoneFollowed (newfile : N) (file : Text) : Prop :=
  file = [] ∨ ∀ dir rest, firstLink w mask mode newfile file = some (dir, rest) →
    ¬(w.link 0 dir (linkRequest w (element rest))).Readable

/-- The port that an event is about. -/
def Event.port : Event → ℕ
  | .cloned port => port
  | .disconnected port => port
  | .built port _ _ _ => port

variable {w mask mode} {l : Link} {port : ℕ} {rest : Option Text} {b : Buf}

/-! ## A link -/

@[simp] theorem Buf.put_size {p : ℕ} {text : Text} : (b.put p text).size = b.size := rfl

theorem Buf.put_top_of_ne {p : ℕ} {text : Text} (some_ : text ≠ []) :
    (b.put p text).top = max b.top (p + text.length - 1) := if_neg some_

theorem Buf.put_top_le {p : ℕ} {text : Text} :
    (b.put p text).top ≤ max b.top (p + text.length - 1) := by
  rw [Buf.put]
  dsimp only
  split_ifs
  · exact le_max_left _ _
  · exact le_rfl

theorem Buf.put_inside {p i : ℕ} {text : Text} (inside : i < text.length) :
    (b.put p text).bytes (p + i) = text[i] := by
  rw [Buf.put]
  dsimp only
  rw [if_pos (by omega), Nat.add_sub_cancel_left, List.getD_eq_getElem _ _ inside]

theorem Buf.put_outside {p i : ℕ} {text : Text} (out : i < p ∨ p + text.length ≤ i) :
    (b.put p text).bytes i = b.bytes i := if_neg (by omega)

theorem length_tail : (tail rest).length = rest.elim 1 fun rest => rest.length + 2 := by
  cases rest <;> simp [tail]

/-- **How far the new path is written.** There is one byte too few where something is behind the
link. -/
theorem newpath_top (x : ℕ) :
    (newpath l x rest).top + 1 = (newpath l x rest).size + (if rest.isSome then 1 else 0) := by
  have some_ : tail rest ≠ [] := by cases rest <;> exact List.cons_ne_nil _ _
  have first : ((buffer l rest).put 0 (l.contents.take x)).top ≤
      max 0 (0 + (l.contents.take x).length - 1) := Buf.put_top_le
  have short : (l.contents.take x).length ≤ l.contents.length := List.length_take_le' _ _
  rw [newpath, Buf.put_top_of_ne some_, length_tail]
  have size : (newpath l x rest).size = l.contents.length + (rest.elim 0 List.length) + 1 := rfl
  rw [newpath] at size
  rw [size]
  cases rest with
  | none =>
      simp only [Option.elim_none, Option.isSome_none, Bool.false_eq_true, if_false]
      omega
  | some rest =>
      simp only [Option.elim_some, Option.isSome_some, if_true]
      omega

theorem followSymlink_cases (l : Link) (port : ℕ) (rest : Option Text) :
    (¬l.Readable ∧ (followSymlink l port rest = ([], none) ∨
      followSymlink l port rest = ([.cloned port, .disconnected port], none))) ∨
    (l.Readable ∧ ∃ x, followSymlink l port rest =
      ([.cloned port, .built port l.contents rest (newpath l x rest)],
        some ((newpath l x rest).str 0))) := by
  rw [followSymlink, Link.Readable]
  by_cases clones : l.clones = true
  swap
  · exact .inl ⟨fun h => clones h.1, .inl (if_pos (by simp [clones]))⟩
  by_cases opens : l.opens = true
  swap
  · exact .inl ⟨fun h => opens h.2.1, .inr (by simp [clones, opens])⟩
  by_cases stats : l.stats = true
  swap
  · exact .inl ⟨fun h => stats h.2.2.1, .inr (by simp [clones, opens, stats])⟩
  by_cases long : l.contents.length > MAXSYMLEN
  · exact .inl ⟨fun h => absurd h.2.2.2.1 (by omega), .inr (by simp [clones, opens, stats, long])⟩
  by_cases memory : l.memory = true
  swap
  · exact .inl ⟨fun h => memory h.2.2.2.2.1,
      .inr (by simp only [clones, opens, stats, memory]; simp [long])⟩
  cases read : l.read with
  | none => exact .inl ⟨fun h => by simpa using h.2.2.2.2.2,
      .inr (by simp only [clones, opens, stats, memory]; simp [long])⟩
  | some x => exact .inr ⟨⟨clones, opens, stats, by omega, memory, rfl⟩, x,
      by simp only [clones, opens, stats, memory]; simp [long]⟩

theorem newpath_chars (x : ℕ) (all : l.contents.length ≤ x) :
    (List.range' 0 (newpath l x rest).size).map (newpath l x rest).bytes =
      (l.contents ++ tail rest).take (newpath l x rest).size := by
  have most : (newpath l x rest).size ≤ (l.contents ++ tail rest).length := by
    have size : (newpath l x rest).size = l.contents.length + (rest.elim 0 List.length) + 1 := rfl
    rw [size, List.length_append, length_tail]
    cases rest with
    | none => exact le_rfl
    | some rest =>
        dsimp only [Option.elim_some]
        omega
  have sizes : ((List.range' 0 (newpath l x rest).size).map (newpath l x rest).bytes).length =
      ((l.contents ++ tail rest).take (newpath l x rest).size).length := by
    rw [List.length_map, List.length_range', List.length_take]
    omega
  refine List.ext_getElem sizes fun i inside inside' => ?_
  rw [List.getElem_map, List.getElem_range', Nat.zero_add, Nat.one_mul, List.getElem_take]
  rw [List.length_map, List.length_range'] at inside
  by_cases first : i < l.contents.length
  · have read : i < (l.contents.take x).length := by
      rw [List.length_take]
      omega
    have put : ((buffer l rest).put 0 (l.contents.take x)).bytes (0 + i) =
        (l.contents.take x)[i] := Buf.put_inside read
    rw [Nat.zero_add, List.getElem_take] at put
    simp only [newpath]
    rw [Buf.put_outside (by omega), put, List.getElem_append_left first]
  · have behind : i - l.contents.length < (tail rest).length := by
      rw [List.length_append] at most
      omega
    have place : i = l.contents.length + (i - l.contents.length) := by omega
    rw [List.getElem_append_right (by omega)]
    simp only [newpath]
    conv_lhs => rw [place]
    exact Buf.put_inside behind

/-- **A link that is read whole is expanded to its contents, a slash and the rest of the path.** -/
theorem newpath_str {x : ℕ} (all : l.contents.length ≤ x) (whole : 0 ∉ l.contents)
    (whole' : ∀ more, rest = some more → 0 ∉ more) :
    (newpath l x rest).str 0 = l.contents ++ (rest.elim [] fun rest => slash :: rest) := by
  have keep : ∀ text : Text, 0 ∉ text → ∀ c ∈ text, decide (c ≠ 0) = true := by
    intro text whole c member
    rw [decide_eq_true_eq]
    rintro rfl
    exact whole member
  rw [Buf.str, Nat.sub_zero, newpath_chars x all]
  cases rest with
  | none =>
      have all_ : (l.contents ++ tail none).take (newpath l x none).size = l.contents ++ [0] :=
        List.take_of_length_le (by simp [newpath, buffer, tail])
      rw [all_, List.takeWhile_append_of_pos (keep _ whole), List.takeWhile_cons_of_neg (by simp)]
      rfl
  | some more =>
      have size : (newpath l x (some more)).size = (l.contents ++ slash :: more).length := by
        simp only [newpath, buffer, Buf.put_size, Option.elim_some, List.length_append,
          List.length_cons]
        omega
      have split_ : l.contents ++ tail (some more) = (l.contents ++ slash :: more) ++ [0] := by
        simp [tail]
      rw [split_, size, List.take_left]
      refine List.takeWhile_eq_self_iff.mpr (keep _ fun zero => ?_)
      rcases List.mem_append.mp zero with first | behind
      · exact whole first
      · rcases List.mem_cons.mp behind with mark | behind
        · exact absurd mark (by decide)
        · exact whole' more rfl behind

/-! ## A walk -/

variable {dir next : N} {file : Text} {nlink : ℕ}

theorem walk_failed (failed : w.answer dir (request w mask mode (element file)) = .failed) :
    walk w mask mode nlink dir file = ⟨[], none, file⟩ := by rw [walk, failed]

theorem walk_last (walked : w.answer dir (request w mask mode (element file)) = .walked next)
    (last : (element file).2 = none) :
    walk w mask mode nlink dir file = ⟨[], some next, file⟩ := by
  rw [walk, walked]
  dsimp only
  split
  · rfl
  · next rest more => exact absurd (last.symm.trans more) (by simp)

theorem walk_next {rest : Text}
    (walked : w.answer dir (request w mask mode (element file)) = .walked next)
    (more : (element file).2 = some rest) :
    (walk w mask mode nlink dir file).events = (walk w mask mode nlink next rest).events := by
  rw [walk, walked]
  dsimp only
  split
  · next last => exact absurd (more.symm.trans last) (by simp)
  · next rest' more' => rw [Option.some.inj (more.symm.trans more')]

theorem walk_capped (linked : w.answer dir (request w mask mode (element file)) = .symlink)
    (capped : MAXLINK ≤ nlink) : (walk w mask mode nlink dir file).events = [] := by
  rw [walk, linked]
  dsimp only
  rw [if_pos capped]

/-- The link at the start of a path. -/
abbrev here (w : World N) (nlink : ℕ) (dir : N) (file : Text) : Link :=
  w.link nlink dir (linkRequest w (element file))

theorem walk_unread (linked : w.answer dir (request w mask mode (element file)) = .symlink)
    (under : nlink < MAXLINK) {events : List Event}
    (unread : followSymlink (here w nlink dir file) nlink (element file).2 = (events, none)) :
    (walk w mask mode nlink dir file).events = events := by
  rw [walk, linked]
  dsimp only
  rw [if_neg (by omega), unread]

theorem walk_read (linked : w.answer dir (request w mask mode (element file)) = .symlink)
    (under : nlink < MAXLINK) {events : List Event} {path : Text}
    (read : followSymlink (here w nlink dir file) nlink (element file).2 = (events, some path)) :
    (walk w mask mode nlink dir file).events =
      events ++ (walk w mask mode (nlink + 1) dir path).events := by
  rw [walk, linked]
  dsimp only
  rw [if_neg (by omega), read]

theorem firstLink_last (walked : w.answer dir (request w mask mode (element file)) = .walked next)
    (last : (element file).2 = none) : firstLink w mask mode dir file = none := by
  rw [firstLink, walked]
  dsimp only
  split
  · rfl
  · next rest more => exact absurd (last.symm.trans more) (by simp)

theorem firstLink_next {rest : Text}
    (walked : w.answer dir (request w mask mode (element file)) = .walked next)
    (more : (element file).2 = some rest) :
    firstLink w mask mode dir file = firstLink w mask mode next rest := by
  rw [firstLink, walked]
  dsimp only
  split
  · next last => exact absurd (more.symm.trans last) (by simp)
  · next rest' more' => rw [Option.some.inj (more.symm.trans more')]

variable (w mask mode)

/-- **Up to the first link a walk does nothing but send messages.** -/
theorem walk_firstLink (nlink : ℕ) (dir : N) (file : Text) :
    (firstLink w mask mode dir file = none ∧ (walk w mask mode nlink dir file).events = []) ∨
    ∃ at_ rest, firstLink w mask mode dir file = some (at_, rest) ∧
      w.answer at_ (request w mask mode (element rest)) = .symlink ∧
      (walk w mask mode nlink dir file).events = (walk w mask mode nlink at_ rest).events := by
  induction size : file.length using Nat.strong_induction_on generalizing dir file with
  | _ n ih =>
      cases answered : w.answer dir (request w mask mode (element file)) with
      | failed =>
          exact .inl ⟨by rw [firstLink, answered], congrArg Outcome.events (walk_failed answered)⟩
      | symlink => exact .inr ⟨dir, file, by rw [firstLink, answered], answered, rfl⟩
      | walked next =>
          cases more : (element file).2 with
          | none => exact .inl ⟨firstLink_last answered more,
              congrArg Outcome.events (walk_last answered more)⟩
          | some rest =>
              rw [firstLink_next answered more, walk_next answered more]
              exact ih _ (size ▸ element_lt more) _ _ rfl

theorem mem_built {contents : Text} (later : List Event) :
    Event.built port contents rest b ∈
      [.cloned port, .built port contents rest b] ++ later := by simp

/-- **The ports of a walk are those of its attempts to read a link, and the ones that it keeps are
those of the links it followed.** -/
theorem walk_ports (nlink : ℕ) (dir : N) (file : Text) :
    (∀ e ∈ (walk w mask mode nlink dir file).events, nlink ≤ e.port ∧ e.port < MAXLINK) ∧
    ∀ port, Event.cloned port ∈ (walk w mask mode nlink dir file).events →
      (Event.disconnected port ∉ (walk w mask mode nlink dir file).events ↔
        ∃ contents rest b,
          Event.built port contents rest b ∈ (walk w mask mode nlink dir file).events) := by
  induction left : MAXLINK - nlink generalizing nlink dir file with
  | zero =>
      rcases walk_firstLink w mask mode nlink dir file with
        ⟨-, none_⟩ | ⟨at_, rest, -, linked, same⟩
      · rw [none_]
        exact ⟨by simp, by simp⟩
      · rw [same, walk_capped linked (by omega)]
        exact ⟨by simp, by simp⟩
  | succ k ih =>
      rcases walk_firstLink w mask mode nlink dir file with
        ⟨-, none_⟩ | ⟨at_, rest, -, linked, same⟩
      · rw [none_]
        exact ⟨by simp, by simp⟩
      · have under : nlink < MAXLINK := by omega
        rw [same]
        rcases followSymlink_cases (here w nlink at_ rest) nlink (element rest).2 with
          ⟨-, unread | unread⟩ | ⟨-, x, read⟩
        · rw [walk_unread linked under unread]
          exact ⟨by simp, by simp⟩
        · rw [walk_unread linked under unread]
          refine ⟨by simp [Event.port, under], fun port cloned => ?_⟩
          simp only [List.mem_cons, Event.cloned.injEq, reduceCtorEq, List.not_mem_nil, or_false]
            at cloned
          simp [cloned]
        · rw [walk_read linked under read]
          obtain ⟨range, kept⟩ := ih (nlink + 1) at_ ((newpath _ x _).str 0) (by omega)
          generalize (walk w mask mode (nlink + 1) at_ _).events = later at range kept ⊢
          refine ⟨?_, fun port cloned => ?_⟩
          · intro e member
            rcases List.mem_append.mp member with first | behind
            · simp only [List.mem_cons, List.not_mem_nil, or_false] at first
              rcases first with rfl | rfl <;> exact ⟨le_rfl, under⟩
            · have := range e behind
              omega
          · by_cases mine : port = nlink
            · subst mine
              have apart : Event.disconnected port ∉ later := by
                intro member
                have := (range _ member).1
                rw [Event.port] at this
                omega
              exact iff_of_true (by simp [apart]) ⟨_, _, _, mem_built later⟩
            · have here_ : Event.cloned port ∈ later := by simpa [mine] using cloned
              simpa [mine] using kept port here_

variable {w mask mode}

theorem safe_nil : Safe [] := ⟨by simp, by simp, by simp⟩

theorem safe_bail (port : ℕ) : Safe [.cloned port, .disconnected port] where
  inside := by simp
  expands := by simp
  released := by simp

/-- Once the first link is followed, its port is kept. -/
theorem not_safe {at_ : N} {rest : Text} (some_ : file ≠ [])
    (found : firstLink w mask mode dir file = some (at_, rest))
    (readable : (here w 0 at_ rest).Readable) :
    ¬Safe (tryOpen w mask mode dir file).events := by
  rw [tryOpen, if_neg some_]
  rcases walk_firstLink w mask mode 0 dir file with
    ⟨none_, -⟩ | ⟨at', rest', found', linked, same⟩
  · exact absurd (none_.symm.trans found) (by simp)
  · obtain ⟨rfl, rfl⟩ := Prod.mk.inj (Option.some.inj (found'.symm.trans found))
    rcases followSymlink_cases (here w 0 at' rest') 0 (element rest').2 with
      ⟨unread, -⟩ | ⟨-, x, read⟩
    · exact absurd readable unread
    · have events := walk_read linked (by decide) read
      have kept := (walk_ports w mask mode 0 at' rest').2 0
      rw [← same] at events kept
      have cloned : Event.cloned 0 ∈ (walk w mask mode 0 dir file).events := by simp [events]
      refine fun safe => (kept cloned).mpr ?_ (safe.released 0 cloned)
      rw [events]
      exact ⟨_, _, _, mem_built _⟩

/-- **A walk is safe exactly when it follows no link.** -/
theorem walk_safe_iff (newfile : N) (file : Text) :
    Safe (tryOpen w mask mode newfile file).events ↔ NoneFollowed w mask mode newfile file := by
  by_cases none_ : file = []
  · rw [tryOpen, if_pos none_]
    exact iff_of_true safe_nil (.inl none_)
  constructor
  · intro safe
    exact .inr fun at_ rest found readable => not_safe none_ found readable safe
  · rintro (empty | unread)
    · exact absurd empty none_
    · rw [tryOpen, if_neg none_]
      rcases walk_firstLink w mask mode 0 newfile file with
        ⟨-, nothing⟩ | ⟨at_, rest, found, linked, same⟩
      · rw [nothing]
        exact safe_nil
      · rw [same]
        rcases followSymlink_cases (here w 0 at_ rest) 0 (element rest).2 with
          ⟨-, fails | fails⟩ | ⟨readable, -⟩
        · rw [walk_unread linked (by decide) fails]
          exact safe_nil
        · rw [walk_unread linked (by decide) fails]
          exact safe_bail 0
        · exact absurd readable (unread at_ rest found)

/-- A directory in which `a` is a link to `b`. -/
def oneLink : World Unit where
  answer _ m := if m.name = [97] then .symlink else .walked ()
  link _ _ _ :=
    { contents := [98], clones := true, opens := true, stats := true, memory := true, read := some 1
      heap := fun _ => 0 }
  getenv _ := none
  stale _ := []

/-- The path `a/c`: the port of the link is kept. -/
theorem linked_path : ¬Safe (tryOpen oneLink 0 ACC_READ () [97, slash, 99]).events := by
  have found : firstLink oneLink 0 ACC_READ () [97, slash, 99] = some ((), [97, slash, 99]) := by
    rw [firstLink]
    rfl
  exact not_safe (List.cons_ne_nil _ _) found ⟨rfl, rfl, rfl, by decide, rfl, rfl⟩

end Vsta.Paths
