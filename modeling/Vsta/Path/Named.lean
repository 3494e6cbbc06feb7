import Vsta.Path.Dotdot
import Mathlib.Data.List.Flatten

/-!
# The file that a path names

`open` completes a path, with the home directory for a `~` and with the current directory in front
of one that is relative, and looks up the normal path. `unlink` and `rename` cut the last component
off themselves, and open what is in front of it: `rename` cuts the string it got, `unlink` flattens
it first, without the current directory. `named_iff` says when what they get is the parent and the
last component of the path that `open` looks up.

`resolve` is where a path leads. The current directory is one that `chdir` can have left, and there
is memory for the vectors of `__dotdot`.
-/

set_option autoImplicit false

namespace Vsta.Paths

open Components

abbrev MAXPATH : ℕ := 512
abbrev tilde : UChar := 126

/-- A process: the home directories it finds, and its current directory. -/
structure Caller where
  home : Text → Option Text
  cwd : List Text
  strings : ∀ name dir, home name = some dir → 0 ∉ dir
  names : ∀ c ∈ cwd, (kindOf c = .keep ∧ slash ∉ c) ∧ 0 ∉ c
  fits : (join cwd).length < MAXPATH

variable (w : Caller)

/-! ## The functions -/

/-- `do_home`: what is in front of the first slash is replaced. -/
def doHome (file : Text) : Option Text :=
  (w.home (file.takeWhile (· ≠ slash))).map (· ++ file.dropWhile (· ≠ slash))

/-- A `~` is rewritten, where there is a home directory. -/
def expand (file : Text) : Text :=
  if file.head? = some tilde then (doHome w file).getD file else file

/-- The string that `open` gives to `__dotdot`. There is none for `path_open`, nor when the buffer
is too short. -/
def prepare (file : Text) : Option Text :=
  let file := expand w file
  if file.head? = some slash then
    if (file.drop 1).head? = some slash then none
    else if file.length < MAXPATH then some file else none
  else
    let buf := join w.cwd ++ slash :: file
    if buf.length < MAXPATH then some buf else none

/-- What `__dotdot` leaves of a string. -/
def dotted (buf : Text) : Text := (dotdot (fun _ => true) (bufOf buf)).2.str 0

/-- The path that `open` looks up. -/
def openPath (file : Text) : Option Text := (prepare w file).map dotted

/-- A string is cut at its last slash, `strrchr`. Without one the directory is the current one. -/
def cut (path : Text) : Text × Text :=
  let file := (path.reverse.takeWhile (· ≠ slash)).reverse
  if slash ∈ path then (path.take (path.length - (file.length + 1)), file)
  else (join w.cwd, path)

/-- The directory that `unlink` opens, and the name it removes there. -/
def unlinkNames (path : Text) : Text × Text := cut w (dotted path)

/-- The directory that `getpath` of `rename` opens, and the name it uses there. -/
def getpathNames (path : Text) : Text × Text := cut w path

/-- **A directory and a name are those of the path that `open` looks up.** -/
def Named (path : Text) (parts : Text × Text) : Prop :=
  ∀ named, openPath w path = some named → ∀ parent last, components named = parent ++ [last] →
    openPath w parts.1 = some (join parent) ∧ parts.2 = last

/-! ## Where a path leads -/

/-- Where a string starts: at the root, or in the current directory. -/
def base (file : Text) : List Text := if file.head? = some slash then [] else w.cwd

/-- The components that a path leads to. -/
def resolve (path : Text) : List Text :=
  reduceFrom kindOf (base w (expand w path)) ((expand w path).splitOn slash)

variable {w} {path dir last buf : Text}

theorem dotted_eq (whole : 0 ∉ path) : dotted path = flat path := by
  obtain ⟨-, fails, leaves⟩ := dotdot_spec (fun _ => true) (at_bufOf whole)
  have done : (dotdot (fun _ => true) (bufOf path)).1 = false := by
    refine Bool.eq_false_iff.mpr fun failed => ?_
    obtain ⟨k, -, -, none_⟩ := fails.mp failed
    exact absurd none_ (by decide)
  exact (leaves done).str_eq

theorem components_cwd : components (join w.cwd) = w.cwd :=
  components_join fun c member => (w.names c member).1

/-- A relative path continues the current directory. -/
theorem components_behind (file : Text) :
    components (join w.cwd ++ slash :: file) = reduceFrom kindOf w.cwd (file.splitOn slash) := by
  rw [components, List.splitOn_append_cons_self, reduce_append]
  congr 1
  exact components_cwd

theorem join_absolute (cs : List Text) : (join cs).head? = some slash := by
  rw [join]
  split_ifs with none_
  · rfl
  · rw [flatMap_slash none_]
    rfl

theorem whole_join {cs : List Text} (whole : ∀ c ∈ cs, (0 : UChar) ∉ c) : 0 ∉ join cs := by
  rw [join]
  split_ifs
  · decide
  · intro zero
    obtain ⟨c, member, inside⟩ := List.mem_flatMap.mp zero
    rcases List.mem_cons.mp inside with mark | inside
    · exact absurd mark (by decide)
    · exact whole c member inside

theorem whole_expand (whole : 0 ∉ path) : 0 ∉ expand w path := by
  rw [expand]
  split_ifs
  · cases found : w.home (path.takeWhile (· ≠ slash)) with
    | none => rwa [doHome, found]
    | some dir =>
        rw [doHome, found]
        intro zero
        rcases List.mem_append.mp zero with first | behind
        · exact w.strings _ _ found first
        · exact whole ((List.dropWhile_suffix _).subset behind)
  · exact whole

/-- **What `open` prepares leads where the path does.** -/
theorem prepare_spec (whole : 0 ∉ path) (prepared : prepare w path = some buf) :
    buf.head? = some slash ∧ components buf = resolve w path ∧ 0 ∉ buf ∧ buf.length < MAXPATH := by
  have whole' := whole_expand (w := w) whole
  rw [prepare] at prepared
  rw [resolve, base]
  dsimp only at prepared
  split_ifs at prepared ⊢ with absolute server fits fits
  · obtain rfl := Option.some.inj prepared
    exact ⟨absolute, rfl, whole', fits⟩
  · obtain rfl := Option.some.inj prepared
    refine ⟨?_, components_behind _, ?_, fits⟩
    · rw [List.head?_append, join_absolute]
      rfl
    · intro zero
      rcases List.mem_append.mp zero with first | behind
      · exact whole_join (fun c member => (w.names c member).2) first
      · rcases List.mem_cons.mp behind with mark | behind
        · exact absurd mark (by decide)
        · exact whole' behind

theorem resolve_keep {c : Text} (member : c ∈ resolve w path) : kindOf c = .keep ∧ slash ∉ c := by
  have start : ∀ c ∈ base w (expand w path), kindOf c = .keep ∧ slash ∉ c := by
    intro c member
    rw [base] at member
    split_ifs at member
    · exact absurd member List.not_mem_nil
    · exact (w.names c member).1
  refine ⟨keep_of_mem_reduceFrom (fun c member => (start c member).1) c member, ?_⟩
  rcases List.mem_append.mp (reduceFrom_sublist.subset member) with front | behind
  · exact (start c front).2
  · exact slash_notMem_splitOn behind

/-- What `open` looks up is where the path leads. -/
theorem openPath_eq (whole : 0 ∉ path) (prepared : prepare w path = some buf) :
    openPath w path = some (join (resolve w path)) := by
  obtain ⟨absolute, leads, whole', -⟩ := prepare_spec whole prepared
  rw [openPath, prepared, Option.map_some, dotted_eq whole', flat_absolute absolute, normal, leads]

/-- **A directory and a name, by where the two paths lead.** -/
theorem named_resolve {parts : Text × Text} (whole : 0 ∉ path) (whole' : 0 ∉ parts.1) :
    Named w path parts ↔ prepare w path = none ∨ resolve w path = [] ∨
      (prepare w parts.1 ≠ none ∧ resolve w path = resolve w parts.1 ++ [parts.2]) := by
  cases prepared : prepare w path with
  | none =>
      refine iff_of_true (fun named found => ?_) (.inl rfl)
      rw [openPath, prepared] at found
      exact nomatch found
  | some buf =>
      have found := openPath_eq whole prepared
      have same : components (join (resolve w path)) = resolve w path :=
        components_join fun c => resolve_keep
      constructor
      · intro right
        refine .inr ?_
        rcases List.eq_nil_or_concat' (resolve w path) with none_ | ⟨parent, last, parts_⟩
        · exact .inl none_
        · obtain ⟨opened, rfl⟩ := right _ found parent last (same.trans parts_)
          cases prepared' : prepare w parts.1 with
          | none =>
              rw [openPath, prepared'] at opened
              exact nomatch opened
          | some buf' =>
              rw [openPath_eq whole' prepared'] at opened
              have keep : ∀ c ∈ parent, kindOf c = .keep ∧ slash ∉ c := by
                intro c member
                have among : c ∈ resolve w path := parts_ ▸ List.mem_append_left _ member
                exact resolve_keep among
              have equal := congrArg components (Option.some.inj opened)
              rw [components_join fun c => resolve_keep, components_join keep] at equal
              refine .inr ⟨nofun, ?_⟩
              rw [parts_, equal]
      · rintro (none_ | root | ⟨prepared', parts_⟩) named found' parent last cut_
        · exact nomatch none_
        · obtain rfl := Option.some.inj (found.symm.trans found')
          rw [same, root] at cut_
          exact absurd cut_.symm (List.append_ne_nil_of_right_ne_nil _ (List.cons_ne_nil _ _))
        · obtain rfl := Option.some.inj (found.symm.trans found')
          obtain ⟨buf', prepared'⟩ := Option.ne_none_iff_exists'.mp prepared'
          rw [same, parts_] at cut_
          obtain ⟨front, final⟩ := List.append_inj' cut_ rfl
          rw [openPath_eq whole' prepared', front]
          exact ⟨rfl, List.singleton_inj.mp final⟩

/-! ## Cutting a string -/

/-- **A string with a slash is cut at the last one.** -/
theorem cut_snoc (plain : slash ∉ last) : cut w (dir ++ slash :: last) = (dir, last) := by
  have file : ((dir ++ slash :: last).reverse.takeWhile (· ≠ slash)).reverse = last := by
    have all : ∀ c ∈ last.reverse, decide (c ≠ slash) = true := by
      intro c member
      rw [decide_eq_true_eq]
      rintro rfl
      exact plain (List.mem_reverse.mp member)
    rw [List.reverse_append, List.reverse_cons, List.append_assoc, List.singleton_append,
      List.takeWhile_append_of_pos all, List.takeWhile_cons_of_neg (by simp), List.append_nil,
      List.reverse_reverse]
  have size : (dir ++ slash :: last).length - (last.length + 1) = dir.length := by
    rw [List.length_append, List.length_cons, Nat.add_sub_cancel]
  rw [cut, file, if_pos (by simp), size, List.take_left]

theorem cut_plain (plain : slash ∉ path) : cut w path = (join w.cwd, path) := if_neg plain

/-- A string with a slash has a last one. -/
theorem exists_snoc (mark : slash ∈ path) :
    ∃ dir last, path = dir ++ slash :: last ∧ slash ∉ last := by
  induction path with
  | nil => exact absurd mark List.not_mem_nil
  | cons c path ih =>
      by_cases behind : slash ∈ path
      · obtain ⟨dir, last, rfl, plain⟩ := ih behind
        exact ⟨c :: dir, last, rfl, plain⟩
      · rcases List.mem_cons.mp mark with rfl | inside
        · exact ⟨[], path, rfl, behind⟩
        · exact absurd inside behind

/-- Only what is in front of the first slash is rewritten. -/
theorem expand_append (rest : Text) :
    expand w (dir ++ slash :: rest) = expand w dir ++ slash :: rest := by
  have head : (dir ++ slash :: rest).head? = some tilde ↔ dir.head? = some tilde := by
    cases dir with
    | nil => exact iff_of_false nofun nofun
    | cons c dir => rfl
  have name : (dir ++ slash :: rest).takeWhile (· ≠ slash) = dir.takeWhile (· ≠ slash) := by
    rw [List.takeWhile_append]
    split_ifs with all
    · rw [List.takeWhile_cons_of_neg (by simp), List.append_nil]
      exact ((List.takeWhile_prefix _).eq_of_length all).symm
    · rfl
  have end_ : (dir ++ slash :: rest).dropWhile (· ≠ slash) =
      dir.dropWhile (· ≠ slash) ++ slash :: rest := by
    have whole := List.takeWhile_append_dropWhile (p := fun c => decide (c ≠ slash))
      (l := dir ++ slash :: rest)
    have front := List.takeWhile_append_dropWhile (p := fun c => decide (c ≠ slash)) (l := dir)
    rw [name] at whole
    refine (List.append_right_inj (dir.takeWhile (· ≠ slash))).mp ?_
    rw [whole, ← List.append_assoc, front]
  rw [expand, expand]
  simp only [head]
  split_ifs
  · rw [doHome, doHome, name, end_]
    cases w.home (dir.takeWhile (· ≠ slash)) with
    | none => rfl
    | some home => simp
  · rfl

theorem head?_append_slash {front : Text} (some_ : front ≠ []) (rest : Text) :
    (front ++ slash :: rest).head? = front.head? := by
  obtain ⟨c, front, rfl⟩ := List.exists_cons_of_ne_nil some_
  rfl

/-- **What is behind a directory is found in it.** -/
theorem resolve_append (some_ : expand w dir ≠ []) (rest : Text) :
    resolve w (dir ++ slash :: rest) =
      reduceFrom kindOf (resolve w dir) (rest.splitOn slash) := by
  rw [resolve, resolve, expand_append, List.splitOn_append_cons_self, reduceFrom_append, base, base,
    head?_append_slash some_]

/-- With nothing in front of its slash a path starts at the root. -/
theorem resolve_root (none_ : expand w dir = []) (rest : Text) :
    resolve w (dir ++ slash :: rest) = reduce kindOf (rest.splitOn slash) := by
  have split_ : (slash :: rest).splitOn slash = [] :: rest.splitOn slash := by
    rw [List.splitOn_cons_eq_if_modifyHead, if_pos (by simp)]
  rw [resolve, expand_append, none_, List.nil_append, split_]
  rfl

/-- A directory in front of a path that `open` prepares is prepared, too. -/
theorem prepare_dir {rest : Text} (some_ : expand w dir ≠ [])
    (prepared : prepare w (dir ++ slash :: rest) ≠ none) : prepare w dir ≠ none := by
  rw [prepare, expand_append] at prepared
  rw [prepare]
  dsimp only at prepared ⊢
  rw [head?_append_slash some_] at prepared
  have size : (expand w dir ++ slash :: rest).length =
      (expand w dir).length + (slash :: rest).length := List.length_append
  split_ifs at prepared with absolute server fits fits
  · exact absurd rfl prepared
  · have single : ¬((expand w dir).drop 1).head? = some slash := by
      intro again
      obtain ⟨c, front, same⟩ := List.exists_cons_of_ne_nil some_
      rw [same] at again
      rw [same] at server
      cases front with
      | nil => exact nomatch again
      | cons d front => exact server again
    rw [if_pos absolute, if_neg single, if_pos (by omega)]
    exact nofun
  · exact absurd rfl prepared
  · have less : (join w.cwd ++ slash :: expand w dir).length < MAXPATH := by
      simp only [List.length_append, List.length_cons] at fits ⊢
      omega
    rw [if_neg absolute, if_pos less]
    exact nofun
  · exact absurd rfl prepared

/-! ## Directories -/

/-- A normal path is no longer than the path. -/
theorem length_normal (absolute : buf.head? = some slash) :
    (normal buf).length ≤ buf.length := by
  obtain ⟨t, rfl⟩ := List.head?_eq_some_iff.mp absolute
  have split_ : (slash :: t).splitOn slash = [] :: t.splitOn slash := by
    rw [List.splitOn_cons_eq_if_modifyHead, if_pos (by simp)]
  have some_ := List.splitOn_ne_nil slash t
  have whole : (t.splitOn slash).flatMap (slash :: ·) = slash :: t := by
    rw [flatMap_slash some_]
    exact congrArg _ (List.intercalate_splitOn slash)
  have sub : (components (slash :: t)).Sublist (t.splitOn slash) := by
    rw [components, split_]
    exact (reduce_sublist : (reduce kindOf (t.splitOn slash)).Sublist _)
  have short := (sub.flatMap (slash :: ·)).length_le
  rw [whole] at short
  rw [normal, join]
  split_ifs
  · exact Nat.le_add_left 1 t.length
  · exact short

theorem join_concat (cs : List Text) (c : Text) :
    join (cs ++ [c]) = cs.flatMap (slash :: ·) ++ slash :: c := by
  rw [join, if_neg (List.append_ne_nil_of_right_ne_nil _ (List.cons_ne_nil _ _)),
    List.flatMap_append, List.flatMap_singleton]

/-- There is room for the directory of a path that `open` prepares. -/
theorem dir_fits {parent : List Text} (whole : 0 ∉ path) (prepared : prepare w path ≠ none)
    (leads : resolve w path = parent ++ [last]) : (join parent).length + 1 < MAXPATH := by
  obtain ⟨buf, prepared⟩ := Option.ne_none_iff_exists'.mp prepared
  obtain ⟨absolute, same, -, fits⟩ := prepare_spec whole prepared
  have short := length_normal absolute
  rw [normal, same, leads, join_concat, List.length_append, List.length_cons] at short
  rw [join]
  split_ifs
  · decide
  · omega

theorem expand_nil : expand w [] = [] := rfl

theorem resolve_nil : resolve w [] = w.cwd := rfl

theorem prepare_nil (fits : (join w.cwd).length + 1 < MAXPATH) : prepare w [] ≠ none := by
  have relative : prepare w [] = some (join w.cwd ++ [slash]) :=
    if_pos (by rwa [List.length_append, expand_nil, List.length_singleton])
  rw [relative]
  exact nofun

theorem expand_join (cs : List Text) : expand w (join cs) = join cs := by
  rw [expand, join_absolute, if_neg (by decide)]

/-- A path of names leads to them. -/
theorem resolve_join {cs : List Text} (names : ∀ c ∈ cs, kindOf c = .keep ∧ slash ∉ c) :
    resolve w (join cs) = cs := by
  rw [resolve, expand_join, base, if_pos (join_absolute cs)]
  exact components_join names

/-- A path of names is opened as it is. -/
theorem prepare_join {cs : List Text} (names : ∀ c ∈ cs, kindOf c = .keep ∧ slash ∉ c)
    (fits : (join cs).length < MAXPATH) : prepare w (join cs) ≠ none := by
  have single : ¬((join cs).drop 1).head? = some slash := by
    rw [join]
    split_ifs
    · simp
    · cases cs with
      | nil => simp
      | cons c cs =>
          obtain ⟨keep, plain⟩ := names c List.mem_cons_self
          cases c with
          | nil => exact absurd keep (by decide)
          | cons d c =>
              intro again
              have same : d = slash := Option.some.inj again
              exact plain (same ▸ List.mem_cons_self)
  have prepared : prepare w (join cs) = some (join cs) := by
    rw [prepare, expand_join]
    exact (if_pos (join_absolute cs)).trans ((if_neg single).trans (if_pos fits))
  rw [prepared]
  exact Option.some_ne_none _

/-! ## When the two agree -/

variable (w) in
/-- A string that is cut right: without a slash it leads to the entry of that name; otherwise what
is behind the last slash is a name, and what is in front of it is not empty, which would be taken
for the current directory. -/
def CutRight (path : Text) : Prop :=
  if slash ∈ path then
    kindOf (cut w path).2 = .keep ∧ (expand w (cut w path).1 = [] → w.cwd = [])
  else resolve w path = w.cwd ++ [path]

/-- Without a home directory such a string is a name. -/
theorem cutRight_name (plain : slash ∉ path) (same : expand w path = path) :
    CutRight w path ↔ kindOf path = .keep := by
  have relative : ¬path.head? = some slash := by
    intro head
    obtain ⟨t, rfl⟩ := List.head?_eq_some_iff.mp head
    exact plain List.mem_cons_self
  rw [CutRight, if_neg plain, resolve, same, base, if_neg relative,
    List.splitOn_eq_singleton plain, reduceFrom_cons, reduceFrom_nil]
  constructor
  · intro leads
    cases kind : kindOf path with
    | keep => rfl
    | skip =>
        rw [push_skip kind] at leads
        exact absurd (congrArg List.length leads) (by simp)
    | up =>
        rw [push_up kind] at leads
        have := congrArg List.length leads
        rw [List.length_dropLast, List.length_append, List.length_singleton] at this
        omega
  · exact push_keep

/-- **When a string is cut right.** -/
theorem cut_named (whole : 0 ∉ path) : Named w path (cut w path) ↔
    prepare w path = none ∨ resolve w path = [] ∨ CutRight w path := by
  by_cases mark : slash ∈ path
  · obtain ⟨dir, last, rfl, plain⟩ := exists_snoc mark
    have whole' : 0 ∉ dir := fun zero => whole (List.mem_append_left _ zero)
    rw [cut_snoc plain, named_resolve whole whole', CutRight, if_pos mark, cut_snoc plain]
    by_cases none_ : prepare w (dir ++ slash :: last) = none
    · exact iff_of_true (.inl none_) (.inl none_)
    refine or_congr_right (or_congr_right ?_)
    by_cases empty : expand w dir = []
    · have here : resolve w dir = w.cwd := by
        rw [resolve, empty]
        rfl
      have leads : resolve w (dir ++ slash :: last) = push kindOf [] last := by
        rw [resolve_root empty, List.splitOn_eq_singleton plain]
        rfl
      dsimp only
      constructor
      · rintro ⟨-, same⟩
        have member : last ∈ resolve w (dir ++ slash :: last) := by
          rw [same]
          exact List.mem_append_right _ List.mem_cons_self
        have keep := (resolve_keep member).1
        rw [leads, push_keep keep, here] at same
        exact ⟨keep, fun _ => (List.append_cancel_right same).symm⟩
      · rintro ⟨keep, root⟩
        refine ⟨?_, ?_⟩
        · rw [prepare, empty, root empty]
          exact nofun
        · rw [leads, push_keep keep, here, root empty]
    · have leads : resolve w (dir ++ slash :: last) = push kindOf (resolve w dir) last := by
        rw [resolve_append empty, List.splitOn_eq_singleton plain]
        rfl
      dsimp only
      constructor
      · rintro ⟨-, same⟩
        have member : last ∈ resolve w (dir ++ slash :: last) := by
          rw [same]
          exact List.mem_append_right _ List.mem_cons_self
        exact ⟨(resolve_keep member).1, fun none' => absurd none' empty⟩
      · rintro ⟨keep, -⟩
        exact ⟨prepare_dir empty none_, leads.trans (push_keep keep)⟩
  · have names : ∀ c ∈ w.cwd, kindOf c = .keep ∧ slash ∉ c := fun c member => (w.names c member).1
    have prepared : prepare w (join w.cwd) ≠ none := prepare_join names w.fits
    have whole' : 0 ∉ join w.cwd := whole_join fun c member => (w.names c member).2
    rw [cut_plain mark, named_resolve whole whole', CutRight, if_neg mark]
    dsimp only
    rw [resolve_join names]
    exact or_congr_right (or_congr_right (and_iff_right prepared))

/-! ## `unlink` -/

/-- What is in front of the first slash. -/
def firstPart (path : Text) : Text := (path.splitOn slash).headD []

/-- The elements that `__dotdot` sees in a string. -/
def elements (path : Text) : List Text := (path.splitOn slash).tail

/-- Where the elements climb to, from what is in front of the first slash. -/
def above (w : Caller) (path : Text) : List Text :=
  let front := if expand w (firstPart path) = [] then [] else resolve w (firstPart path)
  front.take (front.length - climb kindOf 0 (elements path))

/-- `unlink` flattens the string without the current directory. Elements that are all names are cut
as `rename` cuts them. Otherwise something must be left, and it is taken to be in the current
directory when it is one name, and at the root when there are more: so the elements have to climb
to just there. -/
def UnlinkRight (w : Caller) (path : Text) : Prop :=
  if (elements path).all fun c => kindOf c = .keep then CutRight w path
  else reduce kindOf (elements path) ≠ [] ∧
    above w path = if (reduce kindOf (elements path)).length = 1 then w.cwd else []

/-- Where a path with elements leads. -/
theorem resolve_elements (some_ : elements path ≠ []) :
    resolve w path = above w path ++ reduce kindOf (elements path) := by
  obtain ⟨c, cs, split_⟩ := List.exists_cons_of_ne_nil (List.splitOn_ne_nil slash path)
  have elems : elements path = cs := by rw [elements, split_, List.tail_cons]
  have first : firstPart path = c := by rw [firstPart, split_, List.headD_cons]
  rw [elems] at some_
  have whole : path = c ++ slash :: between cs := by
    have joined : between (path.splitOn slash) = path := List.intercalate_splitOn slash
    obtain ⟨d, rest, rfl⟩ := List.exists_cons_of_ne_nil some_
    rwa [split_, between_cons, eq_comm] at joined
  have plain : ∀ d ∈ cs, slash ∉ d :=
    fun d member => slash_notMem_splitOn (split_ ▸ List.mem_cons_of_mem c member)
  have parts : (between cs).splitOn slash = cs := List.splitOn_intercalate slash plain some_
  rw [above, elems, first]
  by_cases empty : expand w c = []
  · rw [if_pos empty, whole, resolve_root empty, parts, List.take_nil, List.nil_append]
  · have climbed : reduceFrom kindOf (resolve w c ++ []) cs = _ := reduceFrom_eq _ _
    rw [List.append_nil] at climbed
    rw [if_neg empty, whole, resolve_append empty, parts, climbed]
    rfl

theorem whole_elements (whole : 0 ∉ path) : ∀ c ∈ elements path, 0 ∉ c := by
  intro c member zero
  have joined : between (path.splitOn slash) = path := List.intercalate_splitOn slash
  obtain ⟨d, cs, split_⟩ := List.exists_cons_of_ne_nil (List.splitOn_ne_nil slash path)
  rw [elements, split_, List.tail_cons] at member
  have some_ : cs ≠ [] := List.ne_nil_of_mem member
  rw [split_] at joined
  refine whole ?_
  obtain ⟨e, rest, rfl⟩ := List.exists_cons_of_ne_nil some_
  rw [← joined, between_cons, ← flatMap_slash (List.cons_ne_nil e rest)]
  exact List.mem_append_right _ (List.mem_flatMap.mpr ⟨c, member, List.mem_cons_of_mem _ zero⟩)

/-- **When `unlink` is right about a path.** -/
theorem unlink_named (whole : 0 ∉ path) : Named w path (unlinkNames w path) ↔
    prepare w path = none ∨ resolve w path = [] ∨ UnlinkRight w path := by
  rw [unlinkNames, dotted_eq whole, flat, UnlinkRight]
  change Named w path (cut w (if (elements path).all _ = true then path
    else join (reduce kindOf (elements path)))) ↔ _
  by_cases names : (elements path).all fun c => kindOf c = .keep
  · rw [if_pos names, if_pos names]
    exact cut_named whole
  rw [if_neg names, if_neg names]
  have some_ : elements path ≠ [] := by
    intro none_
    rw [none_] at names
    exact names rfl
  have left : ∀ c ∈ reduce kindOf (elements path), (kindOf c = .keep ∧ slash ∉ c) ∧ 0 ∉ c := by
    intro c member
    have among := reduce_sublist.subset member
    refine ⟨⟨keep_of_mem_reduce c member, ?_⟩, whole_elements whole c among⟩
    exact slash_notMem_splitOn (List.mem_of_mem_tail among)
  have leads : resolve w path = _ := resolve_elements some_
  rcases List.eq_nil_or_concat' (reduce kindOf (elements path)) with none_ | ⟨parent, last, parts⟩
  · have root : cut w ([] ++ [slash]) = ([], []) := cut_snoc List.not_mem_nil
    have rooted : join [] = [] ++ [slash] := rfl
    rw [none_, rooted, root, named_resolve whole List.not_mem_nil]
    refine or_congr_right (or_congr_right (iff_of_false ?_ fun right => right.1 rfl))
    rintro ⟨-, same⟩
    have member : [] ∈ resolve w path := by
      rw [same]
      exact List.mem_append_right _ List.mem_cons_self
    exact absurd (resolve_keep member).1 (by decide)
  rw [parts] at left leads ⊢
  obtain ⟨final, wholeLast⟩ := left last (List.mem_append_right _ List.mem_cons_self)
  have nonempty : parent ++ [last] ≠ [] :=
    List.append_ne_nil_of_right_ne_nil _ (List.cons_ne_nil _ _)
  have wholeDir : 0 ∉ parent.flatMap (slash :: ·) := by
    intro zero
    obtain ⟨c, member, inside⟩ := List.mem_flatMap.mp zero
    rcases List.mem_cons.mp inside with mark | inside
    · exact absurd mark (by decide)
    · exact (left c (List.mem_append_left _ member)).2 inside
  rw [join_concat, cut_snoc final.2, named_resolve whole wholeDir]
  by_cases unprepared : prepare w path = none
  · exact iff_of_true (.inl unprepared) (.inl unprepared)
  refine or_congr_right (or_congr_right ?_)
  dsimp only
  rw [leads, ← List.append_assoc]
  by_cases alone : parent = []
  · subst alone
    rw [List.append_nil, List.nil_append, List.length_singleton, if_pos rfl, List.flatMap_nil,
      resolve_nil]
    refine ⟨fun right => ⟨nonempty, List.append_cancel_right right.2⟩, fun right => ?_⟩
    have leads' : resolve w path = w.cwd ++ [last] := by rw [leads, right.2, List.nil_append]
    have fits := dir_fits whole unprepared leads'
    exact ⟨prepare_nil fits, by rw [right.2]⟩
  · have more : ¬(parent ++ [last]).length = 1 := by
      have := List.length_pos_iff.mpr alone
      rw [List.length_append, List.length_singleton]
      omega
    have joined : parent.flatMap (slash :: ·) = join parent := (if_neg alone).symm
    have namesDir : ∀ c ∈ parent, kindOf c = .keep ∧ slash ∉ c :=
      fun c member => (left c (List.mem_append_left _ member)).1
    rw [if_neg more, joined]
    constructor
    · rintro ⟨prepared, same⟩
      rw [resolve_join namesDir] at same
      have front := List.append_cancel_right same
      exact ⟨nonempty, List.append_cancel_right (front.trans (List.nil_append parent).symm)⟩
    · rintro ⟨-, root⟩
      rw [root, List.nil_append] at leads ⊢
      have fits := dir_fits whole unprepared leads
      exact ⟨prepare_join namesDir (by omega), by rw [resolve_join namesDir]⟩

/-! ## `unlink` and `rename` -/

/-- **`unlink` and `rename` act on the file that was named**, exactly when `open` looks up no path
or the root, or the string is one that they cut right. -/
theorem named_iff (w : Caller) {path : Text} (whole : 0 ∉ path) :
    (Named w path (unlinkNames w path) ↔
      prepare w path = none ∨ resolve w path = [] ∨ UnlinkRight w path) ∧
    (Named w path (getpathNames w path) ↔
      prepare w path = none ∨ resolve w path = [] ∨ CutRight w path) :=
  ⟨unlink_named whole, cut_named whole⟩

/-- A process in `/x`, without home directories. -/
def inX : Caller := ⟨fun _ => none, [[120]], nofun, by decide, by decide⟩

/-- Both are right about `a/b`. -/
theorem named_iff_below :
    Named inX [97, slash, 98] (unlinkNames inX [97, slash, 98]) ∧
      Named inX [97, slash, 98] (getpathNames inX [97, slash, 98]) := by
  have whole : 0 ∉ [97, slash, 98] := by decide
  have right : CutRight inX [97, slash, 98] := by
    rw [CutRight, if_pos (by decide)]
    exact ⟨by decide, fun none_ => absurd none_ (by decide)⟩
  have plain : UnlinkRight inX [97, slash, 98] := by
    rw [UnlinkRight, if_pos (by decide)]
    exact right
  exact ⟨(named_iff inX whole).1.mpr (.inr (.inr plain)),
    (named_iff inX whole).2.mpr (.inr (.inr right))⟩

/-- **Another file.** In `/x`, for `/b` both open `/x`, where `open` would open `/`; and for
`a/../b` `unlink` opens `/x` by chance, but for `a/../b/c` it opens `/b`. -/
theorem named_elsewhere :
    ¬Named inX [slash, 98] (unlinkNames inX [slash, 98]) ∧
      ¬Named inX [slash, 98] (getpathNames inX [slash, 98]) ∧
      ¬Named inX [97, slash, dot, dot, slash, 98, slash, 99]
        (unlinkNames inX [97, slash, dot, dot, slash, 98, slash, 99]) := by
  refine ⟨fun right => ?_, fun right => ?_, fun right => ?_⟩
  · exact absurd (right [slash, 98] (by decide) [] [98] (by decide)).1 (by decide)
  · exact absurd (right [slash, 98] (by decide) [] [98] (by decide)).1 (by decide)
  · exact absurd (right [slash, 120, slash, 98, slash, 99] (by decide) [[120], [98]] [99]
      (by decide)).1 (by decide)

end Vsta.Paths
