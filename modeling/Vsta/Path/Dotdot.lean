import Vsta.Basic
import Vsta.Library.Components
import Mathlib.Data.List.GetD

/-!
# Removing `..` from a path

`__dotdot` of `lib/open.c` rewrites an absolute path in its buffer. It ends each element with a null
byte where its slash was and keeps pointers to the elements in a vector; it drops pointers from the
vector; and it writes the elements that are left over the string, from its start.

What makes the last step work is that the place that is written to never gets to an element that is
still to be copied (`rebuild_spec`): the pointers that are left are in the order of the elements,
and each element has a slash in front of it.
-/

set_option autoImplicit false

namespace Vsta.Paths

open Components

/-- Text, without its terminator. -/
abbrev Text := List UChar

abbrev slash : UChar := 47
abbrev dot : UChar := 46

/-! ## Memory -/

/-- The memory from the start of a buffer, how much of it there is, and how far it was written. -/
structure Buf where
  bytes : ℕ → UChar
  size : ℕ
  top : ℕ

namespace Buf

/-- The string at a pointer. -/
def str (b : Buf) (p : ℕ) : Text :=
  ((List.range' p (b.size - p)).map b.bytes).takeWhile (· ≠ 0)

/-- `*p = c`. -/
def store (b : Buf) (p : ℕ) (c : UChar) : Buf :=
  { b with bytes := Function.update b.bytes p c, top := max b.top p }

/-- `bcopy`. The source is read before it is written. -/
def bcopy (b : Buf) (src dst len : ℕ) : Buf :=
  { b with
    bytes := fun i => if dst ≤ i ∧ i < dst + len then b.bytes (src + (i - dst)) else b.bytes i
    top := if len = 0 then b.top else max b.top (dst + len - 1) }

/-- `strchr`. -/
def strchr (b : Buf) (p : ℕ) (c : UChar) : Option ℕ :=
  if c ∈ b.str p then some (p + (b.str p).idxOf c) else none

end Buf

/-! ## `__dotdot` -/

/-- What `__dotdot` does with an element. -/
def kindOf (elem : Text) : Kind :=
  if elem = [] ∨ elem = [dot] then .skip else if elem = [dot, dot] then .up else .keep

/-- Map elements into the vector. `mem` says which vectors `realloc` has memory for. -/
def mapElems (mem : ℕ → Bool) : ℕ → Buf → ℕ → List ℕ → Buf × Option (List ℕ)
  | 0, b, _, elems => (b, some elems)
  | fuel + 1, b, p, elems =>
      match b.strchr p slash with
      | none => (b, some elems)
      | some q =>
          let b := b.store q 0
          let elems := elems ++ [q + 1]
          if mem elems.length then mapElems mem fuel b (q + 1) elems else (b, none)

/-- Find `..`s, and wipe them out. `x` is the element that is looked at. -/
def wipe (b : Buf) : ℕ → List ℕ → ℕ → Bool → List ℕ × Bool
  | 0, elems, _, hadDot => (elems, hadDot)
  | fuel + 1, elems, x, hadDot =>
      match elems[x]? with
      | none => (elems, hadDot)
      | some e =>
          if b.str e = [] ∨ b.str e = [dot] then wipe b fuel (elems.eraseIdx x) x true
          else if b.str e ≠ [dot, dot] then wipe b fuel elems (x + 1) hadDot
          else if x = 0 then wipe b fuel (elems.eraseIdx 0) 0 true
          else wipe b fuel ((elems.eraseIdx x).eraseIdx (x - 1)) (x - 1) true

/-- Put slashes back in place. -/
def putSlashes (b : Buf) (elems : List ℕ) : Buf := elems.foldl (fun b e => b.store (e - 1) slash) b

/-- Rebuild the path. -/
def rebuild : List ℕ → Buf → ℕ → Buf × ℕ
  | [], b, path => (b, path)
  | e :: rest, b, path =>
      let b := b.store path slash
      let len := (b.str e).length
      rebuild rest (b.bcopy e (path + 1) len) (path + 1 + len)

/-- What `__dotdot` does with the vector. -/
def flatten (b : Buf) (elems : List ℕ) : Buf :=
  let (elems, hadDot) := wipe b elems.length elems 0 false
  if !hadDot then putSlashes b elems
  else
    let (b, path) := if elems.length < 1 then (b.store 0 slash, 1) else rebuild elems b 0
    b.store path 0

/-- `__dotdot`, and whether it fails. The path is at 0. -/
def dotdot (mem : ℕ → Bool) (b : Buf) : Bool × Buf :=
  match mapElems mem b.size b 0 [] with
  | (b, none) => (true, b)
  | (b, some elems) => (false, flatten b elems)

/-! ## What it is for -/

/-- A path is joined. -/
def join (cs : List Text) : Text := if cs = [] then [slash] else cs.flatMap (slash :: ·)

/-- The components of a path that are left. -/
def components (path : Text) : List Text := reduce kindOf (path.splitOn slash)

/-- The path that `__dotdot` is to leave. -/
def normal (path : Text) : Text := join (components path)

/-- What `__dotdot` leaves of a string with any start: what is in front of the first slash is no
element, and stays only when no element is dropped. -/
def flat (path : Text) : Text :=
  let elems := (path.splitOn slash).tail
  if elems.all fun c => kindOf c = .keep then path else join (reduce kindOf elems)

/-- A string is at a pointer. -/
structure At (b : Buf) (p : ℕ) (text : Text) : Prop where
  chars : ∀ i, (inside : i < text.length) → b.bytes (p + i) = text[i]
  ends : b.bytes (p + text.length) = 0
  room : p + text.length < b.size
  whole : 0 ∉ text

variable {b b' : Buf} {p : ℕ} {text : Text}

/-! ## Strings in memory -/

/-- The string at a pointer is the one that is there. -/
theorem At.str_eq (here : At b p text) : b.str p = text := by
  have room := here.room
  obtain ⟨more, size⟩ := Nat.exists_eq_add_of_lt room
  have all : (List.range' p text.length).map b.bytes = text := by
    refine List.ext_getElem (by simp) fun i inside inside' => ?_
    rw [List.getElem_map, List.getElem_range', Nat.one_mul]
    exact here.chars i inside'
  have left : b.size - p = text.length + (more + 1) := by omega
  have none_ : ∀ c ∈ text, decide (c ≠ 0) = true := by
    intro c member
    rw [decide_eq_true_eq]
    rintro rfl
    exact here.whole member
  rw [Buf.str, left, List.range'_append_1.symm, List.map_append, all, List.range'_succ,
    List.map_cons, here.ends, List.takeWhile_append_of_pos none_,
    List.takeWhile_cons_of_neg (by simp), List.append_nil]

/-- Memory that agrees where the string is. -/
theorem At.congr (here : At b p text) (size : b'.size = b.size)
    (same : ∀ i, p ≤ i → i ≤ p + text.length → b'.bytes i = b.bytes i) : At b' p text where
  chars i inside := (same _ (by omega) (by omega)).trans (here.chars i inside)
  ends := (same _ (by omega) le_rfl).trans here.ends
  room := size ▸ here.room
  whole := here.whole

theorem Buf.store_of_ne {i q : ℕ} {c : UChar} (other : i ≠ q) :
    (b.store q c).bytes i = b.bytes i := Function.update_of_ne other _ _

theorem Buf.store_self {q : ℕ} {c : UChar} : (b.store q c).bytes q = c := Function.update_self ..

theorem Buf.bcopy_outside {src dst len i : ℕ} (out : i < dst ∨ dst + len ≤ i) :
    (b.bcopy src dst len).bytes i = b.bytes i := if_neg (by omega)

theorem Buf.bcopy_inside {src dst len i : ℕ} (inside : i < len) :
    (b.bcopy src dst len).bytes (dst + i) = b.bytes (src + i) := by
  rw [Buf.bcopy]
  simp only
  rw [if_pos (by omega), Nat.add_sub_cancel_left]

/-- Memory changes between two places alone, both included. -/
structure Within (b b' : Buf) (lo hi : ℕ) : Prop where
  size : b'.size = b.size
  same : ∀ i, i < lo ∨ hi < i → b'.bytes i = b.bytes i
  top : b'.top ≤ max b.top hi

theorem Within.refl (lo hi : ℕ) : Within b b lo hi := ⟨rfl, fun _ _ => rfl, le_max_left _ _⟩

theorem Within.store {lo hi q : ℕ} {c : UChar} (least : lo ≤ q) (most : q ≤ hi) :
    Within b (b.store q c) lo hi :=
  ⟨rfl, fun _ out => Buf.store_of_ne (by omega), max_le_max_left _ most⟩

theorem Within.bcopy {lo hi src dst len : ℕ} (least : lo ≤ dst) (most : dst + len ≤ hi + 1) :
    Within b (b.bcopy src dst len) lo hi := by
  refine ⟨rfl, fun i out => Buf.bcopy_outside (by omega), ?_⟩
  simp only [Buf.bcopy]
  split_ifs
  · exact le_max_left _ _
  · exact max_le_max_left _ (by omega)

theorem Within.trans {b'' : Buf} {lo hi : ℕ} (one : Within b b' lo hi)
    (two : Within b' b'' lo hi) : Within b b'' lo hi where
  size := two.size.trans one.size
  same i out := (two.same i out).trans (one.same i out)
  top := two.top.trans (max_le one.top (le_max_right _ _))

theorem Within.mono {lo hi lo' hi' : ℕ} (within : Within b b' lo hi) (least : lo' ≤ lo)
    (most : hi ≤ hi') : Within b b' lo' hi' where
  size := within.size
  same i out := within.same i (by omega)
  top := within.top.trans (max_le_max_left _ most)

theorem At.keep {lo hi : ℕ} (here : At b p text) (within : Within b b' lo hi)
    (apart : p + text.length < lo ∨ hi < p) : At b' p text :=
  here.congr within.size fun i _ _ => within.same i (by omega)

/-! ## The vector -/

/-- Where the elements of a path start. -/
def starts : ℕ → List Text → List ℕ
  | _, [] => []
  | p, c :: cs => p :: starts (p + c.length + 1) cs

/-- The elements of a path, each with its terminator. -/
def Laid (b : Buf) : ℕ → List Text → Prop
  | _, [] => True
  | p, c :: cs => At b p c ∧ Laid b (p + c.length + 1) cs

/-- The text of elements with slashes between them. -/
abbrev between (cs : List Text) : Text := [slash].intercalate cs

theorem between_cons {c d : Text} {cs : List Text} :
    between (c :: d :: cs) = c ++ slash :: between (d :: cs) := by
  simp [between, List.intercalate_cons_cons]

theorem Laid.keep {lo hi : ℕ} {cs : List Text} (laid : Laid b p cs) (within : Within b b' lo hi)
    (apart : hi < p) : Laid b' p cs := by
  induction cs generalizing p with
  | nil => trivial
  | cons c cs ih => exact ⟨laid.1.keep within (.inr apart), ih laid.2 (by omega)⟩

/-- A string is cut at its first slash. -/
theorem At.cut {c rest : Text} (here : At b p (c ++ slash :: rest)) :
    At (b.store (p + c.length) 0) p c ∧ At (b.store (p + c.length) 0) (p + c.length + 1) rest := by
  have room := here.room
  have size : (c ++ slash :: rest).length = c.length + 1 + rest.length := by
    rw [List.length_append, List.length_cons]
    omega
  refine ⟨⟨fun i inside => ?_, Buf.store_self, ?_, ?_⟩, ⟨fun i inside => ?_, ?_, ?_, ?_⟩⟩
  · rw [Buf.store_of_ne (by omega), here.chars i (by omega), List.getElem_append_left inside]
  · rw [size] at room
    exact lt_of_le_of_lt (by omega) room
  · exact fun zero => here.whole (List.mem_append_left _ zero)
  · have place : p + c.length + 1 + i = p + (c.length + 1 + i) := by omega
    rw [place, Buf.store_of_ne (by omega), here.chars _ (by omega),
      List.getElem_append_right (by omega)]
    simp only [show c.length + 1 + i - c.length = i + 1 by omega, List.getElem_cons_succ]
  · have place : p + c.length + 1 + rest.length = p + (c ++ slash :: rest).length := by omega
    rw [Buf.store_of_ne (by omega), place, here.ends]
  · rw [size] at room
    exact lt_of_le_of_lt (by omega) room
  · exact fun zero => here.whole (List.mem_append_right _ (List.mem_cons_of_mem _ zero))

/-- What the first loop leaves: the elements with their pointers, or a vector that there was no
memory for. -/
def Mapped (mem : ℕ → Bool) (b : Buf) (p : ℕ) (elems : List ℕ) (cs : List Text)
    (r : Buf × Option (List ℕ)) : Prop :=
  Within b r.1 p (p + (between cs).length) ∧
    match r.2 with
    | some all => all = elems ++ (starts p cs).tail ∧ Laid r.1 p cs ∧
        ∀ k, elems.length < k → k < elems.length + cs.length → mem k = true
    | none => ∃ k, elems.length < k ∧ k < elems.length + cs.length ∧ mem k = false

/-- **The elements are mapped.** -/
theorem mapElems_mapped (mem : ℕ → Bool) {cs : List Text} {fuel : ℕ} {elems : List ℕ}
    (some_ : cs ≠ []) (plain : ∀ c ∈ cs, slash ∉ c) (enough : cs.length ≤ fuel)
    (here : At b p (between cs)) : Mapped mem b p elems cs (mapElems mem fuel b p elems) := by
  induction fuel generalizing b p cs elems with
  | zero => exact absurd (List.length_eq_zero_iff.mp (Nat.le_zero.mp enough)) some_
  | succ fuel ih =>
      obtain ⟨c, rest, rfl⟩ := List.exists_cons_of_ne_nil some_
      have first : slash ∉ c := plain c List.mem_cons_self
      cases rest with
      | nil =>
          have alone : between [c] = c := List.intercalate_singleton
          rw [alone] at here
          have none_ : b.strchr p slash = none := by rw [Buf.strchr, here.str_eq, if_neg first]
          rw [mapElems, none_]
          refine ⟨.refl _ _, (List.append_nil elems).symm, ⟨here, trivial⟩, fun k more less => ?_⟩
          rw [List.length_singleton] at less
          omega
      | cons d rest =>
          have size : (between (c :: d :: rest)).length =
              c.length + 1 + (between (d :: rest)).length := by
            rw [between_cons, List.length_append, List.length_cons]
            omega
          rw [between_cons] at here
          have found : b.strchr p slash = some (p + c.length) := by
            rw [Buf.strchr, here.str_eq, if_pos (by simp), List.idxOf_append_of_notMem first,
              List.idxOf_cons_self, Nat.add_zero]
          obtain ⟨cut, behind⟩ := here.cut
          have step : Within b (b.store (p + c.length) 0) p
              (p + (between (c :: d :: rest)).length) := .store (by omega) (by omega)
          rw [mapElems, found]
          dsimp only
          rw [List.length_append, List.length_singleton]
          by_cases memory : mem (elems.length + 1) = true
          · rw [if_pos memory]
            have mapped : Mapped mem _ _ (elems ++ [p + c.length + 1]) (d :: rest) _ :=
              ih (List.cons_ne_nil d rest)
                (fun c' member => plain c' (List.mem_cons_of_mem _ member))
                (Nat.le_of_succ_le_succ enough) behind
            obtain ⟨within, result⟩ := mapped
            refine ⟨step.trans (within.mono (by omega) (by omega)), ?_⟩
            revert result
            rw [List.length_append, List.length_singleton]
            split
            · rintro ⟨all, laid, memory'⟩
              refine ⟨?_, ⟨cut.keep within (.inl (by omega)), laid⟩, fun k more less => ?_⟩
              · rw [all, List.append_assoc]
                rfl
              · by_cases next : k = elems.length + 1
                · exact next ▸ memory
                · rw [List.length_cons] at less
                  exact memory' k (by omega) (by omega)
            · rintro ⟨k, more, less, none_⟩
              refine ⟨k, by omega, ?_, none_⟩
              rw [List.length_cons]
              omega
          · rw [if_neg memory]
            refine ⟨step, elems.length + 1, by omega, ?_, Bool.not_eq_true _ ▸ memory⟩
            simp only [List.length_cons]
            omega

/-- What `__dotdot` does with the element at a pointer. -/
def kindAt (b : Buf) (e : ℕ) : Kind := kindOf (b.str e)

/-- **The vector is compacted.** Of the elements behind `x` those that are left follow those in
front of it, and it is known whether there were others. -/
theorem wipe_eq (b : Buf) {fuel : ℕ} {done rest : List ℕ} {hadDot : Bool}
    (enough : rest.length ≤ fuel) : wipe b fuel (done ++ rest) done.length hadDot =
      (reduceFrom (kindAt b) done rest, hadDot || rest.any fun e => kindAt b e ≠ .keep) := by
  induction fuel generalizing done rest hadDot with
  | zero =>
      obtain rfl := List.length_eq_zero_iff.mp (Nat.le_zero.mp enough)
      rw [wipe, List.append_nil, List.any_nil, Bool.or_false, reduceFrom_nil]
  | succ fuel ih =>
      cases rest with
      | nil =>
          have none_ : (done ++ [])[done.length]? = none := by simp
          rw [wipe, none_]
          simp
      | cons e rest =>
          have enough' : rest.length ≤ fuel := Nat.le_of_succ_le_succ enough
          have there : (done ++ e :: rest)[done.length]? = some e := by simp
          have erased : (done ++ e :: rest).eraseIdx done.length = done ++ rest := by
            rw [List.eraseIdx_append_of_length_le le_rfl, Nat.sub_self, List.eraseIdx_cons_zero]
          rw [wipe, there, reduceFrom_cons, List.any_cons]
          dsimp only
          by_cases skip : b.str e = [] ∨ b.str e = [dot]
          · have kind : kindAt b e = .skip := if_pos skip
            rw [if_pos skip, erased, ih enough', push_skip kind, kind]
            simp
          rw [if_neg skip]
          by_cases up : b.str e ≠ [dot, dot]
          · have kind : kindAt b e = .keep := by rw [kindAt, kindOf, if_neg skip, if_neg up]
            have grown : done ++ e :: rest = (done ++ [e]) ++ rest := by simp
            have size : done.length + 1 = (done ++ [e]).length := by simp
            rw [if_pos up, grown, size, ih enough', push_keep kind, kind]
            simp
          · have kind : kindAt b e = .up := by
              rw [kindAt, kindOf, if_neg skip, if_pos (not_not.mp up)]
            rw [if_neg up, push_up kind, kind]
            rcases List.eq_nil_or_concat' done with rfl | ⟨before, last, rfl⟩
            · have root : wipe b fuel (([] : List ℕ) ++ rest) ([] : List ℕ).length true = _ :=
                ih enough'
              rw [List.nil_append, List.length_nil] at root
              rw [List.length_nil, if_pos rfl, List.nil_append, List.eraseIdx_cons_zero, root]
              simp
            · have size : (before ++ [last]).length - 1 = before.length := by simp
              have back : ((before ++ [last]) ++ rest).eraseIdx before.length = before ++ rest := by
                rw [List.append_assoc, List.eraseIdx_append_of_length_le le_rfl, Nat.sub_self,
                  List.singleton_append, List.eraseIdx_cons_zero]
              rw [if_neg (by simp), erased, size, back, ih enough', List.dropLast_concat]
              simp

/-- The whole vector is looked at. -/
theorem wipe_all (b : Buf) (elems : List ℕ) : wipe b elems.length elems 0 false =
    (reduce (kindAt b) elems, elems.any fun e => kindAt b e ≠ .keep) := by
  have all : wipe b elems.length (([] : List ℕ) ++ elems) ([] : List ℕ).length false = _ :=
    wipe_eq b le_rfl
  rwa [Bool.false_or] at all

theorem map_reduce_str (b : Buf) (elems : List ℕ) :
    (reduce (kindAt b) elems).map b.str = reduce kindOf (elems.map b.str) :=
  map_reduceFrom kindOf b.str

/-! ## The string -/

/-- **Slashes are put back.** -/
theorem putSlashes_spec {cs : List Text} (some_ : cs ≠ []) (laid : Laid b p cs) :
    At (putSlashes b (starts p cs).tail) p (between cs) ∧
      Within b (putSlashes b (starts p cs).tail) p (p + (between cs).length) := by
  induction cs generalizing b p with
  | nil => exact absurd rfl some_
  | cons c cs ih =>
      cases cs with
      | nil =>
          have alone : between [c] = c := List.intercalate_singleton
          rw [alone]
          exact ⟨laid.1, .refl _ _⟩
      | cons d cs =>
          have size : (between (c :: d :: cs)).length =
              c.length + 1 + (between (d :: cs)).length := by
            rw [between_cons, List.length_append, List.length_cons]
            omega
          have step : Within b (b.store (p + c.length) slash) (p + c.length) (p + c.length) :=
            .store le_rfl le_rfl
          obtain ⟨here, within⟩ := ih (List.cons_ne_nil d cs) (laid.2.keep step (by omega))
          have same : putSlashes b (starts p (c :: d :: cs)).tail =
              putSlashes (b.store (p + c.length) slash)
                (starts (p + c.length + 1) (d :: cs)).tail := rfl
          rw [same]
          generalize putSlashes (b.store (p + c.length) slash)
            (starts (p + c.length + 1) (d :: cs)).tail = b' at here within
          refine ⟨?_, (step.mono (by omega) (by omega)).trans (within.mono (by omega) (by omega))⟩
          rw [between_cons]
          refine ⟨fun i inside => ?_, ?_, ?_, ?_⟩
          · rw [List.length_append, List.length_cons] at inside
            by_cases first : i < c.length
            · rw [within.same _ (.inl (by omega)), step.same _ (.inl (by omega)),
                laid.1.chars i first, List.getElem_append_left first]
            · rw [List.getElem_append_right (by omega)]
              by_cases mark : i = c.length
              · subst mark
                rw [within.same _ (.inl (by omega)), Buf.store_self]
                simp
              · have place : p + i = p + c.length + 1 + (i - c.length - 1) := by omega
                rw [place, here.chars _ (by omega)]
                rw [List.getElem_cons, dif_neg (by omega)]
          · have place : p + (c ++ slash :: between (d :: cs)).length =
                p + c.length + 1 + (between (d :: cs)).length := by
              rw [← between_cons, size]
              omega
            rw [place, here.ends]
          · have room := here.room
            rw [within.size, step.size] at room
            rw [within.size, step.size, ← between_cons, size]
            omega
          · intro zero
            rcases List.mem_append.mp zero with first | behind
            · exact laid.1.whole first
            · rcases List.mem_cons.mp behind with mark | behind
              · exact absurd mark (by decide)
              · exact here.whole behind

/-- **The path is rebuilt over itself.** The place that is written to is in front of each element
that is still to be copied, and gets no further than its end. -/
theorem rebuild_spec (f : ℕ → Text) {es : List ℕ} {path limit : ℕ}
    (strings : ∀ e ∈ es, At b e (f e)) (ahead : ∀ e ∈ es, path < e)
    (order : es.Pairwise fun e e' => e + (f e).length < e')
    (inside : ∀ e ∈ es, e + (f e).length ≤ limit) (start : path ≤ limit) :
    (rebuild es b path).2 = path + (es.flatMap fun e => slash :: f e).length ∧
      (rebuild es b path).2 ≤ limit ∧ Within b (rebuild es b path).1 path limit ∧
      ∀ i, (within : i < (es.flatMap fun e => slash :: f e).length) →
        (rebuild es b path).1.bytes (path + i) = (es.flatMap fun e => slash :: f e)[i] := by
  induction es generalizing b path with
  | nil => exact ⟨rfl, start, .refl _ _, fun i none_ => absurd none_ (Nat.not_lt_zero i)⟩
  | cons e es ih =>
      obtain ⟨here, others⟩ := List.forall_mem_cons.mp strings
      obtain ⟨front, _⟩ := List.forall_mem_cons.mp ahead
      obtain ⟨after, order'⟩ := List.pairwise_cons.mp order
      obtain ⟨most, inside'⟩ := List.forall_mem_cons.mp inside
      have mark : Within b (b.store path slash) path path := .store le_rfl le_rfl
      have len : ((b.store path slash).str e).length = (f e).length := by
        rw [(here.keep mark (.inr front)).str_eq]
      have copy : Within (b.store path slash)
          ((b.store path slash).bcopy e (path + 1) (f e).length) path (path + (f e).length) :=
        .bcopy (by omega) (by omega)
      have step := (mark.mono le_rfl (Nat.le_add_right _ (f e).length)).trans copy
      have ahead' : ∀ e' ∈ es, path + 1 + (f e).length < e' := by
        intro e' member
        have := after e' member
        omega
      have strings' : ∀ e' ∈ es,
          At ((b.store path slash).bcopy e (path + 1) (f e).length) e' (f e') := by
        intro e' member
        have := ahead' e' member
        exact (others e' member).keep step (.inr (by omega))
      obtain ⟨place, few, within, text⟩ := ih strings' ahead' order' inside' (by omega)
      rw [rebuild, len]
      generalize rebuild es ((b.store path slash).bcopy e (path + 1) (f e).length)
        (path + 1 + (f e).length) = r at place few within text
      refine ⟨?_, few, (step.mono le_rfl (by omega)).trans (within.mono (by omega) le_rfl),
        fun i inside => ?_⟩
      · rw [place, List.flatMap_cons, List.length_append, List.length_cons]
        omega
      · simp only [List.flatMap_cons, List.cons_append] at inside ⊢
        rw [List.length_cons, List.length_append] at inside
        cases i with
        | zero =>
            rw [List.getElem_cons_zero, within.same _ (.inl (by omega)),
              Buf.bcopy_outside (.inl (by omega)), Nat.add_zero, Buf.store_self]
        | succ i =>
            rw [List.getElem_cons_succ]
            by_cases first : i < (f e).length
            · have place' : path + (i + 1) = path + 1 + i := by omega
              rw [List.getElem_append_left first, within.same _ (.inl (by omega)), place',
                Buf.bcopy_inside first, mark.same _ (.inr (by omega)), here.chars i first]
            · have place' : path + (i + 1) = path + 1 + (f e).length + (i - (f e).length) := by
                omega
              rw [List.getElem_append_right (by omega), place', text _ (by omega)]

/-! ## `__dotdot` -/

/-- No component has a slash. -/
theorem slash_notMem_splitOn {path c : Text} (member : c ∈ path.splitOn slash) : slash ∉ c := by
  induction path generalizing c with
  | nil =>
      rw [List.splitOn_nil, List.mem_singleton] at member
      exact member ▸ List.not_mem_nil
  | cons first path ih =>
      rw [List.splitOn_cons_eq_if_modifyHead] at member
      split at member
      · rcases List.mem_cons.mp member with rfl | behind
        · exact List.not_mem_nil
        · exact ih behind
      · next other =>
          obtain ⟨d, ds, split_⟩ := List.exists_cons_of_ne_nil (List.splitOn_ne_nil slash path)
          rw [split_, List.modifyHead_cons] at member
          rw [split_] at ih
          rcases List.mem_cons.mp member with rfl | behind
          · intro mark
            rcases List.mem_cons.mp mark with same | inside
            · exact other (by simp [← same])
            · exact ih List.mem_cons_self inside
          · exact ih (List.mem_cons_of_mem _ behind)

theorem length_le_between {cs : List Text} : cs.length ≤ (between cs).length + 1 := by
  induction cs with
  | nil => exact Nat.zero_le _
  | cons c cs ih =>
      cases cs with
      | nil => simp
      | cons d cs =>
          rw [between_cons]
          simp only [List.length_append, List.length_cons] at ih ⊢
          omega

theorem flatMap_slash {cs : List Text} (some_ : cs ≠ []) :
    cs.flatMap (slash :: ·) = slash :: between cs := by
  induction cs with
  | nil => exact absurd rfl some_
  | cons c cs ih =>
      cases cs with
      | nil => simp
      | cons d cs =>
          rw [List.flatMap_cons, ih (List.cons_ne_nil d cs), between_cons, List.cons_append]

/-- The pointers point to the elements, one behind the other. -/
theorem starts_spec {cs : List Text} (laid : Laid b p cs) :
    (starts p cs).map b.str = cs ∧
      (starts p cs).Pairwise (fun e e' => e + (b.str e).length < e') ∧
      ∀ e ∈ starts p cs, p ≤ e ∧ e + (b.str e).length ≤ p + (between cs).length ∧
        At b e (b.str e) := by
  induction cs generalizing p with
  | nil => exact ⟨rfl, .nil, nofun⟩
  | cons c cs ih =>
      obtain ⟨here, behind⟩ := laid
      obtain ⟨texts, order, each⟩ := ih behind
      have first := here.str_eq
      have size : (between cs).length + c.length + 1 ≤ (between (c :: cs)).length ∨ cs = [] := by
        cases cs with
        | nil => exact .inr rfl
        | cons d cs =>
            rw [between_cons, List.length_append, List.length_cons]
            exact .inl (by omega)
      refine ⟨?_, List.pairwise_cons.mpr ⟨fun e member => ?_, order⟩, fun e member => ?_⟩
      · rw [starts, List.map_cons, texts, first]
      · have := (each e member).1
        rw [first]
        omega
      · rcases List.mem_cons.mp member with rfl | later
        · refine ⟨le_rfl, ?_, by rwa [first]⟩
          rw [first]
          cases cs with
          | nil => simp
          | cons d cs =>
              rw [between_cons, List.length_append]
              omega
        · obtain ⟨least, most, there⟩ := each e later
          refine ⟨by omega, ?_, there⟩
          rcases size with more | rfl
          · omega
          · exact absurd later List.not_mem_nil

/-- A string that was written gets its terminator. -/
theorem At.close (chars : ∀ i, (inside : i < text.length) → b.bytes i = text[i])
    (room : text.length < b.size) (whole : 0 ∉ text) : At (b.store text.length 0) 0 text where
  chars i inside := by
    rw [Nat.zero_add, Buf.store_of_ne (by omega)]
    exact chars i inside
  ends := by
    rw [Nat.zero_add]
    exact Buf.store_self
  room := by
    rw [Nat.zero_add]
    exact room
  whole := whole

/-- **The elements that are left are written over the path.** -/
theorem rebuild_close {es : List ℕ} {limit : ℕ} (some_ : es ≠ [])
    (strings : ∀ e ∈ es, 0 < e ∧ e + (b.str e).length ≤ limit ∧ At b e (b.str e))
    (order : es.Pairwise fun e e' => e + (b.str e).length < e') (room : limit < b.size) :
    Within b ((rebuild es b 0).1.store (rebuild es b 0).2 0) 0 limit ∧
      At ((rebuild es b 0).1.store (rebuild es b 0).2 0) 0 (join (es.map b.str)) := by
  obtain ⟨place, few, within, text⟩ := rebuild_spec b.str (fun e member => (strings e member).2.2)
    (fun e member => (strings e member).1) order (fun e member => (strings e member).2.1)
    (Nat.zero_le limit)
  refine ⟨within.trans (.store (Nat.zero_le _) few), ?_⟩
  have joined : join (es.map b.str) = es.flatMap fun e => slash :: b.str e := by
    rw [join, if_neg (by simpa using some_), List.flatMap_map]
  rw [Nat.zero_add] at place
  rw [joined, place]
  rw [place] at few
  refine .close (fun i inside => ?_) (by rw [within.size]; omega) ?_
  · have char := text i inside
    rwa [Nat.zero_add] at char
  · intro zero
    obtain ⟨e, member, inside⟩ := List.mem_flatMap.mp zero
    rcases List.mem_cons.mp inside with mark | inside
    · exact absurd mark (by decide)
    · exact (strings e member).2.2.whole inside

/-- The string when no element is left. -/
theorem close_root {limit : ℕ} (some_ : 0 < limit) (room : limit < b.size) :
    Within b ((b.store 0 slash).store 1 0) 0 limit ∧
      At ((b.store 0 slash).store 1 0) 0 [slash] := by
  refine ⟨(Within.store le_rfl (Nat.zero_le _)).trans (.store (Nat.zero_le _) some_), ?_⟩
  have closed : At ((b.store 0 slash).store [slash].length 0) 0 [slash] := by
    refine .close (fun i inside => ?_) (Nat.lt_of_le_of_lt some_ room) (by decide)
    obtain rfl : i = 0 := Nat.lt_one_iff.mp inside
    exact Buf.store_self
  exact closed

/-- **The elements of a path are flattened.** -/
theorem flatten_spec {c : Text} {cs : List Text} (some_ : cs ≠ []) (laid : Laid b 0 (c :: cs))
    (room : (between (c :: cs)).length < b.size) :
    Within b (flatten b (starts 0 (c :: cs)).tail) 0 (between (c :: cs)).length ∧
      At (flatten b (starts 0 (c :: cs)).tail) 0
        (if cs.all fun d => kindOf d = .keep then between (c :: cs)
          else join (reduce kindOf cs)) := by
  have behind := laid.2
  rw [Nat.zero_add] at behind
  obtain ⟨texts, order, each⟩ := starts_spec behind
  have elems : (starts 0 (c :: cs)).tail = starts (c.length + 1) cs := by
    rw [starts, Nat.zero_add, List.tail_cons]
  have size : (between (c :: cs)).length = c.length + 1 + (between cs).length := by
    obtain ⟨d, rest, rfl⟩ := List.exists_cons_of_ne_nil some_
    rw [between_cons, List.length_append, List.length_cons]
    omega
  have left := map_reduce_str b (starts (c.length + 1) cs)
  rw [texts] at left
  by_cases all : (cs.all fun d => kindOf d = .keep) = true
  · have kept : ∀ e ∈ starts (c.length + 1) cs, kindAt b e = .keep := by
      intro e member
      have text : b.str e ∈ cs := texts ▸ List.mem_map_of_mem member
      exact of_decide_eq_true (List.all_eq_true.mp all _ text)
    have none_ : ((starts (c.length + 1) cs).any fun e => kindAt b e ≠ .keep) = false := by
      simpa using kept
    obtain ⟨here, within⟩ := putSlashes_spec (List.cons_ne_nil c cs) laid
    rw [elems, Nat.zero_add] at within
    rw [elems] at here
    rw [if_pos all, elems, flatten, wipe_all, none_, reduce_of_keep kept]
    exact ⟨within, here⟩
  · have some' : ((starts (c.length + 1) cs).any fun e => kindAt b e ≠ .keep) = true := by
      simp only [List.all_eq_true, decide_eq_true_eq, not_forall] at all
      obtain ⟨d, member, other⟩ := all
      rw [← texts] at member
      obtain ⟨e, there, rfl⟩ := List.mem_map.mp member
      exact List.any_eq_true.mpr ⟨e, there, decide_eq_true other⟩
    rw [if_neg all, elems, flatten, wipe_all, some']
    dsimp only
    rw [if_neg (by decide)]
    by_cases none_ : (reduce (kindAt b) (starts (c.length + 1) cs)).length < 1
    · have empty := List.length_eq_zero_iff.mp (Nat.lt_one_iff.mp none_)
      rw [empty, List.map_nil] at left
      rw [if_pos none_, ← left]
      exact close_root (by omega) room
    · have sub : (reduce (kindAt b) (starts (c.length + 1) cs)).Sublist
          (starts (c.length + 1) cs) := reduce_sublist
      rw [if_neg none_, ← left]
      refine rebuild_close (fun empty => none_ (by rw [empty]; exact Nat.zero_lt_one)) (fun e member => ?_)
        (order.sublist sub) room
      obtain ⟨least, most, there⟩ := each e (sub.subset member)
      exact ⟨by omega, by omega, there⟩

/-- **What `__dotdot` does.** It writes no further than the terminator, it fails when there is no
memory for a vector, and otherwise it leaves the flattened string. -/
theorem dotdot_spec (mem : ℕ → Bool) {path : Text} (here : At b 0 path) :
    Within b (dotdot mem b).2 0 path.length ∧
      ((dotdot mem b).1 = true ↔
        ∃ k, 0 < k ∧ k < (path.splitOn slash).length ∧ mem k = false) ∧
      ((dotdot mem b).1 = false → At (dotdot mem b).2 0 (flat path)) := by
  obtain ⟨c, cs, split_⟩ := List.exists_cons_of_ne_nil (List.splitOn_ne_nil slash path)
  have whole : between (path.splitOn slash) = path := List.intercalate_splitOn slash
  have plain : ∀ d ∈ c :: cs, slash ∉ d := fun d member => slash_notMem_splitOn (split_ ▸ member)
  rw [flat, split_, List.tail_cons]
  rw [split_] at whole
  have room := here.room
  rw [Nat.zero_add] at room
  have few : (c :: cs).length ≤ b.size := by
    refine length_le_between.trans ?_
    rwa [whole]
  have mapped : Mapped mem b 0 [] _ (mapElems mem b.size b 0 []) :=
    mapElems_mapped mem (List.cons_ne_nil c cs) plain few (by rwa [whole])
  rw [dotdot]
  generalize mapElems mem b.size b 0 [] = r at mapped
  obtain ⟨b', vector⟩ := r
  obtain ⟨within, result⟩ := mapped
  rw [whole, Nat.zero_add] at within
  cases vector with
  | none =>
      obtain ⟨k, least, most, none_⟩ := result
      rw [List.length_nil, Nat.zero_add] at most
      exact ⟨within, iff_of_true rfl ⟨k, least, most, none_⟩, nofun⟩
  | some elems =>
      obtain ⟨rfl, laid, memory⟩ := result
      have enough : ¬∃ k, 0 < k ∧ k < (c :: cs).length ∧ mem k = false := by
        rintro ⟨k, least, most, none_⟩
        rw [memory k least (by rwa [List.length_nil, Nat.zero_add])] at none_
        exact absurd none_ (by decide)
      rw [List.nil_append]
      by_cases some_ : cs = []
      · subst some_
        have alone : between [c] = c := List.intercalate_singleton
        rw [alone] at whole
        subst whole
        exact ⟨within, iff_of_false Bool.false_ne_true enough, fun _ => laid.1⟩
      · obtain ⟨within', flat_⟩ := flatten_spec some_ laid (by rwa [whole, within.size])
        rw [whole] at within' flat_
        exact ⟨within.trans within', iff_of_false Bool.false_ne_true enough, fun _ => flat_⟩

/-! ## The normal path -/

/-- A component that is left is a name. -/
theorem components_keep {path c : Text} (member : c ∈ components path) :
    kindOf c = .keep ∧ slash ∉ c :=
  ⟨keep_of_mem_reduce c member, slash_notMem_splitOn (reduce_sublist.subset member)⟩

/-- Names are the components of their path. -/
theorem components_join {cs : List Text} (names : ∀ c ∈ cs, kindOf c = .keep ∧ slash ∉ c) :
    components (join cs) = cs := by
  by_cases none_ : cs = []
  · subst none_
    decide
  · obtain ⟨c, rest, rfl⟩ := List.exists_cons_of_ne_nil none_
    have plain : ∀ d ∈ [] :: c :: rest, slash ∉ d :=
      List.forall_mem_cons.mpr ⟨List.not_mem_nil, fun d member => (names d member).2⟩
    have joined : join (c :: rest) = between ([] :: c :: rest) := by
      rw [join, if_neg none_, flatMap_slash none_, between_cons, List.nil_append]
    rw [joined, components, between, List.splitOn_intercalate slash plain (List.cons_ne_nil _ _)]
    exact reduce_of_keep fun d member => (names d member).1

/-- **Normalizing twice is normalizing once.** -/
theorem normal_normal (path : Text) : normal (normal path) = normal path := by
  rw [normal, normal, components_join fun _ => components_keep]

theorem normal_absolute (path : Text) : (normal path).head? = some slash := by
  rw [normal, join]
  split_ifs with none_
  · rfl
  · rw [flatMap_slash none_]
    rfl

/-- In an absolute path every component is an element. -/
theorem flat_absolute {path : Text} (absolute : path.head? = some slash) :
    flat path = normal path := by
  obtain ⟨t, rfl⟩ := List.head?_eq_some_iff.mp absolute
  have split_ : (slash :: t).splitOn slash = [] :: t.splitOn slash := by
    rw [List.splitOn_cons_eq_if_modifyHead, if_pos (by simp)]
  have whole : between ([] :: t.splitOn slash) = slash :: t :=
    split_ ▸ List.intercalate_splitOn slash
  have some_ := List.splitOn_ne_nil slash t
  rw [flat, normal, components, split_, List.tail_cons]
  have skipped : reduce kindOf ([] :: t.splitOn slash) = reduce kindOf (t.splitOn slash) := rfl
  rw [skipped]
  split_ifs with all
  · have kept : ∀ c ∈ t.splitOn slash, kindOf c = .keep := by simpa using all
    obtain ⟨c, cs, parts⟩ := List.exists_cons_of_ne_nil some_
    rw [reduce_of_keep kept, join, if_neg some_, flatMap_slash some_]
    rw [parts, between_cons, List.nil_append] at whole
    rw [parts, whole]
  · rfl

/-- **Normalization in place.** For an absolute path of any length nothing is written past the
terminator. The call fails exactly when there is no memory for a vector. Otherwise the buffer has
the normal path, and a second call that does not fail leaves it as it is. -/
theorem dotdot_normal (mem : ℕ → Bool) {path : Text} (here : At b 0 path)
    (absolute : path.head? = some slash) :
    Within b (dotdot mem b).2 0 path.length ∧
      ((dotdot mem b).1 = true ↔
        ∃ k, 0 < k ∧ k < (path.splitOn slash).length ∧ mem k = false) ∧
      ((dotdot mem b).1 = false → At (dotdot mem b).2 0 (normal path) ∧
        ∀ mem', (dotdot mem' (dotdot mem b).2).1 = false →
          At (dotdot mem' (dotdot mem b).2).2 0 (normal path)) := by
  obtain ⟨within, fails, leaves⟩ := dotdot_spec mem here
  rw [flat_absolute absolute] at leaves
  refine ⟨within, fails, fun done => ⟨leaves done, fun mem' again => ?_⟩⟩
  have second := (dotdot_spec mem' (leaves done)).2.2 again
  rwa [flat_absolute (normal_absolute path), normal_normal] at second

/-- A buffer with a string. -/
def bufOf (text : Text) : Buf := ⟨fun i => text.getD i 0, text.length + 1, 0⟩

theorem at_bufOf (whole : 0 ∉ text) : At (bufOf text) 0 text where
  chars i inside := by
    rw [Nat.zero_add]
    exact List.getD_eq_getElem _ _ inside
  ends := by
    rw [Nat.zero_add]
    exact List.getD_eq_default _ _ le_rfl
  room := by
    rw [Nat.zero_add]
    exact Nat.lt_succ_self _
  whole := whole

/-- `/a/../b` becomes `/b`. -/
theorem dotdot_normal_up :
    At (dotdot (fun _ => true) (bufOf [slash, 97, slash, dot, dot, slash, 98])).2 0
      [slash, 98] := by
  have here : At (bufOf [slash, 97, slash, dot, dot, slash, 98]) 0 _ := at_bufOf (by decide)
  have normal_ : normal [slash, 97, slash, dot, dot, slash, 98] = [slash, 98] := by decide
  rw [← normal_]
  exact ((dotdot_normal (fun _ => true) here rfl).2.2 (by decide)).1

/-- **No memory for the vector.** The path is cut at its first slash. -/
theorem dotdot_no_memory :
    (dotdot (fun _ => false) (bufOf [slash, 97])).2.str 0 = [] ∧
      normal [slash, 97] = [slash, 97] := by
  decide

end Vsta.Paths
