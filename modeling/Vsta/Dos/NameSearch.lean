import Vsta.Dos.LongNames

/-!
# Long names in the search and the reading of a directory

`search_dir` of `dir.c` goes through the slots of a cluster, with the next cluster behind it for a
name that does not end in the first. `dos_readdir` of `rw.c` goes through the slots of a directory
from the position of the file on. Both put long names together in a buffer on their stack.

`vfat_safe_iff` says for which contents of a directory they keep to it and to the slots. A search
comes to a slot when it has passed the slots before it one at a time, or over the run of a whole
name (`Comes`). Each slot that it comes to has to be sound: a part of a long name has a good run,
and the extension of a short name does not start with a null byte, for which an assertion fails.
-/

set_option autoImplicit false

namespace Vsta.Vfat

/-- What a search finds. It stops at an assertion that fails, or goes on in memory that is no
slot. -/
inductive Found where
  | slot (x : ℕ)
  | absent
  | stopped
  | beyond
  deriving DecidableEq

/-- What the reader of a directory gets: an error, names and the new position, or nothing when the
server stops. -/
inductive Answer where
  | error
  | names (text : Text) (pos : ℕ)
  | stopped
  deriving DecidableEq

/-! ## The search -/

/-- `next_dir` of `dir.c`. -/
def nextDir (dir1 : List Slot) (dir2 : Option (List Slot)) (pos : ℕ) : Next :=
  if inside : pos < dir1.length then .slot dir1[pos]
  else
    match dir2 with
    | none => .stop
    | some dir2 => (dir2[pos - dir1.length]?).elim .beyond .slot

/-- The rest of a cluster, with the next cluster. -/
def buffers (dir1 : List Slot) (dir2 : Option (List Slot)) : Source where
  nextd := nextDir dir1 dir2
  slots := dir1 ++ dir2.getD []
  guarded := dir2.isNone
  spec pos := by
    by_cases inside : pos < dir1.length
    · rw [List.getElem?_append_left inside, List.getElem?_eq_getElem inside]
      exact dif_pos inside
    · rw [List.getElem?_append_right (by omega), nextDir.eq_def, dif_neg inside]
      cases dir2 <;> rfl

/-- `search_vfat`, from a slot on. -/
def searchVfat (name : Text) (d : List Slot) (d2 : Option (List Slot)) (x : ℕ) (buf : NameBuf) :
    Found × NameBuf :=
  match here : d[x]? with
  | none => (.absent, buf)
  | some e =>
      if e.Free then (.absent, buf)
      else if e.Deleted then searchVfat name d d2 (x + 1) buf
      else if ¬e.Part then
        match packName e with
        | none => (.stopped, buf)
        | some file =>
            let buf := buf.write 0 (file ++ [0])
            if !mystrcasecmp name buf.text then (.slot x, buf)
            else searchVfat name d d2 (x + 1) buf
      else
        match assembleVfatName (buffers (d.drop (x + 1)) d2) e 0 buf with
        | (.stopped, _, buf) => (.stopped, buf)
        | (.beyond, _, buf) => (.beyond, buf)
        | (.failed, _, buf) => searchVfat name d d2 (x + 1) buf
        | (.assembled, pos, buf) =>
            if !mystrcasecmp name buf.text then (.slot (x + pos), buf)
            else searchVfat name d d2 (x + pos + 1) buf
  termination_by d.length - x
  decreasing_by all_goals
    have inside := (List.getElem?_eq_some_iff.mp here).1
    omega

/-- The search for a short name, from a slot on. -/
def searchShort (f1 f2 : Text) : List Slot → ℕ → Found
  | [], _ => .absent
  | d :: rest, x =>
      if d.Free then .absent
      else if f1 = d.name ∧ f2 = d.ext then .slot x
      else searchShort f1 f2 rest (x + 1)

/-- `search_dir`. The buffer is the one of `search_vfat`. -/
def searchDir (d : List Slot) (d2 : Option (List Slot)) (f1 : Text) (f2 : Option Text)
    (buf : NameBuf) : Found × NameBuf :=
  match f2 with
  | some f2 => (searchShort f1 f2 d 0, buf)
  | none =>
      match searchVfat f1 d d2 0 buf with
      | (.slot off, buf) => (if off > 0 then .slot off else .absent, buf)
      | r => r

/-! ## The reading -/

/-- `next_dir` of `rw.c`, through `dir_copy`. -/
def slotsOf (dir : List Slot) : Source where
  nextd pos := (dir[pos]?).elim .stop .slot
  slots := dir
  guarded := true
  spec _ := rfl

/-- The loop of `dos_readdir`. -/
def readdirLoop (dir : List Slot) (len fpos x : ℕ) (buf : Text) (file : NameBuf) :
    Answer × NameBuf :=
  if x < len then
    match here : dir[fpos]? with
    | none => (.names buf (fpos + 1), file)
    | some d =>
        if d.Free then (.names buf (fpos + 1), file)
        else if d.Deleted then readdirLoop dir len (fpos + 1) x buf file
        else if d.Part then
          match done : assembleVfatName (slotsOf dir) d (fpos + 1) file with
          | (.stopped, _, file) => (.stopped, file)
          | (.beyond, _, file) => (.stopped, file)
          | (.failed, _, file) => readdirLoop dir len (fpos + 1) x buf file
          | (.assembled, pos, file') =>
              if x + file'.text.length + 1 ≥ len then (.names buf fpos, file')
              else readdirLoop dir len pos (x + (file'.text.length + 1))
                (buf ++ file'.text ++ [10]) file'
        else
          match packName d with
          | none => (.stopped, file)
          | some short =>
              let file := file.write 0 (short ++ [0])
              if x + file.text.length + 1 ≥ len then (.names buf fpos, file)
              else readdirLoop dir len (fpos + 1) (x + (file.text.length + 1))
                (buf ++ file.text ++ [10]) file
  else (.names buf fpos, file)
  termination_by dir.length - fpos
  decreasing_by
  all_goals have inside := (List.getElem?_eq_some_iff.mp here).1
  · omega
  · omega
  · have later := assembleLoop_le (slotsOf dir) d.dvSum d (fpos + 1) 0 0 file
    rw [← assembleVfatName, done] at later
    dsimp only at later
    omega
  · omega

/-- `dos_readdir`. -/
def dosReaddir (root : Bool) (dir : List Slot) (memory : Bool) (marg fpos : ℕ) (file : NameBuf) :
    Answer × NameBuf :=
  let len := if marg > 4096 then 4096 else marg
  if !memory then (.error, file)
  else readdirLoop dir len (if !root && fpos == 0 then 2 else fpos) 0 [] file

/-! ## What they are for -/

/-- The slots behind one. -/
def following (d : List Slot) (d2 : Option (List Slot)) (x : ℕ) : List Slot :=
  d.drop (x + 1) ++ d2.getD []

/-- A slot that is in use can be looked at: the run of a part is good, and there is no null byte at
the start of the extension of a short name. -/
structure Sound (guarded : Bool) (e : Slot) (rest : List Slot) : Prop where
  long : e.Part → Good guarded e rest
  short : ¬e.Part → e.bytes 8 ≠ 0

/-- The slots that a search comes to when it does not find its name. -/
inductive Comes (d : List Slot) (d2 : Option (List Slot)) : ℕ → Prop where
  | first : Comes d d2 0
  | next {x : ℕ} {e : Slot} : Comes d d2 x → d[x]? = some e → ¬e.Free →
      (e.Deleted ∨ ¬e.Part ∨ ¬Complete e (following d d2 x)) → Comes d d2 (x + 1)
  | behind {x : ℕ} {e : Slot} : Comes d d2 x → d[x]? = some e → ¬e.Free → ¬e.Deleted → e.Part →
      Complete e (following d d2 x) →
      Comes d d2 (x + ((run e.dvSum (following d d2 x)).length + 1) + 1)

/-- Every slot in use that a search comes to is sound. -/
def SearchSound (d : List Slot) (d2 : Option (List Slot)) : Prop :=
  ∀ x e, Comes d d2 x → d[x]? = some e → ¬e.Free → ¬e.Deleted →
    Sound d2.isNone e (following d d2 x)

/-- Every slot in use that a directory can be read from is sound. -/
def ReadSound (root : Bool) (dir : List Slot) : Prop :=
  ∀ x e, dir[x]? = some e → ¬e.Free → ¬e.Deleted → (root = true ∨ x ≠ 0) →
    Sound true e (dir.drop (x + 1))

/-- **A search keeps to its name buffer and to the slots, and comes to its end.** -/
def SafeSearch (r : Found × NameBuf) : Prop :=
  r.1 ≠ .stopped ∧ r.1 ≠ .beyond ∧ r.2.wild = false

/-- **A reading keeps to its name buffer, and comes to its end.** -/
def SafeRead (r : Answer × NameBuf) : Prop := r.1 ≠ .stopped ∧ r.2.wild = false

variable {d dir rest : List Slot} {d2 : Option (List Slot)} {name : Text} {x : ℕ} {b : NameBuf}
  {e : Slot}

/-! ## Short names -/

theorem packName_none : packName e = none ↔ e.bytes 8 = 0 := by
  rw [packName]
  split_ifs with null space
  · exact iff_of_true rfl null
  · exact iff_of_false (by simp) null
  · exact iff_of_false (by simp) null

theorem packName_fits {file : Text} (packed : packName e = some file) :
    (b.write 0 (file ++ [0])).wild = false ↔ b.wild = false := by
  have base : (e.name.takeWhile (· ≠ 32)).length ≤ 8 :=
    (List.takeWhile_sublist _).length_le
  have ext : (e.ext.takeWhile (· ≠ 32)).length ≤ 3 := (List.takeWhile_sublist _).length_le
  have short : file.length ≤ 12 := by
    rw [packName] at packed
    split_ifs at packed
    · rw [← Option.some.inj packed, List.length_append, List.length_cons, List.length_map,
        List.length_map]
      omega
    · rw [← Option.some.inj packed, List.length_map]
      omega
  have size : ((VSE_MAX_NAME : ℕ) : ℤ) = 256 := rfl
  rw [NameBuf.write_wild, List.length_append, List.length_singleton]
  exact and_iff_left (.inr ⟨le_rfl, by omega⟩)

/-! ## The search -/

theorem search_none (out : d[x]? = none) : searchVfat name d d2 x b = (.absent, b) := by
  rw [searchVfat]
  split
  · rfl
  · next e here => exact absurd (out.symm.trans here) (by simp)

theorem search_some (here : d[x]? = some e) :
    searchVfat name d d2 x b =
      if e.Free then (.absent, b)
      else if e.Deleted then searchVfat name d d2 (x + 1) b
      else if ¬e.Part then
        match packName e with
        | none => (.stopped, b)
        | some file =>
            if !mystrcasecmp name (b.write 0 (file ++ [0])).text then
              (.slot x, b.write 0 (file ++ [0]))
            else searchVfat name d d2 (x + 1) (b.write 0 (file ++ [0]))
      else
        match assembleVfatName (buffers (d.drop (x + 1)) d2) e 0 b with
        | (.stopped, _, b) => (.stopped, b)
        | (.beyond, _, b) => (.beyond, b)
        | (.failed, _, b) => searchVfat name d d2 (x + 1) b
        | (.assembled, pos, b) =>
            if !mystrcasecmp name b.text then (.slot (x + pos), b)
            else searchVfat name d d2 (x + pos + 1) b := by
  rw [searchVfat]
  split
  · next out => exact absurd (here.symm.trans out) (by simp)
  · next e' here' =>
      obtain rfl := Option.some.inj (here.symm.trans here')
      rfl

/-- What the search leaves was in the buffer at every slot before. -/
theorem search_wild (safe : SafeSearch (searchVfat name d d2 x b)) : b.wild = false := by
  induction left : d.length - x using Nat.strong_induction_on generalizing x b with
  | _ n ih =>
      cases here : d[x]? with
      | none =>
          rw [search_none here] at safe
          exact safe.2.2
      | some e =>
          have inside := (List.getElem?_eq_some_iff.mp here).1
          rw [search_some here] at safe
          by_cases free : e.Free
          · rw [if_pos free] at safe
            exact safe.2.2
          by_cases deleted : e.Deleted
          · rw [if_neg free, if_pos deleted] at safe
            exact ih _ (by omega) safe rfl
          by_cases part : e.Part
          · rw [if_neg free, if_neg deleted, if_neg (not_not.mpr part)] at safe
            have clean := assemble_clean (buffers (d.drop (x + 1)) d2) e 0 b
            revert safe clean
            generalize assembleVfatName (buffers (d.drop (x + 1)) d2) e 0 b = r
            obtain ⟨ended, pos, b'⟩ := r
            intro safe clean
            refine (clean.mp ?_).1
            cases ended with
            | assembled =>
                dsimp only at safe
                split_ifs at safe
                · exact ⟨by simp, by simp, safe.2.2⟩
                · exact ⟨by simp, by simp, ih _ (by omega) safe rfl⟩
            | failed => exact ⟨by simp, by simp, ih _ (by omega) safe rfl⟩
            | stopped => exact absurd rfl safe.1
            | beyond => exact absurd rfl safe.2.1
          · rw [if_neg free, if_neg deleted, if_pos part] at safe
            cases packed : packName e with
            | none =>
                rw [packed] at safe
                exact absurd rfl safe.1
            | some file =>
                rw [packed] at safe
                dsimp only at safe
                split_ifs at safe
                · exact (packName_fits packed).mp safe.2.2
                · exact (packName_fits packed).mp (ih _ (by omega) safe rfl)

theorem following_eq (d : List Slot) (d2 : Option (List Slot)) (x : ℕ) :
    (buffers (d.drop (x + 1)) d2).slots.drop 0 = following d d2 x := rfl

/-- A search in which each slot that it comes to is sound. -/
theorem search_of_sound (sound : SearchSound d d2) (comes : Comes d d2 x)
    (inside_ : b.wild = false) : SafeSearch (searchVfat name d d2 x b) := by
  induction left : d.length - x using Nat.strong_induction_on generalizing x b with
  | _ n ih =>
      cases here : d[x]? with
      | none =>
          rw [search_none here]
          exact ⟨by simp, by simp, inside_⟩
      | some e =>
          have inside := (List.getElem?_eq_some_iff.mp here).1
          rw [search_some here]
          by_cases free : e.Free
          · rw [if_pos free]
            exact ⟨by simp, by simp, inside_⟩
          rw [if_neg free]
          by_cases deleted : e.Deleted
          · rw [if_pos deleted]
            exact ih _ (by omega) (comes.next here free (.inl deleted)) inside_ rfl
          rw [if_neg deleted]
          have good := sound x e comes here free deleted
          by_cases part : e.Part
          · rw [if_neg (not_not.mpr part)]
            have clean := (assemble_clean (buffers (d.drop (x + 1)) d2) e 0 b).mpr
              ⟨inside_, good.long part⟩
            have named := assemble_assembled _ e 0 b clean
            rw [following_eq] at named
            generalize assembleVfatName (buffers (d.drop (x + 1)) d2) e 0 b = r at clean named ⊢
            obtain ⟨ended, pos, b'⟩ := r
            rcases named with ⟨complete, done, at_⟩ | ⟨broken, failed⟩
            · dsimp only at done at_
              subst done at_
              dsimp only
              split_ifs
              · exact ⟨by simp, by simp, clean.2.2⟩
              · rw [Nat.zero_add]
                exact ih _ (by omega) (comes.behind here free deleted part complete) clean.2.2 rfl
            · dsimp only at failed
              subst failed
              exact ih _ (by omega) (comes.next here free (.inr (.inr broken))) clean.2.2 rfl
          · rw [if_pos part]
            cases packed : packName e with
            | none => exact absurd (packName_none.mp packed) (good.short part)
            | some file =>
                have fits := (packName_fits packed).mpr inside_
                dsimp only
                split_ifs
                · exact ⟨by simp, by simp, fits⟩
                · exact ih _ (by omega) (comes.next here free (.inr (.inl part))) fits rfl

/-- A name that is longer than the buffer. -/
def longName : Text := List.replicate (VSE_MAX_NAME + 3) 65

theorem longName_mismatch (b : NameBuf) : mystrcasecmp longName b.text = true := by
  have most := length_text b
  refine mystrcasecmp_of_length ?_
  rw [longName, List.length_replicate]
  omega

/-- A search that finds nothing, at a slot. -/
theorem sound_of_search (safe : SafeSearch (searchVfat longName d d2 x b)) (here : d[x]? = some e)
    (free : ¬e.Free) (deleted : ¬e.Deleted) :
    Sound d2.isNone e (following d d2 x) ∧
      ((¬e.Part ∨ ¬Complete e (following d d2 x)) →
        ∃ b, SafeSearch (searchVfat longName d d2 (x + 1) b)) ∧
      (e.Part → Complete e (following d d2 x) → ∃ b, SafeSearch (searchVfat longName d d2
        (x + ((run e.dvSum (following d d2 x)).length + 1) + 1) b)) := by
  rw [search_some here, if_neg free, if_neg deleted] at safe
  by_cases part : e.Part
  · rw [if_neg (not_not.mpr part)] at safe
    have clean := assemble_clean (buffers (d.drop (x + 1)) d2) e 0 b
    have named := assemble_assembled (buffers (d.drop (x + 1)) d2) e 0 b
    rw [following_eq] at clean named
    generalize assembleVfatName (buffers (d.drop (x + 1)) d2) e 0 b = r at clean named safe
    obtain ⟨ended, pos, b'⟩ := r
    have other := longName_mismatch b'
    have fine : Clean (ended, pos, b') := by
      cases ended with
      | assembled =>
          dsimp only at safe
          rw [if_neg (by rw [other]; decide)] at safe
          exact ⟨by simp, by simp, search_wild safe⟩
      | failed => exact ⟨by simp, by simp, search_wild safe⟩
      | stopped => exact absurd rfl safe.1
      | beyond => exact absurd rfl safe.2.1
    refine ⟨⟨fun _ => (clean.mp fine).2, fun short => absurd part short⟩, ?_⟩
    rcases named fine with ⟨complete, done, at_⟩ | ⟨broken, failed⟩
    · dsimp only at done at_
      subst done at_
      dsimp only at safe
      rw [if_neg (by rw [other]; decide), Nat.zero_add] at safe
      refine ⟨fun not_ => ?_, fun _ _ => ⟨b', safe⟩⟩
      rcases not_ with short | broken
      · exact absurd part short
      · exact absurd complete broken
    · dsimp only at failed
      subst failed
      exact ⟨fun _ => ⟨b', safe⟩, fun _ complete => absurd complete broken⟩
  · rw [if_pos part] at safe
    cases packed : packName e with
    | none =>
        rw [packed] at safe
        exact absurd rfl safe.1
    | some file =>
        rw [packed] at safe
        dsimp only at safe
        rw [if_neg (by rw [longName_mismatch]; decide)] at safe
        have null : e.bytes 8 ≠ 0 := fun zero => by
          rw [packName_none.mpr zero] at packed
          simp at packed
        exact ⟨⟨fun long => absurd long part, fun _ => null⟩, fun _ => ⟨_, safe⟩,
          fun long => absurd long part⟩

/-- A search that finds nothing comes to every slot. -/
theorem safe_of_comes (safe : SafeSearch (searchVfat longName d d2 0 b)) (comes : Comes d d2 x) :
    ∃ b, SafeSearch (searchVfat longName d d2 x b) := by
  induction comes with
  | first => exact ⟨b, safe⟩
  | @next x e _ here free passed ih =>
      obtain ⟨b', safe'⟩ := ih
      by_cases deleted : e.Deleted
      · rw [search_some here, if_neg free, if_pos deleted] at safe'
        exact ⟨b', safe'⟩
      · exact (sound_of_search safe' here free deleted).2.1 (passed.resolve_left deleted)
  | behind _ here free deleted part complete ih =>
      obtain ⟨b', safe'⟩ := ih
      exact (sound_of_search safe' here free deleted).2.2 part complete

theorem searchShort_ends (f1 f2 : Text) (d : List Slot) (x : ℕ) :
    searchShort f1 f2 d x ≠ .stopped ∧ searchShort f1 f2 d x ≠ .beyond := by
  induction d generalizing x with
  | nil => exact ⟨by simp [searchShort], by simp [searchShort]⟩
  | cons e rest ih =>
      rw [searchShort]
      split_ifs
      · exact ⟨by simp, by simp⟩
      · exact ⟨by simp, by simp⟩
      · exact ih (x + 1)

/-- **A search is safe for every name exactly when the slots that it comes to are sound.** -/
theorem search_safe_iff (d : List Slot) (d2 : Option (List Slot)) (bytes : ℤ → UChar) :
    (∀ f1 f2, SafeSearch (searchDir d d2 f1 f2 ⟨bytes, false⟩)) ↔ SearchSound d d2 := by
  constructor
  · intro safe x e comes here free deleted
    have whole : SafeSearch (searchVfat longName d d2 0 ⟨bytes, false⟩) := by
      have all := safe longName none
      rw [searchDir] at all
      revert all
      generalize searchVfat longName d d2 0 ⟨bytes, false⟩ = r
      obtain ⟨found, b⟩ := r
      cases found with
      | slot off => exact fun all => ⟨by simp, by simp, all.2.2⟩
      | _ => exact id
    obtain ⟨b, safe'⟩ := safe_of_comes whole comes
    exact (sound_of_search safe' here free deleted).1
  · intro sound f1 f2
    cases f2 with
    | some f2 =>
        have ends := searchShort_ends f1 f2 d 0
        exact ⟨ends.1, ends.2, rfl⟩
    | none =>
        have safe : SafeSearch (searchVfat f1 d d2 0 ⟨bytes, false⟩) :=
          search_of_sound sound .first rfl
        rw [searchDir]
        generalize searchVfat f1 d d2 0 ⟨bytes, false⟩ = r at safe ⊢
        obtain ⟨found, b⟩ := r
        cases found with
        | slot off =>
            dsimp only
            split_ifs <;> exact ⟨by simp, by simp, safe.2.2⟩
        | _ => exact safe

/-! ## The reading -/

theorem readdir_done {len fpos : ℕ} {buf : Text} (done : ¬x < len) :
    readdirLoop dir len fpos x buf b = (.names buf fpos, b) := by
  rw [readdirLoop, if_neg done]

theorem readdir_none {len fpos : ℕ} {buf : Text} (more : x < len) (out : dir[fpos]? = none) :
    readdirLoop dir len fpos x buf b = (.names buf (fpos + 1), b) := by
  rw [readdirLoop, if_pos more]
  split
  · rfl
  · next e here => exact absurd (out.symm.trans here) (by simp)

theorem readdir_some {len fpos : ℕ} {buf : Text} (more : x < len) (here : dir[fpos]? = some e) :
    readdirLoop dir len fpos x buf b =
      if e.Free then (.names buf (fpos + 1), b)
      else if e.Deleted then readdirLoop dir len (fpos + 1) x buf b
      else if e.Part then
        match assembleVfatName (slotsOf dir) e (fpos + 1) b with
        | (.stopped, _, b) => (.stopped, b)
        | (.beyond, _, b) => (.stopped, b)
        | (.failed, _, b) => readdirLoop dir len (fpos + 1) x buf b
        | (.assembled, pos, b) =>
            if x + b.text.length + 1 ≥ len then (.names buf fpos, b)
            else readdirLoop dir len pos (x + (b.text.length + 1)) (buf ++ b.text ++ [10]) b
      else
        match packName e with
        | none => (.stopped, b)
        | some short =>
            let b := b.write 0 (short ++ [0])
            if x + b.text.length + 1 ≥ len then (.names buf fpos, b)
            else readdirLoop dir len (fpos + 1) (x + (b.text.length + 1))
              (buf ++ b.text ++ [10]) b := by
  rw [readdirLoop, if_pos more]
  split
  · next out => exact absurd (here.symm.trans out) (by simp)
  · next e' here' =>
      obtain rfl := Option.some.inj (here.symm.trans here')
      split_ifs
      · rfl
      · rfl
      · split <;> simp_all
      · rfl

/-- A reading in a directory whose slots are sound. -/
theorem readdir_of_sound {root : Bool} {len fpos : ℕ} {buf : Text} (sound : ReadSound root dir)
    (start : root = true ∨ fpos ≠ 0) (inside_ : b.wild = false) :
    SafeRead (readdirLoop dir len fpos x buf b) := by
  induction left : dir.length - fpos using Nat.strong_induction_on
    generalizing fpos x buf b with
  | _ n ih =>
      by_cases more : x < len
      swap
      · rw [readdir_done more]
        exact ⟨by simp, inside_⟩
      cases here : dir[fpos]? with
      | none =>
          rw [readdir_none more here]
          exact ⟨by simp, inside_⟩
      | some e =>
          have inside := (List.getElem?_eq_some_iff.mp here).1
          rw [readdir_some more here]
          by_cases free : e.Free
          · rw [if_pos free]
            exact ⟨by simp, inside_⟩
          by_cases deleted : e.Deleted
          · rw [if_neg free, if_pos deleted]
            exact ih _ (by omega) (.inr (Nat.succ_ne_zero _)) inside_ rfl
          rw [if_neg free, if_neg deleted]
          have good := sound fpos e here free deleted start
          by_cases part : e.Part
          · rw [if_pos part]
            have clean := (assemble_clean (slotsOf dir) e (fpos + 1) b).mpr
              ⟨inside_, good.long part⟩
            have later := assembleLoop_le (slotsOf dir) e.dvSum e (fpos + 1) 0 0 b
            rw [← assembleVfatName] at later
            generalize assembleVfatName (slotsOf dir) e (fpos + 1) b = r at clean later ⊢
            obtain ⟨ended, pos, b'⟩ := r
            cases ended with
            | assembled =>
                dsimp only at later ⊢
                split_ifs
                · exact ⟨by simp, clean.2.2⟩
                · exact ih _ (by omega) (.inr (by omega)) clean.2.2 rfl
            | failed => exact ih _ (by omega) (.inr (Nat.succ_ne_zero _)) clean.2.2 rfl
            | stopped => exact absurd rfl clean.1
            | beyond => exact absurd rfl clean.2.1
          · rw [if_neg part]
            cases packed : packName e with
            | none => exact absurd (packName_none.mp packed) (good.short part)
            | some file =>
                have fits := (packName_fits packed).mpr inside_
                dsimp only
                split_ifs
                · exact ⟨by simp, fits⟩
                · exact ih _ (by omega) (.inr (Nat.succ_ne_zero _)) fits rfl

/-- What a reading leaves was in the buffer at every slot before. -/
theorem readdir_wild {len fpos : ℕ} {buf : Text}
    (safe : SafeRead (readdirLoop dir len fpos x buf b)) : b.wild = false := by
  induction left : dir.length - fpos using Nat.strong_induction_on generalizing fpos x buf b with
  | _ n ih =>
      by_cases more : x < len
      swap
      · rw [readdir_done more] at safe
        exact safe.2
      cases here : dir[fpos]? with
      | none =>
          rw [readdir_none more here] at safe
          exact safe.2
      | some e =>
          have inside := (List.getElem?_eq_some_iff.mp here).1
          rw [readdir_some more here] at safe
          by_cases free : e.Free
          · rw [if_pos free] at safe
            exact safe.2
          by_cases deleted : e.Deleted
          · rw [if_neg free, if_pos deleted] at safe
            exact ih _ (by omega) safe rfl
          rw [if_neg free, if_neg deleted] at safe
          by_cases part : e.Part
          · rw [if_pos part] at safe
            have clean := assemble_clean (slotsOf dir) e (fpos + 1) b
            have later := assembleLoop_le (slotsOf dir) e.dvSum e (fpos + 1) 0 0 b
            rw [← assembleVfatName] at later
            revert safe clean later
            generalize assembleVfatName (slotsOf dir) e (fpos + 1) b = r
            obtain ⟨ended, pos, b'⟩ := r
            intro safe clean later
            refine (clean.mp ?_).1
            cases ended with
            | assembled =>
                dsimp only at safe later
                split_ifs at safe
                · exact ⟨by simp, by simp, safe.2⟩
                · exact ⟨by simp, by simp, ih _ (by omega) safe rfl⟩
            | failed => exact ⟨by simp, by simp, ih _ (by omega) safe rfl⟩
            | stopped => exact absurd rfl safe.1
            | beyond => exact absurd rfl safe.1
          · rw [if_neg part] at safe
            cases packed : packName e with
            | none =>
                rw [packed] at safe
                exact absurd rfl safe.1
            | some file =>
                rw [packed] at safe
                dsimp only at safe
                split_ifs at safe
                · exact (packName_fits packed).mp safe.2
                · exact (packName_fits packed).mp (ih _ (by omega) safe rfl)

/-- A reading that starts at a slot. -/
theorem sound_of_read {len fpos : ℕ} {buf : Text} (more : x < len) (here : dir[fpos]? = some e)
    (free : ¬e.Free) (deleted : ¬e.Deleted)
    (safe : SafeRead (readdirLoop dir len fpos x buf b)) :
    Sound true e (dir.drop (fpos + 1)) := by
  rw [readdir_some more here, if_neg free, if_neg deleted] at safe
  by_cases part : e.Part
  · rw [if_pos part] at safe
    refine ⟨fun _ => ?_, fun short => absurd part short⟩
    have clean := assemble_clean (slotsOf dir) e (fpos + 1) b
    revert safe clean
    generalize assembleVfatName (slotsOf dir) e (fpos + 1) b = r
    obtain ⟨ended, pos, b'⟩ := r
    intro safe clean
    refine (clean.mp ?_).2
    cases ended with
    | assembled =>
        dsimp only at safe
        split_ifs at safe
        · exact ⟨by simp, by simp, safe.2⟩
        · exact ⟨by simp, by simp, readdir_wild safe⟩
    | failed => exact ⟨by simp, by simp, readdir_wild safe⟩
    | stopped => exact absurd rfl safe.1
    | beyond => exact absurd rfl safe.1
  · rw [if_neg part] at safe
    refine ⟨fun long => absurd long part, fun _ zero => ?_⟩
    rw [packName_none.mpr zero] at safe
    exact safe.1 rfl

/-- **A reading is safe for every request exactly when the slots it can start at are sound.** -/
theorem read_safe_iff (root : Bool) (dir : List Slot) (bytes : ℤ → UChar) :
    (∀ memory marg fpos, SafeRead (dosReaddir root dir memory marg fpos ⟨bytes, false⟩)) ↔
      ReadSound root dir := by
  constructor
  · intro safe x e here free deleted start
    have at_ := safe true 1 x
    have stays : (!root && x == 0) = false := by
      rcases start with rfl | some_
      · rfl
      · simp [some_]
    rw [dosReaddir, stays] at at_
    exact sound_of_read (by decide) here free deleted at_
  · intro sound memory marg fpos
    rw [dosReaddir]
    cases memory with
    | false => exact ⟨by simp, rfl⟩
    | true =>
        refine readdir_of_sound sound ?_ rfl
        cases root with
        | true => exact .inl rfl
        | false =>
            refine .inr ?_
            by_cases zero : fpos = 0
            · simp [zero]
            · simp [zero]

/-- **Searching and reading a directory are safe exactly when the parts of long names they come to
have ids in range and runs that end.** -/
theorem vfat_safe_iff (d : List Slot) (d2 : Option (List Slot)) (root : Bool) (dir : List Slot)
    (bytes : ℤ → UChar) :
    ((∀ f1 f2, SafeSearch (searchDir d d2 f1 f2 ⟨bytes, false⟩)) ↔ SearchSound d d2) ∧
      ((∀ memory marg fpos, SafeRead (dosReaddir root dir memory marg fpos ⟨bytes, false⟩)) ↔
        ReadSound root dir) :=
  ⟨search_safe_iff d d2 bytes, read_safe_iff root dir bytes⟩

/-- A part with the id 0, marked as the last one. -/
def zeroPart : Slot where
  bytes i := if i = 0 then VSE_ID_LAST else if i = 11 then DA_VFAT else 0

/-- A directory with such a part in it cannot be searched or read. -/
theorem zeroPart_unsafe :
    ¬(∀ f1 f2, SafeSearch (searchDir [zeroPart] none f1 f2 ⟨fun _ => 0, false⟩)) ∧
      ¬∀ memory marg fpos,
        SafeRead (dosReaddir true [zeroPart] memory marg fpos ⟨fun _ => 0, false⟩) := by
  have low : ¬Fits zeroPart := fun fits => absurd fits.1 (by decide)
  constructor
  · intro safe
    have sound := (search_safe_iff [zeroPart] none fun _ => 0).mp safe 0 zeroPart .first rfl
      (by decide) (by decide)
    exact low ((sound.long rfl).fits _ List.mem_cons_self)
  · intro safe
    have sound := (read_safe_iff true [zeroPart] fun _ => 0).mp safe 0 zeroPart rfl
      (by decide) (by decide) (.inl rfl)
    exact low ((sound.long rfl).fits _ List.mem_cons_self)

end Vsta.Vfat
