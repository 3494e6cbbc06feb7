import Vsta.Basic
import Mathlib.Data.Fintype.Card
import Mathlib.Data.List.Count
import Mathlib.Logic.Function.Basic
import Mathlib.Tactic.SplitIfs

/-!
# The partitions of a disk

`dpart_init` of `lib/mach/dpart.c` takes the partitions of one table into the slots of a unit, and
says which table comes next: the extended partition that the table has. The server reads tables in
that way until there is none, and then takes transfers, which are cut at the end of their partition.

What `dpart_init` keeps from one table to the next, it resets when the next slot is the first one,
and that may be at a later table. It takes an extended partition wherever it leads, and takes
lengths as they are. `partitions_right` is about the disks whose tables meet a condition when they
are read: for those the scan ends, and the partitions are where they should be, on the disk, under
names of their own; and a transfer whose buffer is as long as it says stays in it.

Where a partition was found, and the tables that were read since the last one was, are history.
Every read of a sector on the disk succeeds. Protections are left out.
-/

set_option autoImplicit false

namespace Vsta.Wd

abbrev WHOLE_DISK : ℕ := 0
abbrev FIRST_PART : ℕ := 1
abbrev LAST_PART : ℕ := 15
abbrev NPART : ℕ := 4
abbrev SECSZ : ℕ := 512
abbrev MAXIO : ℕ := 128 * 1024
abbrev PT_EXT : UChar := 0x05
abbrev PT_WIN95LBA : UChar := 0x0F

/-- The bytes of a sector. -/
abbrev Sector := ℕ → UChar

/-- `struct part_slot`, as far as it is used. -/
structure PartSlot where
  psType : UChar
  psStart : ULong
  psLen : ULong

/-- A long word in memory. -/
def long (buf : Sector) (at_ : ℕ) : ULong :=
  buf (at_ + 3) ++ buf (at_ + 2) ++ buf (at_ + 1) ++ buf at_

/-- `PART`. -/
def partAt (buf : Sector) (idx : ℕ) : PartSlot :=
  ⟨buf (0x1be + 16 * idx + 4), long buf (0x1be + 16 * idx + 8), long buf (0x1be + 16 * idx + 12)⟩

/-- `SIG`. -/
def sig (buf : Sector) (idx : ℕ) : UChar := buf (0x1fe + idx)

/-- The types that are known by a name. -/
inductive Kind where
  | swap | bfs | dos | hpfs | bsd | minix | lxnat | lxminix | lxswap
  deriving DecidableEq

/-- What a name has behind the unit: a kind and the number of that kind, or an entry's place in its
table. -/
inductive Label where
  | kind (k : Kind) (n : ℕ)
  | unknown (x : ℕ)
  deriving DecidableEq

def Kind.text : Kind → List Char
  | .swap => ['s', 'w', 'a', 'p']
  | .bfs => ['b', 'f', 's']
  | .dos => ['d', 'o', 's']
  | .hpfs => ['h', 'p', 'f', 's']
  | .bsd => ['b', 's', 'd']
  | .minix => ['m', 'i', 'n', 'i', 'x']
  | .lxnat => ['l', 'x', 'n', 'a', 't']
  | .lxminix => ['l', 'x', 'm', 'i', 'n', 'i', 'x']
  | .lxswap => ['l', 'x', 's', 'w', 'a', 'p']

def Label.text : Label → List Char
  | .kind k n => k.text ++ Nat.toDigits 10 n
  | .unknown x => 'p' :: Nat.toDigits 10 x

/-- The cases of the switch. -/
def kindOf (psType : UChar) : Option Kind :=
  if psType ∈ [(0x01 : UChar), 0x04, 0x06, 0x0B, PT_WIN95LBA] then some .dos
  else if psType = 0x07 then some .hpfs
  else if psType = 0x80 then some .minix
  else if psType = 0x81 then some .lxminix
  else if psType = 0x82 then some .lxswap
  else if psType = 0x83 then some .lxnat
  else if psType = 0x9e then some .bfs
  else if psType = 0x9f then some .swap
  else if psType = 0xa5 then some .bsd
  else none

/-- `struct part`; `table` and `entry` say where it was found. -/
structure Part where
  pName : List Char
  pOff : ULong
  pLen : ULong
  pExtoffs : ULong
  pVal : Bool
  pType : UChar
  table : ULong
  entry : ℕ

/-- The arguments of `dpart_init` that it changes, and its static variables. -/
structure Scan where
  secNum : ULong
  nextPart : ℕ
  partition : ℕ → Option Part
  counts : Kind → ℕ
  extBaseSec : ULong
  extCurOffs : ULong
  extNextOffs : ULong

/-- A drive: its name and unit, its sectors and how many it has, whether there is memory for each
slot, and what an earlier scan has left. -/
structure Drive where
  name : List Char
  unit : ℕ
  sector : ULong → Sector
  wSize : ULong
  mem : ℕ → Bool
  counts : Kind → ℕ
  left : ULong

/-! ## `dpart_init` -/

/-- What the loop over a table comes to: it goes on, or the call returns. -/
inductive Flow where
  | go (s : Scan) (extended : Bool)
  | stop (s : Scan) (ret : Bool)

namespace Drive

/-- The name of the whole disk. -/
def whole (d : Drive) : List Char := d.name ++ Nat.toDigits 10 d.unit

/-- The name of a partition. -/
def text (d : Drive) (label : Label) : List Char := d.whole ++ '_' :: label.text

/-- `alloc_part_slot`. -/
def allocPartSlot (d : Drive) (partition : ℕ → Option Part) (k : ℕ) : Bool :=
  (partition k).isSome || d.mem k

/-- `dpart_init_whole`, on slots that are empty. -/
def dpartInitWhole (d : Drive) : ℕ → Option Part := fun k =>
  if k = WHOLE_DISK ∧ d.mem WHOLE_DISK then some ⟨d.whole, 0, d.wSize, 0, true, 0, 0, 0⟩ else none

end Drive

namespace Scan

/-- The slot that is next gets a partition. -/
def store (s : Scan) (p : Part) : Scan :=
  { s with partition := Function.update s.partition s.nextPart (some p) }

/-- A partition that is valid, with the slot behind it next. -/
def take (s : Scan) (p : Part) : Scan :=
  { s.store { p with pVal := true } with nextPart := s.nextPart + 1 }

/-- An extended partition is the table to read next. -/
def enter (s : Scan) (off : ULong) : Scan :=
  { s with
    secNum := off
    extBaseSec := if s.extBaseSec = 0 then off else s.extBaseSec
    extNextOffs := if s.extBaseSec = 0 then s.extNextOffs else off - s.extBaseSec }

/-- The static variables for a new list. -/
def reset (s : Scan) : Scan :=
  if s.nextPart = FIRST_PART then
    { s with counts := fun _ => 0, extBaseSec := 0, extCurOffs := 0, extNextOffs := 0 }
  else s

end Scan

namespace Drive

/-- What a slot gets from an entry, before its type is looked at. -/
def fill (curSecNum : ULong) (slot : PartSlot) (x : ℕ) (s : Scan) : Part where
  pName := []
  pOff := if curSecNum ≠ 0 then slot.psStart + (s.extBaseSec + s.extCurOffs) else slot.psStart
  pLen := slot.psLen
  pExtoffs := slot.psStart + s.extCurOffs
  pVal := false
  pType := slot.psType
  table := curSecNum
  entry := x

/-- The switch of the loop over a table. -/
def partType (d : Drive) (slot : PartSlot) (x : ℕ) (p : Part) (s : Scan) (extended : Bool) : Flow :=
  if slot.psType = 0 then .go (s.store p) extended
  else if slot.psType = PT_EXT then
    .go ((s.store { p with pOff := p.pOff - s.extCurOffs }).enter (p.pOff - s.extCurOffs)) true
  else match kindOf slot.psType with
    | some kind =>
        .go ({ s with counts := Function.update s.counts kind (s.counts kind + 1) }.take
          { p with
            pName := d.text (.kind kind (s.counts kind))
            pOff := if slot.psType = PT_WIN95LBA then p.pOff + 63 else p.pOff
            pLen := if slot.psType = PT_WIN95LBA then p.pLen - 63 else p.pLen }) extended
    | none =>
        if slot.psLen = 0 then .go (s.store p) extended
        else .go (s.take { p with pName := d.text (.unknown x) }) extended

/-- The loop over a table, at an entry. -/
def partEntry (d : Drive) (curSecNum : ULong) (buf : Sector) (x : ℕ) (s : Scan)
    (extended : Bool) : Flow :=
  if LAST_PART < s.nextPart then .stop { s with secNum := 0 } true
  else if !d.allocPartSlot s.partition s.nextPart then .stop s false
  else d.partType (partAt buf x) x (fill curSecNum (partAt buf x) x s) s extended

/-- The loop over a table, for so many entries. -/
def entriesTo (d : Drive) (curSecNum : ULong) (buf : Sector) (s : Scan) : ℕ → Flow
  | 0 => .go s false
  | x + 1 =>
      match d.entriesTo curSecNum buf s x with
      | .go s extended => d.partEntry curSecNum buf x s extended
      | .stop s ret => .stop s ret

/-- `dpart_init`. -/
def dpartInit (d : Drive) (buf : Sector) (s : Scan) : Scan × Bool :=
  if sig buf 0 ≠ 0x55 ∨ sig buf 1 ≠ 0xAA then (s.reset, false)
  else match d.entriesTo s.secNum buf s.reset NPART with
    | .stop s ret => (s, ret)
    | .go s extended =>
        let s := if extended then s else { s with secNum := 0 }
        ({ s with extCurOffs := s.extNextOffs }, true)

end Drive

/-! ## The scan -/

/-- A table is to be read; the scan has ended; or the assertion of `wd_io` has failed. -/
inductive Phase where
  | reading | finished | crashed
  deriving DecidableEq

/-- The server as it scans, with the tables that were read since a partition was found. -/
structure World where
  scan : Scan
  seen : List ULong
  phase : Phase

namespace Drive

/-- The scan is initiated. -/
def start (d : Drive) : World :=
  ⟨⟨0, FIRST_PART, d.dpartInitWhole, d.counts, d.left, d.left, d.left⟩, [], .reading⟩

/-- `wd_io` for a table, and `update_partition_list` when it was read. -/
def next (d : Drive) (w : World) : World :=
  if w.phase ≠ .reading then w
  else if d.wSize ≤ w.scan.secNum then { w with phase := .crashed }
  else
    let (s, ret) := d.dpartInit (d.sector w.scan.secNum) w.scan
    let s := if ret then s else { s with secNum := 0 }
    { scan := s
      seen := if s.nextPart = w.scan.nextPart then w.scan.secNum :: w.seen else []
      phase := if s.secNum ≠ 0 then .reading else .finished }

/-- The scan, after so many tables. -/
def after (d : Drive) : ℕ → World
  | 0 => d.start
  | n + 1 => d.next (d.after n)

end Drive

/-! ## Transfers -/

inductive Op where
  | read | write
  deriving DecidableEq

/-- A message with a transfer, with the length of its segment where it has one. -/
structure Msg where
  mOp : Op
  mArg : ULong
  mNseg : ℕ
  mBuflen : ℕ

/-- `struct file`: the place in the partition, what the client may do, and whether it is in the root
directory. -/
structure File where
  fPos : ULong
  mayRead : Bool
  mayWrite : Bool
  root : Bool

/-- A transfer in the queue, with the length of its buffer. -/
structure Transfer where
  fBlkno : ULong
  fCount : ULong
  buf : ℕ

/-- `dpart_get_offset`. -/
inductive Offset where
  | inside (off cnt : ULong)
  | eof
  | outside

def dpartGetOffset (p : Part) (off : ULong) : Offset :=
  if p.pLen ≤ off then if off = p.pLen then .eof else .outside
  else .inside (off + p.pOff) (p.pLen - off)

/-- `queue_io`, where there is memory. -/
def queueIo (p : Part) (m : Msg) (f : File) : Option Transfer :=
  match dpartGetOffset p f.fPos with
  | .eof | .outside => none
  | .inside partOff cnt =>
      some ⟨partOff, if cnt < m.mArg then cnt else m.mArg,
        if m.mNseg = 0 then m.mArg.toNat * SECSZ else m.mBuflen⟩

/-- The checks of `wd_rwb`. -/
def Accepted (m : Msg) (f : File) : Prop :=
  ¬ (f.root = true ∨ m.mOp = .write ∧ m.mNseg ≠ 1) ∧
    ¬ (( MAXIO / SECSZ : ℕ) < m.mArg.toInt ∨ m.mArg.toInt ≤ 0) ∧
    ¬ (m.mOp = .read ∧ f.mayRead = false ∨ m.mOp = .write ∧ f.mayWrite = false)

instance (m : Msg) (f : File) : Decidable (Accepted m f) := inferInstanceAs (Decidable (_ ∧ _))

/-- `wd_rwb`. -/
def wdRwb (p : Part) (m : Msg) (f : File) : Option Transfer :=
  if Accepted m f then queueIo p m f else none

/-! ## What should hold, and the condition -/

/-- An entry of a table is for a partition. -/
def IsPart (slot : PartSlot) : Prop :=
  slot.psType ≠ 0 ∧ slot.psType ≠ PT_EXT ∧ (kindOf slot.psType = none → slot.psLen ≠ 0)

instance (slot : PartSlot) : Decidable (IsPart slot) := inferInstanceAs (Decidable (_ ∧ _))

/-- The partitions in a table before an entry. -/
def rank (buf : Sector) (x : ℕ) : ℕ := (List.range x).countP fun y => IsPart (partAt buf y)

namespace Drive

/-- A partition is where its table says, counted from that table. -/
def Found (d : Drive) (p : Part) : Prop :=
  p.pOff.toNat = p.table.toNat + (partAt (d.sector p.table) p.entry).psStart.toNat +
    if p.pType = PT_WIN95LBA then 63 else 0

/-- A partition lies on the disk. -/
def Within (d : Drive) (p : Part) : Prop := p.pOff.toNat + p.pLen.toNat ≤ d.wSize.toNat

/-- The partitions that are valid are where they were found, on the disk, and under names of their
own. -/
structure Right (d : Drive) (partition : ℕ → Option Part) : Prop where
  found : ∀ k p, FIRST_PART ≤ k → partition k = some p → p.pVal = true → d.Found p
  within : ∀ k p, partition k = some p → p.pVal = true → d.Within p
  distinct : ∀ j k p q, partition j = some p → p.pVal = true → partition k = some q →
    q.pVal = true → p.pName = q.pName → j = k

/-- The condition on the table that is read. It is on the disk, and was not read since a partition
was found. Where it has partitions, it is the first table or some were found before. Those that get
a slot end on the disk, behind what is skipped, and those without a name of their kind are at
another place than any before them. -/
structure Fits (d : Drive) (w : World) : Prop where
  onDisk : w.scan.secNum < d.wSize
  new : w.scan.secNum ∉ w.seen
  later : w.scan.secNum = 0 ∨ w.scan.nextPart ≠ FIRST_PART ∨
    ∀ x < NPART, ¬ IsPart (partAt (d.sector w.scan.secNum) x)
  ends : ∀ x < NPART, IsPart (partAt (d.sector w.scan.secNum) x) →
    w.scan.nextPart + rank (d.sector w.scan.secNum) x ≤ LAST_PART →
    w.scan.secNum.toNat + (partAt (d.sector w.scan.secNum) x).psStart.toNat +
        (partAt (d.sector w.scan.secNum) x).psLen.toNat ≤ d.wSize.toNat ∧
      ((partAt (d.sector w.scan.secNum) x).psType = PT_WIN95LBA →
        63 ≤ (partAt (d.sector w.scan.secNum) x).psLen.toNat)
  named : ∀ x < NPART, IsPart (partAt (d.sector w.scan.secNum) x) →
    kindOf (partAt (d.sector w.scan.secNum) x).psType = none →
    w.scan.nextPart + rank (d.sector w.scan.secNum) x ≤ LAST_PART →
    ∀ k p, w.scan.partition k = some p → p.pVal = true → p.pName ≠ d.text (.unknown x)

end Drive

/-- The condition on a transfer that is accepted: a buffer that comes with it has room for what is
left of the partition, or for what is asked for. -/
def Buffered (p : Part) (m : Msg) (f : File) : Prop :=
  Accepted m f → m.mNseg ≠ 0 →
    min m.mArg.toNat (p.pLen.toNat - f.fPos.toNat) * SECSZ ≤ m.mBuflen

/-- A transfer stays in its partition and in its buffer. -/
structure Transfer.Inside (t : Transfer) (p : Part) : Prop where
  above : p.pOff.toNat ≤ t.fBlkno.toNat
  below : t.fBlkno.toNat + t.fCount.toNat ≤ p.pOff.toNat + p.pLen.toNat
  fits : t.fCount.toNat * SECSZ ≤ t.buf

/-! ## Names -/

theorem digits_inj {m n : ℕ} (same : Nat.toDigits 10 m = Nat.toDigits 10 n) : m = n := by
  have values := congrArg (fun digits => Nat.ofDigitChars 10 digits 0) same
  simpa only [Nat.ofDigitChars_ten_toDigits] using values

/-- A word in front of a number is what stands there up to the first digit. -/
theorem takeWhile_digits (word : List Char) (n : ℕ) (letters : ∀ c ∈ word, c.isDigit = false) :
    (word ++ Nat.toDigits 10 n).takeWhile (fun c => !c.isDigit) = word := by
  induction word with
  | nil =>
      obtain ⟨c, rest, is⟩ := List.exists_cons_of_ne_nil (Nat.toDigits_ne_nil (n := n) (b := 10))
      have digit : c.isDigit = true :=
        Nat.isDigit_of_mem_toDigits (by decide) (by decide) (is ▸ List.mem_cons_self)
      rw [List.nil_append, is, List.takeWhile_cons]
      simp [digit]
  | cons c rest ih =>
      have letter := letters c List.mem_cons_self
      rw [List.cons_append, List.takeWhile_cons]
      simp [letter, ih fun c' member => letters c' (List.mem_cons_of_mem _ member)]

/-- The word of a label. -/
def Label.word : Label → List Char
  | .kind k _ => k.text
  | .unknown _ => ['p']

/-- The number of a label. -/
def Label.number : Label → ℕ
  | .kind _ n | .unknown n => n

theorem Label.text_eq (label : Label) :
    label.text = label.word ++ Nat.toDigits 10 label.number := by
  cases label <;> rfl

theorem Kind.text_letters : ∀ k : Kind, ∀ c ∈ k.text, c.isDigit = false := by
  intro k
  cases k <;> simp [Kind.text]

theorem Kind.text_injective : Function.Injective Kind.text := by
  intro j k
  cases j <;> cases k <;> decide

theorem Kind.text_ne_unknown : ∀ k : Kind, k.text ≠ ['p'] := by
  intro k
  cases k <;> decide

theorem Label.word_letters (label : Label) : ∀ c ∈ label.word, c.isDigit = false := by
  cases label with
  | kind k n => exact k.text_letters
  | unknown x => exact fun c member => List.mem_singleton.mp member ▸ rfl

/-- **A name tells its label.** -/
theorem Label.text_injective : Function.Injective Label.text := by
  intro one two same
  rw [one.text_eq, two.text_eq] at same
  have words : one.word = two.word := by
    rw [← takeWhile_digits one.word one.number one.word_letters, same,
      takeWhile_digits two.word two.number two.word_letters]
  rw [words] at same
  have numbers := digits_inj (List.append_cancel_left same)
  cases one with
  | kind k n =>
      cases two with
      | kind j m =>
          obtain rfl : n = m := numbers
          obtain rfl : k = j := Kind.text_injective words
          rfl
      | unknown x => exact absurd words k.text_ne_unknown
  | unknown x =>
      cases two with
      | kind j m => exact absurd words.symm j.text_ne_unknown
      | unknown y =>
          obtain rfl : x = y := numbers
          rfl

variable {d : Drive}

theorem Drive.text_injective : Function.Injective d.text := by
  intro one two same
  exact Label.text_injective (List.cons_inj_right '_' |>.mp (List.append_cancel_left same))

theorem Drive.text_ne_whole (label : Label) : d.text label ≠ d.whole := by
  intro same
  have lengths := congrArg List.length same
  rw [Drive.text, List.length_append, List.length_cons] at lengths
  omega

/-! ## Slots -/

/-- What holds of the slots, with the number of the next one, and how many of each kind there
are. -/
structure Good (d : Drive) (partition : ℕ → Option Part) (nextPart : ℕ) (counts : Kind → ℕ) :
    Prop where
  first : FIRST_PART ≤ nextPart
  last : nextPart ≤ LAST_PART + 1
  above : ∀ k p, nextPart ≤ k → partition k = some p → p.pVal = false
  right : d.Right partition
  labels : ∀ k p, FIRST_PART ≤ k → partition k = some p → p.pVal = true →
    ∃ label, p.pName = d.text label ∧ ∀ kind n, label = .kind kind n → n < counts kind
  whole : ∀ p, partition WHOLE_DISK = some p → p.pName = d.whole

section Slots

variable {partition : ℕ → Option Part} {nextPart : ℕ} {counts counts' : Kind → ℕ} {p : Part}

/-- A slot that is valid is in front of the next one. -/
theorem Good.lt (good : Good d partition nextPart counts) {k : ℕ}
    (there : partition k = some p) (valid : p.pVal = true) : k < nextPart := by
  by_contra behind
  rw [good.above k p (Nat.le_of_not_lt behind) there] at valid
  exact Bool.false_ne_true valid

/-- What is valid after a slot was filled is the new partition, or was valid before. -/
theorem valid_update {k : ℕ} {q : Part}
    (there : Function.update partition nextPart (some p) k = some q) :
    k = nextPart ∧ q = p ∨ k ≠ nextPart ∧ partition k = some q := by
  by_cases same : k = nextPart
  · subst same
    rw [Function.update_self] at there
    exact .inl ⟨rfl, (Option.some.inj there).symm⟩
  · rw [Function.update_of_ne same] at there
    exact .inr ⟨same, there⟩

/-- The next slot gets what is not a valid partition. -/
theorem Good.store (good : Good d partition nextPart counts) (invalid : p.pVal = false) :
    Good d (Function.update partition nextPart (some p)) nextPart counts := by
  have old : ∀ k q, Function.update partition nextPart (some p) k = some q → q.pVal = true →
      partition k = some q := by
    intro k q there valid
    rcases valid_update there with ⟨-, rfl⟩ | ⟨-, before⟩
    · exact absurd (invalid.symm.trans valid) Bool.false_ne_true
    · exact before
  have first := good.first
  refine ⟨good.first, good.last, fun k q behind there => ?_, ⟨?_, ?_, ?_⟩, ?_, fun q there => ?_⟩
  · rcases valid_update there with ⟨-, rfl⟩ | ⟨-, before⟩
    · exact invalid
    · exact good.above k q behind before
  · exact fun k q le there valid => good.right.found k q le (old k q there valid) valid
  · exact fun k q there valid => good.right.within k q (old k q there valid) valid
  · exact fun j k q r there valid there' valid' => good.right.distinct j k q r
      (old j q there valid) valid (old k r there' valid') valid'
  · exact fun k q le there valid => good.labels k q le (old k q there valid) valid
  · rcases valid_update there with ⟨same, -⟩ | ⟨-, before⟩
    · simp only [FIRST_PART, WHOLE_DISK] at first same
      omega
    · exact good.whole q before

/-- The next slot gets a partition under a name that no other has. -/
theorem Good.take (good : Good d partition nextPart counts) (room : nextPart ≤ LAST_PART)
    (found : d.Found p) (within : d.Within p) {label : Label} (name : p.pName = d.text label)
    (more : ∀ kind, counts kind ≤ counts' kind)
    (counted : ∀ kind n, label = .kind kind n → n < counts' kind)
    (unused : ∀ k q, FIRST_PART ≤ k → partition k = some q → q.pVal = true →
      q.pName ≠ d.text label) :
    Good d (Function.update partition nextPart (some p)) (nextPart + 1) counts' := by
  have first := good.first
  have other : ∀ k q, partition k = some q → q.pVal = true → q.pName ≠ p.pName := by
    intro k q there valid
    rw [name]
    rcases Nat.eq_zero_or_pos k with rfl | positive
    · rw [good.whole q there]
      exact (Drive.text_ne_whole label).symm
    · exact unused k q positive there valid
  refine ⟨Nat.le_succ_of_le first, Nat.succ_le_succ room, fun k q behind there => ?_,
    ⟨fun k q le there valid => ?_, fun k q there valid => ?_,
      fun j k q r there valid there' valid' same => ?_⟩, fun k q le there valid => ?_,
      fun q there => ?_⟩
  · rcases valid_update there with ⟨rfl, -⟩ | ⟨-, before⟩
    · omega
    · exact good.above k q (by omega) before
  · rcases valid_update there with ⟨-, rfl⟩ | ⟨-, before⟩
    · exact found
    · exact good.right.found k q le before valid
  · rcases valid_update there with ⟨-, rfl⟩ | ⟨-, before⟩
    · exact within
    · exact good.right.within k q before valid
  · rcases valid_update there with ⟨rfl, rfl⟩ | ⟨-, before⟩ <;>
      rcases valid_update there' with ⟨rfl, rfl⟩ | ⟨-, before'⟩
    · rfl
    · exact absurd same.symm (other k r before' valid')
    · exact absurd same (other j q before valid)
    · exact good.right.distinct j k q r before valid before' valid' same
  · rcases valid_update there with ⟨-, rfl⟩ | ⟨-, before⟩
    · exact ⟨label, name, counted⟩
    · obtain ⟨label', is, less⟩ := good.labels k q le before valid
      exact ⟨label', is, fun kind n same => (less kind n same).trans_le (more kind)⟩
  · rcases valid_update there with ⟨same, -⟩ | ⟨-, before⟩
    · simp only [FIRST_PART, WHOLE_DISK] at first same
      omega
    · exact good.whole q before

end Slots

theorem rank_succ (buf : Sector) (x : ℕ) :
    rank buf (x + 1) = rank buf x + if IsPart (partAt buf x) then 1 else 0 := by
  rw [rank, List.range_succ, List.countP_append, ← rank]
  simp [List.countP_cons]

/-! ## A table -/

/-- What is known of a table that is about to be gone through. -/
structure Table (d : Drive) (t : ULong) (s : Scan) : Prop where
  here : t = 0 ∨ s.extBaseSec ≠ 0 ∧ s.extBaseSec + s.extCurOffs = t ∨
    ∀ x < NPART, ¬ IsPart (partAt (d.sector t) x)
  ends : ∀ x < NPART, IsPart (partAt (d.sector t) x) →
    s.nextPart + rank (d.sector t) x ≤ LAST_PART →
    t.toNat + (partAt (d.sector t) x).psStart.toNat + (partAt (d.sector t) x).psLen.toNat ≤
        d.wSize.toNat ∧
      ((partAt (d.sector t) x).psType = PT_WIN95LBA → 63 ≤ (partAt (d.sector t) x).psLen.toNat)
  named : ∀ x < NPART, IsPart (partAt (d.sector t) x) →
    kindOf (partAt (d.sector t) x).psType = none →
    s.nextPart + rank (d.sector t) x ≤ LAST_PART →
    ∀ k p, s.partition k = some p → p.pVal = true → p.pName ≠ d.text (.unknown x)

/-- What holds in the loop over a table, at an entry. -/
structure Loop (d : Drive) (t : ULong) (s₀ : Scan) (x : ℕ) (s : Scan) (extended : Bool) :
    Prop where
  good : Good d s.partition s.nextPart s.counts
  ranked : s.nextPart = s₀.nextPart + rank (d.sector t) x
  unknowns : ∀ k p, s.partition k = some p → p.pVal = true → FIRST_PART ≤ k →
    ∀ y, p.pName = d.text (.unknown y) → y < x ∨ s₀.partition k = some p
  base : s₀.extBaseSec ≠ 0 → s.extBaseSec = s₀.extBaseSec
  cur : s.extCurOffs = s₀.extCurOffs
  zero : s.extBaseSec = 0 → s.extNextOffs = 0
  led : extended = true → s.extBaseSec + s.extNextOffs = s.secNum ∧
    (s.secNum ≠ 0 → s.extBaseSec ≠ 0)

/-- What the loop comes to, after so many entries. -/
def Goes (d : Drive) (t : ULong) (s₀ : Scan) (x : ℕ) : Flow → Prop
  | .go s extended => Loop d t s₀ x s extended
  | .stop s ret => Good d s.partition s.nextPart s.counts ∧ (ret = true → s.secNum = 0)

variable {t : ULong} {s₀ s : Scan} {x : ℕ} {extended : Bool}

/-- An entry that is not a partition is stored, and the loop goes on. -/
theorem Loop.store (loop : Loop d t s₀ x s extended) {p : Part} (invalid : p.pVal = false)
    (idle : ¬ IsPart (partAt (d.sector t) x)) :
    Loop d t s₀ (x + 1) (s.store p) extended := by
  refine ⟨loop.good.store invalid, ?_, fun k q there valid le y same => ?_, loop.base, loop.cur,
    loop.zero, loop.led⟩
  · rw [rank_succ, if_neg idle]
    exact loop.ranked
  · rcases valid_update there with ⟨-, rfl⟩ | ⟨-, before⟩
    · exact absurd (invalid.symm.trans valid) Bool.false_ne_true
    · exact (loop.unknowns k q before valid le y same).imp_left Nat.lt_succ_of_lt

/-- A partition is taken, and the loop goes on. -/
theorem Loop.take (loop : Loop d t s₀ x s extended) (is_ : IsPart (partAt (d.sector t) x))
    (room : s.nextPart ≤ LAST_PART) {p : Part} {label : Label} {counts : Kind → ℕ}
    (found : d.Found { p with pVal := true }) (within : d.Within { p with pVal := true })
    (name : p.pName = d.text label) (more : ∀ kind, s.counts kind ≤ counts kind)
    (counted : ∀ kind n, label = .kind kind n → n < counts kind)
    (unused : ∀ k q, FIRST_PART ≤ k → s.partition k = some q → q.pVal = true →
      q.pName ≠ d.text label)
    (own : ∀ y, label = .unknown y → y = x) :
    Loop d t s₀ (x + 1) ({ s with counts := counts }.take p) extended := by
  refine ⟨loop.good.take room found within name more counted unused, ?_,
    fun k q there valid le y same => ?_, loop.base, loop.cur, loop.zero, loop.led⟩
  · rw [rank_succ, if_pos is_]
    show s.nextPart + 1 = _
    rw [loop.ranked]
    rfl
  · rcases valid_update there with ⟨-, rfl⟩ | ⟨-, before⟩
    · have eq : label = .unknown y := Drive.text_injective (name.symm.trans same)
      exact .inl ((own y eq).symm ▸ Nat.lt_succ_self x)
    · exact (loop.unknowns k q before valid le y same).imp_left Nat.lt_succ_of_lt

/-- An extended partition is stored, and the loop goes on. -/
theorem Loop.enter (loop : Loop d t s₀ x s extended) {p : Part} (invalid : p.pVal = false)
    (idle : ¬ IsPart (partAt (d.sector t) x)) (off : ULong) :
    Loop d t s₀ (x + 1) ((s.store p).enter off) true := by
  have kept := loop.store invalid idle
  by_cases based : s.extBaseSec = 0
  · have next := loop.zero based
    have is : (s.store p).enter off = { s.store p with secNum := off, extBaseSec := off } := by
      simp only [Scan.enter, Scan.store, based, if_true]
    rw [is]
    refine ⟨kept.good, kept.ranked, kept.unknowns, fun old => ?_, kept.cur, fun _ => next,
      fun _ => ⟨?_, id⟩⟩
    · exact absurd (loop.base old ▸ based) old
    · show off + s.extNextOffs = off
      rw [next]
      exact BitVec.add_zero off
  · have is : (s.store p).enter off =
        { s.store p with secNum := off, extNextOffs := off - s.extBaseSec } := by
      simp only [Scan.enter, Scan.store, based, if_false]
    rw [is]
    refine ⟨kept.good, kept.ranked, kept.unknowns, kept.base, kept.cur,
      fun zero => absurd zero based, fun _ => ⟨?_, fun _ => based⟩⟩
    show s.extBaseSec + (off - s.extBaseSec) = off
    rw [BitVec.add_comm, BitVec.sub_add_cancel]

/-- Where a partition begins that a table has. -/
theorem Loop.offset (loop : Loop d t s₀ x s extended) (table : Table d t s₀) (below : x < NPART)
    (is_ : IsPart (partAt (d.sector t) x)) :
    (Drive.fill t (partAt (d.sector t) x) x s).pOff = (partAt (d.sector t) x).psStart + t := by
  rw [Drive.fill]
  by_cases first : t = 0
  · simp [first]
  simp only [first, ne_eq, not_false_eq_true, if_true]
  rcases table.here with zero | ⟨based, same⟩ | none_
  · exact absurd zero first
  · rw [loop.base based, loop.cur, same]
  · exact absurd is_ (none_ x below)

/-- A partition that ends on the disk is where its table says. -/
theorem placed {p : Part} {slot : PartSlot} {t : ULong} {x : ℕ}
    (table : p.table = t) (entry : p.entry = x) (type_ : p.pType = slot.psType)
    (is_ : partAt (d.sector t) x = slot)
    (off : p.pOff = if slot.psType = PT_WIN95LBA then slot.psStart + t + 63 else slot.psStart + t)
    (length : p.pLen = if slot.psType = PT_WIN95LBA then slot.psLen - 63 else slot.psLen)
    (ends : t.toNat + slot.psStart.toNat + slot.psLen.toNat ≤ d.wSize.toNat)
    (skip : slot.psType = PT_WIN95LBA → 63 ≤ slot.psLen.toNat) : d.Found p ∧ d.Within p := by
  have size := d.wSize.isLt
  rw [Drive.Found, Drive.Within, table, entry, is_, type_, off, length]
  split_ifs with lba
  · have long := skip lba
    constructor
    · rw [BitVec.toNat_add, BitVec.toNat_add, show (63 : ULong).toNat = 63 from rfl]
      omega
    · rw [BitVec.toNat_add, BitVec.toNat_add, BitVec.toNat_sub,
        show (63 : ULong).toNat = 63 from rfl]
      omega
  · constructor
    · rw [BitVec.toNat_add]
      omega
    · rw [BitVec.toNat_add]
      omega

/-- **An entry of a table**, in the loop over it. -/
theorem Loop.entry (loop : Loop d t s₀ x s extended) (table : Table d t s₀) (below : x < NPART) :
    Goes d t s₀ (x + 1) (d.partEntry t (d.sector t) x s extended) := by
  rw [Drive.partEntry]
  by_cases full : LAST_PART < s.nextPart
  · rw [if_pos full]
    exact ⟨loop.good, fun _ => rfl⟩
  have room := Nat.le_of_not_lt full
  rw [if_neg full]
  by_cases memory : (!d.allocPartSlot s.partition s.nextPart) = true
  · rw [if_pos memory]
    exact ⟨loop.good, fun ret => absurd ret Bool.false_ne_true⟩
  rw [if_neg memory, Drive.partType]
  by_cases idle : (partAt (d.sector t) x).psType = 0
  · rw [if_pos idle]
    exact loop.store rfl fun is_ => is_.1 idle
  by_cases ext : (partAt (d.sector t) x).psType = PT_EXT
  · rw [if_neg idle, if_pos ext]
    exact loop.enter rfl (fun is_ => is_.2.1 ext) _
  rw [if_neg idle, if_neg ext]
  have ranked := loop.ranked
  cases known : kindOf (partAt (d.sector t) x).psType with
  | some kind =>
      have is_ : IsPart (partAt (d.sector t) x) :=
        ⟨idle, ext, fun none_ => by simp [known] at none_⟩
      have offset := loop.offset table below is_
      obtain ⟨ends, skip⟩ := table.ends x below is_ (by omega)
      have placed := @placed d { Drive.fill t (partAt (d.sector t) x) x s with
          pName := d.text (.kind kind (s.counts kind))
          pOff := if (partAt (d.sector t) x).psType = PT_WIN95LBA then
            (Drive.fill t (partAt (d.sector t) x) x s).pOff + 63
            else (Drive.fill t (partAt (d.sector t) x) x s).pOff
          pLen := if (partAt (d.sector t) x).psType = PT_WIN95LBA then
            (Drive.fill t (partAt (d.sector t) x) x s).pLen - 63
            else (Drive.fill t (partAt (d.sector t) x) x s).pLen
          pVal := true } _ t x rfl rfl rfl rfl (by rw [offset]) rfl ends skip
      refine loop.take is_ room placed.1 placed.2 rfl (fun other => ?_) (fun other n same => ?_)
        (fun k q le there valid same => ?_) (fun y => nofun)
      · by_cases eq : other = kind
        · rw [eq, Function.update_self]
          exact Nat.le_succ _
        · rw [Function.update_of_ne eq]
      · obtain ⟨rfl, rfl⟩ := Label.kind.inj same
        rw [Function.update_self]
        exact Nat.lt_succ_self _
      · obtain ⟨label, name, less⟩ := loop.good.labels k q le there valid
        have eq : label = .kind kind (s.counts kind) := Drive.text_injective (name.symm.trans same)
        exact Nat.lt_irrefl _ (less kind _ eq)
  | none =>
      by_cases empty : (partAt (d.sector t) x).psLen = 0
      · simp only [empty, if_true]
        exact loop.store rfl fun is_ => is_.2.2 known empty
      have is_ : IsPart (partAt (d.sector t) x) := ⟨idle, ext, fun _ => empty⟩
      have offset := loop.offset table below is_
      obtain ⟨ends, -⟩ := table.ends x below is_ (by omega)
      have plain : (partAt (d.sector t) x).psType ≠ PT_WIN95LBA := by
        intro lba
        rw [lba] at known
        exact absurd known (by decide)
      have placed := @placed d { Drive.fill t (partAt (d.sector t) x) x s with
          pName := d.text (.unknown x)
          pVal := true } _ t x rfl rfl rfl rfl (offset.trans (if_neg plain).symm)
        (if_neg plain).symm ends fun lba => absurd lba plain
      simp only [empty, if_false]
      refine @Loop.take d t s₀ s x extended loop is_ room _ (.unknown x) s.counts ?_ ?_ rfl
        (fun _ => Nat.le_refl _) (fun _ _ => nofun) (fun k q le there valid same => ?_)
        (fun y same => (Label.unknown.inj same).symm)
      · exact placed.1
      · exact placed.2
      · rcases loop.unknowns k q there valid le x same with less | before
        · exact Nat.lt_irrefl x less
        · exact table.named x below is_ known (by omega) k q before valid same

theorem Loop.entriesTo (loop : Loop d t s₀ 0 s₀ false) (table : Table d t s₀) {x : ℕ}
    (below : x ≤ NPART) : Goes d t s₀ x (d.entriesTo t (d.sector t) s₀ x) := by
  induction x with
  | zero => exact loop
  | succ x ih =>
      have before := ih (Nat.le_of_succ_le below)
      rw [Drive.entriesTo]
      cases is : d.entriesTo t (d.sector t) s₀ x with
      | go s extended =>
          rw [is] at before
          exact Loop.entry before table below
      | stop s ret =>
          rw [is] at before
          exact before

/-- What the static variables say of a table that is to be read. -/
def Led (s : Scan) : Prop :=
  s.secNum = 0 ∧ s.nextPart = FIRST_PART ∨
    s.extBaseSec ≠ 0 ∧ s.extBaseSec + s.extCurOffs = s.secNum

theorem Good.reset (good : Good d s.partition s.nextPart s.counts) :
    Good d s.reset.partition s.reset.nextPart s.reset.counts := by
  rw [Scan.reset]
  split_ifs with again
  · refine ⟨good.first, good.last, good.above, good.right, fun k p le there valid => ?_, good.whole⟩
    have less := good.lt there valid
    rw [again] at less
    omega
  · exact good

/-- **A call of `dpart_init`** on a table that meets the condition. -/
theorem dpartInit_spec (good : Good d s.partition s.nextPart s.counts) (led : Led s)
    (table : Table d s.secNum s.reset) {s' : Scan} {ret : Bool}
    (run : d.dpartInit (d.sector s.secNum) s = (s', ret)) :
    Good d s'.partition s'.nextPart s'.counts ∧
      (ret = true → s'.secNum ≠ 0 → Led s' ∧ s.nextPart ≤ s'.nextPart) := by
  have next : s.reset.nextPart = s.nextPart := by
    rw [Scan.reset]
    split_ifs <;> rfl
  have zero : s.reset.extBaseSec = 0 → s.reset.extNextOffs = 0 := by
    rw [Scan.reset]
    split_ifs with again
    · exact fun _ => rfl
    · rcases led with ⟨-, first⟩ | ⟨based, -⟩
      · exact absurd first again
      · exact fun zero => absurd zero based
  have loop : Loop d s.secNum s.reset 0 s.reset false :=
    ⟨good.reset, rfl, fun k p there _ _ _ _ => .inr there, fun _ => rfl, rfl, zero, nofun⟩
  rw [Drive.dpartInit] at run
  split_ifs at run with signature
  · obtain ⟨rfl, rfl⟩ := Prod.mk.inj run
    exact ⟨good.reset, nofun⟩
  have goes := loop.entriesTo table (Nat.le_refl NPART)
  cases is : d.entriesTo s.secNum (d.sector s.secNum) s.reset NPART with
  | stop t ret' =>
      rw [is] at goes run
      obtain ⟨rfl, rfl⟩ := Prod.mk.inj run
      exact ⟨goes.1, fun done leads => absurd (goes.2 done) leads⟩
  | go t extended =>
      rw [is] at goes run
      obtain ⟨rfl, rfl⟩ := Prod.mk.inj run
      have goes : Loop d s.secNum s.reset NPART t extended := goes
      cases extended with
      | false => exact ⟨goes.good, fun _ leads => absurd rfl leads⟩
      | true =>
          refine ⟨goes.good, fun _ leads => ⟨.inr ⟨(goes.led rfl).2 leads, (goes.led rfl).1⟩, ?_⟩⟩
          show s.nextPart ≤ t.nextPart
          rw [goes.ranked, next]
          exact Nat.le_add_right _ _

/-! ## A scan -/

/-- What holds of the server as it scans. -/
structure Sound (d : Drive) (w : World) : Prop where
  good : Good d w.scan.partition w.scan.nextPart w.scan.counts
  led : w.phase = .reading → Led w.scan
  once : w.seen.Nodup

theorem start_sound (d : Drive) : Sound d d.start := by
  have slots : ∀ k p, d.start.scan.partition k = some p →
      k = WHOLE_DISK ∧ p.pName = d.whole ∧ d.Within p := by
    intro k p there
    simp only [Drive.start, Drive.dpartInitWhole] at there
    split_ifs at there with whole
    obtain rfl := Option.some.inj there
    exact ⟨whole.1, rfl, by simp [Drive.Within]⟩
  refine ⟨⟨Nat.le_refl _, show FIRST_PART ≤ LAST_PART + 1 by decide,
    fun k p le there => ?_, ⟨fun k p le there => ?_,
    fun k p there _ => (slots k p there).2.2, fun j k p q there _ there' _ _ => ?_⟩,
    fun k p le there => ?_, fun p there => (slots _ p there).2.1⟩, fun _ => .inl ⟨rfl, rfl⟩,
    List.nodup_nil⟩
  · have le : FIRST_PART ≤ k := le
    rw [(slots k p there).1] at le
    exact absurd le (by decide)
  · rw [(slots k p there).1] at le
    exact absurd le (by decide)
  · rw [(slots j p there).1, (slots k q there').1]
  · rw [(slots k p there).1] at le
    exact absurd le (by decide)

variable {w : World}

/-- The condition on the table that is read, after the static variables were reset. -/
theorem Drive.Fits.table (fits : d.Fits w) (led : Led w.scan) :
    Table d w.scan.secNum w.scan.reset := by
  by_cases again : w.scan.nextPart = FIRST_PART
  · have is : w.scan.reset = { w.scan with
        counts := fun _ => 0, extBaseSec := 0, extCurOffs := 0, extNextOffs := 0 } := by
      rw [Scan.reset, if_pos again]
    rw [is]
    refine ⟨?_, fits.ends, fits.named⟩
    rcases fits.later with first | found | none_
    · exact .inl first
    · exact absurd again found
    · exact .inr (.inr none_)
  · have is : w.scan.reset = w.scan := by rw [Scan.reset, if_neg again]
    rw [is]
    refine ⟨?_, fits.ends, fits.named⟩
    rcases led with ⟨first, -⟩ | led
    · exact .inl first
    · exact .inr (.inl led)

/-- The slots that are left, and the tables that could be read before one is filled. -/
def World.measure (w : World) : ℕ :=
  (LAST_PART + 1 - w.scan.nextPart) * (2 ^ 32 + 1) + (2 ^ 32 - w.seen.length)

theorem nodup_length {seen : List ULong} (once : seen.Nodup) : seen.length ≤ 2 ^ 32 := by
  have inside : (seen.map BitVec.toFin).length ≤ Fintype.card (Fin (2 ^ 32)) :=
    (once.map fun _ _ => BitVec.eq_of_toFin_eq).length_le_card
  rwa [List.length_map, Fintype.card_fin] at inside

/-- **The server reads one more table** that meets the condition. -/
theorem Sound.next (sound : Sound d w) (reading : w.phase = .reading) (fits : d.Fits w) :
    Sound d (d.next w) ∧ ((d.next w).phase = .finished ∨
      (d.next w).phase = .reading ∧ (d.next w).measure < w.measure) := by
  have led := sound.led reading
  have here : ¬ d.wSize ≤ w.scan.secNum := BitVec.not_le.mpr fits.onDisk
  obtain ⟨s', ret, run⟩ : ∃ s' ret, d.dpartInit (d.sector w.scan.secNum) w.scan = (s', ret) :=
    ⟨_, _, rfl⟩
  obtain ⟨good, onward⟩ := dpartInit_spec sound.good led (fits.table led) run
  have cons : (w.scan.secNum :: w.seen).Nodup := List.nodup_cons.mpr ⟨fits.new, sound.once⟩
  have once : (if s'.nextPart = w.scan.nextPart then w.scan.secNum :: w.seen else []).Nodup := by
    split_ifs
    · exact cons
    · exact List.nodup_nil
  rw [Drive.next, if_neg (not_not.mpr reading), if_neg here, run]
  cases ret with
  | false => exact ⟨⟨good, nofun, once⟩, .inl rfl⟩
  | true =>
      by_cases done : s'.secNum = 0
      · simp only [done, if_true, ne_eq, not_true_eq_false, if_false]
        exact ⟨⟨good, nofun, once⟩, .inl trivial⟩
      obtain ⟨led', grows⟩ := onward rfl done
      simp only [done, if_true, ne_eq, not_false_eq_true]
      refine ⟨⟨good, fun _ => led', once⟩, .inr ⟨trivial, ?_⟩⟩
      have last := good.last
      have length := nodup_length cons
      rw [List.length_cons] at length
      simp only [World.measure]
      by_cases same : s'.nextPart = w.scan.nextPart
      · rw [if_pos same, same, List.length_cons]
        omega
      · rw [if_neg same, List.length_nil]
        have fewer : LAST_PART + 1 - s'.nextPart + 1 ≤ LAST_PART + 1 - w.scan.nextPart := by omega
        have := Nat.mul_le_mul_right (2 ^ 32 + 1) fewer
        omega

theorem next_of_not_reading (still : w.phase ≠ .reading) : d.next w = w := by
  rw [Drive.next, if_pos still]

/-- A scan of tables that meet the condition is sound, and no assertion fails. -/
theorem after_sound (meets : ∀ n, (d.after n).phase = .reading → d.Fits (d.after n)) (n : ℕ) :
    Sound d (d.after n) ∧ (d.after n).phase ≠ .crashed := by
  induction n with
  | zero => exact ⟨start_sound d, nofun⟩
  | succ n ih =>
      rw [Drive.after]
      by_cases reading : (d.after n).phase = .reading
      · obtain ⟨sound, finished | ⟨more, -⟩⟩ := ih.1.next reading (meets n reading)
        · exact ⟨sound, finished ▸ nofun⟩
        · exact ⟨sound, more ▸ nofun⟩
      · rw [next_of_not_reading reading]
        exact ih

/-- **A scan ends** whose tables meet the condition. -/
theorem exists_finished (meets : ∀ n, (d.after n).phase = .reading → d.Fits (d.after n)) :
    ∃ n, (d.after n).phase = .finished := by
  suffices ends : ∀ m n, (d.after n).phase = .reading → (d.after n).measure < m →
      ∃ k, (d.after k).phase = .finished from
    ends _ 0 rfl (Nat.lt_succ_self _)
  intro m
  induction m with
  | zero => exact fun n _ less => absurd less (Nat.not_lt_zero _)
  | succ m ih =>
      intro n reading less
      obtain ⟨-, finished | ⟨more, smaller⟩⟩ :=
        (after_sound meets n).1.next reading (meets n reading)
      · exact ⟨n + 1, finished⟩
      · exact ih (n + 1) more (Nat.lt_of_lt_of_le smaller (Nat.le_of_lt_succ less))

/-! ## The whole -/

/-- A transfer from a partition that is on the disk stays in the partition and in its buffer. -/
theorem transfer_inside {p : Part} (within : d.Within p) {m : Msg} {f : File} {q : Transfer}
    (buffered : Buffered p m f) (run : wdRwb p m f = some q) : q.Inside p := by
  have size := d.wSize.isLt
  rw [Drive.Within] at within
  rw [wdRwb] at run
  split_ifs at run with accepted
  have room := buffered accepted
  rw [queueIo, dpartGetOffset] at run
  by_cases behind : p.pLen ≤ f.fPos
  · by_cases eof : f.fPos = p.pLen <;> simp [behind, eof] at run
  have before : f.fPos.toNat < p.pLen.toNat := BitVec.lt_def.mp (BitVec.not_le.mp behind)
  simp only [behind, if_false, Option.some.injEq] at run
  obtain rfl := run
  have left : (p.pLen - f.fPos).toNat = p.pLen.toNat - f.fPos.toNat := by
    rw [BitVec.toNat_sub]
    omega
  have count : (if p.pLen - f.fPos < m.mArg then p.pLen - f.fPos else m.mArg).toNat =
      min m.mArg.toNat (p.pLen.toNat - f.fPos.toNat) := by
    split_ifs with less
    · rw [BitVec.lt_def] at less
      omega
    · have := mt BitVec.lt_def.mpr less
      omega
  have start : (f.fPos + p.pOff).toNat = f.fPos.toNat + p.pOff.toNat := by
    rw [BitVec.toNat_add]
    omega
  constructor
  · rw [start]
    exact Nat.le_add_left _ _
  · rw [start, count]
    have := Nat.min_le_right m.mArg.toNat (p.pLen.toNat - f.fPos.toNat)
    omega
  · rw [count]
    by_cases own : m.mNseg = 0
    · rw [if_pos own]
      exact Nat.mul_le_mul_right _ (Nat.min_le_left _ _)
    · rw [if_neg own]
      exact room own

/-- **The partitions of a disk are right** when its tables meet the condition. The scan ends; at
every time in it the partitions that are valid begin at their table's sector and their entry's
start, with what is skipped, have names of their own, and lie on the disk; and a transfer that is
queued for one stays in it and in its buffer, where a buffer that comes with it is as long as is
asked for. -/
theorem partitions_right (d : Drive)
    (meets : ∀ n, (d.after n).phase = .reading → d.Fits (d.after n)) :
    (∃ n, (d.after n).phase = .finished) ∧ ∀ n, d.Right (d.after n).scan.partition ∧
      ∀ k p, (d.after n).scan.partition k = some p → p.pVal = true →
        ∀ m f q, Buffered p m f → wdRwb p m f = some q → q.Inside p := by
  refine ⟨exists_finished meets, fun n => ?_⟩
  have right := (after_sound meets n).1.good.right
  exact ⟨right, fun k p there valid m f q => transfer_inside (right.within k p there valid)⟩

/-- A sector with an entry in its table. -/
def tableOf (psType start len : UChar) : Sector := fun i =>
  if i = 0x1be + 4 then psType else if i = 0x1be + 8 then start else if i = 0x1be + 12 then len
  else if i = 0x1fe then 0x55 else if i = 0x1ff then 0xAA else 0

/-- A drive with two sectors that are not empty. -/
def driveOf (first fifth : Sector) : Drive :=
  ⟨['w', 'd'], 0, fun n => if n = 0 then first else if n = 5 then fifth else fun _ => 0, 1000,
    fun _ => true, fun _ => 0, 0⟩

/-- A disk with one DOS partition. -/
def plain : Drive := driveOf (tableOf 0x06 63 100) fun _ => 0

theorem partitions_right_plain : ∃ n, (plain.after n).phase = .finished := by
  refine (partitions_right plain fun n reading => ?_).1
  have done : ∀ n, (plain.after (n + 1)).phase = .finished := by
    intro n
    induction n with
    | zero => decide
    | succ n ih => rw [Drive.after, next_of_not_reading (ih ▸ nofun), ih]
  cases n with
  | zero =>
      have known : ∀ x < NPART, IsPart (partAt (plain.sector 0) x) →
          kindOf (partAt (plain.sector 0) x).psType ≠ none := by decide
      exact ⟨by decide, nofun, .inl rfl, by decide,
        fun x below is_ none_ => absurd none_ (known x below is_)⟩
  | succ n => exact absurd ((done n).symm.trans reading) nofun

/-- A disk whose first table has nothing but an extended partition, in which there is a DOS
partition. -/
def nested : Drive := driveOf (tableOf PT_EXT 5 100) (tableOf 0x06 1 10)

/-- **A base that is forgotten**: the extended partition's table is read when the next slot is still
the first one, and the partition that it has is taken to begin at sector 1, and not at 6. -/
theorem base_forgotten : ¬ nested.Right (nested.after 2).scan.partition := by
  intro right
  have there : ((nested.after 2).scan.partition 1).map
      (fun p => (p.pVal, p.pOff, p.table, p.entry, p.pType)) = some (true, 1, 5, 0, 6) := by
    decide
  obtain ⟨p, is, same⟩ := Option.map_eq_some_iff.mp there
  obtain ⟨valid, off, table, entry, type_⟩ : p.pVal = true ∧ p.pOff = 1 ∧ p.table = 5 ∧
      p.entry = 0 ∧ p.pType = 6 := by simpa using same
  have found := right.found 1 p (by decide) is valid
  rw [Drive.Found, off, table, entry, type_] at found
  exact absurd found (by decide)

end Vsta.Wd
