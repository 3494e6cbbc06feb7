import Vsta.Basic

/-!
# The file requests of the vstafs server

The messages of the server's clients and what each handler of a file operation sends back
(`open.c`, `rw.c`, `stat.c`, and `do_wstat` of `lib/statsup.c`). What a handler finds on the
way (a header in core, a permission, an entry of a directory) is an argument, an outcome; which
answer follows from it is the handler's. A handler sends back a list of answers, in the
order in which it calls `msg_reply` and `msg_err`.
-/

set_option autoImplicit false

namespace Vsta.Vstafs

/-- The kernel's name of a connection. -/
abbrev Handle := ULong

/-- Operations of a message. -/
inductive Op where
  | M_CONNECT | M_DISCONNECT | M_DUP | M_ABORT
  | FS_OPEN | FS_ABSREAD | FS_READ | FS_ABSWRITE | FS_WRITE | FS_SEEK | FS_REMOVE | FS_STAT
  | FS_WSTAT | FS_FID | FS_RENAME | unknown
  deriving DecidableEq, Repr

/-- A message. The first segment is `m_buf`. -/
structure Msg where
  mOp : Op
  mSender : Handle
  mArg : ULong
  mArg1 : ULong
  mSeg : List (List UChar)
  deriving DecidableEq, Repr

/-- `m_buf` and `m_buflen`. -/
def Msg.mBuf (m : Msg) : List UChar := m.mSeg.headD []

/-- The errors the server names; `strerror` is that of the system call that failed. -/
inductive FsErr where
  | EINVAL | ENOMEM | ESRCH | EBUSY | EROFS | EPERM | ENOTDIR | EIO | EAGAIN | strerror
  deriving DecidableEq, Repr

/-- How a message is answered. -/
inductive Answer where
  | accept | reply | err (e : FsErr)
  deriving DecidableEq, Repr

/-- An answer on its way to a connection. -/
structure Sent where
  who : Handle
  answer : Answer
  deriving DecidableEq, Repr

open FsErr ( EIO)

def msgAccept (who : Handle) : Sent := ⟨who, .accept⟩
def msgReply (who : Handle) : Sent := ⟨who, .reply⟩
def msgErr (who : Handle) (e : FsErr) : Sent := ⟨who, .err e⟩

abbrev ACC_WRITE : ULong := 0x2
abbrev ACC_READ : ULong := 0x4
abbrev ACC_CREATE : ULong := 0x10
abbrev ACC_CHMOD : ULong := 0x40

/-- Bytes of a stat message. -/
abbrev MAXSTAT : ℕ := 256

/-- A bit of a word is on. -/
def has (word bit : ULong) : Bool := word &&& bit != 0

/-- `valid_fname`: at most 128 bytes, and a terminating null. With no byte at all the code reads the
one in front of the buffer. -/
def validFname (before : UChar) (buf : List UChar) : Bool :=
  buf.length ≤ 128 && (before :: buf).getLast (by simp) == 0

/-! ## Opening -/

/-- What `vfs_open` finds: the header of the directory, its type, a version in the name, the entry,
the permission to create, the new file, the permission that is wanted, and whether the file may
be truncated. -/
structure OpenOutcome where
  header : Bool
  isDir : Bool
  rev : Bool
  found : Bool
  mayCreate : Bool
  created : Bool
  permitted : Bool
  truncatable : Bool
  deriving DecidableEq, Repr

/-- `vfs_open`. -/
def vfsOpen (roflag : Bool) (x : OpenOutcome) (m : Msg) : List Sent :=
  if !x.header then [msgErr m.mSender .strerror]
  else if !x.isDir then [msgErr m.mSender .ENOTDIR]
  else
    -- mode 0 means read access
    let mArg := if m.mArg = 0 then ACC_READ else m.mArg
    if x.rev && has mArg ACC_CREATE then [msgErr m.mSender .EINVAL]
    else if !x.found && !has mArg ACC_CREATE then [msgErr m.mSender .ESRCH]
    else if !x.found then
      if !x.mayCreate then [msgErr m.mSender .EPERM]
      else if roflag then [msgErr m.mSender .EROFS]
      else if !x.created then [msgErr m.mSender .ENOMEM]
      else [msgReply m.mSender]
    else
      let want := mArg &&& (ACC_READ ||| ACC_WRITE ||| ACC_CHMOD)
      if !x.permitted then [msgErr m.mSender .EPERM]
      else if roflag && has want (ACC_WRITE ||| ACC_CREATE ||| ACC_CHMOD) then
        [msgErr m.mSender .EROFS]
      else if has mArg ACC_CREATE && !x.truncatable then [msgErr m.mSender .EPERM]
      else [msgReply m.mSender]

/-! ## Positions, reading and writing -/

/-- `vfs_seek`. -/
def vfsSeek (m : Msg) : List Sent :=
  if m.mArg.slt 0 then [msgErr m.mSender .EINVAL] else [msgReply m.mSender]

/-- What `vfs_read` and `vfs_readdir` find: the header, the permission, the type, the end of
the file, memory for the names and the header once more. -/
structure ReadOutcome where
  header : Bool
  readable : Bool
  isDir : Bool
  eof : Bool
  buf : Bool
  dirHeader : Bool
  deriving DecidableEq, Repr

/-- `vfs_readdir`. -/
def vfsReaddir (x : ReadOutcome) (m : Msg) : List Sent :=
  if !x.buf then [msgErr m.mSender .strerror]
  else if !x.dirHeader then [msgErr m.mSender EIO]
  else [msgReply m.mSender]

/-- `vfs_read`. -/
def vfsRead (x : ReadOutcome) (m : Msg) : List Sent :=
  if !x.header then [msgErr m.mSender EIO]
  else if !x.readable then [msgErr m.mSender .EPERM]
  else if x.isDir then vfsReaddir x m
  else if x.eof then [msgReply m.mSender]
  else [msgReply m.mSender]

/-- What `vfs_write` finds: a file open for writing, and how many segments `do_write` writes before
it fails. -/
structure WriteOutcome where
  writable : Bool
  written : ℕ
  deriving DecidableEq, Repr

/-- The count of bytes the loop of `vfs_write` has written, and whether a segment failed. -/
def writeSegs (written : ℕ) (segs : List (List UChar)) : ULong × Bool :=
  (((segs.take written).map fun seg => BitVec.ofNat 32 seg.length).sum, written < segs.length)

/-- `vfs_write`. -/
def vfsWrite (x : WriteOutcome) (m : Msg) : List Sent :=
  if !x.writable then [msgErr m.mSender .EPERM]
  else
    let (cnt, err) := writeSegs x.written m.mSeg
    if cnt = 0 ∧ err then [msgErr m.mSender .strerror] else [msgReply m.mSender]

/-! ## Removing -/

/-- What `vfs_remove` finds: the header of the directory, its type, the entry, the permission, the
header of the file, a directory that is in use, and a version that is mapped. -/
structure RemoveOutcome where
  header : Bool
  isDir : Bool
  found : Bool
  permitted : Bool
  fileHeader : Bool
  inUse : Bool
  hashed : Bool
  deriving DecidableEq, Repr

/-- The error `vfs_remove` ends with. -/
def RemoveOutcome.err (roflag : Bool) (x : RemoveOutcome) : Option FsErr :=
  if !x.isDir then some .ENOTDIR
  else if !x.found then some .ESRCH
  else if !x.permitted then some .EPERM
  else if roflag then some .EROFS
  else if !x.fileHeader then some .strerror
  else if x.inUse then some .EBUSY
  else if x.hashed then some .EAGAIN
  else none

/-- `vfs_remove`. -/
def vfsRemove (roflag : Bool) (x : RemoveOutcome) (m : Msg) : List Sent :=
  if !x.header then [msgErr m.mSender .strerror]
  else match x.err roflag with
    | some e => [msgErr m.mSender e]
    | none => [msgReply m.mSender]

/-! ## Attributes -/

/-- `vfs_stat`, with or without the permission. -/
def vfsStat (permitted : Bool) (m : Msg) : List Sent :=
  if !permitted then [msgErr m.mSender .EPERM] else [msgReply m.mSender]

/-- What `vfs_wstat` and `do_wstat` find: the permission of each, a field name and value, and
whether the field is one of the common ones or `mtime`. -/
structure WstatOutcome where
  permitted : Bool
  chmod : Bool
  parsed : Bool
  common : Bool
  mtime : Bool
  deriving DecidableEq, Repr

/-- `do_wstat`: what it sends, and whether the field is left to its caller. -/
def doWstat (x : WstatOutcome) (m : Msg) : List Sent × Bool :=
  if !x.chmod then ([msgErr m.mSender .EPERM], false)
  else if m.mSeg.length ≠ 1 ∨ MAXSTAT < m.mBuf.length then ([msgErr m.mSender .EINVAL], false)
  else if !x.parsed then ([msgErr m.mSender .EINVAL], false)
  else if !x.common then ([], true)
  else ([msgReply m.mSender], false)

/-- `vfs_wstat`. -/
def vfsWstat (roflag : Bool) (x : WstatOutcome) (m : Msg) : List Sent :=
  if !x.permitted then [msgErr m.mSender .EPERM]
  else if roflag then [msgErr m.mSender .EROFS]
  else
    let (sent, left) := doWstat x m
    if !left then sent
    else if x.mtime then sent ++ [msgReply m.mSender]
    else sent ++ [msgErr m.mSender .EINVAL]

/-- `vfs_fid`: only files get an ID. -/
def vfsFid (isDir : Bool) (m : Msg) : List Sent :=
  if isDir then [msgErr m.mSender .EINVAL] else [msgReply m.mSender]

/-! ## Each request is answered once -/

/-- One answer, to the sender, and not that of a connection. -/
def Once (m : Msg) (sent : List Sent) : Prop :=
  ∃ answer, answer ≠ .accept ∧ sent = [⟨m.mSender, answer⟩]

theorem once_reply (m : Msg) : Once m [msgReply m.mSender] := ⟨.reply, by simp, rfl⟩

theorem once_err (m : Msg) (e : FsErr) : Once m [msgErr m.mSender e] := ⟨.err e, by simp, rfl⟩

/-- Whichever way a handler goes on. -/
theorem once_ite {m : Msg} {c : Prop} [Decidable c] {sent sent' : List Sent}
    (yes : Once m sent) (no : Once m sent') : Once m (if c then sent else sent') := by
  by_cases holds : c
  · rwa [if_pos holds]
  · rwa [if_neg holds]

theorem vfsOpen_once (roflag : Bool) (x : OpenOutcome) (m : Msg) :
    Once m (vfsOpen roflag x m) := by
  unfold vfsOpen
  dsimp only
  repeat' apply once_ite
  all_goals first | exact once_reply m | exact once_err m _

theorem vfsSeek_once (m : Msg) : Once m (vfsSeek m) :=
  once_ite (once_err m _) (once_reply m)

theorem vfsRead_once (x : ReadOutcome) (m : Msg) : Once m (vfsRead x m) := by
  unfold vfsRead vfsReaddir
  repeat' apply once_ite
  all_goals first | exact once_reply m | exact once_err m _

theorem vfsWrite_once (x : WriteOutcome) (m : Msg) : Once m (vfsWrite x m) :=
  once_ite (once_err m _) (once_ite (once_err m _) (once_reply m))

theorem vfsRemove_once (roflag : Bool) (x : RemoveOutcome) (m : Msg) :
    Once m (vfsRemove roflag x m) := by
  refine once_ite (once_err m _) ?_
  cases x.err roflag with
  | some e => exact once_err m e
  | none => exact once_reply m

theorem vfsStat_once (permitted : Bool) (m : Msg) : Once m (vfsStat permitted m) :=
  once_ite (once_err m _) (once_reply m)

/-- `do_wstat` answers what it does not leave to its caller. -/
theorem doWstat_once (x : WstatOutcome) (m : Msg) :
    ((doWstat x m).2 = true ∧ (doWstat x m).1 = []) ∨
      ((doWstat x m).2 = false ∧ Once m (doWstat x m).1) := by
  rw [doWstat]
  split_ifs
  · exact .inr ⟨rfl, once_err m _⟩
  · exact .inr ⟨rfl, once_err m _⟩
  · exact .inr ⟨rfl, once_err m _⟩
  · exact .inl ⟨rfl, rfl⟩
  · exact .inr ⟨rfl, once_reply m⟩

theorem vfsWstat_once (roflag : Bool) (x : WstatOutcome) (m : Msg) :
    Once m (vfsWstat roflag x m) := by
  refine once_ite (once_err m _) (once_ite (once_err m _) ?_)
  rcases doWstat_once x m with ⟨left, nothing⟩ | ⟨done, once⟩
  · simp only [left, nothing, Bool.not_true, Bool.false_eq_true, if_false, List.nil_append]
    exact once_ite (once_reply m) (once_err m _)
  · simpa only [done, Bool.not_false, if_true] using once

theorem vfsFid_once (isDir : Bool) (m : Msg) : Once m (vfsFid isDir m) :=
  once_ite (once_err m _) (once_reply m)

end Vsta.Vstafs
