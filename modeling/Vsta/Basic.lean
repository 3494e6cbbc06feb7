import Mathlib.Data.BitVec

/-!
# Types and limits shared by the kernel and the servers

The integer types of `sys/types.h`, the limits of `sys/param.h` and the error
strings of `sys/fs.h` that the modelled functions set.
-/

set_option autoImplicit false

namespace Vsta

abbrev UChar := BitVec 8
abbrev ULong := BitVec 32
abbrev Uint := BitVec 32

/-! The instances that the definitions on bytes, handles and signals use. -/

instance uchar_lawfulBEq : LawfulBEq UChar := inferInstance
instance ulong_lawfulBEq : LawfulBEq ULong := inferInstance
instance thirtyTwo_neZero : NeZero 32 := inferInstance

/-- Arithmetic of `uint` and `ulong`. -/
def wrap (n : ℕ) : ℕ := n % 2 ^ 32

theorem wrap_eq {n : ℕ} (small : n < 2 ^ 32) : wrap n = n := Nat.mod_eq_of_lt small

theorem wrap_le (n : ℕ) : wrap n ≤ n := Nat.mod_le _ _

/-- Levels of permission discrimination. -/
abbrev PERMLEN : Nat := 7

/-- Permissions per process. -/
abbrev PROCPERMS : Nat := 6

/-- Segments of a message. -/
abbrev MSGSEGS : Nat := 4

/-- Errors a system call can set. -/
inductive Errno where
  | EINVAL | EFAULT | EINTR | EPERM | EIO
  deriving DecidableEq, Repr

end Vsta
