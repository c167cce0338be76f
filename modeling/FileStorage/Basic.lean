import Mathlib.Algebra.Group.Int.Defs
import Mathlib.Algebra.Group.Nat.Defs
import Mathlib.Logic.Basic

/-! # Error codes, undefined behaviour and integer conversions

What the modules share: the `errno` values the sources set, the kinds of
undefined behaviour they can run into, and the conversions between the C integer
types at their interfaces.
-/

namespace FileStorage

/-- The `errno` values of the sources. `bubbled` stands for whatever value an
    earlier call left in `errno`. -/
inductive Errno where
  | E2BIG | EACCES | EBADF | EBADMSG | EBUSY | EDEADLK | EDQUOT | EEXIST | EINVAL | EMFILE
  | ENFILE | ENOENT | ENOMEM | EPERM | EPIPE | bubbled
  deriving DecidableEq, Repr

/-- The kinds of undefined behaviour the model tells apart. -/
inductive Fault where
  /-- a member of a null pointer is accessed -/
  | nullPointer
  /-- an artifact is decoded that a decode or a removal has already freed -/
  | decodeFreed
  /-- an artifact is destroyed that has already been freed -/
  | destroyFreed
  /-- a pointer to decompressed bytes is used as a pointer to an artifact -/
  | notArtifact
  /-- a thread continues on an inode that has been freed while it waited -/
  | inodeFreed
  /-- a signed integer of the source overflows -/
  | overflow
  /-- memory beyond the end of a buffer is read -/
  | readOutside
  /-- memory beyond the end of a buffer is written -/
  | writeOutside
  /-- memory is freed that was not allocated -/
  | freeUnallocated
  /-- a loop of the model ran out of its bound -/
  | unbounded
  deriving DecidableEq, Repr

/-- Why a function without state gives no value. -/
inductive Failure where
  | errno (code : Errno)
  | fault (why : Fault)
  deriving DecidableEq, Repr

/-- A file name: the characters of a C string without the terminating NUL. -/
abbrev Filename := List Int8

instance : LawfulBEq Filename := inferInstance

/-- A process id, an `unsigned int`. The server passes socket numbers. -/
abbrev Pid := UInt32

def asInt (pid : Pid) : Int := pid.toInt32.toInt

/-- The value of an integer stored in an `int`. -/
@[irreducible] def toInt32 (x : Int) : Int := x.bmod (2 ^ 32)

/-- The value of an integer stored in an `unsigned int`. -/
@[irreducible] def toUnsigned32 (x : Int) : Nat := (x % 2 ^ 32).toNat

/-- The value of an integer stored in an `unsigned long long`. -/
@[irreducible] def toUnsigned64 (x : Int) : Nat := (x % 2 ^ 64).toNat

theorem toInt32_of_range {x : Int} (low : -2 ^ 31 ≤ x) (high : x < 2 ^ 31) : toInt32 x = x := by
  unfold toInt32
  rw [Int.bmod_eq_of_le] <;> omega

theorem toInt32_of_small {x : Nat} (small : x < 2 ^ 31) : toInt32 x = x :=
  toInt32_of_range (by omega) (by omega)

theorem toInt32_range (x : Int) : -2 ^ 31 ≤ toInt32 x ∧ toInt32 x < 2 ^ 31 := by
  unfold toInt32
  have low := Int.le_bmod (x := x) (m := 2 ^ 32) (by decide)
  have high := Int.bmod_lt (x := x) (m := 2 ^ 32) (by decide)
  omega

theorem toUnsigned64_of_nat {n : Nat} (small : n < 2 ^ 64) : toUnsigned64 n = n := by
  unfold toUnsigned64
  omega

theorem asInt_inj {p q : Pid} : asInt p = asInt q ↔ p = q := by
  constructor
  · intro same
    have word : p.toInt32.toUInt32 = q.toInt32.toUInt32 := congrArg _ (Int32.toInt_inj.mp same)
    simpa using word
  · rintro rfl
    rfl

@[simp] theorem asInt_zero : asInt 0 = 0 := by decide

end FileStorage
