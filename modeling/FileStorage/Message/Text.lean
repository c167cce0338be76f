import FileStorage.Basic
import FileStorage.Lib.Decimal

/-! # Strings and buffers

The functions of the C library the messages are written and read with. A buffer
is the list of its bytes from a pointer to its end, so a function that would read
on behind the end faults. Allocations fail only when no object can be as large.
-/

namespace FileStorage

/-- A string: its characters without the terminating NUL. -/
structure CString where
  chars : List UInt8
  no_nul : 0 ∉ chars
  deriving DecidableEq

@[ext] theorem CString.ext {first second : CString} (same : first.chars = second.chars) :
    first = second := by
  cases first
  cases second
  simpa using same

def CString.length (string : CString) : Nat := string.chars.length

def CString.upToNul (buffer : List UInt8) : CString where
  chars := buffer.takeWhile (· ≠ 0)
  no_nul member := by simpa using List.mem_takeWhile_imp member

/-- The string at the start of a buffer, as `sscanf` takes it: the buffer has to
    hold its NUL. -/
def stringAt (buffer : List UInt8) : Except Fault CString :=
  if 0 ∈ buffer then .ok (.upToNul buffer) else .error .readOutside

/-- `strncpy` into a cleared destination: at most `n` characters, up to a NUL. -/
def strncpy (source : List UInt8) (n : Nat) : Except Fault CString :=
  if n ≤ source.length ∨ 0 ∈ source then .ok (.upToNul (source.take n)) else .error .readOutside

/-- `memcpy` from a buffer. -/
def memcpy (source : List UInt8) (n : Nat) : Except Fault (List UInt8) :=
  if n ≤ source.length then .ok (source.take n) else .error .readOutside

/-- Whether `calloc` finds memory: an object has at most `PTRDIFF_MAX` bytes. -/
def callocs (n : Nat) : Prop := n < 2 ^ 63

instance (n : Nat) : Decidable (callocs n) := inferInstanceAs (Decidable (n < 2 ^ 63))

def snprintf (maxlen : Nat) (text : List UInt8) : List UInt8 :=
  (text.take (maxlen - 1)).rightpad maxlen 0

/-- `strtol`, which sets its end pointer to the start when there are no digits.
    The sources pass at most ten characters, so no number is out of range. -/
def strtol (string : CString) : Option Int :=
  (Decimal.scan string.length string.chars).map Prod.fst

/-- `GNL_TO_INT`: the text needs a number in front, which has to be a `long`; only its low
    bits are taken. -/
def toInt (text : List UInt8) : Except Errno Int :=
  match Decimal.scan text.length text with
  | none => .error .EINVAL
  | some (x, _) => if -2 ^ 63 ≤ x ∧ x < 2 ^ 63 then .ok (toInt32 x) else .error .bubbled

/-- A `%10lu` conversion: what it stores and the text behind it. -/
def scanUnsigned (text : List UInt8) : Option (Nat × List UInt8) :=
  (Decimal.scan 10 text).map fun (x, rest) => (toUnsigned64 x, rest)

def scanSigned (text : List UInt8) : Option (Int × List UInt8) :=
  (Decimal.scan 10 text).map fun (x, rest) => (toInt32 x, rest)

/-! ## Reading what was written -/

theorem snprintf_of_length {maxlen : Nat} {text : List UInt8} (fills : text.length + 1 = maxlen) :
    snprintf maxlen text = text ++ [0] := by
  subst fills
  simp [snprintf, List.rightpad]

theorem CString.chars_upToNul (buffer : List UInt8) :
    (CString.upToNul buffer).chars = buffer.takeWhile (· ≠ 0) := rfl

theorem CString.chars_ne_nul (string : CString) : ∀ c ∈ string.chars, decide (c ≠ 0) = true := by
  intro c member
  apply decide_eq_true
  rintro rfl
  exact string.no_nul member

theorem CString.upToNul_self (string : CString) : CString.upToNul string.chars = string := by
  ext1
  rw [chars_upToNul, List.takeWhile_eq_self_iff]
  exact string.chars_ne_nul

theorem strncpy_prefix (string : CString) (rest : List UInt8) :
    strncpy (string.chars ++ rest) string.length = .ok string := by
  have inside : string.length ≤ (string.chars ++ rest).length := by simp [CString.length]
  rw [strncpy, if_pos (.inl inside), CString.length, List.take_left', string.upToNul_self]
  rfl

theorem memcpy_prefix (bytes rest : List UInt8) :
    memcpy (bytes ++ rest) bytes.length = .ok bytes := by
  simp [memcpy]

theorem memcpy_all (bytes : List UInt8) : memcpy bytes bytes.length = .ok bytes := by
  simp [memcpy]

theorem toInt_padded {n : Nat} (small : n < 2 ^ 31) : toInt (Decimal.padded 1 n) = .ok n := by
  have nonempty : Decimal.padded 1 n ≠ [] := by
    intro nothing
    have long := Decimal.width_le_length_padded 1 n
    rw [nothing] at long
    cases long
  have scanned := Decimal.scan_digits (Decimal.isDigit_padded 1 n) nonempty []
  rw [List.append_nil, Decimal.value_padded] at scanned
  rw [toInt, scanned]
  simp only []
  rw [if_pos (by omega), toInt32_of_small small]

end FileStorage
