import FileStorage.Message.Text
import Mathlib.Algebra.Order.BigOperators.Group.List

/-! # The message layouts

The six structures a request or a response carries, how each is written to bytes
and how it is read back. Numbers and lengths are decimal fields of ten
characters, strings follow their length, raw bytes follow a NUL. The sizes are of
type `int`: messages too large for it find no room or overflow. A pointer that may be
null is an option.

A decoder returns the structure it has filled, also when it reports an error,
since not every caller looks at its result. The variable that receives a length
is not initialised: `garbage` is what it holds when nothing is scanned into it.
-/

namespace FileStorage

/-- `struct gnl_message_n`. -/
structure MessageN where
  number : Int
  deriving DecidableEq

/-- `struct gnl_message_s`. -/
structure MessageS where
  string : Option CString
  deriving DecidableEq

/-- `struct gnl_message_sn`. -/
structure MessageSn where
  string : Option CString
  number : Int
  deriving DecidableEq

/-- `struct gnl_message_nnb`. -/
structure MessageNnb where
  number : Int
  count : Nat
  bytes : Option (List UInt8)
  deriving DecidableEq

/-- `struct gnl_message_snb`. -/
structure MessageSnb where
  string : Option CString
  count : Nat
  bytes : Option (List UInt8)
  deriving DecidableEq

/-- `struct gnl_message_nq`. -/
structure MessageNq where
  number : Int
  queue : List MessageSnb
  deriving DecidableEq

/-! ## Writing -/

def deref {α : Type} : Option α → Except Failure α
  | none => .error (.fault .nullPointer)
  | some value => .ok value

/-- A size that is added up in an `int`. -/
def sized (size : Nat) : Except Failure Unit :=
  if size < 2 ^ 31 then .ok () else .error (.fault .overflow)

/-- The room for a message, whose size is stored in an `int` before `added` is added to
    it. No room is found for a negative size. A size that wraps around to a smaller one
    is not followed any further. -/
def allocated (size added : Nat) : Except Failure Unit :=
  if size + added < 2 ^ 31 then .ok ()
  else if toInt32 size + added < 0 then .error (.errno .ENOMEM)
  else .error (.fault .overflow)

/-- `memcpy` of the bytes of a message into its destination. -/
def copyBytes (bytes : Option (List UInt8)) (count : Nat) : Except Failure (List UInt8) :=
  match bytes with
  | none => if count = 0 then .ok [] else .error (.fault .nullPointer)
  | some bytes =>
      if count ≤ bytes.length then .ok (bytes.take count) else .error (.fault .readOutside)

def MessageN.toString (message : MessageN) : Except Failure (List UInt8) :=
  .ok (snprintf 11 (Decimal.format 10 message.number))

def MessageS.toString (message : MessageS) : Except Failure (List UInt8) := do
  let string ← deref message.string
  allocated (10 + string.length) 1
  return snprintf (10 + string.length + 1) (Decimal.padded 10 string.length ++ string.chars)

def MessageSn.toString (message : MessageSn) : Except Failure (List UInt8) := do
  let string ← deref message.string
  allocated (10 + string.length + 10) 1
  return snprintf (10 + string.length + 10 + 1)
    (Decimal.padded 10 string.length ++ string.chars ++ Decimal.format 10 message.number)

def MessageNnb.toString (message : MessageNnb) : Except Failure (List UInt8) := do
  allocated (10 + 10 + message.count + 1) 0
  let bytes ← copyBytes message.bytes message.count
  return snprintf 21 (Decimal.format 10 message.number ++ Decimal.padded 10 message.count) ++ bytes

def MessageSnb.toString (message : MessageSnb) : Except Failure (List UInt8) := do
  let string ← deref message.string
  allocated (10 + string.length + 10 + message.count + 1) 0
  let bytes ← copyBytes message.bytes message.count
  return snprintf (10 + string.length + 10 + 1) (Decimal.padded 10 string.length ++
    string.chars ++ Decimal.padded 10 message.count) ++ bytes

/-- The loop of `gnl_message_nq_to_string`: each message is dequeued, written
    behind the ones before it and enqueued in the new queue. -/
def MessageNq.drain : List MessageSnb → List UInt8 → List MessageSnb →
    Except Failure (List UInt8 × List MessageSnb)
  | [], dest, newQueue => .ok (dest, newQueue)
  | message :: queue, dest, newQueue => do
      let text ← message.toString
      sized (dest.length + text.length)
      drain queue (dest ++ text) (newQueue ++ [message])

/-- `gnl_message_nq_to_string`. The NUL behind the number is not part of the size. -/
def MessageNq.toString (message : MessageNq) : Except Failure (List UInt8 × MessageNq) := do
  let dest := (snprintf 11 (Decimal.format 10 message.number)).take 10
  let (dest, queue) ← drain message.queue dest []
  return (dest, { message with queue })

/-! ## Reading -/

/-- The length a `%10lu` conversion stores. -/
def scannedLength (garbage : Nat) (text : CString) : Nat :=
  ((scanUnsigned text.chars).map Prod.fst).getD garbage

/-- Allocate a string of a given length and copy it. No string is the null
    pointer of a failed allocation. -/
def copyString (source : List UInt8) (length : Nat) : Except Fault (Option CString) :=
  if callocs ((length + 1) % 2 ^ 64) then do
    let string ← strncpy source length
    if length + 1 < 2 ^ 64 then .ok (some string) else .error .writeOutside
  else .ok none

/-- A number of ten characters. When there are no digits the error branch frees
    the end pointer, which points to a local array. -/
def readNumber (source : List UInt8) : Except Fault Int := do
  let text ← strncpy source 10
  match strtol text with
  | none => .error .freeUnallocated
  | some number => .ok number

def MessageN.fromString (message : List UInt8) : Except Fault (Option Errno × MessageN) := do
  let number ← readNumber message
  return (none, { number := toInt32 number })

def MessageS.fromString (garbage : Nat) (message : List UInt8) :
    Except Fault (Option Errno × MessageS) := do
  let text ← stringAt message
  match ← copyString (message.drop 10) (scannedLength garbage text) with
  | none => return (some .ENOMEM, { string := none })
  | some string => return (none, { string := some string })

def MessageSn.fromString (garbage : Nat) (message : List UInt8) :
    Except Fault (Option Errno × MessageSn) := do
  let text ← stringAt message
  let length := scannedLength garbage text
  match ← copyString (message.drop 10) length with
  | none => return (some .ENOMEM, { string := none, number := 0 })
  | some string =>
      let number ← readNumber (message.drop (10 + length))
      return (none, { string := some string, number := toInt32 number })

/-- A `sscanf` of a number and a count: what is not scanned is left as it was. -/
def scanNumberAndCount (unset : Int × Nat) (text : CString) : Int × Nat :=
  match scanSigned text.chars with
  | none => unset
  | some (number, rest) => (number, ((scanUnsigned rest).map Prod.fst).getD unset.2)

/-- `gnl_message_nnb_from_string`. The structure is initialised with zeros. -/
def MessageNnb.fromString (message : List UInt8) :
    Except Fault (Option Errno × MessageNnb) := do
  let text ← stringAt message
  let (number, count) := scanNumberAndCount (0, 0) text
  if callocs count then
    let bytes ← memcpy (message.drop (10 + 10 + 1)) count
    return (none, { number, count, bytes := some bytes })
  else return (some .ENOMEM, { number, count, bytes := none })

def MessageSnb.fromString (garbage : Nat) (message : List UInt8) :
    Except Fault (Option Errno × MessageSnb) := do
  let text ← stringAt message
  let length := scannedLength garbage text
  match ← copyString (message.drop 10) length with
  | none => return (some .ENOMEM, { string := none, count := 0, bytes := none })
  | some string =>
      let number ← readNumber (message.drop (10 + length))
      let count := toUnsigned64 number
      if callocs count then
        let bytes ← memcpy (message.drop (10 + length + 10 + 1)) count
        return (none, { string := some string, count, bytes := some bytes })
      else return (some .ENOMEM, { string := some string, count, bytes := none })

def MessageSnb.size (message : MessageSnb) : Nat :=
  10 + message.string.elim 0 CString.length + 10 + message.count + 1

def MessageNq.decode (garbage : Nat → Nat) (message : List UInt8) :
    (left offset : Nat) → List MessageSnb → Except Fault (Option Errno × List MessageSnb)
  | 0, _, queue => .ok (none, queue)
  | left + 1, offset, queue => do
      let (error, file) ← MessageSnb.fromString (garbage left) (message.drop offset)
      match error with
      | some code => return (some code, queue)
      | none =>
          if offset + file.size < 2 ^ 31 then
            decode garbage message left (offset + file.size) (queue ++ [file])
          else .error .overflow

def MessageNq.fromString (garbage : Nat → Nat) (message : List UInt8) :
    Except Fault (Option Errno × MessageNq) := do
  let number ← readNumber message
  let number := toInt32 number
  let (error, queue) ← decode garbage message number.toNat 10 []
  return (error, { number, queue })

/-! ## Fields -/

/-- The numbers that fit a field of ten characters and an `int`. -/
def InRange (x : Int) : Prop := -999999999 ≤ x ∧ x ≤ 2147483647

instance (x : Int) : Decidable (InRange x) :=
  inferInstanceAs (Decidable (-999999999 ≤ x ∧ x ≤ 2147483647))

theorem InRange.fits {x : Int} (range : InRange x) : Decimal.Fits 10 x := by
  rw [InRange] at range
  rw [Decimal.Fits]
  omega

theorem InRange.toInt32 {x : Int} (range : InRange x) : toInt32 x = x := by
  rw [InRange] at range
  exact toInt32_of_range (by omega) (by omega)

theorem InRange.length_format {x : Int} (range : InRange x) :
    (Decimal.format 10 x).length = 10 :=
  Decimal.length_format (by decide) range.fits

theorem length_padded_ten {n : Nat} (small : n < 2 ^ 31) : (Decimal.padded 10 n).length = 10 :=
  Decimal.length_padded (by omega)

theorem nul_not_mem_padded (width n : Nat) : 0 ∉ Decimal.padded width n := by
  intro member
  have isDigit := Decimal.isDigit_padded width n 0 member
  simp [Decimal.IsDigit] at isDigit

theorem nul_not_mem_format (width : Nat) (x : Int) : 0 ∉ Decimal.format width x := by
  rw [Decimal.format]
  split
  · rw [List.mem_cons, not_or]
    exact ⟨by decide, nul_not_mem_padded _ _⟩
  · exact nul_not_mem_padded _ _

theorem take_format {x : Int} (low : -2 ^ 31 ≤ x) (high : x < 2 ^ 31) :
    ∃ y, InRange y ∧ (Decimal.format 10 x).take 10 = Decimal.format 10 y := by
  by_cases range : InRange x
  · refine ⟨x, range, ?_⟩
    rw [List.take_of_length_le]
    rw [range.length_format]
  · rw [InRange] at range
    refine ⟨-(x.natAbs / 10 : Nat), by rw [InRange]; omega, ?_⟩
    have cut : (Decimal.padded 9 x.natAbs).take 9 = Decimal.padded 9 (x.natAbs / 10) :=
      Decimal.take_padded (by omega) (by omega)
    rw [Decimal.format, if_pos (by omega), List.take_succ_cons, cut, Decimal.format,
      if_pos (by omega), Int.natAbs_neg, Int.natAbs_natCast]

theorem snprintf_of_long {maxlen : Nat} {text : List UInt8} (positive : 0 < maxlen)
    (long : maxlen ≤ text.length + 1) : snprintf maxlen text = text.take (maxlen - 1) ++ [0] := by
  have length : (text.take (maxlen - 1)).length = maxlen - 1 := by
    rw [List.length_take]
    omega
  rw [snprintf, List.rightpad, length, show maxlen - (maxlen - 1) = 1 by omega]
  rfl

theorem readNumber_format {x : Int} (range : InRange x) (rest : List UInt8) :
    readNumber (Decimal.format 10 x ++ rest) = .ok x := by
  let field : CString := ⟨Decimal.format 10 x, nul_not_mem_format 10 x⟩
  have length : field.length = 10 := range.length_format
  have copied := strncpy_prefix field rest
  rw [length] at copied
  have scanned : strtol field = some x := by
    have read := Decimal.scan_format (by decide) range.fits []
    rw [List.append_nil] at read
    rw [strtol, length, read]
    rfl
  rw [readNumber]
  simp only [bind, Except.bind, show strncpy (Decimal.format 10 x ++ rest) 10 = .ok field from copied,
    scanned]

theorem readNumber_padded {n : Nat} (small : n < 2 ^ 31) (rest : List UInt8) :
    readNumber (Decimal.padded 10 n ++ rest) = .ok n := by
  have same : Decimal.padded 10 n = Decimal.format 10 n := by
    simp [Decimal.format]
  rw [same]
  exact readNumber_format (by rw [InRange]; omega) rest

theorem chars_upToNul_append {text : List UInt8} (no_nul : 0 ∉ text) (rest : List UInt8) :
    (CString.upToNul (text ++ rest)).chars = text ++ (CString.upToNul rest).chars := by
  rw [CString.chars_upToNul, CString.chars_upToNul]
  exact List.takeWhile_append_of_pos (CString.chars_ne_nul ⟨text, no_nul⟩)

theorem scanUnsigned_padded {n : Nat} (small : n < 2 ^ 31) (rest : List UInt8) :
    scanUnsigned (Decimal.padded 10 n ++ rest) = some (n, rest) := by
  have length := length_padded_ten small
  have scanned := Decimal.scan_digits (Decimal.isDigit_padded 10 n)
    (by intro nothing; simp [nothing] at length) rest
  rw [length, Decimal.value_padded] at scanned
  simp only [scanUnsigned, scanned, Option.map_some, toUnsigned64_of_nat (show n < 2 ^ 64 by omega)]

theorem scannedLength_padded {n : Nat} (small : n < 2 ^ 31) (garbage : Nat) (rest : List UInt8) :
    scannedLength garbage (.upToNul (Decimal.padded 10 n ++ rest)) = n := by
  rw [scannedLength, chars_upToNul_append (nul_not_mem_padded 10 n), scanUnsigned_padded small]
  rfl

theorem scanNumberAndCount_fields {number : Int} (range : InRange number) {count : Nat}
    (small : count < 2 ^ 31) (unset : Int × Nat) (rest : List UInt8) :
    scanNumberAndCount unset (.upToNul (Decimal.format 10 number ++ Decimal.padded 10 count ++
      rest)) = (number, count) := by
  rw [scanNumberAndCount, scanSigned, List.append_assoc,
    chars_upToNul_append (nul_not_mem_format 10 number),
    chars_upToNul_append (nul_not_mem_padded 10 count), Decimal.scan_format (by decide) range.fits]
  simp only [Option.map_some, range.toInt32, scanUnsigned_padded small, Option.getD_some]

theorem copyString_prefix (string : CString) (small : string.length < 2 ^ 31)
    (rest : List UInt8) : copyString (string.chars ++ rest) string.length = .ok (some string) := by
  have fits : callocs ((string.length + 1) % 2 ^ 64) := by
    rw [callocs]
    omega
  have bounded : string.length + 1 < 2 ^ 64 := by omega
  rw [copyString, if_pos fits, strncpy_prefix]
  simp only [bind, Except.bind, if_pos bounded]

theorem stringAt_of_mem {buffer : List UInt8} (member : 0 ∈ buffer) :
    stringAt buffer = .ok (.upToNul buffer) := if_pos member

theorem stringAt_ok {buffer : List UInt8} {text : CString} (ok : stringAt buffer = .ok text) :
    text = .upToNul buffer := by
  rw [stringAt] at ok
  split at ok
  · exact (Except.ok.inj ok).symm
  · cases ok

theorem bind_ok {ε α β : Type} {x : Except ε α} {f : α → Except ε β} {b : β}
    (ok : (x >>= f) = .ok b) : ∃ a, x = .ok a ∧ f a = .ok b := by
  cases x with
  | error why => cases ok
  | ok a => exact ⟨a, rfl, ok⟩

/-! ## Each layout is read back as it was written

A message is well formed when its pointers are set, its numbers fit their fields
and its size fits an `int`.
-/

theorem deref_some {α : Type} (value : α) : deref (some value) = .ok value := rfl

theorem sized_of_small {size : Nat} (small : size < 2 ^ 31) : sized size = .ok () := if_pos small

theorem allocated_of_small {size added : Nat} (small : size + added < 2 ^ 31) :
    allocated size added = .ok () := if_pos small

theorem copyBytes_all (bytes : List UInt8) : copyBytes (some bytes) bytes.length = .ok bytes := by
  simp [copyBytes]

namespace MessageN

def WellFormed (message : MessageN) : Prop := InRange message.number

variable {message : MessageN}

theorem toString_eq (wellFormed : message.WellFormed) :
    message.toString = .ok (Decimal.format 10 message.number ++ [0]) := by
  rw [toString, snprintf_of_length]
  rw [InRange.length_format wellFormed]

theorem fromString_field (wellFormed : message.WellFormed) (rest : List UInt8) :
    fromString (Decimal.format 10 message.number ++ rest) = .ok (none, message) := by
  rw [fromString, readNumber_format wellFormed]
  simp only [bind, Except.bind, pure, Except.pure, InRange.toInt32 wellFormed]

end MessageN

namespace MessageS

def WellFormed (message : MessageS) : Prop :=
  ∃ string : CString, message.string = some string ∧ 10 + string.length + 1 < 2 ^ 31

def layout (string : CString) : List UInt8 :=
  Decimal.padded 10 string.length ++ string.chars ++ [0]

variable {string : CString}

theorem toString_eq (small : 10 + string.length + 1 < 2 ^ 31) :
    MessageS.toString ⟨some string⟩ = .ok (layout string) := by
  have length := length_padded_ten (n := string.length) (by omega)
  have written : snprintf (10 + string.length + 1)
      (Decimal.padded 10 string.length ++ string.chars) = layout string := by
    rw [snprintf_of_length, layout]
    rw [List.length_append, length, CString.length]
  simp only [toString, deref_some, allocated_of_small small, bind, Except.bind, pure, Except.pure,
    written]

theorem fromString_layout (small : 10 + string.length + 1 < 2 ^ 31) (garbage : Nat) :
    fromString garbage (layout string) = .ok (none, ⟨some string⟩) := by
  have length := length_padded_ten (n := string.length) (by omega)
  have text : stringAt (layout string) = .ok (.upToNul (layout string)) :=
    stringAt_of_mem (by simp [layout])
  have scanned : scannedLength garbage (.upToNul (layout string)) = string.length := by
    rw [layout, List.append_assoc]
    exact scannedLength_padded (by omega) garbage _
  have behind : (layout string).drop 10 = string.chars ++ [0] := by
    rw [layout, List.append_assoc, List.drop_left' length]
  rw [fromString, text]
  simp only [bind, Except.bind, scanned, behind, copyString_prefix string (by omega)]
  rfl

end MessageS

namespace MessageSn

def WellFormed (message : MessageSn) : Prop :=
  (∃ string : CString, message.string = some string ∧ 10 + string.length + 10 + 1 < 2 ^ 31) ∧
    InRange message.number

def layout (string : CString) (number : Int) : List UInt8 :=
  Decimal.padded 10 string.length ++ string.chars ++ Decimal.format 10 number ++ [0]

variable {string : CString} {number : Int}

theorem toString_eq (small : 10 + string.length + 10 + 1 < 2 ^ 31) (range : InRange number) :
    MessageSn.toString ⟨some string, number⟩ = .ok (layout string number) := by
  have length := length_padded_ten (n := string.length) (by omega)
  have written : snprintf (10 + string.length + 10 + 1) (Decimal.padded 10 string.length ++
      string.chars ++ Decimal.format 10 number) = layout string number := by
    rw [snprintf_of_length, layout]
    rw [List.length_append, List.length_append, length, range.length_format, CString.length]
  simp only [toString, deref_some, allocated_of_small small, bind, Except.bind, pure, Except.pure,
    written]

theorem fromString_layout (small : 10 + string.length + 10 + 1 < 2 ^ 31) (range : InRange number)
    (garbage : Nat) :
    fromString garbage (layout string number) = .ok (none, ⟨some string, number⟩) := by
  have length := length_padded_ten (n := string.length) (by omega)
  have text : stringAt (layout string number) = .ok (.upToNul (layout string number)) :=
    stringAt_of_mem (by simp [layout])
  have scanned : scannedLength garbage (.upToNul (layout string number)) = string.length := by
    rw [layout, List.append_assoc, List.append_assoc]
    exact scannedLength_padded (by omega) garbage _
  have behind : (layout string number).drop 10 =
      string.chars ++ (Decimal.format 10 number ++ [0]) := by
    rw [layout, List.append_assoc, List.append_assoc, List.drop_left' length]
  have behindString : (layout string number).drop (10 + string.length) =
      Decimal.format 10 number ++ [0] := by
    rw [← List.drop_drop, behind, CString.length, List.drop_left]
  rw [fromString, text]
  simp only [bind, Except.bind, scanned, behind, behindString,
    copyString_prefix string (show string.length < 2 ^ 31 by omega), readNumber_format range,
    range.toInt32]
  rfl

end MessageSn

namespace MessageNnb

def WellFormed (message : MessageNnb) : Prop :=
  InRange message.number ∧ (∃ bytes, message.bytes = some bytes ∧ bytes.length = message.count) ∧
    10 + 10 + message.count + 1 < 2 ^ 31

def layout (number : Int) (bytes : List UInt8) : List UInt8 :=
  Decimal.format 10 number ++ Decimal.padded 10 bytes.length ++ [0] ++ bytes

variable {number : Int} {bytes : List UInt8}

theorem toString_eq (range : InRange number) (small : 10 + 10 + bytes.length + 1 < 2 ^ 31) :
    MessageNnb.toString ⟨number, bytes.length, some bytes⟩ = .ok (layout number bytes) := by
  have written : snprintf 21 (Decimal.format 10 number ++ Decimal.padded 10 bytes.length) =
      Decimal.format 10 number ++ Decimal.padded 10 bytes.length ++ [0] := by
    rw [snprintf_of_length]
    rw [List.length_append, range.length_format, length_padded_ten (by omega)]
  simp only [toString, allocated_of_small (show _ + 0 < 2 ^ 31 from small), bind, Except.bind, pure,
    Except.pure, copyBytes_all, written, layout]

theorem fromString_layout (range : InRange number) (small : 10 + 10 + bytes.length + 1 < 2 ^ 31) :
    fromString (layout number bytes) = .ok (none, ⟨number, bytes.length, some bytes⟩) := by
  have length := length_padded_ten (n := bytes.length) (by omega)
  have text : stringAt (layout number bytes) = .ok (.upToNul (layout number bytes)) :=
    stringAt_of_mem (by simp [layout])
  have scanned : scanNumberAndCount (0, 0) (.upToNul (layout number bytes)) =
      (number, bytes.length) := by
    rw [layout, List.append_assoc]
    exact scanNumberAndCount_fields range (by omega) (0, 0) _
  have behind : (layout number bytes).drop (10 + 10 + 1) = bytes := by
    rw [layout]
    apply List.drop_left'
    rw [List.length_append, List.length_append, range.length_format, length]
    rfl
  have fits : callocs bytes.length := by
    rw [callocs]
    omega
  rw [fromString, text]
  simp only [bind, Except.bind, scanned, behind, if_pos fits, memcpy_all]
  rfl

theorem fromString_ok {payload : List UInt8} {error : Option Errno}
    {message : MessageNnb} (ok : fromString payload = .ok (error, message)) :
    (message.number, message.count) = scanNumberAndCount (0, 0) (.upToNul payload) ∧
      (callocs message.count → ∃ bytes, message.bytes = some bytes ∧
        bytes.length = message.count) := by
  obtain ⟨text, read, ok⟩ := bind_ok ok
  rw [stringAt_ok read] at ok
  generalize scanNumberAndCount (0, 0) (.upToNul payload) = scanned at ok ⊢
  obtain ⟨number, count⟩ := scanned
  simp only at ok
  split at ok
  · obtain ⟨bytes, copied, ok⟩ := bind_ok ok
    obtain ⟨-, rfl⟩ := Prod.mk.inj (Except.ok.inj ok)
    refine ⟨rfl, fun _ => ⟨bytes, rfl, ?_⟩⟩
    rw [memcpy] at copied
    split at copied
    · rename_i inside
      rw [← Except.ok.inj copied, List.length_take, min_eq_left inside]
    · cases copied
  · rename_i fails
    obtain ⟨-, rfl⟩ := Prod.mk.inj (Except.ok.inj ok)
    exact ⟨rfl, fun fits => absurd fits fails⟩

end MessageNnb

namespace MessageSnb

def WellFormed (message : MessageSnb) : Prop :=
  (∃ string, message.string = some string) ∧
    (∃ bytes, message.bytes = some bytes ∧ bytes.length = message.count) ∧ message.size < 2 ^ 31

def layout (string : CString) (bytes : List UInt8) : List UInt8 :=
  Decimal.padded 10 string.length ++ string.chars ++ Decimal.padded 10 bytes.length ++ [0] ++ bytes

variable {string : CString} {bytes : List UInt8}

theorem length_layout (small : 10 + string.length + 10 + bytes.length + 1 < 2 ^ 31) :
    (layout string bytes).length = 10 + string.length + 10 + bytes.length + 1 := by
  have length := length_padded_ten (n := string.length) (by omega)
  have length' := length_padded_ten (n := bytes.length) (by omega)
  have chars : string.chars.length = string.length := rfl
  simp only [layout, List.length_append, List.length_singleton]
  omega

theorem toString_eq (small : 10 + string.length + 10 + bytes.length + 1 < 2 ^ 31) :
    MessageSnb.toString ⟨some string, bytes.length, some bytes⟩ = .ok (layout string bytes) := by
  have written : snprintf (10 + string.length + 10 + 1) (Decimal.padded 10 string.length ++
      string.chars ++ Decimal.padded 10 bytes.length) = Decimal.padded 10 string.length ++
      string.chars ++ Decimal.padded 10 bytes.length ++ [0] := by
    rw [snprintf_of_length]
    rw [List.length_append, List.length_append, length_padded_ten (by omega),
      length_padded_ten (by omega), CString.length]
  simp only [toString, deref_some, allocated_of_small (show _ + 0 < 2 ^ 31 from small), bind,
    Except.bind, pure, Except.pure, copyBytes_all, written, layout]

theorem fromString_layout (small : 10 + string.length + 10 + bytes.length + 1 < 2 ^ 31)
    (garbage : Nat) (rest : List UInt8) : fromString garbage (layout string bytes ++ rest) =
      .ok (none, ⟨some string, bytes.length, some bytes⟩) := by
  have length := length_padded_ten (n := string.length) (by omega)
  have length' := length_padded_ten (n := bytes.length) (by omega)
  have parts : layout string bytes ++ rest = Decimal.padded 10 string.length ++ (string.chars ++
      (Decimal.padded 10 bytes.length ++ ([0] ++ (bytes ++ rest)))) := by
    simp only [layout, List.append_assoc]
  have text : stringAt (layout string bytes ++ rest) =
      .ok (.upToNul (layout string bytes ++ rest)) :=
    stringAt_of_mem (by simp [layout])
  have scanned : scannedLength garbage (.upToNul (layout string bytes ++ rest)) =
      string.length := by
    rw [parts]
    exact scannedLength_padded (by omega) garbage _
  have behind : (layout string bytes ++ rest).drop 10 = string.chars ++
      (Decimal.padded 10 bytes.length ++ ([0] ++ (bytes ++ rest))) := by
    rw [parts, List.drop_left' length]
  have behindString : (layout string bytes ++ rest).drop (10 + string.length) =
      Decimal.padded 10 bytes.length ++ ([0] ++ (bytes ++ rest)) := by
    rw [← List.drop_drop, behind, CString.length, List.drop_left]
  have behindCount : (layout string bytes ++ rest).drop (10 + string.length + 10 + 1) =
      bytes ++ rest := by
    rw [Nat.add_assoc _ 10 1, ← List.drop_drop, behindString, ← List.drop_drop,
      List.drop_left' length']
    rfl
  have fits : callocs bytes.length := by
    rw [callocs]
    omega
  rw [fromString, text]
  simp only [bind, Except.bind, scanned, behind, behindString, behindCount,
    copyString_prefix string (show string.length < 2 ^ 31 by omega),
    readNumber_padded (show bytes.length < 2 ^ 31 by omega),
    toUnsigned64_of_nat (show bytes.length < 2 ^ 64 by omega), if_pos fits, memcpy_prefix]
  rfl

/-- A well-formed message is written in as many bytes as its size says and read
    back from them, whatever follows. -/
theorem WellFormed.roundTrip {message : MessageSnb} (wellFormed : message.WellFormed) :
    ∃ text, message.toString = .ok text ∧ text.length = message.size ∧
      ∀ garbage rest, fromString garbage (text ++ rest) = .ok (none, message) := by
  obtain ⟨string, count, bytes⟩ := message
  obtain ⟨⟨string, rfl⟩, ⟨bytes, rfl, rfl⟩, small⟩ := wellFormed
  exact ⟨layout string bytes, toString_eq small, length_layout small,
    fun garbage rest => fromString_layout small garbage rest⟩

end MessageSnb

namespace MessageNq

def WellFormed (message : MessageNq) : Prop :=
  message.number = message.queue.length ∧
    (∀ file ∈ message.queue, MessageSnb.WellFormed file) ∧
    10 + (message.queue.map MessageSnb.size).sum < 2 ^ 31

/-- The loop over the queue appends the bytes of the messages one after the other
    and rebuilds the queue; decoding from where it started finds the messages. -/
theorem drain_spec {queue : List MessageSnb} (files : ∀ file ∈ queue, MessageSnb.WellFormed file)
    {dest : List UInt8} (small : dest.length + (queue.map MessageSnb.size).sum < 2 ^ 31)
    (newQueue : List MessageSnb) :
    ∃ text, drain queue dest newQueue = .ok (dest ++ text, newQueue ++ queue) ∧
      ∀ garbage queue', decode garbage (dest ++ text) queue.length dest.length queue' =
        .ok (none, queue' ++ queue) := by
  induction queue generalizing dest newQueue with
  | nil =>
      refine ⟨[], ?_, fun garbage queue' => ?_⟩
      · simp only [drain, List.append_nil]
      · simp only [List.length_nil, decode, List.append_nil]
  | cons file queue ih =>
      obtain ⟨text, written, length, readBack⟩ := (files file List.mem_cons_self).roundTrip
      rw [List.map_cons, List.sum_cons] at small
      have fits : (dest ++ text).length + (queue.map MessageSnb.size).sum < 2 ^ 31 := by
        rw [List.length_append]
        omega
      obtain ⟨later, drained, decoded⟩ := ih
        (fun file member => files file (List.mem_cons_of_mem _ member)) fits (newQueue ++ [file])
      refine ⟨text ++ later, ?_, fun garbage queue' => ?_⟩
      · simp only [drain, written, bind, Except.bind,
          sized_of_small (show dest.length + text.length < 2 ^ 31 by omega), drained,
          List.append_assoc, List.singleton_append]
      · have start : (dest ++ (text ++ later)).drop dest.length = text ++ later := List.drop_left
        have next := decoded garbage (queue' ++ [file])
        rw [List.length_append, length, List.append_assoc] at next
        simp only [List.length_cons, decode, bind, Except.bind, start, readBack,
          if_pos (show dest.length + file.size < 2 ^ 31 by omega), next, List.append_assoc,
          List.singleton_append]

/-- A well-formed list of files is read back, and writing it leaves it as it was. -/
theorem WellFormed.roundTrip {message : MessageNq} (wellFormed : message.WellFormed) :
    ∃ text, message.toString = .ok (text, message) ∧
      ∀ garbage, fromString garbage text = .ok (none, message) := by
  obtain ⟨count, files, small⟩ := wellFormed
  have range : InRange message.number := by
    have many : (message.queue.map MessageSnb.size).length ≤
        (message.queue.map MessageSnb.size).sum := by
      apply List.length_le_sum_of_one_le
      intro size member
      obtain ⟨file, -, rfl⟩ := List.mem_map.mp member
      rw [MessageSnb.size]
      omega
    rw [List.length_map] at many
    rw [InRange]
    omega
  have length := range.length_format
  have field : (snprintf 11 (Decimal.format 10 message.number)).take 10 =
      Decimal.format 10 message.number := by
    rw [snprintf_of_length (by rw [length]), List.take_left' length]
  have fits : (Decimal.format 10 message.number).length +
      (message.queue.map MessageSnb.size).sum < 2 ^ 31 := by
    rw [length]
    exact small
  obtain ⟨text, drained, decoded⟩ := drain_spec files fits []
  refine ⟨Decimal.format 10 message.number ++ text, ?_, fun garbage => ?_⟩
  · simp only [toString, field, drained, bind, Except.bind, pure, Except.pure, List.nil_append]
  · have files := decoded garbage []
    rw [length] at files
    rw [fromString, readNumber_format range]
    have left : message.number.toNat = message.queue.length := by omega
    simp only [bind, Except.bind, pure, Except.pure, range.toInt32, left, files, List.nil_append]

end MessageNq

end FileStorage
