import FileStorage.Socket.Request

/-! # Requests from untrusted peers

What the request decoder does with a payload that no encoder has written. It is
not told how long the payload is, and it takes lengths from the payload itself.
-/

namespace FileStorage

/-! ## Bounds -/

/-- A `strncpy` of `n` characters ends inside its source. -/
def Ends (source : List UInt8) (n : Nat) : Prop := n ≤ source.length ∨ 0 ∈ source

instance (source : List UInt8) (n : Nat) : Decidable (Ends source n) :=
  inferInstanceAs (Decidable (_ ∨ _))

def lengthField (payload : List UInt8) : Option Nat :=
  (scanUnsigned (CString.upToNul payload).chars).map Prod.fst

/-- The lengths in a payload stay inside it. A length for which no memory can be
    allocated does no harm, a missing one may be anything. -/
def LengthsInside (payload : List UInt8) : RequestType → Prop
  | .READ | .READ_N | .LOCK | .UNLOCK | .CLOSE => Ends payload 10
  | .REMOVE => 0 ∈ payload ∧
      let length := (lengthField payload).getD (2 ^ 64 - 1)
      (callocs ((length + 1) % 2 ^ 64) → Ends (payload.drop 10) length)
  | .OPEN => 0 ∈ payload ∧ ∃ length, lengthField payload = some length ∧
      (callocs ((length + 1) % 2 ^ 64) → Ends (payload.drop 10) length ∧
        (length + 1 < 2 ^ 64 → Ends (payload.drop (10 + length)) 10))
  | .WRITE => 0 ∈ payload ∧
      let count := (scanNumberAndCount (0, 0) (.upToNul payload)).2
      (callocs count → count ≤ (payload.drop 21).length)

/-- The decoder reads no byte behind the payload, whatever its variables hold
    before it writes them. -/
def StaysInside (payload : List UInt8) (type : RequestType) : Prop :=
  ∀ garbage < 2 ^ 64, Request.fromString garbage (some payload) type.code ≠
    .error (.fault .readOutside)

theorem strncpy_ne_readOutside (source : List UInt8) (n : Nat) :
    strncpy source n ≠ .error .readOutside ↔ Ends source n := by
  rw [strncpy]
  split
  · rename_i ends
    exact ⟨fun _ => ends, fun _ outside => by cases outside⟩
  · rename_i beyond
    exact ⟨fun inside => absurd rfl inside, fun ends => absurd ends beyond⟩

theorem bind_ne_error {ε α β : Type} {x : Except ε α} {f : α → Except ε β} {e : ε} :
    (x >>= f) ≠ .error e ↔ x ≠ .error e ∧ ∀ a, x = .ok a → f a ≠ .error e := by
  cases x with
  | error why =>
      constructor
      · intro other
        exact ⟨fun same => other (congrArg Except.error (Except.error.inj same)), nofun⟩
      · intro both same
        exact both.1 (congrArg Except.error (Except.error.inj same))
  | ok a =>
      constructor
      · intro other
        exact ⟨nofun, fun b same => Except.ok.inj same ▸ other⟩
      · intro both
        exact both.2 a rfl

theorem readNumber_ne_readOutside (source : List UInt8) :
    readNumber source ≠ .error .readOutside ↔ Ends source 10 := by
  rw [readNumber, bind_ne_error, strncpy_ne_readOutside]
  refine and_iff_left fun text _ => ?_
  cases strtol text <;> simp

theorem copyString_ne_readOutside (source : List UInt8) (length : Nat) :
    copyString source length ≠ .error .readOutside ↔
      (callocs ((length + 1) % 2 ^ 64) → Ends source length) := by
  rw [copyString]
  split
  · rename_i fits
    rw [bind_ne_error, strncpy_ne_readOutside, imp_iff_right fits]
    refine and_iff_left fun string _ => ?_
    split <;> intro outside <;> cases outside
  · rename_i fails
    exact ⟨fun _ fits => absurd fits fails, fun _ outside => by cases outside⟩

theorem stringAt_ne_readOutside (buffer : List UInt8) :
    stringAt buffer ≠ .error .readOutside ↔ 0 ∈ buffer := by
  rw [stringAt]
  split
  · rename_i member
    exact ⟨fun _ => member, fun _ outside => by cases outside⟩
  · rename_i missing
    exact ⟨fun inside => absurd rfl inside, fun member => absurd member missing⟩

theorem memcpy_ne_readOutside (source : List UInt8) (n : Nat) :
    memcpy source n ≠ .error .readOutside ↔ n ≤ source.length := by
  rw [memcpy]
  split
  · rename_i inside
    exact ⟨fun _ => inside, fun _ outside => by cases outside⟩
  · rename_i beyond
    exact ⟨fun inside => absurd rfl inside, fun inside => absurd inside beyond⟩

theorem copyString_some {source : List UInt8} {length : Nat} {string : CString}
    (ok : copyString source length = .ok (some string)) :
    callocs ((length + 1) % 2 ^ 64) ∧ length + 1 < 2 ^ 64 ∧ strncpy source length = .ok string := by
  rw [copyString] at ok
  split at ok
  · rename_i fits
    cases copied : strncpy source length with
    | error why =>
        rw [copied] at ok
        cases ok
    | ok text =>
        rw [copied] at ok
        simp only [bind, Except.bind] at ok
        split at ok
        · rename_i bounded
          exact ⟨fits, bounded, congrArg Except.ok (Option.some.inj (Except.ok.inj ok))⟩
        · cases ok
  · cases ok

theorem copyString_of_ends {source : List UInt8} {length : Nat}
    (fits : callocs ((length + 1) % 2 ^ 64)) (bounded : length + 1 < 2 ^ 64)
    (ends : Ends source length) :
    copyString source length = .ok (some (.upToNul (source.take length))) := by
  have copied : strncpy source length = .ok (.upToNul (source.take length)) := if_pos ends
  rw [copyString, if_pos fits, copied]
  simp only [bind, Except.bind, if_pos bounded]

/-! ## Which payloads each decoder stays in -/

theorem MessageN.stays (payload : List UInt8) :
    MessageN.fromString payload ≠ .error .readOutside ↔ Ends payload 10 := by
  rw [fromString, bind_ne_error, readNumber_ne_readOutside]
  exact and_iff_left fun _ _ outside => by cases outside

theorem MessageS.stays (garbage : Nat) (payload : List UInt8) :
    MessageS.fromString garbage payload ≠ .error .readOutside ↔ 0 ∈ payload ∧
      let length := (lengthField payload).getD garbage
      (callocs ((length + 1) % 2 ^ 64) → Ends (payload.drop 10) length) := by
  rw [fromString, bind_ne_error, stringAt_ne_readOutside]
  refine and_congr_right fun member => ?_
  have text : stringAt payload = .ok (.upToNul payload) := stringAt_of_mem member
  simp only [text, Except.ok.injEq, forall_eq', bind_ne_error, copyString_ne_readOutside]
  refine and_iff_left fun string _ => ?_
  cases string <;> intro outside <;> cases outside

theorem MessageSn.stays (garbage : Nat) (payload : List UInt8) :
    MessageSn.fromString garbage payload ≠ .error .readOutside ↔ 0 ∈ payload ∧
      let length := (lengthField payload).getD garbage
      (callocs ((length + 1) % 2 ^ 64) → Ends (payload.drop 10) length ∧
        (length + 1 < 2 ^ 64 → Ends (payload.drop (10 + length)) 10)) := by
  rw [fromString, bind_ne_error, stringAt_ne_readOutside]
  refine and_congr_right fun member => ?_
  have text : stringAt payload = .ok (.upToNul payload) := stringAt_of_mem member
  simp only [text, Except.ok.injEq, forall_eq', bind_ne_error, copyString_ne_readOutside]
  have scanned : scannedLength garbage (.upToNul payload) = (lengthField payload).getD garbage :=
    rfl
  rw [scanned]
  generalize (lengthField payload).getD garbage = length
  constructor
  · rintro ⟨copies, numbers⟩ fits
    refine ⟨copies fits, fun bounded => ?_⟩
    have copied := copyString_of_ends fits bounded (copies fits)
    exact (readNumber_ne_readOutside _).mp (bind_ne_error.mp (numbers (some _) copied)).1
  · intro inside
    refine ⟨fun fits => (inside fits).1, fun string copied => ?_⟩
    cases string with
    | none =>
        intro outside
        cases outside
    | some string =>
        obtain ⟨fits, bounded, -⟩ := copyString_some copied
        exact bind_ne_error.mpr
          ⟨(readNumber_ne_readOutside _).mpr ((inside fits).2 bounded), fun _ _ outside => by cases outside⟩

theorem MessageNnb.stays (payload : List UInt8) :
    MessageNnb.fromString payload ≠ .error .readOutside ↔ 0 ∈ payload ∧
      let count := (scanNumberAndCount (0, 0) (.upToNul payload)).2
      (callocs count → count ≤ (payload.drop 21).length) := by
  rw [fromString, bind_ne_error, stringAt_ne_readOutside]
  refine and_congr_right fun member => ?_
  have text : stringAt payload = .ok (.upToNul payload) := stringAt_of_mem member
  simp only [text, Except.ok.injEq, forall_eq']
  split
  · rename_i fits
    rw [imp_iff_right fits, bind_ne_error, memcpy_ne_readOutside]
    exact and_iff_left fun _ _ outside => by cases outside
  · rename_i fails
    exact ⟨fun _ fits => absurd fits fails, fun _ outside => by cases outside⟩

theorem decoded_ne_readOutside {α : Type} (request : α → Request)
    (payload : Except Fault (Option Errno × α)) :
    Request.decoded request payload ≠ .error (.fault .readOutside) ↔
      payload ≠ .error .readOutside := by
  cases payload with
  | error why => simp [Request.decoded]
  | ok filled => simp [Request.decoded]

theorem Ends.of_le {source : List UInt8} {m n : Nat} (ends : Ends source n) (le : m ≤ n) :
    Ends source m := by
  rcases ends with long | nul
  · exact .inl (le.trans long)
  · exact .inr nul

theorem MessageSn.leaves {payload : List UInt8} (bounded : payload.length < 2 ^ 63)
    (missing : lengthField payload = none) :
    MessageSn.fromString (2 ^ 63 - 2) payload = .error .readOutside := by
  by_contra stays
  obtain ⟨-, inside⟩ := (MessageSn.stays _ payload).mp stays
  rw [missing] at inside
  have fits : callocs ((2 ^ 63 - 2 + 1) % 2 ^ 64) := by decide
  have ends := (inside fits).2 (by decide)
  have beyond : payload.drop (10 + (2 ^ 63 - 2)) = [] := List.drop_eq_nil_of_le (by omega)
  simp only [Option.getD_none] at ends
  rw [beyond] at ends
  simp [Ends] at ends

/-- A payload is decoded without looking behind its end exactly when the lengths
    it holds stay inside it. A received payload is an allocated object. -/
theorem stays_inside_iff (payload : List UInt8) (type : RequestType)
    (allocated : payload.length < 2 ^ 63) :
    StaysInside payload type ↔ LengthsInside payload type := by
  simp only [StaysInside, Request.fromString_code]
  cases type with
  | READ | READ_N | LOCK | UNLOCK | CLOSE =>
      simp only [Request.ofPayload, decoded_ne_readOutside, MessageN.stays, LengthsInside]
      exact ⟨fun always => always 0 (by decide), fun ends _ _ => ends⟩
  | WRITE =>
      simp only [Request.ofPayload, decoded_ne_readOutside, MessageNnb.stays, LengthsInside]
      exact ⟨fun always => always 0 (by decide), fun inside _ _ => inside⟩
  | REMOVE =>
      simp only [Request.ofPayload, decoded_ne_readOutside, MessageS.stays, LengthsInside]
      constructor
      · intro always
        exact always (2 ^ 64 - 1) (by decide)
      · rintro ⟨member, inside⟩ garbage small
        refine ⟨member, ?_⟩
        cases found : lengthField payload with
        | some length =>
            rw [found] at inside
            exact inside
        | none =>
            rw [found] at inside
            intro _
            exact (inside (by decide)).of_le (by simp only [Option.getD_none]; omega)
  | OPEN =>
      simp only [Request.ofPayload, decoded_ne_readOutside, LengthsInside]
      constructor
      · intro always
        cases found : lengthField payload with
        | none => exact absurd (MessageSn.leaves allocated found) (always _ (by decide))
        | some length =>
            obtain ⟨member, inside⟩ := (MessageSn.stays 0 payload).mp (always 0 (by decide))
            rw [found] at inside
            exact ⟨member, length, rfl, inside⟩
      · rintro ⟨member, length, found, inside⟩ garbage _
        refine (MessageSn.stays garbage payload).mpr ⟨member, ?_⟩
        rw [found]
        exact inside

theorem stays_inside_iff_digit : StaysInside [49, 0] .READ :=
  (stays_inside_iff [49, 0] .READ (by decide)).mpr (.inr (by decide))

/-- A write request that announces 99 bytes and brings none. -/
def announced : List UInt8 := Decimal.format 10 1 ++ Decimal.padded 10 99 ++ [0]

theorem announced_leaves : announced ≠ [] ∧ ¬ StaysInside announced .WRITE := by
  refine ⟨by decide, fun stays => ?_⟩
  have decoded := stays 0 (by decide)
  rw [Request.fromString_code, Request.ofPayload, decoded_ne_readOutside,
    MessageNnb.stays] at decoded
  have count : (scanNumberAndCount (0, 0) (.upToNul announced)).2 = 99 :=
    congrArg Prod.snd (scanNumberAndCount_fields (by decide) (by decide) (0, 0) [0])
  have inside := decoded.2
  rw [count] at inside
  exact absurd (inside (by decide)) (by decide)

/-! ## Exactness

The grammar of the payloads the encoders write, field by field.
-/

/-- Ten characters: a number in digits that fits an `int`, or a minus sign and nine
    digits that are not all zero. -/
def IsNumberField (text : List UInt8) : Prop :=
  text.length = 10 ∧ ((∀ c ∈ text, Decimal.IsDigit c) ∧ Decimal.value text ≤ 2147483647 ∨
    text.head? = some 45 ∧ (∀ c ∈ text.tail, Decimal.IsDigit c) ∧ Decimal.value text.tail ≠ 0)

def IsLengthField (text : List UInt8) (length : Nat) : Prop :=
  text.length = 10 ∧ (∀ c ∈ text, Decimal.IsDigit c) ∧ Decimal.value text = length

/-- The payload has the layout of its type: every field complete and in place, the
    announced lengths those of the parts, and nothing behind. -/
def Canonical (payload : List UInt8) : RequestType → Prop
  | .READ | .READ_N | .LOCK | .UNLOCK | .CLOSE =>
      ∃ number, IsNumberField number ∧ payload = number ++ [0]
  | .REMOVE => payload.length < 2 ^ 31 ∧ ∃ length string, IsLengthField length string.length ∧
      0 ∉ string ∧ payload = length ++ string ++ [0]
  | .OPEN => payload.length < 2 ^ 31 ∧ ∃ length string number,
      IsLengthField length string.length ∧ 0 ∉ string ∧ IsNumberField number ∧
        payload = length ++ string ++ number ++ [0]
  | .WRITE => payload.length < 2 ^ 31 ∧ ∃ number length bytes, IsNumberField number ∧
      IsLengthField length bytes.length ∧ payload = number ++ length ++ [0] ++ bytes

/-- A request is returned only when the payload is its encoding, and otherwise the
    payload is rejected. -/
def AcceptsExactly (garbage : Nat) (payload : List UInt8) (type : RequestType) : Prop :=
  match Request.fromString garbage (some payload) type.code with
  | .ok request => request.toString = .ok payload
  | .error (.errno _) => True
  | .error (.fault _) => False

theorem isNumberField_format {x : Int} (range : InRange x) :
    IsNumberField (Decimal.format 10 x) := by
  refine ⟨range.length_format, ?_⟩
  rw [InRange] at range
  rw [Decimal.format]
  split
  · refine .inr ⟨rfl, Decimal.isDigit_padded 9 x.natAbs, ?_⟩
    rw [List.tail_cons, Decimal.value_padded]
    omega
  · refine .inl ⟨Decimal.isDigit_padded 10 x.natAbs, ?_⟩
    rw [Decimal.value_padded]
    omega

theorem IsNumberField.format {text : List UInt8} (field : IsNumberField text) :
    ∃ x, InRange x ∧ text = Decimal.format 10 x := by
  obtain ⟨length, ⟨digits, small⟩ | ⟨minus, digits, nonzero⟩⟩ := field
  · refine ⟨Decimal.value text, by rw [InRange]; omega, ?_⟩
    have written := Decimal.padded_value digits
    rw [length] at written
    simp only [Decimal.format, Int.natAbs_natCast, written]
    rw [if_neg (by omega)]
  · cases text with
    | nil => simp at length
    | cons sign digits_ =>
        rw [List.length_cons] at length
        have nine : digits_.length = 9 := by omega
        have sign_ : sign = 45 := by simpa using minus
        rw [List.tail_cons] at digits nonzero
        have below := Decimal.value_lt digits
        have written := Decimal.padded_value digits
        rw [nine] at below written
        refine ⟨-Decimal.value digits_, by rw [InRange]; omega, ?_⟩
        rw [Decimal.format, if_pos (by omega), Int.natAbs_neg, Int.natAbs_natCast, written, sign_]

theorem isLengthField_padded {n : Nat} (small : n < 2 ^ 31) :
    IsLengthField (Decimal.padded 10 n) n :=
  ⟨length_padded_ten small, Decimal.isDigit_padded 10 n, Decimal.value_padded 10 n⟩

theorem IsLengthField.padded {text : List UInt8} {n : Nat} (field : IsLengthField text n) :
    text = Decimal.padded 10 n := by
  obtain ⟨length, digits, rfl⟩ := field
  have written := Decimal.padded_value digits
  rw [length] at written
  exact written.symm

/-! ### Canonical payloads are accepted exactly -/

theorem accepts_of_encoding (request : Request) (wellFormed : request.WellFormed)
    {payload : List UInt8} (written : request.toString = .ok payload) (garbage : Nat) :
    AcceptsExactly garbage payload request.type := by
  obtain ⟨text, written', readBack⟩ := wellFormed.roundTrip
  have same : text = payload := Except.ok.inj (written'.symm.trans written)
  rw [AcceptsExactly, ← same, readBack]
  exact written'

theorem number_encoding {payload : List UInt8}
    (canonical : ∃ number, IsNumberField number ∧ payload = number ++ [0]) :
    ∃ x, InRange x ∧ (MessageN.mk x).toString = .ok payload := by
  obtain ⟨_, field, rfl⟩ := canonical
  obtain ⟨x, range, rfl⟩ := field.format
  exact ⟨x, range, @MessageN.toString_eq ⟨x⟩ range⟩

theorem Canonical.accepted {payload : List UInt8} {type : RequestType}
    (canonical : Canonical payload type) (garbage : Nat) : AcceptsExactly garbage payload type := by
  cases type with
  | READ =>
      obtain ⟨x, range, written⟩ := number_encoding canonical
      exact accepts_of_encoding (.READ ⟨x⟩) range written garbage
  | READ_N =>
      obtain ⟨x, range, written⟩ := number_encoding canonical
      exact accepts_of_encoding (.READ_N ⟨x⟩) range written garbage
  | LOCK =>
      obtain ⟨x, range, written⟩ := number_encoding canonical
      exact accepts_of_encoding (.LOCK ⟨x⟩) range written garbage
  | UNLOCK =>
      obtain ⟨x, range, written⟩ := number_encoding canonical
      exact accepts_of_encoding (.UNLOCK ⟨x⟩) range written garbage
  | CLOSE =>
      obtain ⟨x, range, written⟩ := number_encoding canonical
      exact accepts_of_encoding (.CLOSE ⟨x⟩) range written garbage
  | REMOVE =>
      obtain ⟨small, _, string, lengthField, no_nul, rfl⟩ := canonical
      have length := lengthField.1
      rw [lengthField.padded] at small length ⊢
      rw [List.length_append, List.length_append, length] at small
      let name : CString := ⟨string, no_nul⟩
      have bounded : 10 + name.length + 1 < 2 ^ 31 := small
      exact accepts_of_encoding (.REMOVE ⟨some name⟩) ⟨name, rfl, bounded⟩
        (MessageS.toString_eq bounded) garbage
  | OPEN =>
      obtain ⟨small, _, string, _, lengthField, no_nul, field, rfl⟩ := canonical
      obtain ⟨x, range, rfl⟩ := field.format
      have length := lengthField.1
      rw [lengthField.padded] at small length ⊢
      rw [List.length_append, List.length_append, List.length_append, length,
        range.length_format] at small
      let name : CString := ⟨string, no_nul⟩
      have bounded : 10 + name.length + 10 + 1 < 2 ^ 31 := small
      exact accepts_of_encoding (.OPEN ⟨some name, x⟩) ⟨⟨name, rfl, bounded⟩, range⟩
        (MessageSn.toString_eq bounded range) garbage
  | WRITE =>
      obtain ⟨small, _, _, bytes, field, lengthField, rfl⟩ := canonical
      obtain ⟨x, range, rfl⟩ := field.format
      have length := lengthField.1
      rw [lengthField.padded] at small length ⊢
      rw [List.length_append, List.length_append, List.length_append, length,
        range.length_format, List.length_singleton] at small
      have bounded : 10 + 10 + bytes.length + 1 < 2 ^ 31 := by omega
      exact accepts_of_encoding (.WRITE ⟨x, bytes.length, some bytes⟩)
        ⟨range, ⟨bytes, rfl, rfl⟩, bounded⟩ (MessageNnb.toString_eq range bounded) garbage

/-! ### What is accepted exactly is canonical -/

theorem allocated_ok {size added : Nat} {u : Unit} (ok : allocated size added = .ok u) :
    size + added < 2 ^ 31 := by
  rw [allocated] at ok
  split at ok
  · assumption
  · split at ok <;> cases ok

theorem MessageN.canonical_of_toString {message : MessageN} {payload : List UInt8}
    (low : -2 ^ 31 ≤ message.number) (high : message.number < 2 ^ 31)
    (written : message.toString = .ok payload) :
    ∃ number, IsNumberField number ∧ payload = number ++ [0] := by
  obtain ⟨y, range, field⟩ := take_format low high
  have long := Decimal.width_le_length_format (show 0 < 10 by decide) message.number
  refine ⟨_, isNumberField_format range, ?_⟩
  rw [toString, snprintf_of_long (by decide) (by omega)] at written
  rw [← Except.ok.inj written, ← field]

theorem MessageS.canonical_of_toString {message : MessageS} {payload : List UInt8}
    (written : message.toString = .ok payload) : payload.length < 2 ^ 31 ∧
      ∃ length string, IsLengthField length string.length ∧ 0 ∉ string ∧
        payload = length ++ string ++ [0] := by
  obtain ⟨string, -, written⟩ := bind_ok written
  obtain ⟨_, small, written⟩ := bind_ok written
  have bounded := allocated_ok small
  have length := length_padded_ten (show string.length < 2 ^ 31 by omega)
  have fills : (Decimal.padded 10 string.length ++ string.chars).length + 1 =
      10 + string.length + 1 := by
    rw [List.length_append, length, CString.length]
  have bytes := Except.ok.inj written
  rw [snprintf_of_length fills] at bytes
  refine ⟨?_, _, string.chars, isLengthField_padded (show string.length < 2 ^ 31 by omega),
    string.no_nul, bytes.symm⟩
  rw [← bytes, List.length_append, List.length_singleton, fills]
  exact bounded

theorem MessageSn.canonical_of_toString {message : MessageSn} {payload : List UInt8}
    (low : -2 ^ 31 ≤ message.number) (high : message.number < 2 ^ 31)
    (written : message.toString = .ok payload) : payload.length < 2 ^ 31 ∧
      ∃ length string number, IsLengthField length string.length ∧ 0 ∉ string ∧
        IsNumberField number ∧ payload = length ++ string ++ number ++ [0] := by
  obtain ⟨string, -, written⟩ := bind_ok written
  obtain ⟨_, small, written⟩ := bind_ok written
  have bounded := allocated_ok small
  have length := length_padded_ten (show string.length < 2 ^ 31 by omega)
  obtain ⟨y, range, field⟩ := take_format low high
  have long := Decimal.width_le_length_format (show 0 < 10 by decide) message.number
  have start : (Decimal.padded 10 string.length ++ string.chars).length = 10 + string.length := by
    rw [List.length_append, length, CString.length]
  have bytes := Except.ok.inj written
  rw [snprintf_of_long (by omega) (by rw [List.length_append, start]; omega),
    show 10 + string.length + 10 + 1 - 1 = 10 + string.length + 10 by omega, ← start,
    List.take_length_add_append, field] at bytes
  refine ⟨?_, _, string.chars, _, isLengthField_padded (show string.length < 2 ^ 31 by omega),
    string.no_nul,
    isNumberField_format range, bytes.symm⟩
  rw [← bytes, List.length_append, List.length_append, start, range.length_format]
  exact bounded

theorem MessageSn.fromString_int {garbage : Nat} {payload : List UInt8}
    {filled : Option Errno × MessageSn} (ok : fromString garbage payload = .ok filled) :
    -2 ^ 31 ≤ filled.2.number ∧ filled.2.number < 2 ^ 31 := by
  obtain ⟨text, -, ok⟩ := bind_ok ok
  obtain ⟨string, -, ok⟩ := bind_ok ok
  cases string with
  | none =>
      rw [← Except.ok.inj ok]
      decide
  | some string =>
      obtain ⟨number, -, ok⟩ := bind_ok ok
      rw [← Except.ok.inj ok]
      exact toInt32_range number

theorem scanNumberAndCount_int (unset : Int × Nat) (text : CString)
    (zero : -2 ^ 31 ≤ unset.1 ∧ unset.1 < 2 ^ 31) :
    -2 ^ 31 ≤ (scanNumberAndCount unset text).1 ∧ (scanNumberAndCount unset text).1 < 2 ^ 31 := by
  rw [scanNumberAndCount, scanSigned]
  cases Decimal.scan 10 text.chars with
  | none => exact zero
  | some scanned => exact toInt32_range scanned.1

theorem MessageNnb.canonical_of_decoded {payload : List UInt8} {error : Option Errno}
    {message : MessageNnb} (decoded : fromString payload = .ok (error, message))
    (written : message.toString = .ok payload) : payload.length < 2 ^ 31 ∧
      ∃ number length bytes, IsNumberField number ∧ IsLengthField length bytes.length ∧
        payload = number ++ length ++ [0] ++ bytes := by
  obtain ⟨number, count, stored⟩ := message
  obtain ⟨scanned, allocated⟩ := MessageNnb.fromString_ok decoded
  obtain ⟨_, small, written⟩ := bind_ok written
  have bounded := allocated_ok small
  simp only at scanned allocated written bounded
  obtain ⟨bytes, rfl, rfl⟩ := allocated (by rw [callocs]; omega)
  rw [copyBytes_all] at written
  have bytes_ := Except.ok.inj written
  have int := scanNumberAndCount_int (0, 0) (.upToNul payload) (by decide)
  rw [← scanned] at int
  obtain ⟨y, range, field⟩ := take_format int.1 int.2
  have long := Decimal.width_le_length_format (show 0 < 10 by decide) number
  have length := length_padded_ten (show bytes.length < 2 ^ 31 by omega)
  have text : 20 + 1 ≤ (Decimal.format 10 number ++ Decimal.padded 10 bytes.length).length + 1 := by
    rw [List.length_append]
    omega
  rw [snprintf_of_long (by decide) text] at bytes_
  -- the first ten characters are read back as the number, so the field was not cut
  have whole : number = y := by
    have ten : ((Decimal.format 10 number).take 10).length = 10 := by
      rw [List.length_take]
      omega
    have parts : (Decimal.format 10 number ++ Decimal.padded 10 bytes.length).take 20 =
        Decimal.format 10 y ++
          ((Decimal.format 10 number).drop 10 ++ Decimal.padded 10 bytes.length).take 10 := by
      conv_lhs => rw [← List.take_append_drop 10 (Decimal.format 10 number), List.append_assoc]
      rw [show 20 = ((Decimal.format 10 number).take 10).length + 10 by omega,
        List.take_length_add_append, field]
    have number_ := congrArg Prod.fst scanned
    rw [← bytes_, parts, List.append_assoc, List.append_assoc, scanNumberAndCount, scanSigned,
      chars_upToNul_append (nul_not_mem_format 10 y),
      Decimal.scan_format (by decide) range.fits] at number_
    simpa only [Option.map_some, range.toInt32] using number_
  rw [← whole] at range
  have fills : (Decimal.format 10 number ++ Decimal.padded 10 bytes.length).length = 20 := by
    rw [List.length_append, range.length_format, length]
  rw [List.take_of_length_le (by omega)] at bytes_
  refine ⟨?_, _, _, bytes, isNumberField_format range, isLengthField_padded (by omega), bytes_.symm⟩
  rw [← bytes_, List.length_append, List.length_append, fills, List.length_singleton]
  omega

theorem Canonical.of_accepted {payload : List UInt8} {type : RequestType} {garbage : Nat}
    (accepted : AcceptsExactly garbage payload type) : Canonical payload type := by
  rw [AcceptsExactly, Request.fromString_code] at accepted
  cases type with
  | READ | READ_N | LOCK | UNLOCK | CLOSE =>
      simp only [Request.ofPayload] at accepted
      cases decoded : MessageN.fromString payload with
      | error why =>
          rw [decoded] at accepted
          exact absurd accepted id
      | ok filled =>
          rw [decoded] at accepted
          obtain ⟨number, -, filled_⟩ := bind_ok decoded
          obtain ⟨low, high⟩ := toInt32_range number
          rw [← Except.ok.inj filled_] at accepted
          exact MessageN.canonical_of_toString low high accepted
  | REMOVE =>
      simp only [Request.ofPayload] at accepted
      cases decoded : MessageS.fromString garbage payload with
      | error why =>
          rw [decoded] at accepted
          exact absurd accepted id
      | ok filled =>
          rw [decoded] at accepted
          exact MessageS.canonical_of_toString accepted
  | OPEN =>
      simp only [Request.ofPayload] at accepted
      cases decoded : MessageSn.fromString garbage payload with
      | error why =>
          rw [decoded] at accepted
          exact absurd accepted id
      | ok filled =>
          rw [decoded] at accepted
          obtain ⟨low, high⟩ := MessageSn.fromString_int decoded
          exact MessageSn.canonical_of_toString low high accepted
  | WRITE =>
      simp only [Request.ofPayload] at accepted
      cases decoded : MessageNnb.fromString payload with
      | error why =>
          rw [decoded] at accepted
          exact absurd accepted id
      | ok filled =>
          rw [decoded] at accepted
          exact MessageNnb.canonical_of_decoded decoded accepted

/-- The decoder accepts exactly the encoding of the request it returns when the
    payload has the layout of its type, and only then: it never rejects a payload
    of a known type. -/
theorem accepts_exactly_iff (garbage : Nat) (payload : List UInt8) (type : RequestType) :
    AcceptsExactly garbage payload type ↔ Canonical payload type :=
  ⟨Canonical.of_accepted, fun canonical => canonical.accepted garbage⟩

/-- A single digit is taken for a number field. -/
theorem digit_accepted :
    Request.fromString 0 (some [55, 0]) RequestType.READ.code = .ok (.READ ⟨7⟩) ∧
      ¬ AcceptsExactly 0 [55, 0] .READ := by
  have read : Request.fromString 0 (some [55, 0]) RequestType.READ.code = .ok (.READ ⟨7⟩) := by
    decide +kernel
  refine ⟨read, fun accepted => ?_⟩
  rw [AcceptsExactly, read] at accepted
  exact absurd (congrArg List.length (Except.ok.inj accepted)) (by decide)

end FileStorage
