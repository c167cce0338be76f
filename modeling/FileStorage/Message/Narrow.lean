import FileStorage.Message.Layouts

/-! # Numbers wider than their field

The sign of a number takes one of the ten characters of its field, so a number below
-999999999 takes eleven. It loses its last digit, or pushes it into the field behind.
-/

namespace FileStorage

/-- An encoder reports an error, or what it has written is decoded as it should be. -/
def Survives (written : Except Failure (List UInt8)) (decodes : List UInt8 → Prop) : Prop :=
  (∃ code, written = .error (.errno code)) ∨ ∃ text, written = .ok text ∧ decodes text

def MessageN.Kept (message : MessageN) : Prop :=
  Survives message.toString fun text => fromString text = .ok (none, message)

def MessageSn.Kept (message : MessageSn) : Prop :=
  Survives message.toString fun text => ∀ garbage, fromString garbage text = .ok (none, message)

def MessageNnb.Kept (message : MessageNnb) : Prop :=
  Survives message.toString fun text => fromString text = .ok (none, message)

/-- The size of a message is negative as an `int`, so that no room is found for it. -/
def Unallocatable (size added : Nat) : Prop :=
  2 ^ 31 ≤ size + added ∧ toInt32 size + added < 0

instance (size added : Nat) : Decidable (Unallocatable size added) :=
  inferInstanceAs (Decidable (_ ∧ _))

section Survives

variable {written : Except Failure (List UInt8)} {decodes : List UInt8 → Prop}

theorem survives_ok {text : List UInt8} (is : written = .ok text) :
    Survives written decodes ↔ decodes text := by
  subst is
  constructor
  · rintro (⟨code, failed⟩ | ⟨other, same, decoded⟩)
    · cases failed
    · obtain rfl := Except.ok.inj same
      exact decoded
  · exact fun decoded => .inr ⟨text, rfl, decoded⟩

/-- A message survives if there is room for it and its fields fit, or if its encoder is
    refused the room. -/
theorem survives_allocated {size added : Nat} {fits : Prop}
    (small : size + added < 2 ^ 31 → (Survives written decodes ↔ fits))
    (fails : ∀ why, allocated size added = .error why → written = .error why) :
    Survives written decodes ↔
      size + added < 2 ^ 31 ∧ fits ∨ Unallocatable size added := by
  by_cases room : size + added < 2 ^ 31
  · have found : ¬ Unallocatable size added := fun refused => by
      have large := refused.1
      omega
    rw [small room, or_iff_left found, and_iff_right room]
  · have large : 2 ^ 31 ≤ size + added := not_lt.mp room
    unfold allocated at fails
    rw [if_neg room] at fails
    by_cases negative : toInt32 size + added < 0
    · rw [if_pos negative] at fails
      exact iff_of_true (.inl ⟨.ENOMEM, fails _ rfl⟩) (.inr ⟨large, negative⟩)
    · rw [if_neg negative] at fails
      refine iff_of_false ?_ ?_
      · rintro (⟨code, failed⟩ | ⟨text, encoded, -⟩)
        · cases (fails _ rfl).symm.trans failed
        · cases (fails _ rfl).symm.trans encoded
      · rintro (⟨found, -⟩ | refused)
        · exact room found
        · exact negative refused.2

end Survives

theorem take_format_iff {x : Int} (low : -2 ^ 31 ≤ x) (high : x < 2 ^ 31) :
    ∃ y, InRange y ∧ (Decimal.format 10 x).take 10 = Decimal.format 10 y ∧
      (y = x ↔ -999999999 ≤ x) := by
  by_cases fits : -999999999 ≤ x
  · have range : InRange x := ⟨fits, by omega⟩
    refine ⟨x, range, ?_, iff_of_true rfl fits⟩
    rw [List.take_of_length_le]
    rw [range.length_format]
  · obtain ⟨y, range, field⟩ := take_format low high
    refine ⟨y, range, field, iff_of_false ?_ fits⟩
    rintro rfl
    exact fits range.1

variable {number : Int}

theorem MessageN.kept_iff (low : -2 ^ 31 ≤ number) (high : number < 2 ^ 31) :
    MessageN.Kept ⟨number⟩ ↔ -999999999 ≤ number := by
  obtain ⟨y, range, field, same⟩ := take_format_iff low high
  have long := Decimal.width_le_length_format (show 0 < 10 by decide) number
  have written : toString ⟨number⟩ = .ok (Decimal.format 10 y ++ [0]) := by
    rw [toString, snprintf_of_long (by decide) (Nat.add_le_add_right long 1), ← field]
  have decoded : fromString (Decimal.format 10 y ++ [0]) = .ok (none, ⟨y⟩) :=
    fromString_field range [0]
  rw [Kept, survives_ok written, decoded, ← same]
  simp

theorem MessageSn.kept_iff (low : -2 ^ 31 ≤ number) (high : number < 2 ^ 31) (string : CString) :
    MessageSn.Kept ⟨some string, number⟩ ↔
      10 + string.length + 10 + 1 < 2 ^ 31 ∧ -999999999 ≤ number ∨
        Unallocatable (10 + string.length + 10) 1 := by
  obtain ⟨y, range, field, same⟩ := take_format_iff low high
  refine survives_allocated (fun small => ?_) fun why fails => ?_
  · have length := length_padded_ten (show string.length < 2 ^ 31 by omega)
    have long := Decimal.width_le_length_format (show 0 < 10 by decide) number
    have start : (Decimal.padded 10 string.length ++ string.chars).length =
        10 + string.length := by
      rw [List.length_append, length, CString.length]
    have cut : snprintf (10 + string.length + 10 + 1) (Decimal.padded 10 string.length ++
        string.chars ++ Decimal.format 10 number) = layout string y := by
      rw [snprintf_of_long (by omega) (by rw [List.length_append, start]; omega),
        show 10 + string.length + 10 + 1 - 1 = 10 + string.length + 10 by omega, ← start,
        List.take_length_add_append, field, layout]
    have written : toString ⟨some string, number⟩ = .ok (layout string y) := by
      simp only [toString, deref_some, allocated_of_small small, bind, Except.bind, pure,
        Except.pure, cut]
    rw [survives_ok written, ← same]
    constructor
    · intro decoded
      have read := (fromString_layout small range 0).symm.trans (decoded 0)
      simpa using read
    · rintro rfl
      exact fromString_layout small range
  · simp only [toString, deref_some, fails, bind, Except.bind]

theorem scanNumberAndCount_number {y : Int} (range : InRange y) (unset : Int × Nat)
    (rest : List UInt8) :
    (scanNumberAndCount unset (.upToNul (Decimal.format 10 y ++ rest))).1 = y := by
  rw [scanNumberAndCount, scanSigned, chars_upToNul_append (nul_not_mem_format 10 y),
    Decimal.scan_format (by decide) range.fits]
  exact range.toInt32

theorem MessageNnb.kept_iff (low : -2 ^ 31 ≤ number) (high : number < 2 ^ 31)
    (bytes : List UInt8) :
    MessageNnb.Kept ⟨number, bytes.length, some bytes⟩ ↔
      10 + 10 + bytes.length + 1 < 2 ^ 31 ∧ -999999999 ≤ number ∨
        Unallocatable (10 + 10 + bytes.length + 1) 0 := by
  obtain ⟨y, range, field, same⟩ := take_format_iff low high
  change _ ↔ 10 + 10 + bytes.length + 1 + 0 < 2 ^ 31 ∧ _ ∨ _
  refine survives_allocated (fun small => ?_) fun why fails => ?_
  · have room : 10 + 10 + bytes.length + 1 < 2 ^ 31 := small
    constructor
    · -- the digit that has no place in the field leads the count
      have long := Decimal.width_le_length_format (show 0 < 10 by decide) number
      have length := length_padded_ten (show bytes.length < 2 ^ 31 by omega)
      have behind : Decimal.format 10 number ++ Decimal.padded 10 bytes.length =
          Decimal.format 10 y ++ ((Decimal.format 10 number).drop 10 ++
            Decimal.padded 10 bytes.length) := by
        rw [← field, ← List.append_assoc, List.take_append_drop]
      have cut : snprintf 21 (Decimal.format 10 number ++ Decimal.padded 10 bytes.length) =
          Decimal.format 10 y ++ (((Decimal.format 10 number).drop 10 ++
            Decimal.padded 10 bytes.length).take 10 ++ [0]) := by
        rw [snprintf_of_long (by decide) (by rw [List.length_append, length]; omega), behind,
          show 21 - 1 = (Decimal.format 10 y).length + 10 by rw [range.length_format],
          List.take_length_add_append, List.append_assoc]
      have written : toString ⟨number, bytes.length, some bytes⟩ =
          .ok (Decimal.format 10 y ++ (((Decimal.format 10 number).drop 10 ++
            Decimal.padded 10 bytes.length).take 10 ++ [0] ++ bytes)) := by
        simp only [toString, allocated_of_small small, bind, Except.bind, pure, Except.pure,
          copyBytes_all, cut, List.append_assoc]
      rw [survives_ok written, ← same]
      intro decoded
      have scanned := congrArg Prod.fst (fromString_ok decoded).1
      rw [scanNumberAndCount_number range] at scanned
      exact scanned.symm
    · intro fits
      have range : InRange number := ⟨fits, by omega⟩
      rw [survives_ok (toString_eq range room)]
      exact fromString_layout range room
  · simp only [toString, fails, bind, Except.bind]

/-- The three messages with a number survive exactly if it is not below -999999999 and
    their size fits an `int`, or if they are so large that they are refused. -/
theorem integers_kept_iff (low : -2 ^ 31 ≤ number) (high : number < 2 ^ 31) (string : CString)
    (bytes : List UInt8) :
    (MessageN.Kept ⟨number⟩ ↔ -999999999 ≤ number) ∧
    (MessageSn.Kept ⟨some string, number⟩ ↔
      10 + string.length + 10 + 1 < 2 ^ 31 ∧ -999999999 ≤ number ∨
        Unallocatable (10 + string.length + 10) 1) ∧
    (MessageNnb.Kept ⟨number, bytes.length, some bytes⟩ ↔
      10 + 10 + bytes.length + 1 < 2 ^ 31 ∧ -999999999 ≤ number ∨
        Unallocatable (10 + 10 + bytes.length + 1) 0) :=
  ⟨MessageN.kept_iff low high, MessageSn.kept_iff low high string,
    MessageNnb.kept_iff low high bytes⟩

theorem integers_kept_iff_lowest :
    -2 ^ 31 ≤ (-999999999 : Int) ∧ (-999999999 : Int) < 2 ^ 31 ∧ MessageN.Kept ⟨-999999999⟩ ∧
      MessageSn.Kept ⟨some ⟨[102], by decide⟩, -999999999⟩ ∧
      MessageNnb.Kept ⟨-999999999, 2, some [0, 1]⟩ := by
  obtain ⟨n, sn, nnb⟩ := integers_kept_iff (show -2 ^ 31 ≤ (-999999999 : Int) by decide)
    (by decide) ⟨[102], by decide⟩ [0, 1]
  exact ⟨by decide, by decide, n.mpr (by decide), sn.mpr (.inl (by decide)),
    nnb.mpr (.inl (by decide))⟩

/-- The lowest `int` is read back without its last digit, or with another count. -/
theorem lowest_altered :
    MessageN.toString ⟨-2147483648⟩ = .ok [45, 50, 49, 52, 55, 52, 56, 51, 54, 52, 0] ∧
      MessageN.fromString [45, 50, 49, 52, 55, 52, 56, 51, 54, 52, 0] =
        .ok (none, ⟨-214748364⟩) ∧
      ¬ MessageN.Kept ⟨-2147483648⟩ ∧
      ¬ MessageSn.Kept ⟨some ⟨[102], by decide⟩, -2147483648⟩ ∧
      ¬ MessageNnb.Kept ⟨-2147483648, 0, some []⟩ := by
  refine ⟨by decide +kernel, by decide +kernel, ?_, ?_, ?_⟩
  · rw [MessageN.kept_iff (by decide) (by decide)]
    decide
  · rw [MessageSn.kept_iff (by decide) (by decide)]
    decide +kernel
  · have altered := MessageNnb.kept_iff (show -2 ^ 31 ≤ (-2147483648 : Int) by decide)
      (by decide) []
    exact fun kept => absurd (altered.mp kept) (by decide +kernel)

end FileStorage
