import Mathlib.Algebra.Order.Ring.Nat
import Mathlib.Data.List.Basic
import Mathlib.Data.List.Induction
import Mathlib.Data.List.TakeWhile

/-! # Decimal fields

Numbers as text: what `printf` writes for a `%0*d` field and what `scanf` and
`strtol` read from one. A field that is exactly as wide as the reader allows is
read back as the number it was written for, whatever follows it, and a field of
digits is what would be written for the number it is read as.
-/

namespace FileStorage.Decimal

def IsDigit (c : UInt8) : Prop := 48 ≤ c.toNat ∧ c.toNat ≤ 57

instance : DecidablePred IsDigit := fun c =>
  inferInstanceAs (Decidable (48 ≤ c.toNat ∧ c.toNat ≤ 57))

def digit (d : Nat) : UInt8 := UInt8.ofNat (48 + d)

/-- The digits of a number, none for zero. The fuel bounds their number. -/
def digitsWithin : Nat → Nat → List UInt8
  | 0, _ => []
  | fuel + 1, n => if n = 0 then [] else digitsWithin fuel (n / 10) ++ [digit (n % 10)]

def padded (width n : Nat) : List UInt8 := (digitsWithin n n).leftpad width 48

/-- `%0*d`: an integer in at least `width` characters, the sign included. -/
def format (width : Nat) (x : Int) : List UInt8 :=
  if x < 0 then 45 :: padded (width - 1) x.natAbs else padded width x.natAbs

/-- The number a text of digits stands for. -/
def value (text : List UInt8) : Nat := text.foldl (fun n c => 10 * n + (c.toNat - 48)) 0

def isSpace (c : UInt8) : Bool := c == 32 || (9 ≤ c.toNat && c.toNat ≤ 13)

/-- At most `width` digits, and the text behind them. -/
def scanDigits (width : Nat) (text : List UInt8) : Option (Nat × List UInt8) :=
  let digits := (text.take width).takeWhile fun c => decide (IsDigit c)
  if digits = [] then none else some (value digits, text.drop digits.length)

/-- A signed number: blanks, a sign and digits. The width bounds the characters
    of the number, the sign included and the blanks not. -/
def scan (width : Nat) (text : List UInt8) : Option (Int × List UInt8) :=
  match text.dropWhile isSpace with
  | 45 :: rest => (scanDigits (width - 1) rest).map fun (n, rest) => (-n, rest)
  | 43 :: rest => (scanDigits (width - 1) rest).map fun (n, rest) => (n, rest)
  | rest => (scanDigits width rest).map fun (n, rest) => (n, rest)

/-! ## Digits -/

theorem toNat_digit {d : Nat} (small : d < 10) : (digit d).toNat = 48 + d := by
  rw [digit, UInt8.toNat_ofNat', Nat.mod_eq_of_lt (by omega)]

theorem isDigit_digit {d : Nat} (small : d < 10) : IsDigit (digit d) := by
  rw [IsDigit, toNat_digit small]
  omega

theorem value_concat (text : List UInt8) (c : UInt8) :
    value (text ++ [c]) = 10 * value text + (c.toNat - 48) := by
  simp [value, List.foldl_append]

theorem value_zeros (count : Nat) (text : List UInt8) :
    value (List.replicate count 48 ++ text) = value text := by
  induction count with
  | zero => rfl
  | succ count ih => simpa [value, List.replicate_succ] using ih

theorem isDigit_digitsWithin (fuel n : Nat) : ∀ c ∈ digitsWithin fuel n, IsDigit c := by
  induction fuel generalizing n with
  | zero => nofun
  | succ fuel ih =>
      intro c member
      simp only [digitsWithin] at member
      split at member
      · cases member
      · rcases List.mem_append.mp member with earlier | last
        · exact ih _ c earlier
        · rw [List.mem_singleton.mp last]
          exact isDigit_digit (Nat.mod_lt n (by omega))

theorem value_digitsWithin {fuel n : Nat} (enough : n ≤ fuel) :
    value (digitsWithin fuel n) = n := by
  induction fuel generalizing n with
  | zero =>
      have zero : n = 0 := by omega
      rw [zero]
      rfl
  | succ fuel ih =>
      simp only [digitsWithin]
      split
      · rename_i zero
        rw [zero]
        rfl
      · rw [value_concat, ih (by omega), toNat_digit (Nat.mod_lt n (by omega))]
        omega

theorem length_digitsWithin {fuel n width : Nat} (small : n < 10 ^ width) :
    (digitsWithin fuel n).length ≤ width := by
  induction fuel generalizing n width with
  | zero => exact Nat.zero_le width
  | succ fuel ih =>
      simp only [digitsWithin]
      split
      · exact Nat.zero_le width
      · cases width with
        | zero => simp at small; omega
        | succ width =>
            have smaller : n / 10 < 10 ^ width := by
              rw [Nat.pow_succ] at small
              omega
            have fewer := ih smaller
            simp only [List.length_append, List.length_singleton]
            omega

theorem value_lt {text : List UInt8} (digits : ∀ c ∈ text, IsDigit c) :
    value text < 10 ^ text.length := by
  induction text using List.reverseRecOn with
  | nil => decide
  | append_singleton text c ih =>
      have shorter := ih fun d member => digits d (List.mem_append_left _ member)
      have last := digits c (by simp)
      rw [IsDigit] at last
      rw [value_concat, List.length_append, List.length_singleton, Nat.pow_succ]
      omega

theorem value_inj {first second : List UInt8} (length : first.length = second.length)
    (digits : ∀ c ∈ first, IsDigit c) (digits' : ∀ c ∈ second, IsDigit c)
    (same : value first = value second) : first = second := by
  induction first using List.reverseRecOn generalizing second with
  | nil => exact (List.length_eq_zero_iff.mp length.symm).symm
  | append_singleton first c ih =>
      obtain rfl | ⟨second, d, rfl⟩ := List.eq_nil_or_concat' second
      · simp at length
      · have here := digits c (by simp)
        have here' := digits' d (by simp)
        have lengths : first.length = second.length := by simpa using length
        rw [IsDigit] at here here'
        rw [value_concat, value_concat] at same
        have rest : first = second :=
          ih lengths (fun e member => digits e (List.mem_append_left _ member))
            (fun e member => digits' e (List.mem_append_left _ member)) (by omega)
        have last : c = d := by
          rw [rest] at same
          exact UInt8.toNat_inj.mp (by omega)
        rw [rest, last]

/-! ## Fields -/

theorem isDigit_padded (width n : Nat) : ∀ c ∈ padded width n, IsDigit c := by
  intro c member
  rw [padded, List.leftpad, List.mem_append] at member
  rcases member with zero | later
  · rw [(List.mem_replicate.mp zero).2]
    decide
  · exact isDigit_digitsWithin n n c later

theorem value_padded (width n : Nat) : value (padded width n) = n := by
  rw [padded, List.leftpad, value_zeros, value_digitsWithin le_rfl]

theorem length_padded {width n : Nat} (small : n < 10 ^ width) :
    (padded width n).length = width := by
  have short : (digitsWithin n n).length ≤ width := length_digitsWithin small
  rw [padded, List.leftpad, List.length_append, List.length_replicate]
  omega

theorem padded_value {text : List UInt8} (digits : ∀ c ∈ text, IsDigit c) :
    padded text.length (value text) = text := by
  apply value_inj
  · exact length_padded (value_lt digits)
  · exact isDigit_padded _ _
  · exact digits
  · exact value_padded _ _

theorem width_le_length_padded (width n : Nat) : width ≤ (padded width n).length := by
  rw [padded, List.leftpad, List.length_append, List.length_replicate]
  omega

theorem width_le_length_format {width : Nat} (wide : 0 < width) (x : Int) :
    width ≤ (format width x).length := by
  rw [format]
  split
  · have long := width_le_length_padded (width - 1) x.natAbs
    rw [List.length_cons]
    omega
  · exact width_le_length_padded width x.natAbs

/-- A number with one digit too many loses it when its field is cut. -/
theorem take_padded {width n : Nat} (large : 10 ^ width ≤ n) (bounded : n < 10 ^ (width + 1)) :
    (padded width n).take width = padded width (n / 10) := by
  have digits := isDigit_padded width n
  have short : (digitsWithin n n).length ≤ width + 1 := length_digitsWithin bounded
  have long : 10 ^ width < 10 ^ (padded width n).length := by
    have below := value_lt digits
    rw [value_padded] at below
    omega
  have length : (padded width n).length = width + 1 := by
    have more := (Nat.pow_lt_pow_iff_right (by decide)).mp long
    rw [padded, List.leftpad, List.length_append, List.length_replicate] at more ⊢
    omega
  obtain nothing | ⟨first, c, whole⟩ := List.eq_nil_or_concat' (padded width n)
  · rw [nothing] at length
    simp at length
  · have firstDigits : ∀ d ∈ first, IsDigit d := fun d member =>
      digits d (by rw [whole]; exact List.mem_append_left _ member)
    have last : IsDigit c := digits c (by rw [whole]; simp)
    have firstLength : first.length = width := by
      rw [whole, List.length_append, List.length_singleton] at length
      omega
    have number : value first = n / 10 := by
      have total := value_padded width n
      rw [whole, value_concat] at total
      rw [IsDigit] at last
      omega
    rw [whole, ← number, ← firstLength, List.take_left, padded_value firstDigits]

/-! ## Reading a field back -/

theorem scanDigits_of_isDigit {text : List UInt8} (digits : ∀ c ∈ text, IsDigit c)
    (some_ : text ≠ []) (rest : List UInt8) :
    scanDigits text.length (text ++ rest) = some (value text, rest) := by
  have all : (text.takeWhile fun c => decide (IsDigit c)) = text := by
    rw [List.takeWhile_eq_self_iff]
    intro c member
    exact decide_eq_true (digits c member)
  simp [scanDigits, all, some_]

theorem IsDigit.not_space {c : UInt8} (isDigit : IsDigit c) : isSpace c = false := by
  rw [IsDigit] at isDigit
  have away : c ≠ 32 := by
    rintro rfl
    simp at isDigit
  simp only [isSpace, Bool.or_eq_false_iff, beq_eq_false_iff_ne, ne_eq, Bool.and_eq_false_iff,
    decide_eq_false_iff_not]
  exact ⟨away, .inr (by omega)⟩

theorem scan_digits {text : List UInt8} (digits : ∀ c ∈ text, IsDigit c) (some_ : text ≠ [])
    (rest : List UInt8) : scan text.length (text ++ rest) = some ((value text : Int), rest) := by
  cases text with
  | nil => exact absurd rfl some_
  | cons c text =>
      have first := digits c List.mem_cons_self
      have start : (c :: text ++ rest).dropWhile isSpace = c :: text ++ rest := by
        simp [first.not_space]
      have unsigned : c ≠ 45 ∧ c ≠ 43 := by
        rw [IsDigit] at first
        constructor
        · rintro rfl
          simp at first
        · rintro rfl
          simp at first
      rw [scan, start]
      split
      · rename_i minus
        exact absurd (List.cons.inj minus).1 unsigned.1
      · rename_i plus
        exact absurd (List.cons.inj plus).1 unsigned.2
      · rw [scanDigits_of_isDigit digits some_]
        rfl

theorem scan_minus {text : List UInt8} (digits : ∀ c ∈ text, IsDigit c) (some_ : text ≠ [])
    (rest : List UInt8) :
    scan (text.length + 1) (45 :: text ++ rest) = some (-(value text : Int), rest) := by
  have start : (45 :: text ++ rest).dropWhile isSpace = 45 :: (text ++ rest) := by
    rw [List.cons_append, List.dropWhile_cons_of_neg (by decide)]
  rw [scan, start]
  simp only [Nat.add_sub_cancel, scanDigits_of_isDigit digits some_]
  rfl

/-- The integers whose field is exactly `width` characters wide. -/
def Fits (width : Nat) (x : Int) : Prop := -(10 ^ (width - 1) : Nat) < x ∧ x < (10 ^ width : Nat)

theorem length_format {width : Nat} (wide : 1 < width) {x : Int} (fits : Fits width x) :
    (format width x).length = width := by
  rw [Fits] at fits
  rw [format]
  split
  · rw [List.length_cons, length_padded (by omega)]
    omega
  · exact length_padded (by omega)

theorem scan_format {width : Nat} (wide : 1 < width) {x : Int} (fits : Fits width x)
    (rest : List UInt8) : scan width (format width x ++ rest) = some (x, rest) := by
  have length := length_format wide fits
  rw [format] at length ⊢
  split
  · rename_i negative
    rw [if_pos negative, List.length_cons] at length
    have nonempty : padded (width - 1) x.natAbs ≠ [] := by
      rintro nothing
      rw [nothing] at length
      simp at length
      omega
    have scanned := scan_minus (isDigit_padded (width - 1) x.natAbs) nonempty rest
    rw [length, value_padded] at scanned
    rw [scanned]
    congr 2
    omega
  · rename_i positive
    rw [if_neg positive] at length
    have nonempty : padded width x.natAbs ≠ [] := by
      rintro nothing
      rw [nothing] at length
      simp at length
      omega
    have scanned := scan_digits (isDigit_padded width x.natAbs) nonempty rest
    rw [length, value_padded] at scanned
    rw [scanned]
    congr 2
    omega

end FileStorage.Decimal
