import Mathlib.Algebra.Order.Field.Basic
import Mathlib.Data.Multiset.MapFold
import Mathlib.InformationTheory.Coding.KraftMcMillan
import Mathlib.Tactic.Linarith

/-! # Merging the lightest weights

Weights are merged two at a time, always the two lightest, until one is left, and
every merge costs the weight it makes. The cost is a lower bound for the cost of
all code lengths that meet the Kraft inequality, and the lengths of a code no
word of which continues another do meet it.
-/

namespace FileStorage.OptimalCode

/-- `Merges weights cost`: merging the two lightest again and again costs `cost`. -/
inductive Merges : Multiset Nat → Nat → Prop where
  | one (w) : Merges {w} 0
  | merge {a b rest cost} : (∀ w ∈ b ::ₘ rest, a ≤ w) → (∀ w ∈ rest, b ≤ w) →
      Merges ((a + b) ::ₘ rest) cost → Merges (a ::ₘ b ::ₘ rest) (a + b + cost)

/-! ## The Kraft sum -/

noncomputable def kraft (lengths : Multiset Nat) : ℝ := (lengths.map fun l => (1 / 2 : ℝ) ^ l).sum

@[simp] theorem kraft_cons (l : Nat) (lengths : Multiset Nat) :
    kraft (l ::ₘ lengths) = (1 / 2) ^ l + kraft lengths := by
  rw [kraft, Multiset.map_cons, Multiset.sum_cons, kraft]

/-- In units of the shortest share the Kraft sum is a whole number. -/
theorem kraft_whole {lengths : Multiset Nat} {m : Nat} (bounded : ∀ l ∈ lengths, l ≤ m) :
    ∃ n : Nat, kraft lengths = n * (1 / 2) ^ m := by
  induction lengths using Multiset.induction_on with
  | empty => exact ⟨0, by simp [kraft]⟩
  | cons l lengths ih =>
      obtain ⟨n, whole⟩ := ih fun k member => bounded k (Multiset.mem_cons_of_mem member)
      obtain ⟨d, rfl⟩ := Nat.exists_eq_add_of_le (bounded l (Multiset.mem_cons_self l lengths))
      refine ⟨2 ^ d + n, ?_⟩
      have share : (1 / 2 : ℝ) ^ l = 2 ^ d * (1 / 2) ^ (l + d) := by
        rw [pow_add, mul_left_comm, ← mul_pow]
        norm_num
      rw [kraft_cons, whole, share]
      push_cast
      ring

/-- The two longest codes can be replaced by one that is a bit shorter than the
    second of them. -/
theorem kraft_merge {m₁ m₂ : Nat} {lengths : Multiset Nat} (second : m₂ ≤ m₁)
    (bounded : ∀ l ∈ lengths, l ≤ m₂) (fits : kraft (m₁ ::ₘ m₂ ::ₘ lengths) ≤ 1) :
    ∃ k, m₂ = k + 1 ∧ kraft (k ::ₘ lengths) ≤ 1 := by
  obtain ⟨n, whole⟩ := kraft_whole bounded
  have share : (0 : ℝ) < (1 / 2) ^ m₂ := by positivity
  have unit : (2 : ℝ) ^ m₂ * (1 / 2) ^ m₂ = 1 := by
    rw [← mul_pow]
    norm_num
  -- the first code takes something, so the others leave room for one more share
  have room : n + 1 < 2 ^ m₂ := by
    have first : (0 : ℝ) < (1 / 2) ^ m₁ := by positivity
    rw [kraft_cons, kraft_cons, whole] at fits
    have below : ((n + 1 : Nat) : ℝ) * (1 / 2) ^ m₂ < (2 : ℝ) ^ m₂ * (1 / 2) ^ m₂ := by
      rw [unit]
      push_cast
      linarith
    exact_mod_cast lt_of_mul_lt_mul_right below share.le
  cases m₂ with
  | zero => simp at room
  | succ k =>
      refine ⟨k, rfl, ?_⟩
      have half : (1 / 2 : ℝ) ^ k = 2 * (1 / 2) ^ (k + 1) := by
        rw [pow_succ]
        ring
      have enough : ((n + 2 : Nat) : ℝ) ≤ 2 ^ (k + 1) := by exact_mod_cast room
      calc kraft (k ::ₘ lengths) = ((n + 2 : Nat) : ℝ) * (1 / 2) ^ (k + 1) := by
            rw [kraft_cons, whole, half]
            push_cast
            ring
        _ ≤ 2 ^ (k + 1) * (1 / 2) ^ (k + 1) := mul_le_mul_of_nonneg_right enough share.le
        _ = 1 := unit

/-! ## Exchanging -/

def total (pairs : Multiset (Nat × Nat)) : Nat := (pairs.map fun p => p.1 * p.2).sum

@[simp] theorem total_cons (p : Nat × Nat) (pairs : Multiset (Nat × Nat)) :
    total (p ::ₘ pairs) = p.1 * p.2 + total pairs := by
  rw [total, Multiset.map_cons, Multiset.sum_cons, total]

/-- The lightest weight can get the longest code. -/
theorem exchange {pairs : Multiset (Nat × Nat)} {a : Nat} {rest : Multiset Nat}
    (weights : pairs.map Prod.fst = a ::ₘ rest) (lightest : ∀ w ∈ rest, a ≤ w) :
    ∃ m others, others.map Prod.fst = rest ∧ (∀ l ∈ others.map Prod.snd, l ≤ m) ∧
      m ::ₘ others.map Prod.snd = pairs.map Prod.snd ∧
      total ((a, m) ::ₘ others) ≤ total pairs := by
  obtain ⟨⟨b, k⟩, member, rfl⟩ : ∃ p ∈ pairs, p.1 = a := by
    rw [← Multiset.mem_map, weights]
    exact Multiset.mem_cons_self a rest
  obtain ⟨⟨w, m⟩, inside, longest⟩ := pairs.toFinset.exists_max_image Prod.snd
    ⟨(b, k), Multiset.mem_toFinset.mpr member⟩
  obtain ⟨others, rfl⟩ := Multiset.exists_cons_of_mem member
  rw [Multiset.map_cons, Multiset.cons_inj_right] at weights
  have longest : ∀ p ∈ (b, k) ::ₘ others, p.2 ≤ m := fun p member =>
    longest p (Multiset.mem_toFinset.mpr member)
  rcases Multiset.mem_cons.mp (Multiset.mem_toFinset.mp inside) with same | inside
  · obtain ⟨rfl, rfl⟩ := Prod.mk.inj same
    refine ⟨m, others, weights, ?_, (Multiset.map_cons Prod.snd (w, m) others).symm, le_rfl⟩
    intro l inOthers
    obtain ⟨p, known, rfl⟩ := Multiset.mem_map.mp inOthers
    exact longest p (Multiset.mem_cons_of_mem known)
  · -- the two weights change their codes
    obtain ⟨others, rfl⟩ := Multiset.exists_cons_of_mem inside
    rw [Multiset.map_cons] at weights
    have heavier : b ≤ w := by
      apply lightest
      rw [← weights]
      exact Multiset.mem_cons_self _ _
    have shorter : k ≤ m := longest (b, k) (Multiset.mem_cons_self _ _)
    refine ⟨m, (w, k) ::ₘ others, by rw [Multiset.map_cons, weights], ?_, ?_, ?_⟩
    · intro l inOthers
      rw [Multiset.map_cons, Multiset.mem_cons] at inOthers
      rcases inOthers with rfl | inOthers
      · exact shorter
      · obtain ⟨p, known, rfl⟩ := Multiset.mem_map.mp inOthers
        exact longest p (Multiset.mem_cons_of_mem (Multiset.mem_cons_of_mem known))
    · simp only [Multiset.map_cons]
      exact Multiset.cons_swap m k _
    · simp only [total_cons, ← Nat.add_assoc]
      exact Nat.add_le_add_right (mul_add_mul_le_mul_add_mul heavier shorter) _

/-- No code lengths that meet the Kraft inequality cost less than the merges. -/
theorem Merges.le_total {weights : Multiset Nat} {cost : Nat} (merges : Merges weights cost)
    {pairs : Multiset (Nat × Nat)} (weighted : pairs.map Prod.fst = weights)
    (fits : kraft (pairs.map Prod.snd) ≤ 1) : cost ≤ total pairs := by
  induction merges generalizing pairs with
  | one w => exact Nat.zero_le _
  | @merge a b rest cost lightest second _ ih =>
      obtain ⟨m₁, others₁, weights₁, longest₁, lengths₁, cheaper₁⟩ := exchange weighted lightest
      obtain ⟨m₂, others₂, weights₂, longest₂, lengths₂, cheaper₂⟩ := exchange weights₁ second
      have shorter : m₂ ≤ m₁ := by
        apply longest₁
        rw [← lengths₂]
        exact Multiset.mem_cons_self _ _
      rw [← lengths₁, ← lengths₂] at fits
      obtain ⟨k, rfl, fits'⟩ := kraft_merge shorter longest₂ fits
      have merged := @ih ((a + b, k) ::ₘ others₂) (by rw [Multiset.map_cons, weights₂])
        (by rwa [Multiset.map_cons])
      simp only [total_cons] at merged cheaper₁ cheaper₂
      have longer : a * (k + 1) ≤ a * m₁ := Nat.mul_le_mul_left a shorter
      calc a + b + cost ≤ a + b + ((a + b) * k + total others₂) := by omega
        _ = a * (k + 1) + (b * (k + 1) + total others₂) := by ring
        _ ≤ a * m₁ + total others₁ := Nat.add_le_add longer cheaper₂
        _ ≤ total pairs := cheaper₁

/-! ## Bounds by the number of weights -/

variable {weights : Multiset Nat} {cost : Nat}

theorem Merges.card_pos (merges : Merges weights cost) : 0 < weights.card := by
  cases merges <;> simp

theorem Merges.cost_one (merges : Merges weights cost) (one : weights.card = 1) : cost = 0 := by
  cases merges with
  | one => rfl
  | merge => simp at one

theorem Merges.cost_two (merges : Merges weights cost) (two : weights.card = 2) :
    cost = weights.sum := by
  cases merges with
  | one => simp at two
  | @merge a b rest cost _ _ later =>
      rw [Multiset.card_cons, Multiset.card_cons] at two
      have free := later.cost_one (by rw [Multiset.card_cons]; omega)
      obtain rfl : rest = 0 := Multiset.card_eq_zero.mp (by omega)
      simp [free]

theorem Merges.cost_three (merges : Merges weights cost) (three : weights.card = 3) :
    ∃ m ∈ weights, (∀ w ∈ weights, w ≤ m) ∧ cost + m = 2 * weights.sum := by
  cases merges with
  | one => simp at three
  | @merge a b rest cost lightest second later =>
      rw [Multiset.card_cons, Multiset.card_cons] at three
      have twice := later.cost_two (by rw [Multiset.card_cons]; omega)
      obtain ⟨m, rfl⟩ := Multiset.card_eq_one.mp (show rest.card = 1 by omega)
      have below := lightest b (Multiset.mem_cons_self _ _)
      have above := second m (Multiset.mem_singleton_self m)
      refine ⟨m, by simp, ?_, ?_⟩
      · intro w member
        simp only [Multiset.mem_cons, Multiset.mem_singleton] at member
        rcases member with rfl | rfl | rfl <;> omega
      · simp only [Multiset.sum_cons, Multiset.sum_singleton] at twice ⊢
        omega

theorem Merges.cost_ge (merges : Merges weights cost) (positive : ∀ w ∈ weights, 1 ≤ w)
    (several : 2 ≤ weights.card) : 2 * weights.card + weights.sum ≤ cost + 4 := by
  induction merges with
  | one => simp at several
  | @merge a b rest cost _ _ later ih =>
      have onA := positive a (Multiset.mem_cons_self _ _)
      have onB := positive b (Multiset.mem_cons_of_mem (Multiset.mem_cons_self _ _))
      by_cases last : rest = 0
      · subst last
        have free := later.cost_one (by simp)
        simp only [free, Multiset.card_cons, Multiset.card_zero, Multiset.sum_cons,
          Multiset.sum_zero]
        omega
      · have more := Multiset.card_pos.mpr last
        have inner := ih (fun w member => by
          rcases Multiset.mem_cons.mp member with rfl | member
          · omega
          · exact positive w (Multiset.mem_cons_of_mem (Multiset.mem_cons_of_mem member)))
          (by rw [Multiset.card_cons]; omega)
        simp only [Multiset.card_cons, Multiset.sum_cons] at inner ⊢
        omega

/-- Codes of one length are enough for as many weights as there are such codes. -/
theorem Merges.cost_le (merges : Merges weights cost) {k : Nat} (few : weights.card ≤ 2 ^ k) :
    cost ≤ weights.sum * k := by
  have lengths : (weights.map fun w => (w, k)).map Prod.snd = Multiset.replicate weights.card k := by
    rw [Multiset.map_map]
    exact Multiset.map_const' weights k
  have fits : kraft ((weights.map fun w => (w, k)).map Prod.snd) ≤ 1 := by
    have whole : (2 : ℝ) ^ k * (1 / 2) ^ k = 1 := by
      rw [← mul_pow]
      norm_num
    have bound : (weights.card : ℝ) ≤ 2 ^ k := by exact_mod_cast few
    rw [lengths, kraft, Multiset.map_replicate, Multiset.sum_replicate, nsmul_eq_mul]
    calc (weights.card : ℝ) * (1 / 2) ^ k ≤ 2 ^ k * (1 / 2) ^ k :=
          mul_le_mul_of_nonneg_right bound (by positivity)
      _ = 1 := whole
  have weighted : (weights.map fun w => (w, k)).map Prod.fst = weights := by
    rw [Multiset.map_map]
    exact Multiset.map_id weights
  calc cost ≤ total (weights.map fun w => (w, k)) := merges.le_total weighted fits
    _ = (weights.map fun w => w * k).sum := by rw [total, Multiset.map_map]; rfl
    _ = weights.sum * k := by rw [Multiset.sum_map_mul_right, Multiset.map_id']

/-! ## Prefix codes -/

/-- No word of the code continues the word of another symbol. -/
def PrefixFree {α : Type} (symbols : Finset α) (code : α → List Bool) : Prop :=
  ∀ a ∈ symbols, ∀ b ∈ symbols, a ≠ b → ¬ code a <+: code b

variable {α : Type} {symbols : Finset α} {code : α → List Bool}

theorem PrefixFree.ne_nil (free : PrefixFree symbols code) (two : symbols.Nontrivial) {a : α}
    (member : a ∈ symbols) : code a ≠ [] := by
  intro empty
  obtain ⟨b, inside, different⟩ := two.exists_ne a
  refine free a member b inside different.symm ?_
  rw [empty]
  exact List.nil_prefix

theorem PrefixFree.uniquelyDecodable [DecidableEq α] (free : PrefixFree symbols code)
    (two : symbols.Nontrivial) :
    InformationTheory.UniquelyDecodable (symbols.image code : Set (List Bool)) := by
  have words : ∀ word ∈ (symbols.image code : Set (List Bool)), ∃ a ∈ symbols, code a = word :=
    fun word member => Finset.mem_image.mp member
  intro first second
  induction first generalizing second with
  | nil =>
      intro _ inside same
      cases second with
      | nil => rfl
      | cons word second =>
          obtain ⟨a, member, rfl⟩ := words word (inside word List.mem_cons_self)
          rw [List.flatten_nil, List.flatten_cons, eq_comm, List.append_eq_nil_iff] at same
          exact absurd same.1 (free.ne_nil two member)
  | cons word first ih =>
      intro inside inside' same
      obtain ⟨a, member, rfl⟩ := words word (inside word List.mem_cons_self)
      cases second with
      | nil =>
          rw [List.flatten_nil, List.flatten_cons, List.append_eq_nil_iff] at same
          exact absurd same.1 (free.ne_nil two member)
      | cons word' second =>
          obtain ⟨b, member', rfl⟩ := words word' (inside' word' List.mem_cons_self)
          rw [List.flatten_cons, List.flatten_cons] at same
          obtain rfl : a = b := by
            by_contra different
            have other : code b <+: code a ++ first.flatten := ⟨second.flatten, same.symm⟩
            rcases List.prefix_or_prefix_of_prefix (List.prefix_append _ _) other with
              continues | continues
            · exact free a member b member' different continues
            · exact free b member' a member (Ne.symm different) continues
          rw [ih second (fun w h => inside w (List.mem_cons_of_mem _ h))
            (fun w h => inside' w (List.mem_cons_of_mem _ h)) (List.append_cancel_left same)]

/-- The words of a prefix code meet the Kraft inequality. -/
theorem PrefixFree.kraft_le [DecidableEq α] (free : PrefixFree symbols code)
    (two : symbols.Nontrivial) : kraft (symbols.val.map fun a => (code a).length) ≤ 1 := by
  have injective : Set.InjOn code symbols := by
    intro a member b member' same
    by_contra different
    exact free a member b member' different (by rw [same])
  have bound := InformationTheory.kraft_mcmillan_inequality (free.uniquelyDecodable two)
  rw [Finset.sum_image injective, Fintype.card_bool] at bound
  rw [kraft, Multiset.map_map]
  exact_mod_cast bound

/-- Merging the weights of the symbols costs no more than any prefix code for them. -/
theorem Merges.le_code [DecidableEq α] {weight : α → Nat} {cost : Nat}
    (merges : Merges (symbols.val.map weight) cost) (free : PrefixFree symbols code)
    (two : symbols.Nontrivial) : cost ≤ ∑ a ∈ symbols, weight a * (code a).length := by
  have weighted : (symbols.val.map fun a => (weight a, (code a).length)).map Prod.fst =
      symbols.val.map weight := by
    rw [Multiset.map_map]
    rfl
  have bound := merges.le_total weighted (by rw [Multiset.map_map]; exact free.kraft_le two)
  rwa [total, Multiset.map_map] at bound

end FileStorage.OptimalCode
