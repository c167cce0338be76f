import Mathlib.Algebra.BigOperators.Ring.List
import Mathlib.Data.List.Basic
import Mathlib.Tactic.Ring
import Mathlib.Data.Rat.Defs

/-! # Code trees

A binary tree with symbols at its leaves gives every symbol the path from the
root to it as a code. A tree with two leaves or more gives no symbol the empty
code, no code continues another, and the codes use up the whole Kraft sum. With
a weight for every symbol the tree has a cost, the weighted sum of its paths.
-/

namespace FileStorage

inductive CodeTree (α : Type) where
  | leaf (symbol : α)
  | fork (zero one : CodeTree α)

namespace CodeTree

variable {α : Type}

def leaves : CodeTree α → List α
  | .leaf a => [a]
  | .fork zero one => leaves zero ++ leaves one

def IsFork : CodeTree α → Prop
  | .leaf _ => False
  | .fork _ _ => True

/-- `HasCode t a code`: the path `code` leads from the root of `t` to the leaf `a`. -/
inductive HasCode : CodeTree α → α → List Bool → Prop where
  | leaf (a) : HasCode (.leaf a) a []
  | zero {zero one a code} : HasCode zero a code → HasCode (.fork zero one) a (false :: code)
  | one {zero one a code} : HasCode one a code → HasCode (.fork zero one) a (true :: code)

theorem leaves_ne_nil (t : CodeTree α) : t.leaves ≠ [] := by
  induction t with
  | leaf a => simp [leaves]
  | fork zero one ihz _ => simp [leaves, ihz]

theorem isFork_of_mem {t : CodeTree α} {a b : α} (ha : a ∈ t.leaves) (hb : b ∈ t.leaves)
    (different : a ≠ b) : t.IsFork := by
  cases t with
  | leaf c =>
      simp only [leaves, List.mem_singleton] at ha hb
      exact different (ha.trans hb.symm)
  | fork zero one => trivial

/-- The two sides of a fork have no leaf in common when no symbol is repeated. -/
theorem exists_ne_of_isFork {t : CodeTree α} (fork : t.IsFork) (nodup : t.leaves.Nodup) :
    ∃ a ∈ t.leaves, ∃ b ∈ t.leaves, a ≠ b := by
  cases t with
  | leaf c => exact fork.elim
  | fork zero one =>
      obtain ⟨a, ha⟩ := List.exists_mem_of_ne_nil _ (leaves_ne_nil zero)
      obtain ⟨b, hb⟩ := List.exists_mem_of_ne_nil _ (leaves_ne_nil one)
      have disjoint := (List.nodup_append.mp nodup).2.2
      exact ⟨a, List.mem_append_left _ ha, b, List.mem_append_right _ hb, disjoint a ha b hb⟩

/-- A code leads to one leaf, and no other code continues it. -/
theorem HasCode.unique {t : CodeTree α} {a b : α} {code more : List Bool}
    (first : HasCode t a code) (second : HasCode t b (code ++ more)) : a = b ∧ more = [] := by
  induction first with
  | leaf a =>
      rw [List.nil_append] at second
      cases second
      exact ⟨rfl, rfl⟩
  | zero _ ih =>
      cases second with
      | zero second => exact ih second
  | one _ ih =>
      cases second with
      | one second => exact ih second

theorem HasCode.ne_nil {t : CodeTree α} {a : α} {code : List Bool} (path : HasCode t a code)
    (fork : t.IsFork) : code ≠ [] := by
  cases path with
  | leaf => exact fork.elim
  | zero | one => exact List.cons_ne_nil _ _

/-! ## All codes of a tree -/

/-- The symbols of the tree with their codes, from left to right. -/
def codes : CodeTree α → List (α × List Bool)
  | .leaf a => [(a, [])]
  | .fork zero one =>
      (codes zero).map (Prod.map id (false :: ·)) ++ (codes one).map (Prod.map id (true :: ·))

theorem map_fst_codes (t : CodeTree α) : t.codes.map Prod.fst = t.leaves := by
  induction t with
  | leaf a => rfl
  | fork zero one ihz iho =>
      rw [codes, leaves, ← ihz, ← iho, List.map_append, List.map_map, List.map_map]
      rfl

theorem hasCode_iff_mem {t : CodeTree α} {a : α} {code : List Bool} :
    HasCode t a code ↔ (a, code) ∈ t.codes := by
  constructor
  · intro path
    induction path with
    | leaf a => exact List.mem_singleton_self _
    | zero _ ih => exact List.mem_append_left _ (List.mem_map_of_mem ih)
    | one _ ih => exact List.mem_append_right _ (List.mem_map_of_mem ih)
  · intro member
    induction t generalizing code with
    | leaf b =>
        obtain ⟨rfl, rfl⟩ := Prod.mk.inj (List.mem_singleton.mp member)
        exact .leaf a
    | fork zero one ihz iho =>
        rcases List.mem_append.mp member with member | member
        · obtain ⟨⟨b, rest⟩, inner, same⟩ := List.mem_map.mp member
          obtain ⟨rfl, rfl⟩ := Prod.mk.inj same
          exact .zero (ihz inner)
        · obtain ⟨⟨b, rest⟩, inner, same⟩ := List.mem_map.mp member
          obtain ⟨rfl, rfl⟩ := Prod.mk.inj same
          exact .one (iho inner)

/-- The codes of a tree fill the Kraft sum. -/
theorem kraft_codes (t : CodeTree α) :
    (t.codes.map fun p => (1 / 2 : ℚ) ^ p.2.length).sum = 1 := by
  induction t with
  | leaf a => simp [codes]
  | fork zero one ihz iho =>
      have half : ∀ (bit : Bool) (t : CodeTree α),
          ((t.codes.map (Prod.map id (bit :: ·))).map fun p => (1 / 2 : ℚ) ^ p.2.length).sum =
            (t.codes.map fun p => (1 / 2 : ℚ) ^ p.2.length).sum * (1 / 2) := by
        intro bit t
        rw [List.map_map, ← List.sum_map_mul_right]
        exact congrArg List.sum (List.map_congr_left fun p _ => pow_succ _ _)
      rw [codes, List.map_append, List.sum_append, half, half, ihz, iho]
      norm_num

/-! ## Weights -/

def weight (w : α → Nat) : CodeTree α → Nat
  | .leaf a => w a
  | .fork zero one => weight w zero + weight w one

/-- The cost of a tree: every fork costs the weight below it. -/
def cost (w : α → Nat) : CodeTree α → Nat
  | .leaf _ => 0
  | .fork zero one => weight w zero + weight w one + (cost w zero + cost w one)

theorem weight_eq_sum (w : α → Nat) (t : CodeTree α) : t.weight w = (t.leaves.map w).sum := by
  induction t with
  | leaf a => simp [weight, leaves]
  | fork zero one ihz iho => rw [weight, leaves, List.map_append, List.sum_append, ihz, iho]

/-- The cost is the sum of the code lengths, weighted. -/
theorem cost_eq_sum (w : α → Nat) (t : CodeTree α) :
    t.cost w = (t.codes.map fun p => w p.1 * p.2.length).sum := by
  induction t with
  | leaf a => simp [cost, codes]
  | fork zero one ihz iho =>
      have deeper : ∀ (bit : Bool) (t : CodeTree α),
          ((t.codes.map (Prod.map id (bit :: ·))).map fun p => w p.1 * p.2.length).sum =
            t.weight w + (t.codes.map fun p => w p.1 * p.2.length).sum := by
        intro bit t
        rw [weight_eq_sum, ← map_fst_codes, List.map_map, List.map_map, ← List.sum_map_add]
        congr 1
        refine List.map_congr_left fun p _ => ?_
        simp only [Function.comp_apply, Prod.map_fst, Prod.map_snd, id_eq, List.length_cons]
        ring
      rw [codes, List.map_append, List.sum_append, deeper, deeper, cost, ihz, iho]
      ring

end CodeTree

end FileStorage
