import Mathlib.Logic.Basic

/-! # Traces of actions

A system changes its state by actions, each of which is enabled in some states.
`Trace` runs a list of actions. An invariant that every enabled action keeps,
under a guard, holds after every trace that meets the guard at each of its
actions.
-/

namespace FileStorage

structure ActionSystem (σ α : Type) where
  Enabled : σ → α → Prop
  apply : σ → α → σ

namespace ActionSystem

variable {σ α : Type} (S : ActionSystem σ α)

/-- The actions lead from the first state to the second, each enabled in its turn. -/
inductive Trace : σ → List α → σ → Prop where
  | nil (s) : Trace s [] s
  | cons {s a acts t} : S.Enabled s a → Trace (S.apply s a) acts t → Trace s (a :: acts) t

/-- The guard holds at every action of a run from `s`. -/
def Meets (guard : σ → α → Prop) : σ → List α → Prop
  | _, [] => True
  | s, a :: acts => guard s a ∧ Meets guard (S.apply s a) acts

variable {S} {s t u : σ} {acts rest : List α} {I : σ → Prop} {guard : σ → α → Prop}

theorem Trace.append (first : S.Trace s acts t) (second : S.Trace t rest u) :
    S.Trace s (acts ++ rest) u := by
  induction first with
  | nil s => exact second
  | cons enabled _ ih => exact .cons enabled (ih second)

theorem Trace.of_append (trace : S.Trace s (acts ++ rest) u) :
    ∃ t, S.Trace s acts t ∧ S.Trace t rest u := by
  induction acts generalizing s with
  | nil => exact ⟨s, .nil s, trace⟩
  | cons a acts ih =>
      obtain _ | ⟨enabled, trace⟩ := trace
      obtain ⟨t, first, second⟩ := ih trace
      exact ⟨t, .cons enabled first, second⟩

theorem Meets.of_forall (always : ∀ s, ∀ a ∈ acts, guard s a) : S.Meets guard s acts := by
  induction acts generalizing s with
  | nil => trivial
  | cons a acts ih =>
      exact ⟨always s a List.mem_cons_self,
        ih fun s b member => always s b (List.mem_cons_of_mem a member)⟩

instance decidableMeets [∀ s a, Decidable (guard s a)] :
    (s : σ) → (acts : List α) → Decidable (S.Meets guard s acts)
  | _, [] => inferInstanceAs (Decidable True)
  | s, a :: acts =>
      haveI := decidableMeets (S.apply s a) acts
      inferInstanceAs (Decidable (guard s a ∧ S.Meets guard (S.apply s a) acts))

/-- Actions that are enabled one after the other make a trace. -/
theorem Trace.of_enabled (enabled : S.Meets S.Enabled s acts) :
    S.Trace s acts (acts.foldl S.apply s) := by
  induction acts generalizing s with
  | nil => exact .nil s
  | cons a acts ih => exact .cons enabled.1 (ih enabled.2)

/-- The actions decide where a trace ends. -/
theorem Trace.eq_foldl (trace : S.Trace s acts t) : t = acts.foldl S.apply s := by
  induction trace with
  | nil s => rfl
  | cons _ _ ih => exact ih

theorem Meets.and {guard' : σ → α → Prop} (first : S.Meets guard s acts)
    (second : S.Meets guard' s acts) : S.Meets (fun s a => guard s a ∧ guard' s a) s acts := by
  induction acts generalizing s with
  | nil => trivial
  | cons a acts ih => exact ⟨⟨first.1, second.1⟩, ih first.2 second.2⟩

/-- Invariants of the actions are invariants of the traces. -/
theorem Trace.keeps (step : ∀ s a, I s → S.Enabled s a → guard s a → I (S.apply s a))
    (trace : S.Trace s acts t) (meets : S.Meets guard s acts) (holds : I s) : I t := by
  induction trace with
  | nil s => exact holds
  | cons enabled _ ih => exact ih meets.2 (step _ _ holds enabled meets.1)

/-- How many actions of a run from `s` are such that `p` holds of them in their state. -/
def occurrences (S : ActionSystem σ α) (p : σ → α → Bool) : σ → List α → Nat
  | _, [] => 0
  | s, a :: acts => (if p s a then 1 else 0) + S.occurrences p (S.apply s a) acts

/-- What comes in is what goes out and what is left, if every enabled action keeps it so. -/
theorem Trace.balance {p q : σ → α → Bool} {level : σ → Nat}
    (step : ∀ s a, I s → S.Enabled s a → I (S.apply s a) ∧
      level (S.apply s a) + (if q s a then 1 else 0) = level s + if p s a then 1 else 0)
    (trace : S.Trace s acts t) (holds : I s) :
    I t ∧ level t + S.occurrences q s acts = level s + S.occurrences p s acts := by
  induction trace with
  | nil s => exact ⟨holds, rfl⟩
  | @cons s a acts t enabled _ ih =>
      obtain ⟨holds, same⟩ := step s a holds enabled
      obtain ⟨holds, later⟩ := ih holds
      refine ⟨holds, ?_⟩
      simp only [occurrences]
      omega

/-- A relation to an abstract state that every enabled action keeps, with the
    abstract step beside it, holds between the ends of the two runs. -/
theorem Trace.simulates {β : Type} {R : σ → β → Prop} {spec : β → α → β}
    (step : ∀ s b a, R s b → S.Enabled s a → guard s a → R (S.apply s a) (spec b a))
    (trace : S.Trace s acts t) (meets : S.Meets guard s acts) {b : β} (related : R s b) :
    R t (acts.foldl spec b) := by
  induction trace generalizing b with
  | nil s => exact related
  | cons enabled _ ih => exact ih meets.2 (step _ _ _ related enabled meets.1)

end ActionSystem

end FileStorage
