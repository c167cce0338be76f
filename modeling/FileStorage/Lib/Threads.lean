import Mathlib.Algebra.Order.Ring.Nat

/-! # Lists of threads

The threads of a program, each with its own state, are a list in which a step
changes one entry.
-/

namespace FileStorage.Threads

variable {τ : Type} {threads : List τ} {index other : Nat} {t t' u : τ}

theorem countP_set_add (p : τ → Bool) (found : threads[index]? = some t) (t' : τ) :
    (threads.set index t').countP p + (if p t then 1 else 0) =
      threads.countP p + if p t' then 1 else 0 := by
  induction threads generalizing index with
  | nil => cases found
  | cons first rest ih =>
      cases index with
      | zero =>
          cases found
          simp only [List.set_cons_zero, List.countP_cons]
          omega
      | succ index =>
          have rest_ := ih (by simpa using found)
          simp only [List.set_cons_succ, List.countP_cons]
          omega

theorem sum_set_add (f : τ → Nat) (found : threads[index]? = some t) (t' : τ) :
    ((threads.set index t').map f).sum + f t = (threads.map f).sum + f t' := by
  induction threads generalizing index with
  | nil => cases found
  | cons first rest ih =>
      cases index with
      | zero =>
          cases found
          simp only [List.set_cons_zero, List.map_cons, List.sum_cons]
          omega
      | succ index =>
          have rest_ := ih (by simpa using found)
          simp only [List.set_cons_succ, List.map_cons, List.sum_cons]
          omega

theorem mem_of_mem_set (member : u ∈ threads.set index t') :
    u = t' ∨ ∃ other, other ≠ index ∧ threads[other]? = some u := by
  obtain ⟨other, found⟩ := List.mem_iff_getElem?.mp member
  by_cases same : other = index
  · subst same
    rw [List.getElem?_set_self'] at found
    obtain ⟨_, _, is⟩ := Option.map_eq_some_iff.mp found
    exact .inl is.symm
  · rw [List.getElem?_set_ne (Ne.symm same)] at found
    exact .inr ⟨other, same, found⟩

theorem mem_set_self (found : threads[index]? = some t) (t' : τ) :
    t' ∈ threads.set index t' := by
  refine List.mem_of_getElem? (i := index) ?_
  rw [List.getElem?_set_self', found]
  rfl

theorem mem_set_of_ne (different : other ≠ index) (elsewhere : threads[other]? = some u) (t' : τ) :
    u ∈ threads.set index t' := by
  refine List.mem_of_getElem? (i := other) ?_
  rw [List.getElem?_set_ne (Ne.symm different)]
  exact elsewhere

end FileStorage.Threads
