import Mathlib.Logic.Basic

/-! # Programs with error returns and undefined behaviour

A C function that works on shared state ends in one of three ways: it returns a
value, it returns an error code, or it runs into undefined behaviour. An error
return keeps every change made before it; nothing is rolled back. Undefined
behaviour has no state after it, only the reason why.

`Outcome.Post` is the predicate transformer of this notion: one condition for
each way of ending. The `post_` lemmas run a program symbolically.
-/

namespace FileStorage

/-- How a program started in some state ends. -/
inductive Outcome (ε φ σ α : Type) where
  | ok (value : α) (state : σ)
  | error (code : ε) (state : σ)
  | fault (why : φ)
  deriving DecidableEq

namespace Outcome

variable {ε φ σ α : Type}

/-- `returned` holds of a normal return, `failed` of an error return and
    `undefined` of undefined behaviour. -/
def Post (returned : α → σ → Prop) (failed : ε → σ → Prop) (undefined : φ → Prop) :
    Outcome ε φ σ α → Prop
  | .ok value state => returned value state
  | .error code state => failed code state
  | .fault why => undefined why

def state? : Outcome ε φ σ α → Option σ
  | .ok _ state | .error _ state => some state
  | .fault _ => none

def value? : Outcome ε φ σ α → Option α
  | .ok a _ => some a
  | .error _ _ | .fault _ => none

def fault? : Outcome ε φ σ α → Option φ
  | .ok _ _ | .error _ _ => none
  | .fault f => some f

theorem Post.mono {Q Q' : α → σ → Prop} {E E' : ε → σ → Prop} {F F' : φ → Prop}
    {outcome : Outcome ε φ σ α} (post : outcome.Post Q E F)
    (returned : ∀ a s, Q a s → Q' a s) (failed : ∀ e s, E e s → E' e s)
    (undefined : ∀ f, F f → F' f) : outcome.Post Q' E' F' := by
  cases outcome with
  | ok a s => exact returned a s post
  | error e s => exact failed e s post
  | fault f => exact undefined f post

theorem Post.and {Q Q' : α → σ → Prop} {E E' : ε → σ → Prop} {F F' : φ → Prop}
    {outcome : Outcome ε φ σ α} (left : outcome.Post Q E F) (right : outcome.Post Q' E' F') :
    outcome.Post (fun a s => Q a s ∧ Q' a s) (fun e s => E e s ∧ E' e s)
      (fun f => F f ∧ F' f) := by
  cases outcome <;> exact ⟨left, right⟩

theorem Post.of_forall {I : σ → Prop} (always : ∀ s, I s) (outcome : Outcome ε φ σ α) :
    outcome.Post (fun _ => I) (fun _ => I) (fun _ => True) := by
  cases outcome with
  | ok a s => exact always s
  | error e s => exact always s
  | fault f => trivial

theorem Post.of_state {I : σ → Prop} {F : φ → Prop} {outcome : Outcome ε φ σ α} {s : σ}
    (post : outcome.Post (fun _ => I) (fun _ => I) F) (left : outcome.state? = some s) : I s := by
  cases outcome with
  | ok a t => cases left; exact post
  | error e t => cases left; exact post
  | fault f => cases left

theorem Post.of_value {Q : α → σ → Prop} {E : ε → σ → Prop} {F : φ → Prop}
    {outcome : Outcome ε φ σ α} {a : α} (post : outcome.Post Q E F)
    (returned : outcome.value? = some a) : ∃ s, Q a s := by
  cases outcome with
  | ok b t => cases returned; exact ⟨t, post⟩
  | error e t => cases returned
  | fault f => cases returned

theorem Post.of_fault {Q : α → σ → Prop} {E : ε → σ → Prop} {F : φ → Prop}
    {outcome : Outcome ε φ σ α} {f : φ} (post : outcome.Post Q E F)
    (undefined : outcome.fault? = some f) : F f := by
  cases outcome with
  | ok a t => cases undefined
  | error e t => cases undefined
  | fault g => cases undefined; exact post

/-- Every error return meets `P` exactly if the condition `C` holds, which is decided
    in the same way for each way of ending. -/
theorem Post.errors_iff {C : Prop} {P : σ → Prop} {outcome : Outcome ε φ σ α}
    (post : outcome.Post (fun _ _ => C) (fun _ s => C ↔ P s) (fun _ => C)) :
    (∀ e s, outcome = .error e s → P s) ↔ C := by
  cases outcome with
  | ok a s => exact iff_of_true nofun post
  | error e s =>
      constructor
      · exact fun all => post.mpr (all e s rfl)
      · rintro holds _ _ ⟨⟩
        exact post.mp holds
  | fault f => exact iff_of_true nofun post

/-- A return that meets `P` is possible exactly if the condition `C` holds. -/
theorem Post.returns_iff {C : Prop} {P : α → σ → Prop} {outcome : Outcome ε φ σ α}
    (post : outcome.Post (fun a s => C ↔ P a s) (fun _ _ => ¬ C) (fun _ => ¬ C)) :
    (∃ a s, outcome = .ok a s ∧ P a s) ↔ C := by
  cases outcome with
  | ok a s =>
      constructor
      · rintro ⟨_, _, ⟨⟩, holds⟩
        exact post.mpr holds
      · exact fun holds => ⟨a, s, rfl, post.mp holds⟩
  | error e s => exact iff_of_false (by rintro ⟨_, _, ⟨⟩, -⟩) post
  | fault f => exact iff_of_false (by rintro ⟨_, _, ⟨⟩, -⟩) post

end Outcome

/-- A program over the state `σ` with error codes `ε` and faults `φ`. -/
def Program (ε φ σ α : Type) : Type := σ → Outcome ε φ σ α

namespace Program

variable {ε φ σ τ α β : Type}

/-- Run `next` on the value of a normal return; stop at anything else. -/
def bind (first : Program ε φ σ α) (next : α → Program ε φ σ β) : Program ε φ σ β := fun s =>
  match first s with
  | .ok a t => next a t
  | .error e t => .error e t
  | .fault f => .fault f

instance : Monad (Program ε φ σ) where
  pure a := fun s => .ok a s
  bind := Program.bind

def get : Program ε φ σ σ := fun s => .ok s s

def modify (f : σ → σ) : Program ε φ σ Unit := fun s => .ok () (f s)

def throw (code : ε) : Program ε φ σ α := fun s => .error code s

def fault (why : φ) : Program ε φ σ α := fun _ => .fault why

/-- Return the error `code` when the check `c` finds something wrong. -/
def failIf (c : Prop) [Decidable c] (code : ε) : Program ε φ σ Unit :=
  if c then throw code else pure ()

/-- Unwrap a pointer that must not be null. -/
def orFail (x : Option α) (code : ε) : Program ε φ σ α :=
  match x with
  | some a => pure a
  | none => throw code

/-- Run a program on one component of the state, keeping its changes to that
    component on both kinds of return. -/
def zoom (view : σ → τ) (put : τ → σ → σ) (inner : Program ε φ τ α) : Program ε φ σ α := fun s =>
  match inner (view s) with
  | .ok a t => .ok a (put t s)
  | .error e t => .error e (put t s)
  | .fault f => .fault f

/-- Run a program and hand its error to what follows. -/
def attempt (p : Program ε φ σ α) : Program ε φ σ (Except ε α) := fun s =>
  match p s with
  | .ok a t => .ok (.ok a) t
  | .error e t => .ok (.error e) t
  | .fault f => .fault f

theorem bind_run (first : Program ε φ σ α) (next : α → Program ε φ σ β) (s : σ) :
    (first >>= next) s = match first s with
      | .ok a t => next a t
      | .error e t => .error e t
      | .fault f => .fault f := rfl

theorem pure_run (a : α) (s : σ) : (pure a : Program ε φ σ α) s = .ok a s := rfl

theorem map_id_run (p : Program ε φ σ α) : id <$> p = p := by
  funext s
  change Program.bind p _ s = p s
  unfold Program.bind
  cases p s <;> rfl

theorem bind_bind {γ : Type} (p : Program ε φ σ α) (f : α → Program ε φ σ β)
    (g : β → Program ε φ σ γ) : p >>= f >>= g = p >>= fun a => f a >>= g := by
  funext s
  rw [bind_run, bind_run, bind_run]
  cases p s <;> rfl

instance : LawfulMonad (Program ε φ σ) :=
  LawfulMonad.mk' (Program ε φ σ) map_id_run (fun _ _ => rfl) bind_bind

theorem bind_eq_ok {first : Program ε φ σ α} {next : α → Program ε φ σ β} {s t : σ} {b : β}
    (returns : (first >>= next) s = .ok b t) : ∃ a u, first s = .ok a u ∧ next a u = .ok b t := by
  rw [bind_run] at returns
  cases outcome : first s with
  | ok a u =>
      rw [outcome] at returns
      exact ⟨a, u, rfl, returns⟩
  | error e u =>
      rw [outcome] at returns
      cases returns
  | fault f =>
      rw [outcome] at returns
      cases returns

section Post

variable {Q : β → σ → Prop} {R : α → σ → Prop} {E : ε → σ → Prop} {F : φ → Prop} {s : σ}

@[simp] theorem post_pure (a : α) :
    ((pure a : Program ε φ σ α) s).Post R E F ↔ R a s := Iff.rfl

@[simp] theorem post_bind (first : Program ε φ σ α) (next : α → Program ε φ σ β) :
    ((first >>= next) s).Post Q E F ↔ (first s).Post (fun a t => (next a t).Post Q E F) E F := by
  change (Program.bind first next s).Post Q E F ↔ _
  unfold Program.bind
  cases first s <;> exact Iff.rfl

@[simp] theorem post_get {R : σ → σ → Prop} :
    ((get : Program ε φ σ σ) s).Post R E F ↔ R s s := Iff.rfl

@[simp] theorem post_modify (f : σ → σ) {R : Unit → σ → Prop} :
    ((modify f : Program ε φ σ Unit) s).Post R E F ↔ R () (f s) := Iff.rfl

@[simp] theorem post_throw (code : ε) :
    ((throw code : Program ε φ σ α) s).Post R E F ↔ E code s := Iff.rfl

@[simp] theorem post_fault (why : φ) :
    ((fault why : Program ε φ σ α) s).Post R E F ↔ F why := Iff.rfl

theorem post_zoom (view : σ → τ) (put : τ → σ → σ) (inner : Program ε φ τ α) :
    ((zoom view put inner) s).Post R E F ↔
      (inner (view s)).Post (fun a t => R a (put t s)) (fun e t => E e (put t s)) F := by
  unfold zoom
  cases inner (view s) <;> exact Iff.rfl

@[simp] theorem post_failIf (c : Prop) [Decidable c] (code : ε) {R : Unit → σ → Prop} :
    ((failIf c code : Program ε φ σ Unit) s).Post R E F ↔ (c → E code s) ∧ (¬ c → R () s) := by
  unfold failIf
  by_cases h : c <;> simp [h]

@[simp] theorem post_orFail (x : Option α) (code : ε) :
    ((orFail x code : Program ε φ σ α) s).Post R E F ↔
      (x = none → E code s) ∧ (∀ a, x = some a → R a s) := by
  cases x <;> simp [orFail]

@[simp] theorem post_attempt (p : Program ε φ σ α) {R : Except ε α → σ → Prop} :
    (attempt p s).Post R E F ↔ (p s).Post (fun a t => R (.ok a) t) (fun e t => R (.error e) t) F := by
  unfold attempt
  cases p s <;> exact Iff.rfl

theorem post_ite {c : Prop} [Decidable c] (yes no : Program ε φ σ α) :
    ((if c then yes else no) s).Post R E F ↔
      (c → (yes s).Post R E F) ∧ (¬ c → (no s).Post R E F) := by
  by_cases h : c <;> simp [h]

end Post

/-- `p` leaves `I` alone: whichever way it returns, `I` holds again. -/
def Keeps (I : σ → Prop) (p : Program ε φ σ α) : Prop :=
  ∀ s, I s → (p s).Post (fun _ => I) (fun _ => I) (fun _ => True)

namespace Keeps

variable {I : σ → Prop}

theorem pure (a : α) : Keeps I (Pure.pure a : Program ε φ σ α) := fun _ kept => kept

theorem bind {first : Program ε φ σ α} {next : α → Program ε φ σ β}
    (left : Keeps I first) (right : ∀ a, Keeps I (next a)) : Keeps I (first >>= next) := by
  intro s kept
  rw [post_bind]
  exact (left s kept).mono (fun a t kept => right a t kept) (fun _ _ kept => kept)
    (fun _ _ => trivial)

theorem get : Keeps I (Program.get : Program ε φ σ σ) := fun _ kept => kept

theorem throw (code : ε) : Keeps I (Program.throw code : Program ε φ σ α) := fun _ kept => kept

theorem fault (why : φ) : Keeps I (Program.fault why : Program ε φ σ α) := fun _ _ => trivial

theorem modify {f : σ → σ} (step : ∀ s, I s → I (f s)) :
    Keeps I (Program.modify f : Program ε φ σ Unit) := fun s kept => step s kept

theorem ite {c : Prop} [Decidable c] {yes no : Program ε φ σ α}
    (left : Keeps I yes) (right : Keeps I no) : Keeps I (if c then yes else no) := by
  intro s kept
  rw [post_ite]
  exact ⟨fun _ => left s kept, fun _ => right s kept⟩

theorem failIf (c : Prop) [Decidable c] (code : ε) :
    Keeps I (Program.failIf c code : Program ε φ σ Unit) := ite (throw code) (pure ())

theorem orFail (x : Option α) (code : ε) :
    Keeps I (Program.orFail x code : Program ε φ σ α) := by
  cases x with
  | none => exact throw code
  | some a => exact pure a

theorem attempt {p : Program ε φ σ α} (kept : Keeps I p) : Keeps I (Program.attempt p) := by
  intro s holds
  rw [post_attempt]
  exact kept s holds

end Keeps

/-- `p` leaves `I` alone and hands out no error. -/
def Settles (I : σ → Prop) (p : Program ε φ σ α) : Prop :=
  ∀ s, I s → (p s).Post (fun _ => I) (fun _ _ => False) (fun _ => True)

namespace Settles

variable {I : σ → Prop}

theorem pure (a : α) : Settles I (Pure.pure a : Program ε φ σ α) := fun _ kept => kept

theorem bind {first : Program ε φ σ α} {next : α → Program ε φ σ β}
    (left : Settles I first) (right : ∀ a, Settles I (next a)) : Settles I (first >>= next) := by
  intro s kept
  rw [post_bind]
  exact (left s kept).mono (fun a t kept => right a t kept) (fun _ _ never => never)
    (fun _ _ => trivial)

theorem attempt {p : Program ε φ σ α} (kept : Keeps I p) : Settles I (Program.attempt p) := by
  intro s holds
  rw [post_attempt]
  exact kept s holds

end Settles

/-- Whenever `p` returns normally, `Q` holds. -/
def Ensures (Q : σ → Prop) (p : Program ε φ σ α) : Prop :=
  ∀ s, (p s).Post (fun _ => Q) (fun _ _ => True) (fun _ => True)

namespace Ensures

variable {Q : σ → Prop}

theorem bind {first : Program ε φ σ α} {next : α → Program ε φ σ β}
    (last : ∀ a, Ensures Q (next a)) : Ensures Q (first >>= next) := by
  intro s
  rw [post_bind]
  cases first s with
  | ok a t => exact last a t
  | error e t => trivial
  | fault f => trivial

theorem bind_pure {first : Program ε φ σ α} (ensures : Ensures Q first) (f : α → β) :
    Ensures Q (first >>= fun a => pure (f a)) := by
  intro s
  rw [post_bind]
  exact ensures s

theorem throw (code : ε) : Ensures Q (Program.throw code : Program ε φ σ α) := fun _ => trivial

theorem fault (why : φ) : Ensures Q (Program.fault why : Program ε φ σ α) := fun _ => trivial

theorem modify {f : σ → σ} (always : ∀ s, Q (f s)) :
    Ensures Q (Program.modify f : Program ε φ σ Unit) := fun s => always s

end Ensures

/-- `p` never fails with the error `code`. -/
def Avoids (code : ε) (p : Program ε φ σ α) : Prop :=
  ∀ s, (p s).Post (fun _ _ => True) (fun e _ => e ≠ code) (fun _ => True)

namespace Avoids

variable {code : ε}

theorem pure (a : α) : Avoids code (Pure.pure a : Program ε φ σ α) := fun _ => trivial

theorem bind {first : Program ε φ σ α} {next : α → Program ε φ σ β}
    (left : Avoids code first) (right : ∀ a, Avoids code (next a)) :
    Avoids code (first >>= next) := by
  intro s
  rw [post_bind]
  exact (left s).mono (fun a t _ => right a t) (fun _ _ other => other) (fun _ _ => trivial)

theorem get : Avoids code (Program.get : Program ε φ σ σ) := fun _ => trivial

theorem throw {other : ε} (different : other ≠ code) :
    Avoids code (Program.throw other : Program ε φ σ α) := fun _ => different

theorem fault (why : φ) : Avoids code (Program.fault why : Program ε φ σ α) := fun _ => trivial

theorem modify (f : σ → σ) : Avoids code (Program.modify f : Program ε φ σ Unit) :=
  fun _ => trivial

theorem ite {c : Prop} [Decidable c] {yes no : Program ε φ σ α}
    (left : Avoids code yes) (right : Avoids code no) :
    Avoids code (if c then yes else no) := by
  intro s
  rw [post_ite]
  exact ⟨fun _ => left s, fun _ => right s⟩

theorem failIf {c : Prop} [Decidable c] {other : ε} (different : other ≠ code) :
    Avoids code (Program.failIf c other : Program ε φ σ Unit) := ite (throw different) (pure ())

theorem orFail {x : Option α} {other : ε} (different : other ≠ code) :
    Avoids code (Program.orFail x other : Program ε φ σ α) := by
  cases x with
  | none => exact throw different
  | some a => exact pure a

theorem zoom {view : σ → τ} {put : τ → σ → σ} {inner : Program ε φ τ α}
    (avoids : Avoids code inner) : Avoids code (Program.zoom view put inner) := by
  intro s
  rw [post_zoom]
  exact avoids (view s)

end Avoids

end Program

end FileStorage
