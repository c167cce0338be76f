import Mathlib.Algebra.Order.Ring.Nat
import Mathlib.Data.List.Basic

/-! # Option scanning

`getopt` of the C library for an option string that begins with a colon. The words
are the characters of the arguments. A word that is no option is passed over: the
library moves it behind the options, where the callers never look.
-/

namespace FileStorage

/-- What may follow an option letter. -/
inductive OptionArity where
  | none | required | optional
  deriving DecidableEq

structure Getopt where
  nextchar : List UInt8
  words : List (List UInt8)
  deriving DecidableEq

namespace Getopt

inductive Result where
  | option (opt : UInt8) (optarg : Option (List UInt8))
  /-- the letter is followed by nothing, but has to have an argument -/
  | missing (optopt : UInt8)
  | invalid (optopt : UInt8)
  deriving DecidableEq

def Result.value : Result → UInt8
  | option opt _ => opt
  | missing _ => 58
  | invalid _ => 63

/-- The colons behind a letter in the option string. -/
def arity : List UInt8 → UInt8 → Option OptionArity
  | [], _ => none
  | letter :: rest, c =>
      if c = 58 then none
      else if letter = c then
        some (if rest.take 2 = [58, 58] then .optional
          else if rest.head? = some 58 then .required else .none)
      else arity rest c

/-- An option letter with the characters behind it. -/
def letter (optstring : List UInt8) (c : UInt8) (rest : List UInt8) (words : List (List UInt8)) :
    Result × Getopt :=
  match arity optstring c with
  | none => (.invalid c, ⟨rest, words⟩)
  | some .none => (.option c none, ⟨rest, words⟩)
  | some .optional => (.option c (if rest = [] then none else some rest), ⟨[], words⟩)
  | some .required =>
      if rest = [] then
        match words with
        | [] => (.missing c, ⟨[], []⟩)
        | word :: words => (.option c (some word), ⟨[], words⟩)
      else (.option c (some rest), ⟨[], words⟩)

/-- The first letter of the next word that is an option, and what is behind it; the
    word `--` ends the options. -/
def nextWord : List (List UInt8) → Option (UInt8 × List UInt8 × List (List UInt8))
  | [] => none
  | (45 :: c :: rest) :: words => if c = 45 ∧ rest = [] then none else some (c, rest, words)
  | _ :: words => nextWord words

/-- A call of `getopt`; `none` is the value -1 at the end of the options. -/
def next (optstring : List UInt8) (g : Getopt) : Option (Result × Getopt) :=
  match g.nextchar with
  | c :: rest => some (letter optstring c rest g.words)
  | [] => (nextWord g.words).map fun (c, rest, words) => letter optstring c rest words

/-- The number of characters left, and of words. -/
def size (g : Getopt) : Nat := g.nextchar.length + (g.words.map (·.length + 1)).sum

variable {optstring : List UInt8} {c : UInt8} {rest : List UInt8} {words : List (List UInt8)}
  {g g' : Getopt} {result : Result}

theorem size_letter : (letter optstring c rest words).2.size ≤ size ⟨rest, words⟩ := by
  unfold letter
  split
  · exact Nat.le_refl _
  · exact Nat.le_refl _
  · exact Nat.add_le_add_right (Nat.zero_le _) _
  · split
    · split
      · exact Nat.zero_le _
      · simp only [size, List.map_cons, List.sum_cons, List.length_nil]
        omega
    · exact Nat.add_le_add_right (Nat.zero_le _) _

theorem size_nextWord {words' : List (List UInt8)}
    (found : nextWord words = some (c, rest, words')) : size ⟨rest, words'⟩ < size ⟨[], words⟩ := by
  induction words using nextWord.induct with
  | case1 => cases found
  | case2 d rest' words ends =>
      rw [nextWord, if_pos ends] at found
      cases found
  | case3 d rest' words goes =>
      rw [nextWord, if_neg goes] at found
      cases found
      simp only [size, List.map_cons, List.sum_cons, List.length_cons, List.length_nil]
      omega
  | case4 word words other ih =>
      rw [nextWord] at found
      · have fewer := ih found
        simp only [size, List.map_cons, List.sum_cons] at fewer ⊢
        omega
      · exact other

/-- Every call uses something up. -/
theorem size_next (returned : next optstring g = some (result, g')) : g'.size < g.size := by
  obtain ⟨nextchar, words⟩ := g
  unfold next at returned
  split at returned
  · rename_i d rest is
    obtain rfl : nextchar = d :: rest := is
    obtain rfl := congrArg Prod.snd (Option.some.inj returned)
    refine Nat.lt_of_le_of_lt size_letter ?_
    simp only [size, List.length_cons]
    omega
  · rename_i is
    obtain rfl : nextchar = [] := is
    obtain ⟨⟨d, rest, words'⟩, found, is⟩ := Option.map_eq_some_iff.mp returned
    obtain rfl := congrArg Prod.snd is
    exact Nat.lt_of_le_of_lt size_letter (size_nextWord found)

theorem mem_of_arity {a : OptionArity} (known : arity optstring c = some a) : c ∈ optstring := by
  induction optstring with
  | nil => cases known
  | cons letter rest ih =>
      simp only [arity] at known
      split at known
      · cases known
      · split at known
        · rename_i same
          exact same ▸ List.mem_cons_self
        · exact List.mem_cons_of_mem _ (ih known)

/-- What is known about the argument of an option. -/
def Fits (a : OptionArity) (optarg : Option (List UInt8)) : Prop :=
  match a with
  | .none => optarg = none
  | .required => optarg.isSome
  | .optional => optarg ≠ some []

theorem fits_letter {opt : UInt8} {optarg : Option (List UInt8)}
    (returned : (letter optstring c rest words).1 = .option opt optarg) :
    ∃ a, arity optstring opt = some a ∧ Fits a optarg := by
  unfold letter at returned
  split at returned
  · cases returned
  · rename_i known
    cases returned
    exact ⟨_, known, rfl⟩
  · rename_i known
    cases returned
    refine ⟨_, known, ?_⟩
    unfold Fits
    split <;> simp_all
  · rename_i known
    split at returned
    · split at returned
      · cases returned
      · cases returned
        exact ⟨_, known, rfl⟩
    · cases returned
      exact ⟨_, known, rfl⟩

/-- An option is one of the option string, with an argument of its arity. -/
theorem fits_next {opt : UInt8} {optarg : Option (List UInt8)}
    (returned : next optstring g = some (.option opt optarg, g')) :
    ∃ a, arity optstring opt = some a ∧ Fits a optarg := by
  unfold next at returned
  split at returned
  · exact fits_letter (congrArg Prod.fst (Option.some.inj returned))
  · obtain ⟨⟨d, rest, words'⟩, -, is⟩ := Option.map_eq_some_iff.mp returned
    exact fits_letter (congrArg Prod.fst is)

theorem letter_none (known : arity optstring c = some .none) :
    letter optstring c rest words = (.option c none, ⟨rest, words⟩) := by
  simp only [letter, known]

theorem letter_required {word : List UInt8} (known : arity optstring c = some .required) :
    letter optstring c [] (word :: words) = (.option c (some word), ⟨[], words⟩) := by
  simp only [letter, known, if_true]

theorem letter_optional (known : arity optstring c = some .optional) (nonempty : rest ≠ []) :
    letter optstring c rest words = (.option c (some rest), ⟨[], words⟩) := by
  simp only [letter, known, if_neg nonempty]

theorem next_option (plain : c ≠ 45) :
    next optstring ⟨[], (45 :: c :: rest) :: words⟩ = some (letter optstring c rest words) := by
  simp [next, nextWord, plain]

end Getopt

end FileStorage
