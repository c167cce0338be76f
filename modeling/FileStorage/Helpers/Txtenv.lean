import Mathlib.Data.List.Basic
import Mathlib.Data.List.TakeWhile

/-! # The configuration loader

`gnl_txtenv.c`. A file is the list of its bytes. The buffer of `fgets` is the bytes
that it has read, and the string in it ends at the first NUL. `isspace` is the one of
the C locale, where no byte beyond ASCII is white space.
-/

namespace FileStorage

/-- The environment of the process, and the variables that `setenv` has been called
    with. -/
structure Environ where
  getenv : List UInt8 → Option (List UInt8)
  calls : List (List UInt8 × List UInt8)

namespace Environ

def set (e : Environ) (name value : List UInt8) (overwrite : Int) : Environ where
  getenv :=
    if overwrite = 0 ∧ (e.getenv name).isSome then e.getenv
    else fun other => if other = name then some value else e.getenv other
  calls := e.calls ++ [(name, value)]

def setenv (e : Environ) (name : Option (List UInt8)) (value : List UInt8) (overwrite : Int) :
    Option Environ :=
  match name with
  | none => none
  | some name => if name = [] ∨ 61 ∈ name then none else some (e.set name value overwrite)

def setAll (e : Environ) (overwrite : Int) (entries : List (List UInt8 × List UInt8)) :
    Environ :=
  entries.foldl (fun e entry => e.set entry.1 entry.2 overwrite) e

theorem setAll_append (e : Environ) (overwrite : Int)
    (first second : List (List UInt8 × List UInt8)) :
    e.setAll overwrite (first ++ second) = (e.setAll overwrite first).setAll overwrite second :=
  List.foldl_append

theorem calls_setAll (e : Environ) (overwrite : Int) (entries : List (List UInt8 × List UInt8)) :
    (e.setAll overwrite entries).calls = e.calls ++ entries := by
  induction entries generalizing e with
  | nil => exact (List.append_nil _).symm
  | cons entry entries ih =>
      change ((e.set entry.1 entry.2 overwrite).setAll overwrite entries).calls = _
      rw [ih, set, List.append_assoc]
      rfl

end Environ

namespace Txtenv

def BUFFER_SIZE : Nat := 128

def isspace (c : UInt8) : Bool := c = 32 || 9 ≤ c && c ≤ 13

/-- The loop of `ignore_line`, on the characters from `line[i]` on. -/
def ignoreFrom : List UInt8 → Bool
  | [] => false
  | c :: rest =>
      if isspace c then
        if rest = [] then true
        -- this character has just been found to be white space
        else if c = 35 then true
        else ignoreFrom rest
      else false

def ignoreLine (line : List UInt8) : Bool :=
  if line.head? = some 35 then true else ignoreFrom line

/-- `strtok_r` with one delimiter: the token, and what is left behind it. -/
def strtok (delim : UInt8) (s : List UInt8) : Option (List UInt8) × List UInt8 :=
  match s.dropWhile (· = delim) with
  | [] => (none, [])
  | c :: rest =>
      (some ((c :: rest).takeWhile (· ≠ delim)), ((c :: rest).dropWhile (· ≠ delim)).tail)

/-- `fgets` with room for as many bytes: what it reads, and the rest of the file. -/
def fgets : (room : Nat) → List UInt8 → List UInt8 × List UInt8
  | 0, file => ([], file)
  | _, [] => ([], [])
  | room + 1, c :: file =>
      if c = 10 then ([c], file)
      else (c :: (fgets room file).1, (fgets room file).2)

def text (buffer : List UInt8) : List UInt8 := buffer.takeWhile (· ≠ 0)

/-- `setenv_from_file`; every `fgets` reads at least one byte, so the bound given by
    the caller is never reached. -/
def setenvFromFile (overwrite : Int) : (bound : Nat) → List UInt8 → Environ → Int × Environ
  | _, [], e => (0, e)
  | 0, _ :: _, e => (0, e)
  | bound + 1, c :: file, e =>
      let buffer := (fgets (BUFFER_SIZE - 1) (c :: file)).1
      let rest := (fgets (BUFFER_SIZE - 1) (c :: file)).2
      let line := text buffer
      if ignoreLine line then setenvFromFile overwrite bound rest e
      else
        let key := strtok 61 line
        let value := strtok 10 key.2
        match value.1 with
        | none => setenvFromFile overwrite bound rest e
        | some value =>
            match e.setenv key.1 value overwrite with
            | none => (-1, e)
            | some e => setenvFromFile overwrite bound rest e

/-- `gnl_txtenv_load`, with the content of the file if it can be opened. -/
def load (file : Option (List UInt8)) (overwrite : Int) (e : Environ) : Int × Environ :=
  match file with
  | none => (-1, e)
  | some content => setenvFromFile overwrite content.length content e

/-! ## The grammar -/

def lines : List UInt8 → List (List UInt8)
  | [] => []
  | c :: content =>
      if c = 10 then [] :: lines content
      else match lines content with
        | [] => [[c]]
        | line :: others => (c :: line) :: others

/-- After any amount of white space there is a `#`. -/
def IsComment (line : List UInt8) : Prop := (line.dropWhile isspace).head? = some 35

instance (line : List UInt8) : Decidable (IsComment line) :=
  inferInstanceAs (Decidable (_ = _))

def entry (line : List UInt8) : Option (List UInt8 × List UInt8) :=
  if IsComment line then none
  else match line.dropWhile (· ≠ 61) with
    | [] => none
    | _ :: value =>
        if line.takeWhile (· ≠ 61) ≠ [] ∧ value ≠ [] then some (line.takeWhile (· ≠ 61), value)
        else none

/-- The loader sets the variables of the lines, in order, and no others. -/
def Implements (content : List UInt8) (overwrite : Int) : Prop :=
  ∀ e : Environ, load (some content) overwrite e =
    (0, e.setAll overwrite ((lines content).filterMap entry))

/-! ## Tokens -/

section Delimiter

variable {d : UInt8} {token rest : List UInt8}

theorem takeWhile_free (free : d ∉ token) : token.takeWhile (· ≠ d) = token := by
  rw [List.takeWhile_eq_self_iff]
  exact fun c member => decide_eq_true fun same => free (same ▸ member)

theorem dropWhile_free (free : d ∉ token) : token.dropWhile (· ≠ d) = [] := by
  rw [List.dropWhile_eq_nil_iff]
  exact fun c member => decide_eq_true fun same => free (same ▸ member)

theorem takeWhile_delimited (free : d ∉ token) :
    (token ++ d :: rest).takeWhile (· ≠ d) = token := by
  have all : ∀ c ∈ token, decide (c ≠ d) = true :=
    fun c member => decide_eq_true fun same => free (same ▸ member)
  rw [List.takeWhile_append_of_pos all, List.takeWhile_cons_of_neg (by simp), List.append_nil]

theorem dropWhile_delimited (free : d ∉ token) :
    (token ++ d :: rest).dropWhile (· ≠ d) = d :: rest := by
  have all : ∀ c ∈ token, decide (c ≠ d) = true :=
    fun c member => decide_eq_true fun same => free (same ▸ member)
  rw [List.dropWhile_append_of_pos all, List.dropWhile_cons_of_neg (by simp)]

theorem dropWhile_skipped (n : Nat) (nonempty : token ≠ []) (free : d ∉ token) :
    (List.replicate n d ++ token ++ rest).dropWhile (· = d) = token ++ rest := by
  have all : ∀ c ∈ List.replicate n d, decide (c = d) = true :=
    fun c member => decide_eq_true (List.eq_of_mem_replicate member)
  rw [List.append_assoc, List.dropWhile_append_of_pos all]
  cases token with
  | nil => exact absurd rfl nonempty
  | cons c token =>
      have other : ¬ decide (c = d) = true := fun same => free (by simp [of_decide_eq_true same])
      exact List.dropWhile_cons_of_neg other

theorem strtok_replicate (n : Nat) : strtok d (List.replicate n d) = (none, []) := by
  have skipped : (List.replicate n d).dropWhile (· = d) = [] := by
    rw [List.dropWhile_eq_nil_iff]
    exact fun c member => decide_eq_true (List.eq_of_mem_replicate member)
  rw [strtok, skipped]

theorem strtok_last (n : Nat) (nonempty : token ≠ []) (free : d ∉ token) :
    strtok d (List.replicate n d ++ token) = (some token, []) := by
  have skipped : (List.replicate n d ++ token).dropWhile (· = d) = token := by
    have skipped := @dropWhile_skipped d token [] n nonempty free
    rwa [List.append_nil, List.append_nil] at skipped
  rw [strtok, skipped]
  cases token with
  | nil => exact absurd rfl nonempty
  | cons c token => simp only [takeWhile_free free, dropWhile_free free, List.tail_nil]

theorem strtok_delimited (n : Nat) (nonempty : token ≠ []) (free : d ∉ token) :
    strtok d (List.replicate n d ++ token ++ d :: rest) = (some token, rest) := by
  rw [strtok, dropWhile_skipped n nonempty free]
  cases token with
  | nil => exact absurd rfl nonempty
  | cons c token =>
      rw [List.cons_append]
      simp only [← List.cons_append, takeWhile_delimited free, dropWhile_delimited free,
        List.tail_cons]

/-- A string has delimiters only, or a token that is the last, or one that ends at a
    delimiter. -/
theorem token_cases (d : UInt8) (s : List UInt8) :
    (∃ n, s = List.replicate n d) ∨
    (∃ n token, token ≠ [] ∧ d ∉ token ∧ s = List.replicate n d ++ token) ∨
    ∃ n token rest, token ≠ [] ∧ d ∉ token ∧ s = List.replicate n d ++ token ++ d :: rest := by
  induction s with
  | nil => exact .inl ⟨0, rfl⟩
  | cons c s ih =>
      by_cases same : c = d
      · subst same
        obtain ⟨n, rfl⟩ | ⟨n, token, nonempty, free, rfl⟩ | ⟨n, token, rest, nonempty, free, rfl⟩ :=
          ih
        · exact .inl ⟨n + 1, rfl⟩
        · exact .inr (.inl ⟨n + 1, token, nonempty, free, rfl⟩)
        · exact .inr (.inr ⟨n + 1, token, rest, nonempty, free, rfl⟩)
      · by_cases member : d ∈ c :: s
        · obtain ⟨token, rest, split, free⟩ := List.eq_append_cons_of_mem member
          have nonempty : token ≠ [] := by
            rintro rfl
            exact same (List.cons.inj split).1
          exact .inr (.inr ⟨0, token, rest, nonempty, free, split⟩)
        · exact .inr (.inl ⟨0, c :: s, nofun, member, rfl⟩)

end Delimiter

/-! ## What a buffer sets -/

/-- The variable that the string of a buffer sets. -/
def assignment (line : List UInt8) : Option (List UInt8 × List UInt8) :=
  if ignoreLine line then none
  else match strtok 61 line with
    | (none, _) => none
    | (some key, rest) => (strtok 10 rest).1.map fun value => (key, value)

theorem ignoreFrom_of_not_space {c : UInt8} (notSpace : isspace c = false)
    (before after : List UInt8) : ignoreFrom (before ++ c :: after) = false := by
  induction before with
  | nil => simp [ignoreFrom, notSpace]
  | cons b before ih =>
      rw [List.cons_append, ignoreFrom]
      split
      · rename_i space
        have notHash : b ≠ 35 := by
          rintro rfl
          exact absurd space (by decide)
        rw [if_neg (by simp), if_neg notHash]
        exact ih
      · rfl

theorem ignoreLine_of_assign (before after : List UInt8) :
    ignoreLine (before ++ 61 :: after) = decide ((before ++ 61 :: after).head? = some 35) := by
  unfold ignoreLine
  split
  · rename_i hash
    rw [hash]
    decide
  · rename_i notHash
    rw [ignoreFrom_of_not_space (by decide), decide_eq_false notHash]

theorem assignment_replicate (n : Nat) : assignment (List.replicate n 61) = none := by
  unfold assignment
  rw [strtok_replicate]
  split <;> rfl

theorem assignment_last (n : Nat) {token : List UInt8} (nonempty : token ≠ [])
    (free : 61 ∉ token) : assignment (List.replicate n 61 ++ token) = none := by
  unfold assignment
  rw [strtok_last n nonempty free]
  split <;> rfl

theorem strtok_value {value : List UInt8} (free : 10 ∉ value) :
    (strtok 10 value).1 = if value = [] then none else some value := by
  split
  · rename_i empty
    subst empty
    rfl
  · rename_i nonempty
    have token := strtok_last 0 nonempty free
    rw [List.replicate_zero, List.nil_append] at token
    rw [token]

theorem strtok_value_newline {value : List UInt8} (free : 10 ∉ value) :
    (strtok 10 (value ++ [10])).1 = (strtok 10 value).1 := by
  rw [strtok_value free]
  split
  · rename_i empty
    subst empty
    rfl
  · rename_i nonempty
    have token := @strtok_delimited 10 value [] 0 nonempty free
    rw [List.replicate_zero, List.nil_append] at token
    rw [token]

theorem head_delimited (n : Nat) {key rest : List UInt8} (nonempty : key ≠ []) :
    (List.replicate n 61 ++ key ++ 61 :: rest).head? = (List.replicate n 61 ++ key).head? := by
  cases start : List.replicate n 61 ++ key with
  | nil => exact absurd (List.append_eq_nil_iff.mp start).2 nonempty
  | cons c others => rfl

theorem assignment_delimited (n : Nat) {key rest : List UInt8} (nonempty : key ≠ [])
    (free : 61 ∉ key) : assignment (List.replicate n 61 ++ key ++ 61 :: rest) =
      if (List.replicate n 61 ++ key).head? = some 35 then none
      else (strtok 10 rest).1.map fun value => (key, value) := by
  unfold assignment
  rw [ignoreLine_of_assign, strtok_delimited n nonempty free, head_delimited n nonempty]
  simp only [decide_eq_true_eq]

theorem assignment_newline {line : List UInt8} (free : 10 ∉ line) :
    assignment (line ++ [10]) = assignment line := by
  obtain ⟨n, rfl⟩ | ⟨n, token, nonempty, noAssign, rfl⟩ |
    ⟨n, key, rest, nonempty, noAssign, rfl⟩ := token_cases 61 line
  · rw [assignment_replicate, assignment_last n (by simp) (by decide)]
  · rw [List.append_assoc, assignment_last n (by simp) (by simp [noAssign]),
      assignment_last n nonempty noAssign]
  · have noNewline : 10 ∉ rest := by
      intro member
      exact free (by simp [member])
    rw [List.append_assoc, List.cons_append, assignment_delimited n nonempty noAssign,
      assignment_delimited n nonempty noAssign, strtok_value_newline noNewline]

theorem assignment_text_newline {line : List UInt8} (free : 10 ∉ line) :
    assignment (text (line ++ [10])) = assignment (text line) := by
  by_cases nul : 0 ∈ line
  · obtain ⟨before, after, rfl, noNul⟩ := List.eq_append_cons_of_mem nul
    rw [text, text, List.append_assoc, List.cons_append, takeWhile_delimited noNul,
      takeWhile_delimited noNul]
  · have whole : text (line ++ [10]) = line ++ [10] := takeWhile_free (by simp [nul])
    rw [whole, text, takeWhile_free nul]
    exact assignment_newline free

/-! ## The loop -/

theorem setenvFromFile_cons (overwrite : Int) (bound : Nat) (c : UInt8) (file : List UInt8)
    (e : Environ) : setenvFromFile overwrite (bound + 1) (c :: file) e =
      setenvFromFile overwrite bound (fgets (BUFFER_SIZE - 1) (c :: file)).2
        (e.setAll overwrite (assignment (text (fgets (BUFFER_SIZE - 1) (c :: file)).1)).toList) := by
  rw [setenvFromFile]
  simp only []
  generalize text (fgets (BUFFER_SIZE - 1) (c :: file)).1 = line
  generalize (fgets (BUFFER_SIZE - 1) (c :: file)).2 = rest
  unfold assignment
  split
  · rfl
  · obtain ⟨n, rfl⟩ | ⟨n, token, nonempty, noAssign, rfl⟩ |
      ⟨n, key, value, nonempty, noAssign, rfl⟩ := token_cases 61 line
    · rw [strtok_replicate]
      rfl
    · rw [strtok_last n nonempty noAssign]
      rfl
    · rw [strtok_delimited n nonempty noAssign]
      simp only []
      cases (strtok 10 value).1 with
      | none => rfl
      | some value => simp [Environ.setenv, nonempty, noAssign, Environ.setAll]

theorem fgets_newline {room : Nat} {line rest : List UInt8} (free : 10 ∉ line)
    (short : line.length < room) : fgets room (line ++ 10 :: rest) = (line ++ [10], rest) := by
  induction line generalizing room with
  | nil =>
      cases room with
      | zero => cases short
      | succ room => simp [fgets]
  | cons c line ih =>
      cases room with
      | zero => cases short
      | succ room =>
          obtain ⟨other, free⟩ := List.ne_and_not_mem_of_not_mem_cons free
          rw [List.cons_append, fgets, if_neg other.symm, ih free (Nat.lt_of_succ_lt_succ short)]
          rfl

theorem fgets_full {room : Nat} {line rest : List UInt8} (free : 10 ∉ line)
    (long : room ≤ line.length) :
    fgets room (line ++ rest) = (line.take room, line.drop room ++ rest) := by
  induction line generalizing room with
  | nil =>
      obtain rfl := Nat.le_zero.mp long
      simp [fgets]
  | cons c line ih =>
      cases room with
      | zero => simp [fgets]
      | succ room =>
          obtain ⟨other, free⟩ := List.ne_and_not_mem_of_not_mem_cons free
          rw [List.cons_append, fgets, if_neg other.symm, ih free (Nat.le_of_succ_le_succ long)]
          rfl

theorem fgets_end {room : Nat} {line : List UInt8} (free : 10 ∉ line)
    (short : line.length < room) : fgets room line = (line, []) := by
  induction line generalizing room with
  | nil =>
      cases room with
      | zero => cases short
      | succ room => rfl
  | cons c line ih =>
      cases room with
      | zero => cases short
      | succ room =>
          obtain ⟨other, free⟩ := List.ne_and_not_mem_of_not_mem_cons free
          rw [fgets, if_neg other.symm, ih free (Nat.lt_of_succ_lt_succ short)]

theorem lines_newline {line : List UInt8} (free : 10 ∉ line) (rest : List UInt8) :
    lines (line ++ 10 :: rest) = line :: lines rest := by
  induction line with
  | nil => simp [lines]
  | cons c line ih =>
      obtain ⟨other, free⟩ := List.ne_and_not_mem_of_not_mem_cons free
      rw [List.cons_append, lines, if_neg other.symm, ih free]

theorem lines_last {line : List UInt8} (free : 10 ∉ line) (nonempty : line ≠ []) :
    lines line = [line] := by
  induction line with
  | nil => exact absurd rfl nonempty
  | cons c line ih =>
      obtain ⟨other, free⟩ := List.ne_and_not_mem_of_not_mem_cons free
      rw [lines, if_neg other.symm]
      cases line with
      | nil => rfl
      | cons c' line => rw [ih free nofun]

/-- What `fgets` leaves of a line for its `i`-th buffer. -/
def piece (line : List UInt8) (i : Nat) : List UInt8 :=
  (line.drop ((BUFFER_SIZE - 1) * i)).take (BUFFER_SIZE - 1)

def assignments (line : List UInt8) : List (List UInt8 × List UInt8) :=
  (List.range (line.length / (BUFFER_SIZE - 1) + 1)).filterMap fun i =>
    assignment (text (piece line i))

theorem assignments_short {line : List UInt8} (short : line.length < BUFFER_SIZE - 1) :
    assignments line = (assignment (text line)).toList := by
  have one : line.length / (BUFFER_SIZE - 1) = 0 := Nat.div_eq_of_lt short
  have whole : piece line 0 = line := by
    rw [piece, Nat.mul_zero, List.drop_zero, List.take_of_length_le short.le]
  rw [assignments, one, Nat.zero_add, List.range_one]
  simp only [List.filterMap_cons, List.filterMap_nil, whole]
  cases assignment (text line) <;> rfl

theorem assignments_long {line : List UInt8} (long : BUFFER_SIZE - 1 ≤ line.length) :
    assignments line = (assignment (text (line.take (BUFFER_SIZE - 1)))).toList ++
      assignments (line.drop (BUFFER_SIZE - 1)) := by
  have pos : 0 < BUFFER_SIZE - 1 := by decide
  have more : line.length / (BUFFER_SIZE - 1) =
      (line.drop (BUFFER_SIZE - 1)).length / (BUFFER_SIZE - 1) + 1 := by
    rw [List.length_drop, Nat.div_eq_sub_div pos long]
  have later : ∀ i, piece line (i + 1) = piece (line.drop (BUFFER_SIZE - 1)) i := by
    intro i
    rw [piece, piece, List.drop_drop, Nat.mul_succ, Nat.add_comm]
  rw [assignments, more, List.range_succ_eq_map, List.filterMap_cons, List.filterMap_map]
  simp only [Function.comp_def, Nat.succ_eq_add_one, later]
  rw [← assignments]
  have first : piece line 0 = line.take (BUFFER_SIZE - 1) := by
    rw [piece, Nat.mul_zero, List.drop_zero]
  rw [first]
  cases assignment (text (line.take (BUFFER_SIZE - 1))) <;> rfl

/-- The lines are loaded one after the other, each in as many buffers as it fills. -/
theorem setenvFromFile_eq (overwrite : Int) {bound : Nat} {file : List UInt8}
    (enough : file.length ≤ bound) (e : Environ) : setenvFromFile overwrite bound file e =
      (0, e.setAll overwrite ((lines file).flatMap assignments)) := by
  induction bound generalizing file e with
  | zero =>
      obtain rfl := List.length_eq_zero_iff.mp (Nat.le_zero.mp enough)
      rfl
  | succ bound ih =>
      cases file with
      | nil => rfl
      | cons c file =>
          rw [setenvFromFile_cons]
          generalize whole : c :: file = content at enough ⊢
          have nonempty : content ≠ [] := by
            rw [← whole]
            nofun
          have shrinks : ∀ rest : List UInt8, rest.length < content.length → rest.length ≤ bound :=
            fun rest shorter => by omega
          by_cases newline : 10 ∈ content
          · obtain ⟨line, rest, rfl, free⟩ := List.eq_append_cons_of_mem newline
            rcases Nat.lt_or_ge line.length (BUFFER_SIZE - 1) with short | long
            · rw [fgets_newline free short, ih (shrinks rest (by simp; omega)),
                lines_newline free, List.flatMap_cons, assignments_short short,
                assignment_text_newline free, Environ.setAll_append]
            · have pos : 0 < BUFFER_SIZE - 1 := by decide
              have later : 10 ∉ line.drop (BUFFER_SIZE - 1) :=
                fun member => free (List.mem_of_mem_drop member)
              rw [fgets_full free long, ih (shrinks _ (by simp; omega)), lines_newline later,
                lines_newline free, List.flatMap_cons, List.flatMap_cons, assignments_long long,
                List.append_assoc, Environ.setAll_append _ _ (assignment _).toList]
          · rcases Nat.lt_or_ge content.length (BUFFER_SIZE - 1) with short | long
            · have empty : (lines []).flatMap assignments = [] := rfl
              rw [fgets_end newline short, ih (shrinks [] (List.length_pos_iff.mpr nonempty)),
                lines_last newline nonempty, List.flatMap_singleton, assignments_short short, empty]
              rfl
            · have pos : 0 < BUFFER_SIZE - 1 := by decide
              have later : 10 ∉ content.drop (BUFFER_SIZE - 1) :=
                fun member => newline (List.mem_of_mem_drop member)
              have rest : (lines (content.drop (BUFFER_SIZE - 1))).flatMap assignments =
                  assignments (content.drop (BUFFER_SIZE - 1)) := by
                cases left : content.drop (BUFFER_SIZE - 1) with
                | nil => rfl
                | cons c' others =>
                    rw [left] at later
                    rw [lines_last later (List.cons_ne_nil _ _), List.flatMap_singleton]
              have full := @fgets_full _ _ [] newline long
              rw [List.append_nil, List.append_nil] at full
              rw [full, ih (shrinks _ (by simp; omega)), rest, lines_last newline nonempty,
                List.flatMap_singleton, assignments_long long, Environ.setAll_append]

/-! ## Lines and variables -/

theorem entry_of_free {line : List UInt8} (free : 61 ∉ line) : entry line = none := by
  unfold entry
  split
  · rfl
  · rw [dropWhile_free free]

theorem entry_delimited {key value : List UInt8} (free : 61 ∉ key) :
    entry (key ++ 61 :: value) =
      if ¬ IsComment (key ++ 61 :: value) ∧ key ≠ [] ∧ value ≠ [] then some (key, value)
      else none := by
  unfold entry
  rw [dropWhile_delimited free, takeWhile_delimited free]
  split
  · rename_i comment
    rw [if_neg (fun all => all.1 comment)]
  · rename_i notComment
    simp only [notComment, not_false_eq_true, true_and]

theorem entry_eq_some {line key value : List UInt8} (found : entry line = some (key, value)) :
    line = key ++ 61 :: value ∧ 61 ∉ key ∧ key ≠ [] ∧ value ≠ [] ∧ ¬ IsComment line := by
  by_cases member : 61 ∈ line
  · obtain ⟨key', value', rfl, free⟩ := List.eq_append_cons_of_mem member
    rw [entry_delimited free] at found
    split at found
    · rename_i fine
      cases found
      exact ⟨rfl, free, fine.2.1, fine.2.2, fine.1⟩
    · cases found
  · rw [entry_of_free member] at found
    cases found

/-- The string sets a variable by itself: it does not start with a `#`, and behind any
    number of `=` it has a key, another `=` and more. -/
def Assigns (line key value : List UInt8) : Prop :=
  line.head? ≠ some 35 ∧ ∃ n, line = List.replicate n 61 ++ key ++ 61 :: value ∧
    key ≠ [] ∧ 61 ∉ key ∧ value ≠ []

theorem assignment_eq_some {line key value : List UInt8} (free : 10 ∉ line) :
    assignment line = some (key, value) ↔ Assigns line key value := by
  constructor
  · intro found
    obtain ⟨n, rfl⟩ | ⟨n, token, nonempty, noAssign, rfl⟩ |
      ⟨n, key', rest, nonempty, noAssign, rfl⟩ := token_cases 61 line
    · rw [assignment_replicate] at found
      cases found
    · rw [assignment_last n nonempty noAssign] at found
      cases found
    · have noNewline : 10 ∉ rest := fun member => free (by simp [member])
      rw [assignment_delimited n nonempty noAssign, strtok_value noNewline] at found
      split at found
      · cases found
      · rename_i noHash
        split at found
        · cases found
        · cases found
          rw [← head_delimited n nonempty] at noHash
          exact ⟨noHash, n, rfl, nonempty, noAssign, ‹_›⟩
  · rintro ⟨noHash, n, rfl, nonempty, noAssign, more⟩
    have noNewline : 10 ∉ value := fun member => free (by simp [member])
    rw [head_delimited n nonempty] at noHash
    rw [assignment_delimited n nonempty noAssign, strtok_value noNewline, if_neg noHash,
      if_neg more]
    rfl

/-- A line `KEY=VALUE` fits into the buffer and has no NUL, and no buffer of another
    line sets anything. -/
structure Regular (line : List UInt8) : Prop where
  fits : entry line ≠ none → line.length ≤ BUFFER_SIZE - 1 ∧ 0 ∉ line
  silent : entry line = none → ∀ i key value, ¬ Assigns (text (piece line i)) key value

theorem text_subset {c : UInt8} {line : List UInt8} {i : Nat} (member : c ∈ text (piece line i)) :
    c ∈ line ∧ c ≠ 0 := by
  have kept := List.mem_takeWhile_imp member
  have inPiece : c ∈ piece line i := (List.takeWhile_sublist _).subset member
  exact ⟨List.mem_of_mem_drop (List.mem_of_mem_take inPiece), of_decide_eq_true kept⟩

theorem mem_assignments {line key value : List UInt8} (free : 10 ∉ line) :
    (key, value) ∈ assignments line ↔ ∃ i, Assigns (text (piece line i)) key value := by
  have noNewline : ∀ i, 10 ∉ text (piece line i) := fun i member => free (text_subset member).1
  constructor
  · intro member
    obtain ⟨i, -, found⟩ := List.mem_filterMap.mp member
    exact ⟨i, (assignment_eq_some (noNewline i)).mp found⟩
  · rintro ⟨i, assigns⟩
    refine List.mem_filterMap.mpr
      ⟨i, List.mem_range.mpr ?_, (assignment_eq_some (noNewline i)).mpr assigns⟩
    by_contra beyond
    have pos : 0 < BUFFER_SIZE - 1 := by decide
    have past : line.length ≤ (BUFFER_SIZE - 1) * i := by
      have whole := Nat.lt_mul_div_succ line.length pos
      exact whole.le.trans (Nat.mul_le_mul_left _ (Nat.not_lt.mp beyond))
    have empty : text (piece line i) = [] := by
      rw [piece, List.drop_eq_nil_of_le past]
      rfl
    obtain ⟨-, n, shape, -⟩ := assigns
    rw [empty] at shape
    simp at shape

theorem entry_fits {line key value : List UInt8} (found : entry line = some (key, value))
    {other : List UInt8} {i : Nat} (assigns : Assigns (text (piece other i)) key value) :
    line.length ≤ BUFFER_SIZE - 1 ∧ 0 ∉ line := by
  obtain ⟨rfl, -⟩ := entry_eq_some found
  obtain ⟨-, n, shape, -⟩ := assigns
  constructor
  · have room : (text (piece other i)).length ≤ BUFFER_SIZE - 1 :=
      (List.takeWhile_sublist _).length_le.trans (List.length_take_le _ _)
    rw [shape] at room
    simp only [List.length_append, List.length_replicate, List.length_cons] at room ⊢
    omega
  · intro member
    have inText : 0 ∈ text (piece other i) := by
      rw [shape, List.append_assoc]
      exact List.mem_append_right _ member
    exact (text_subset inText).2 rfl

theorem assignments_of_entry {line key value : List UInt8} (free : 10 ∉ line)
    (found : entry line = some (key, value)) (short : line.length ≤ BUFFER_SIZE - 1)
    (noNul : 0 ∉ line) : assignments line = [(key, value)] := by
  obtain ⟨shape, noAssign, nonempty, more, notComment⟩ := entry_eq_some found
  have noHash : line.head? ≠ some 35 := by
    intro hash
    apply notComment
    rw [IsComment]
    cases line with
    | nil => cases hash
    | cons c line =>
        cases hash
        rfl
  have sets : assignment (text line) = some (key, value) := by
    rw [text, takeWhile_free noNul]
    exact (assignment_eq_some free).mpr ⟨noHash, 0, shape, nonempty, noAssign, more⟩
  rcases Nat.lt_or_ge line.length (BUFFER_SIZE - 1) with less | full
  · rw [assignments_short less, sets]
    rfl
  · rw [assignments_long full, List.take_of_length_le short, List.drop_eq_nil_of_le short, sets]
    rfl

theorem lines_free {content line : List UInt8} (member : line ∈ lines content) : 10 ∉ line := by
  induction content generalizing line with
  | nil => cases member
  | cons c content ih =>
      rw [lines] at member
      split at member
      · rcases List.mem_cons.mp member with rfl | member
        · exact List.not_mem_nil
        · exact ih member
      · rename_i other
        split at member
        · rw [List.mem_singleton.mp member]
          simpa using Ne.symm other
        · rename_i first others split
          rcases List.mem_cons.mp member with rfl | member
          · have free : 10 ∉ first := ih (by rw [split]; exact List.mem_cons_self)
            simp [free, Ne.symm other]
          · exact ih (by rw [split]; exact List.mem_cons_of_mem _ member)

/-! ## Lists made from two functions -/

section Lists

variable {α β : Type} {f : α → List β} {g : α → Option β} {list : List α}

theorem filterMap_length_le (agree : ∀ a ∈ list, g a ≠ none → f a = (g a).toList) :
    (list.filterMap g).length ≤ (list.flatMap f).length := by
  induction list with
  | nil => exact Nat.le_refl 0
  | cons a list ih =>
      have rest := ih fun b member => agree b (List.mem_cons_of_mem _ member)
      rw [List.flatMap_cons, List.length_append]
      cases found : g a with
      | none =>
          rw [List.filterMap_cons_none found]
          omega
      | some b =>
          have here := agree a List.mem_cons_self (by rw [found]; nofun)
          rw [List.filterMap_cons_some found, here, found]
          simp only [Option.toList_some, List.length_cons, List.length_nil]
          omega

/-- If a list of the values of `g` is one of those of `f`, which agrees where `g` has a
    value, then `f` has nothing where `g` has none. -/
theorem eq_toList_of_flatMap_eq (agree : ∀ a ∈ list, g a ≠ none → f a = (g a).toList)
    (same : list.flatMap f = list.filterMap g) : ∀ a ∈ list, f a = (g a).toList := by
  induction list with
  | nil => exact fun _ member => absurd member List.not_mem_nil
  | cons a list ih =>
      have later : ∀ b ∈ list, g b ≠ none → f b = (g b).toList :=
        fun b member => agree b (List.mem_cons_of_mem _ member)
      have both : f a = (g a).toList ∧ list.flatMap f = list.filterMap g := by
        rw [List.flatMap_cons] at same
        cases found : g a with
        | none =>
            rw [List.filterMap_cons_none found] at same
            have lengths := congrArg List.length same
            rw [List.length_append] at lengths
            have atLeast := filterMap_length_le later
            have empty : f a = [] := List.length_eq_zero_iff.mp (by omega)
            rw [empty, List.nil_append] at same
            exact ⟨empty, same⟩
        | some b =>
            have here := agree a List.mem_cons_self (by rw [found]; nofun)
            rw [List.filterMap_cons_some found, here, found] at same
            rw [here, found]
            exact ⟨rfl, (List.cons.inj same).2⟩
      intro b member
      rcases List.mem_cons.mp member with rfl | member
      · exact both.1
      · exact ih later both.2 b member

end Lists

/-- The loader sets the variables of the lines, in order, and no others, exactly if
    every line `KEY=VALUE` fits into the buffer and has no NUL, and no other line has a
    piece of the size of the buffer that sets a variable by itself. -/
theorem implements_iff (content : List UInt8) (overwrite : Int) :
    Implements content overwrite ↔ ∀ line ∈ lines content, Regular line := by
  have loads : ∀ e : Environ, load (some content) overwrite e =
      (0, e.setAll overwrite ((lines content).flatMap assignments)) :=
    fun e => setenvFromFile_eq overwrite (Nat.le_refl _) e
  constructor
  · intro implements
    have same : (lines content).flatMap assignments = (lines content).filterMap entry := by
      have sets := implements ⟨fun _ => none, []⟩
      rw [loads] at sets
      have calls := congrArg Environ.calls (Prod.mk.inj sets).2
      rwa [Environ.calls_setAll, Environ.calls_setAll] at calls
    have fits : ∀ line ∈ lines content, entry line ≠ none →
        line.length ≤ BUFFER_SIZE - 1 ∧ 0 ∉ line := by
      intro line member some_
      obtain ⟨⟨key, value⟩, found⟩ := Option.ne_none_iff_exists'.mp some_
      have set : (key, value) ∈ (lines content).flatMap assignments := by
        rw [same]
        exact List.mem_filterMap.mpr ⟨line, member, found⟩
      obtain ⟨other, isLine, set⟩ := List.mem_flatMap.mp set
      obtain ⟨i, assigns⟩ := (mem_assignments (lines_free isLine)).mp set
      exact entry_fits found assigns
    have agree : ∀ line ∈ lines content, entry line ≠ none →
        assignments line = (entry line).toList := by
      intro line member some_
      obtain ⟨⟨key, value⟩, found⟩ := Option.ne_none_iff_exists'.mp some_
      obtain ⟨short, noNul⟩ := fits line member some_
      rw [found, assignments_of_entry (lines_free member) found short noNul]
      rfl
    have equal := eq_toList_of_flatMap_eq agree same
    intro line member
    refine ⟨fits line member, fun nothing i key value assigns => ?_⟩
    have set := (mem_assignments (lines_free member)).mpr ⟨i, assigns⟩
    rw [equal line member, nothing] at set
    cases set
  · intro regular e
    rw [loads, List.filterMap_eq_flatMap_toList]
    have equal : ∀ line ∈ lines content, assignments line = (entry line).toList := by
      intro line member
      cases found : entry line with
      | none =>
          apply List.eq_nil_iff_forall_not_mem.mpr
          rintro ⟨key, value⟩ set
          obtain ⟨i, assigns⟩ := (mem_assignments (lines_free member)).mp set
          exact (regular line member).silent found i key value assigns
      | some entry_ =>
          obtain ⟨key, value⟩ := entry_
          obtain ⟨short, noNul⟩ := (regular line member).fits (by rw [found]; nofun)
          exact assignments_of_entry (lines_free member) found short noNul
    rw [List.flatMap_congr equal]

/-- A comment that is indented sets a variable: the file is `  #A=b`. -/
theorem indented_comment_set : ¬ ∀ (content : List UInt8) (overwrite : Int),
    Implements content overwrite := by
  intro claimed
  have implements := claimed [32, 32, 35, 65, 61, 98, 10] 0 ⟨fun _ => none, []⟩
  have calls := congrArg Environ.calls (Prod.mk.inj implements).2
  revert calls
  decide

end Txtenv

end FileStorage
