import FileStorage.Lib.Getopt

/-! # The options of the client

`gnl_opt_handler_parse_opt` puts the options that are commands into a queue. The
arguments are the words behind the name of the program. An element of the queue and
its argument are never null; the printing of the usage message is left out.
-/

namespace FileStorage

/-- `struct gnl_opt_handler_el`. -/
structure OptHandlerEl where
  opt : UInt8
  arg : List UInt8
  deriving DecidableEq

/-- `struct gnl_opt_handler`. -/
structure OptHandler where
  commandQueue : List OptHandlerEl
  socketFilename : Option (List UInt8)
  prints : Bool
  deriving DecidableEq

/-- The messages of `GNL_THROW_OPT_EXCEPTION`. -/
inductive OptException where
  | repeated | missingArgument | invalidOption | notAfterWrite | notAfterRead
  deriving DecidableEq

def OptException.message : OptException → String
  | repeated => "option repeated"
  | missingArgument => "missing required argument"
  | invalidOption => "invalid option"
  | notAfterWrite => "not preceded by a -w/-W option"
  | notAfterRead => "not preceded by a -r/-R option"

/-- How the parser ends. -/
inductive Parsed where
  | done (handler : OptHandler)
  | failed (optErr : UInt8) (error : OptException)
  /-- the usage message has been printed -/
  | exits
  /-- `previous_opt` has been compared before it was set -/
  | indeterminate
  deriving DecidableEq

/-- `GNL_SHORT_OPTS`. -/
def shortOpts : List UInt8 :=
  [':', 'h', 'f', ':', 'w', ':', 'W', ':', 'D', ':', 'r', ':', 'R', ':', ':', 'd', ':', 't', ':',
    'l', ':', 'u', ':', 'c', ':', 'p'].map Char.toUInt8

namespace OptHandler

def init : OptHandler := { commandQueue := [], socketFilename := none, prints := false }

/-- The argument of a command. Only that of `-R` is optional: the word behind it is taken
    if it looks like one. -/
def commandArg (optarg : Option (List UInt8)) (g : Getopt) : List UInt8 × Getopt :=
  match optarg, g.words with
  | some arg, _ => (arg, g)
  | none, (c :: rest) :: words =>
      if c ≠ '-'.toUInt8 then (c :: rest, { g with words }) else (['0'.toUInt8], g)
  | none, _ => (['0'.toUInt8], g)

/-- The default branch. A value of `previous_opt` that was never set decides nothing. -/
def parseCommand (h : OptHandler) (previousOpt : Option UInt8) (opt : UInt8)
    (optarg : Option (List UInt8)) (g : Getopt) : Except Parsed (OptHandler × Getopt) :=
  let (arg, g) := commandArg optarg g
  let enqueued := { h with commandQueue := h.commandQueue ++ [{ opt, arg }] }
  if opt = 'D'.toUInt8 then
    match previousOpt with
    | none => .error .indeterminate
    | some previous =>
        if previous ≠ 'w'.toUInt8 ∧ previous ≠ 'W'.toUInt8 then
          .error (.failed 'D'.toUInt8 .notAfterWrite)
        else .ok (enqueued, g)
  else if opt = 'd'.toUInt8 then
    match previousOpt with
    | none => .error .indeterminate
    | some previous =>
        if previous ≠ 'r'.toUInt8 ∧ previous ≠ 'R'.toUInt8 then
          .error (.failed 'd'.toUInt8 .notAfterRead)
        else .ok (enqueued, g)
  else .ok (enqueued, g)

/-- The body of the loop, on what `getopt` has returned. -/
def parseOption (h : OptHandler) (previousOpt : Option UInt8) (result : Getopt.Result)
    (g : Getopt) : Except Parsed (OptHandler × Getopt) :=
  match result with
  | .missing optopt => .error (.failed optopt .missingArgument)
  | .invalid optopt => .error (.failed optopt .invalidOption)
  | .option opt optarg =>
      if opt = 'p'.toUInt8 then
        if h.prints then .error (.failed 'p'.toUInt8 .repeated)
        else .ok ({ h with prints := true }, g)
      else if opt = 'f'.toUInt8 then
        if h.socketFilename.isSome then .error (.failed 'f'.toUInt8 .repeated)
        else .ok ({ h with socketFilename := optarg }, g)
      else if opt = 'h'.toUInt8 then .error .exits
      else parseCommand h previousOpt opt optarg g

/-- The loop of `gnl_opt_handler_parse_opt`; each turn uses some of the words up, so the
    bound given by the caller is never reached. -/
def parseFrom : (bound : Nat) → Getopt → OptHandler → (previousOpt : Option UInt8) → Parsed
  | 0, _, _, _ => .indeterminate
  | bound + 1, g, h, previousOpt =>
      match g.next shortOpts with
      | none => .done h
      | some (result, g) =>
          match h.parseOption previousOpt result g with
          | .error ended => ended
          | .ok (h, g) => parseFrom bound g h (some result.value)

/-- `gnl_opt_handler_parse_opt`, on the words behind the name of the program. -/
def parseOpt (words : List (List UInt8)) : Parsed :=
  parseFrom (Getopt.size ⟨[], words⟩ + 1) ⟨[], words⟩ init none

/-! ## What is accepted -/

def commands : List UInt8 :=
  ['w', 'W', 'D', 'r', 'R', 'd', 't', 'l', 'u', 'c'].map Char.toUInt8

/-- A `-D` stands right behind a `-w` or `-W`, and a `-d` right behind a `-r` or `-R`. -/
def Follows : (previous : Option UInt8) → List OptHandlerEl → Prop
  | _, [] => True
  | previous, el :: els =>
      (el.opt = 'D'.toUInt8 → previous = some 'w'.toUInt8 ∨ previous = some 'W'.toUInt8) ∧
      (el.opt = 'd'.toUInt8 → previous = some 'r'.toUInt8 ∨ previous = some 'R'.toUInt8) ∧
      Follows (some el.opt) els

structure WellFormed (h : OptHandler) : Prop where
  commands : ∀ el ∈ h.commandQueue, el.opt ∈ commands
  follows : Follows none h.commandQueue
  /-- the argument of a `-R` is never empty -/
  counted : ∀ el ∈ h.commandQueue, el.opt = 'R'.toUInt8 → el.arg ≠ []

variable {h h' : OptHandler} {g g' : Getopt} {previousOpt previous : Option UInt8} {opt : UInt8}
  {optarg : Option (List UInt8)} {els : List OptHandlerEl} {el : OptHandlerEl}

theorem parseCommand_of_follows {arg : List UInt8} (follows : Follows previousOpt [{ opt, arg }]) :
    h.parseCommand previousOpt opt optarg g =
      .ok ({ h with commandQueue :=
        h.commandQueue ++ [{ opt, arg := (commandArg optarg g).1 }] }, (commandArg optarg g).2) := by
  simp only [parseCommand]
  by_cases isD : opt = 'D'.toUInt8
  · rw [if_pos isD]
    rcases follows.1 isD with rfl | rfl <;> rfl
  · rw [if_neg isD]
    by_cases isd : opt = 'd'.toUInt8
    · rw [if_pos isd]
      rcases follows.2.1 isd with rfl | rfl <;> rfl
    · rw [if_neg isd]

theorem parseCommand_ok (parsed : h.parseCommand previousOpt opt optarg g = .ok (h', g')) :
    h' = { h with commandQueue := h.commandQueue ++ [{ opt, arg := (commandArg optarg g).1 }] } ∧
      g' = (commandArg optarg g).2 ∧ ∀ arg, Follows previousOpt [{ opt, arg }] := by
  simp only [parseCommand] at parsed
  split at parsed
  · rename_i isD
    split at parsed
    · cases parsed
    · rename_i previous
      split at parsed
      · cases parsed
      · rename_i behind
        cases parsed
        refine ⟨rfl, rfl, fun arg => ⟨fun _ => ?_, fun isd => ?_, trivial⟩⟩
        · simpa only [Option.some.injEq, not_and_or, not_not] using behind
        · exact absurd (isD.symm.trans isd) (by decide)
  · rename_i notD
    split at parsed
    · rename_i isd
      split at parsed
      · cases parsed
      · rename_i previous
        split at parsed
        · cases parsed
        · rename_i behind
          cases parsed
          refine ⟨rfl, rfl, fun arg => ⟨fun isD => absurd isD notD, fun _ => ?_, trivial⟩⟩
          simpa only [Option.some.injEq, not_and_or, not_not] using behind
    · rename_i notd
      cases parsed
      exact ⟨rfl, rfl, fun arg =>
        ⟨fun isD => absurd isD notD, fun isd => absurd isd notd, trivial⟩⟩

theorem parseOption_ne_done {ended : OptHandler} :
    h.parseOption previousOpt (.option opt optarg) g ≠ .error (.done ended) := by
  simp only [parseOption, parseCommand]
  repeat' split
  all_goals exact fun is => by cases is

theorem mem_commands {a : OptionArity} (known : Getopt.arity shortOpts opt = some a)
    (notp : opt ≠ 'p'.toUInt8) (notf : opt ≠ 'f'.toUInt8) (noth : opt ≠ 'h'.toUInt8) :
    opt ∈ commands := by
  have all : ∀ c ∈ shortOpts, Getopt.arity shortOpts c ≠ none → c ≠ 'p'.toUInt8 →
      c ≠ 'f'.toUInt8 → c ≠ 'h'.toUInt8 → c ∈ commands := by decide +kernel
  exact all opt (Getopt.mem_of_arity known) (by rw [known]; exact Option.some_ne_none _)
    notp notf noth

theorem command_facts : ∀ c ∈ commands, c ≠ 45 ∧ c ≠ 'p'.toUInt8 ∧ c ≠ 'f'.toUInt8 ∧
    c ≠ 'h'.toUInt8 ∧ Getopt.arity shortOpts c =
      some (if c = 'R'.toUInt8 then .optional else .required) := by decide +kernel

/-! ## The rules for the words -/

/-- The options on a command line with their arguments, which are empty for `-p` and `-h`. Each
    is one of the option string and has the argument it needs. The word behind `-R` is its
    argument if it could not be an option. -/
inductive Reads : Getopt → List OptHandlerEl → Prop where
  | ends {g : Getopt} : g.next shortOpts = none → Reads g []
  | given {g g' : Getopt} {opt arg els} : g.next shortOpts = some (.option opt (some arg), g') →
      Reads g' els → Reads g ({ opt, arg } :: els)
  | flag {g g' : Getopt} {opt els} : g.next shortOpts = some (.option opt none, g') →
      opt ≠ 'R'.toUInt8 → Reads g' els → Reads g ({ opt, arg := [] } :: els)
  | counted {g g' : Getopt} {word words els} :
      g.next shortOpts = some (.option 'R'.toUInt8 none, g') → g'.words = word :: words →
      word ≠ [] → word.head? ≠ some '-'.toUInt8 → Reads { g' with words } els →
      Reads g ({ opt := 'R'.toUInt8, arg := word } :: els)
  | uncounted {g g' : Getopt} {els} : g.next shortOpts = some (.option 'R'.toUInt8 none, g') →
      (∀ word ∈ g'.words.head?, word = [] ∨ word.head? = some '-'.toUInt8) → Reads g' els →
      Reads g ({ opt := 'R'.toUInt8, arg := ['0'.toUInt8] } :: els)

/-- `-f` and `-p` are given once at most, `-h` is not given, and each directory stands behind
    its command. -/
structure Obeys (els : List OptHandlerEl) : Prop where
  socketOnce : els.countP (·.opt = 'f'.toUInt8) ≤ 1
  printsOnce : els.countP (·.opt = 'p'.toUInt8) ≤ 1
  noHelp : ∀ el ∈ els, el.opt ≠ 'h'.toUInt8
  follows : Follows none els

def handlerOf (els : List OptHandlerEl) : OptHandler where
  commandQueue := els.filter (·.opt ∈ commands)
  socketFilename := (els.find? (·.opt = 'f'.toUInt8)).map OptHandlerEl.arg
  prints := els.any (·.opt = 'p'.toUInt8)

/-- The handler after some more options. -/
def gather (h : OptHandler) (els : List OptHandlerEl) : OptHandler where
  commandQueue := h.commandQueue ++ (handlerOf els).commandQueue
  socketFilename := h.socketFilename.or (handlerOf els).socketFilename
  prints := h.prints || (handlerOf els).prints

/-- The rules for the options that are left, with those in front of them in the handler. -/
structure ObeysFrom (h : OptHandler) (previousOpt : Option UInt8) (els : List OptHandlerEl) :
    Prop where
  socketOnce : h.socketFilename.isSome.toNat + els.countP (·.opt = 'f'.toUInt8) ≤ 1
  printsOnce : h.prints.toNat + els.countP (·.opt = 'p'.toUInt8) ≤ 1
  noHelp : ∀ el ∈ els, el.opt ≠ 'h'.toUInt8
  follows : Follows previousOpt els

theorem obeysFrom_init : ObeysFrom init none els ↔ Obeys els := by
  constructor
  · rintro ⟨socketOnce, printsOnce, noHelp, follows⟩
    exact ⟨(Nat.zero_add _).symm.trans_le socketOnce, (Nat.zero_add _).symm.trans_le printsOnce,
      noHelp, follows⟩
  · rintro ⟨socketOnce, printsOnce, noHelp, follows⟩
    exact ⟨(Nat.zero_add _).trans_le socketOnce, (Nat.zero_add _).trans_le printsOnce,
      noHelp, follows⟩

theorem gather_init : init.gather els = handlerOf els := by
  simp [gather, init]

theorem gather_nil : h.gather [] = h := by
  simp [gather, handlerOf]

theorem gather_cons : h.gather (el :: els) = (h.gather [el]).gather els := by
  simp only [gather, handlerOf, OptHandler.mk.injEq]
  refine ⟨?_, ?_, ?_⟩
  · rw [List.append_assoc, ← List.filter_append]
    rfl
  · simp only [List.find?_cons, List.find?_nil]
    split <;> simp
  · simp [Bool.or_assoc]

/-- An option that may be given once is not given before, or not after. -/
theorem once_cons {given : Bool} {p : OptHandlerEl → Bool} :
    given.toNat + (el :: els).countP p ≤ 1 ↔
      given.toNat + [el].countP p ≤ 1 ∧ (given || p el).toNat + els.countP p ≤ 1 := by
  cases given <;> cases here : p el <;> simp [here]

theorem obeysFrom_cons : ObeysFrom h previousOpt (el :: els) ↔
    ObeysFrom h previousOpt [el] ∧ ObeysFrom (h.gather [el]) (some el.opt) els := by
  have socket : (h.gather [el]).socketFilename.isSome =
      (h.socketFilename.isSome || decide (el.opt = 'f'.toUInt8)) := by
    by_cases isf : el.opt = 'f'.toUInt8 <;> simp [gather, handlerOf, isf]
  have prints : (h.gather [el]).prints = (h.prints || decide (el.opt = 'p'.toUInt8)) := by
    simp [gather, handlerOf]
  constructor
  · rintro ⟨socketOnce, printsOnce, noHelp, behindW, behindR, follows⟩
    obtain ⟨socketHere, socketLater⟩ := once_cons.mp socketOnce
    obtain ⟨printsHere, printsLater⟩ := once_cons.mp printsOnce
    obtain ⟨here, later⟩ := List.forall_mem_cons.mp noHelp
    refine ⟨⟨socketHere, printsHere, by simpa using here, behindW, behindR, trivial⟩,
      ⟨?_, ?_, later, follows⟩⟩
    · rwa [socket]
    · rwa [prints]
  · rintro ⟨⟨socketHere, printsHere, here, behindW, behindR, -⟩,
      ⟨socketLater, printsLater, later, follows⟩⟩
    rw [socket] at socketLater
    rw [prints] at printsLater
    exact ⟨once_cons.mpr ⟨socketHere, socketLater⟩, once_cons.mpr ⟨printsHere, printsLater⟩,
      List.forall_mem_cons.mpr ⟨here el List.mem_cons_self, later⟩, behindW, behindR, follows⟩

/-- An option with its argument, and what is left behind it. -/
def taken (opt : UInt8) (optarg : Option (List UInt8)) (g : Getopt) : OptHandlerEl × Getopt :=
  if opt = 'R'.toUInt8 then ({ opt, arg := (commandArg optarg g).1 }, (commandArg optarg g).2)
  else ({ opt, arg := optarg.getD [] }, g)

theorem taken_opt : (taken opt optarg g).1.opt = opt := by
  unfold taken
  split <;> rfl

theorem taken_command {a : OptionArity} (command : opt ∈ commands)
    (known : Getopt.arity shortOpts opt = some a) (fits : Getopt.Fits a optarg) :
    taken opt optarg g = ({ opt, arg := (commandArg optarg g).1 }, (commandArg optarg g).2) := by
  unfold taken
  split
  · rfl
  · rename_i notR
    obtain ⟨-, -, -, -, required⟩ := command_facts _ command
    rw [if_neg notR] at required
    cases known.symm.trans required
    obtain ⟨arg, rfl⟩ := Option.isSome_iff_exists.mp fits
    rfl

theorem obeysFrom_singleton : ObeysFrom h previousOpt [el] ↔
    (el.opt = 'f'.toUInt8 → h.socketFilename = none) ∧ (el.opt = 'p'.toUInt8 → h.prints = false) ∧
      el.opt ≠ 'h'.toUInt8 ∧ Follows previousOpt [el] := by
  have once : ∀ (given : Bool) (c : UInt8),
      given.toNat + [el].countP (·.opt = c) ≤ 1 ↔ (el.opt = c → given = false) := by
    intro given c
    by_cases is : el.opt = c <;> cases given <;> simp [is]
  constructor
  · rintro ⟨socketOnce, printsOnce, noHelp, follows⟩
    refine ⟨fun isf => ?_, (once _ _).mp printsOnce, noHelp el List.mem_cons_self, follows⟩
    exact Option.not_isSome_iff_eq_none.mp (by simpa using (once _ _).mp socketOnce isf)
  · rintro ⟨socket, prints, noHelp, follows⟩
    refine ⟨(once _ _).mpr fun isf => ?_, (once _ _).mpr prints, ?_, follows⟩
    · rw [socket isf]
      rfl
    · rintro other member
      rwa [List.mem_singleton.mp member]

theorem gather_command (command : el.opt ∈ commands) :
    h.gather [el] = { h with commandQueue := h.commandQueue ++ [el] } := by
  obtain ⟨-, notp, notf, -⟩ := command_facts _ command
  simp [gather, handlerOf, command, notp, notf]

theorem gather_prints {arg : List UInt8} :
    h.gather [{ opt := 'p'.toUInt8, arg }] = { h with prints := true } := by
  have noCommand : 'p'.toUInt8 ∉ commands := by decide
  have notf : 'p'.toUInt8 ≠ 'f'.toUInt8 := by decide
  simp [gather, handlerOf, noCommand, notf]

theorem gather_socket {arg : List UInt8} (fresh : h.socketFilename = none) :
    h.gather [{ opt := 'f'.toUInt8, arg }] = { h with socketFilename := some arg } := by
  have noCommand : 'f'.toUInt8 ∉ commands := by decide
  have notp : 'f'.toUInt8 ≠ 'p'.toUInt8 := by decide
  simp [gather, handlerOf, noCommand, notp, fresh]

theorem follows_aside (noCommand : el.opt ∉ commands) : Follows previousOpt [el] :=
  ⟨fun isD => absurd (isD ▸ by decide) noCommand, fun isd => absurd (isd ▸ by decide) noCommand,
    trivial⟩

theorem parseOption_iff {a : OptionArity} (known : Getopt.arity shortOpts opt = some a)
    (fits : Getopt.Fits a optarg) :
    h.parseOption previousOpt (.option opt optarg) g = .ok (h', g') ↔
      ObeysFrom h previousOpt [(taken opt optarg g).1] ∧ h' = h.gather [(taken opt optarg g).1] ∧
        g' = (taken opt optarg g).2 := by
  rw [obeysFrom_singleton, taken_opt]
  by_cases isp : opt = 'p'.toUInt8
  · subst isp
    change (if h.prints then _ else _) = _ ↔ _ ∧ _ = h.gather [{ opt := 'p'.toUInt8, arg := _ }] ∧ _
    rw [gather_prints]
    constructor
    · intro parsed
      split at parsed
      · cases parsed
      · rename_i fresh
        cases parsed
        exact ⟨⟨fun is => absurd is (by decide), fun _ => Bool.eq_false_of_not_eq_true fresh,
          by decide, follows_aside (by rw [taken_opt]; decide)⟩, rfl, rfl⟩
    · rintro ⟨⟨-, fresh, -⟩, rfl, rfl⟩
      rw [fresh rfl]
      rfl
  by_cases isf : opt = 'f'.toUInt8
  · subst isf
    cases known.symm.trans (show Getopt.arity shortOpts 'f'.toUInt8 = some .required by decide)
    obtain ⟨arg, rfl⟩ := Option.isSome_iff_exists.mp fits
    change (if h.socketFilename.isSome then _ else _) = _ ↔
      _ ∧ _ = h.gather [{ opt := 'f'.toUInt8, arg }] ∧ _
    constructor
    · intro parsed
      split at parsed
      · cases parsed
      · rename_i given
        have fresh := Option.not_isSome_iff_eq_none.mp given
        cases parsed
        exact ⟨⟨fun _ => fresh, fun is => absurd is (by decide), by decide,
          follows_aside (by rw [taken_opt]; decide)⟩, (gather_socket fresh).symm, rfl⟩
    · rintro ⟨⟨fresh, -⟩, rfl, rfl⟩
      rw [gather_socket (fresh rfl), fresh rfl]
      rfl
  by_cases ish : opt = 'h'.toUInt8
  · subst ish
    constructor
    · intro parsed
      cases parsed
    · rintro ⟨⟨-, -, noHelp, -⟩, -⟩
      exact absurd rfl noHelp
  have command := mem_commands known isp isf ish
  rw [taken_command command known fits, gather_command command]
  simp only [parseOption, if_neg isp, if_neg isf, if_neg ish]
  constructor
  · intro parsed
    obtain ⟨rfl, rfl, follows⟩ := parseCommand_ok parsed
    exact ⟨⟨fun is => absurd is isf, fun is => absurd is isp, ish, follows _⟩, rfl, rfl⟩
  · rintro ⟨⟨-, -, -, follows⟩, rfl, rfl⟩
    exact parseCommand_of_follows follows

theorem taken_some {arg : List UInt8} : taken opt (some arg) g = ({ opt, arg }, g) := by
  unfold taken
  split <;> rfl

theorem taken_flag (notR : opt ≠ 'R'.toUInt8) : taken opt none g = ({ opt, arg := [] }, g) :=
  if_neg notR

theorem taken_counted {word : List UInt8} {words : List (List UInt8)}
    (behind : g.words = word :: words) (nonempty : word ≠ [])
    (argument : word.head? ≠ some '-'.toUInt8) :
    taken 'R'.toUInt8 none g = ({ opt := 'R'.toUInt8, arg := word }, { g with words }) := by
  obtain ⟨nextchar, _⟩ := g
  cases behind
  cases word with
  | nil => exact absurd rfl nonempty
  | cons c rest =>
      have plain : c ≠ '-'.toUInt8 := fun is => argument (congrArg some is)
      simp only [taken, commandArg, if_pos plain, if_true]

theorem taken_uncounted
    (behind : ∀ word ∈ g.words.head?, word = [] ∨ word.head? = some '-'.toUInt8) :
    taken 'R'.toUInt8 none g = ({ opt := 'R'.toUInt8, arg := ['0'.toUInt8] }, g) := by
  simp only [taken, if_true]
  unfold commandArg
  split
  · rename_i never
    cases never
  · rename_i c rest words _ here
    rcases behind (c :: rest) (by rw [here]; rfl) with empty | dash
    · cases empty
    · rw [if_neg (not_not.mpr (Option.some.inj dash))]
  · rfl

theorem reads_taken {rest : List OptHandlerEl}
    (returned : g.next shortOpts = some (.option opt optarg, g'))
    (reads : Reads (taken opt optarg g').2 rest) : Reads g ((taken opt optarg g').1 :: rest) := by
  cases optarg with
  | some arg =>
      rw [taken_some] at reads ⊢
      exact .given returned reads
  | none =>
      by_cases isR : opt = 'R'.toUInt8
      · subst isR
        by_cases behind : ∀ word ∈ g'.words.head?, word = [] ∨ word.head? = some '-'.toUInt8
        · rw [taken_uncounted behind] at reads ⊢
          exact .uncounted returned behind reads
        · simp only [not_forall, not_or] at behind
          obtain ⟨word, first, nonempty, argument⟩ := behind
          obtain ⟨words, is⟩ := List.head?_eq_some_iff.mp first
          rw [taken_counted is nonempty argument] at reads ⊢
          exact .counted returned is nonempty argument reads
      · rw [taken_flag isR] at reads ⊢
        exact .flag returned isR reads

theorem Reads.of_option (returned : g.next shortOpts = some (.option opt optarg, g'))
    (reads : Reads g els) :
    ∃ rest, els = (taken opt optarg g').1 :: rest ∧ Reads (taken opt optarg g').2 rest := by
  cases reads with
  | ends none => cases returned.symm.trans none
  | given first rest =>
      cases returned.symm.trans first
      rw [taken_some]
      exact ⟨_, rfl, rest⟩
  | flag first notR rest =>
      cases returned.symm.trans first
      rw [taken_flag notR]
      exact ⟨_, rfl, rest⟩
  | counted first behind nonempty argument rest =>
      cases returned.symm.trans first
      rw [taken_counted behind nonempty argument]
      exact ⟨_, rfl, rest⟩
  | uncounted first behind rest =>
      cases returned.symm.trans first
      rw [taken_uncounted behind]
      exact ⟨_, rfl, rest⟩

theorem size_taken : (taken opt optarg g).2.size ≤ g.size := by
  have command : (commandArg optarg g).2.size ≤ g.size := by
    unfold commandArg
    split
    · exact Nat.le_refl _
    · rename_i c rest words _ here
      split
      · simp only [Getopt.size, here, List.map_cons, List.sum_cons]
        omega
      · exact Nat.le_refl _
    · exact Nat.le_refl _
  unfold taken
  split
  · exact command
  · exact Nat.le_refl _

/-- The parser reads the options off, and stops at the first that does not obey the rules. -/
theorem parseFrom_iff {bound : Nat} (enough : g.size < bound) :
    parseFrom bound g h previousOpt = .done h' ↔
      ∃ els, Reads g els ∧ ObeysFrom h previousOpt els ∧ h' = h.gather els := by
  induction bound generalizing g h previousOpt with
  | zero => exact absurd enough (Nat.not_lt_zero _)
  | succ bound ih =>
      simp only [parseFrom]
      split
      · rename_i ends
        constructor
        · intro parsed
          cases parsed
          exact ⟨[], .ends ends, ⟨Bool.toNat_le _, Bool.toNat_le _,
            fun _ never => absurd never List.not_mem_nil, trivial⟩, gather_nil.symm⟩
        · rintro ⟨els, reads, -, rfl⟩
          cases reads <;> simp_all [gather_nil]
      · rename_i result g₁ returned
        cases result with
        | missing optopt | invalid optopt =>
            constructor
            · intro parsed
              cases parsed
            · rintro ⟨els, reads, -⟩
              cases reads <;> simp_all
        | option opt optarg =>
            obtain ⟨a, known, fits⟩ := Getopt.fits_next returned
            have smaller := Getopt.size_next returned
            have enough : (taken opt optarg g₁).2.size < bound := by
              have shorter : (taken opt optarg g₁).2.size ≤ g₁.size := size_taken
              omega
            constructor
            · intro parsed
              split at parsed
              · rename_i ended fails
                subst parsed
                exact absurd fails parseOption_ne_done
              · rename_i h₁ g₂ goes
                obtain ⟨here, rfl, rfl⟩ := (parseOption_iff known fits).mp goes
                obtain ⟨rest, reads, later, rfl⟩ := (ih enough).mp parsed
                refine ⟨_ :: rest, reads_taken returned reads, obeysFrom_cons.mpr ⟨here, ?_⟩,
                  gather_cons.symm⟩
                rw [taken_opt]
                exact later
            · rintro ⟨els, reads, obeys, rfl⟩
              obtain ⟨rest, rfl, behind⟩ := reads.of_option returned
              obtain ⟨here, later⟩ := obeysFrom_cons.mp obeys
              rw [taken_opt] at later
              rw [(parseOption_iff known fits).mpr ⟨here, rfl, rfl⟩]
              exact (ih enough).mpr ⟨rest, behind, later, gather_cons⟩

theorem parseOpt_iff {words : List (List UInt8)} : parseOpt words = .done h ↔
    ∃ els, Reads ⟨[], words⟩ els ∧ Obeys els ∧ h = handlerOf els := by
  simp only [← obeysFrom_init, ← gather_init]
  exact parseFrom_iff (Nat.lt_succ_self _)

theorem Reads.arg_ne_nil (reads : Reads g els) :
    ∀ el ∈ els, el.opt = 'R'.toUInt8 → el.arg ≠ [] := by
  induction reads with
  | ends => exact fun _ never => absurd never List.not_mem_nil
  | @given g g' opt arg els returned _ ih =>
      refine List.forall_mem_cons.mpr ⟨fun isR => ?_, ih⟩
      obtain ⟨a, known, fits⟩ := Getopt.fits_next returned
      obtain rfl : opt = 'R'.toUInt8 := isR
      cases known.symm.trans (show Getopt.arity shortOpts 'R'.toUInt8 = some .optional by decide)
      exact fun empty => fits (congrArg some empty)
  | flag _ notR _ ih => exact List.forall_mem_cons.mpr ⟨fun isR => absurd isR notR, ih⟩
  | counted _ _ nonempty _ _ ih => exact List.forall_mem_cons.mpr ⟨fun _ => nonempty, ih⟩
  | uncounted _ _ _ ih => exact List.forall_mem_cons.mpr ⟨fun _ => List.cons_ne_nil _ _, ih⟩

/-- The options that are no commands can be left out: they are nothing a directory may follow. -/
theorem follows_filter (follows : Follows previousOpt els)
    (same : ∀ c ∈ commands, previousOpt = some c → previous = some c) :
    Follows previous (els.filter (·.opt ∈ commands)) := by
  induction els generalizing previousOpt previous with
  | nil => trivial
  | cons el els ih =>
      obtain ⟨behindW, behindR, later⟩ := follows
      by_cases command : el.opt ∈ commands
      · simp only [List.filter_cons, command, decide_true, if_true]
        exact ⟨fun isD => (behindW isD).imp (same _ (by decide)) (same _ (by decide)),
          fun isd => (behindR isd).imp (same _ (by decide)) (same _ (by decide)),
          ih later fun _ _ is => is⟩
      · simp only [List.filter_cons, command, decide_false, Bool.false_eq_true, if_false]
        refine ih later fun c known is => ?_
        cases is
        exact absurd known command

theorem Obeys.wellFormed (obeys : Obeys els) (reads : Reads g els) : (handlerOf els).WellFormed where
  commands := fun _ member => of_decide_eq_true (List.mem_filter.mp member).2
  follows := follows_filter obeys.follows fun _ _ is => is
  counted := fun el member => reads.arg_ne_nil el (List.mem_filter.mp member).1

/-! ## Writing options down -/

/-- A command as words. The argument of a `-R` is written into the same word, since a word
    of its own could be an option. -/
def commandWords (el : OptHandlerEl) : List (List UInt8) :=
  if el.opt = 'R'.toUInt8 then [45 :: el.opt :: el.arg] else [[45, el.opt], el.arg]

def words (h : OptHandler) : List (List UInt8) :=
  (if h.prints then [[45, 'p'.toUInt8]] else []) ++
    (h.socketFilename.toList.flatMap fun name => [[45, 'f'.toUInt8], name]) ++
      h.commandQueue.flatMap commandWords

/-- What is read off these words. -/
def options (h : OptHandler) : List OptHandlerEl :=
  (if h.prints then [{ opt := 'p'.toUInt8, arg := [] }] else []) ++
    (h.socketFilename.toList.map fun arg => { opt := 'f'.toUInt8, arg }) ++ h.commandQueue

theorem reads_commands (command : ∀ el ∈ els, el.opt ∈ commands)
    (counted : ∀ el ∈ els, el.opt = 'R'.toUInt8 → el.arg ≠ []) :
    Reads ⟨[], els.flatMap commandWords⟩ els := by
  induction els with
  | nil => exact .ends rfl
  | cons el els ih =>
      obtain ⟨here, command⟩ := List.forall_mem_cons.mp command
      obtain ⟨nonempty, counted⟩ := List.forall_mem_cons.mp counted
      obtain ⟨plain, -, -, -, known⟩ := command_facts _ here
      refine .given ?_ (ih command counted)
      rw [List.flatMap_cons]
      by_cases isR : el.opt = 'R'.toUInt8
      · rw [if_pos isR] at known
        simp only [commandWords, if_pos isR, List.singleton_append]
        rw [Getopt.next_option plain, Getopt.letter_optional known (nonempty isR)]
      · rw [if_neg isR] at known
        simp only [commandWords, if_neg isR, List.cons_append, List.nil_append]
        rw [Getopt.next_option plain, Getopt.letter_required known]

theorem reads_words (wellFormed : h.WellFormed) : Reads ⟨[], h.words⟩ h.options := by
  obtain ⟨queue, name, prints⟩ := h
  have commands := reads_commands wellFormed.commands wellFormed.counted
  have socket : Reads ⟨[], (name.toList.flatMap fun name => [[45, 'f'.toUInt8], name]) ++
      queue.flatMap commandWords⟩ ((name.toList.map fun arg => ⟨'f'.toUInt8, arg⟩) ++ queue) := by
    cases name with
    | none => exact commands
    | some name =>
        refine .given ?_ commands
        rw [Option.toList_some, List.flatMap_singleton, List.cons_append, List.cons_append,
          Getopt.next_option (by decide), Getopt.letter_required (by decide)]
        rfl
  unfold words options
  rw [List.append_assoc, List.append_assoc]
  cases prints with
  | false => exact socket
  | true =>
      refine .flag ?_ (by decide) socket
      rw [if_pos rfl, List.singleton_append, Getopt.next_option (by decide),
        Getopt.letter_none (by decide)]

theorem follows_behind {before : List OptHandlerEl} (aside : ∀ el ∈ before, el.opt ∉ commands)
    (follows : Follows none els) : Follows previous (before ++ els) := by
  induction before generalizing previous with
  | nil =>
      cases els with
      | nil => trivial
      | cons el els =>
          obtain ⟨behindW, behindR, later⟩ := follows
          refine ⟨fun isD => ?_, fun isd => ?_, later⟩
          · rcases behindW isD with never | never <;> cases never
          · rcases behindR isd with never | never <;> cases never
  | cons el before ih =>
      obtain ⟨here, aside⟩ := List.forall_mem_cons.mp aside
      have apart : Follows previous [el] := follows_aside here
      exact ⟨apart.1, apart.2.1, ih aside⟩

/-- The options in front of the commands are given once, and are no commands. -/
theorem options_aside (h : OptHandler) : ∃ before, h.options = before ++ h.commandQueue ∧
    (∀ el ∈ before, el.opt ∉ commands ∧ el.opt ≠ 'h'.toUInt8) ∧
    before.countP (·.opt = 'f'.toUInt8) ≤ 1 ∧ before.countP (·.opt = 'p'.toUInt8) ≤ 1 ∧
    (before.find? (·.opt = 'f'.toUInt8)).map OptHandlerEl.arg = h.socketFilename ∧
    before.any (·.opt = 'p'.toUInt8) = h.prints := by
  refine ⟨_, rfl, ?_⟩
  have different : 'p'.toUInt8 ≠ 'f'.toUInt8 := by decide
  have p : 'p'.toUInt8 ∉ commands ∧ 'p'.toUInt8 ≠ 'h'.toUInt8 := by decide
  have f : 'f'.toUInt8 ∉ commands ∧ 'f'.toUInt8 ≠ 'h'.toUInt8 := by decide
  cases h.prints <;> cases h.socketFilename <;> simp [different, different.symm, p, f]

theorem opt_ne_aside (wellFormed : h.WellFormed) {c : UInt8} (noCommand : c ∉ commands) :
    ∀ el ∈ h.commandQueue, el.opt ≠ c :=
  fun el member is => noCommand (is ▸ wellFormed.commands el member)

theorem obeys_options (wellFormed : h.WellFormed) : Obeys h.options := by
  obtain ⟨before, is, aside, socketOnce, printsOnce, -⟩ := options_aside h
  have never : ∀ c ∉ commands, h.commandQueue.countP (·.opt = c) = 0 := fun c noCommand =>
    List.countP_eq_zero.mpr fun el member => by
      simpa using opt_ne_aside wellFormed noCommand el member
  rw [is]
  constructor
  · rwa [List.countP_append, never _ (by decide)]
  · rwa [List.countP_append, never _ (by decide)]
  · intro el member
    rcases List.mem_append.mp member with member | member
    · exact (aside el member).2
    · exact opt_ne_aside wellFormed (by decide) el member
  · exact follows_behind (fun el member => (aside el member).1) wellFormed.follows

theorem handlerOf_options (wellFormed : h.WellFormed) : handlerOf h.options = h := by
  obtain ⟨before, is, aside, -, -, socket, prints⟩ := options_aside h
  have queue : (before ++ h.commandQueue).filter (·.opt ∈ commands) = h.commandQueue := by
    rw [List.filter_append, List.filter_eq_nil_iff.mpr, List.filter_eq_self.mpr, List.nil_append]
    · exact fun el member => decide_eq_true (wellFormed.commands el member)
    · exact fun el member => by simpa using (aside el member).1
  have named : h.commandQueue.find? (·.opt = 'f'.toUInt8) = none :=
    List.find?_eq_none.mpr fun el member => by
      simpa using opt_ne_aside wellFormed (by decide) el member
  have printed : h.commandQueue.any (·.opt = 'p'.toUInt8) = false :=
    List.any_eq_false.mpr fun el member => by
      simpa using opt_ne_aside wellFormed (by decide) el member
  rw [is, handlerOf, queue, List.find?_append, named, Option.or_none, socket, List.any_append,
    printed, Bool.or_false, prints]

theorem parseOpt_words (wellFormed : h.WellFormed) : parseOpt h.words = .done h :=
  parseOpt_iff.mpr ⟨h.options, reads_words wellFormed, obeys_options wellFormed,
    (handlerOf_options wellFormed).symm⟩

/-- The words that are accepted are those whose options obey the rules, and the handler holds
    what they ask for. Every well-formed handler can be asked for. -/
theorem accepted_iff :
    (∀ words h, parseOpt words = .done h ↔
      ∃ els, Reads ⟨[], words⟩ els ∧ Obeys els ∧ h = handlerOf els) ∧
    ∀ h, (∃ words, parseOpt words = .done h) ↔ h.WellFormed := by
  refine ⟨fun words h => parseOpt_iff, fun h => ⟨?_, ?_⟩⟩
  · rintro ⟨words, parsed⟩
    obtain ⟨els, reads, obeys, rfl⟩ := parseOpt_iff.mp parsed
    exact obeys.wellFormed reads
  · exact fun wellFormed => ⟨h.words, parseOpt_words wellFormed⟩

end OptHandler

end FileStorage
