import FileStorage.Client.CommandLine

/-! # From commands to what they do

What the user of the client means, and the words that say it. A list of commands that is
written down, parsed and handled does what its commands mean, one after the other.
-/

namespace FileStorage

open Program

/-- A file name that can stand in a list of names. -/
structure ListName where
  chars : List UInt8
  nonempty : chars ≠ []
  plain : 44 ∉ chars
  no_nul : 0 ∉ chars

def ListName.string (name : ListName) : CString := ⟨name.chars, name.no_nul⟩

theorem ListName.upToNul_chars (name : ListName) : CString.upToNul name.chars = name.string :=
  name.string.upToNul_self

inductive ClientCommand where
  | writeDirectory (dirname : ListName) (n : Option (Fin (2 ^ 31))) (store : Option CString)
  | writeFiles (names : List ListName) (store : Option CString)
  | readFiles (names : List ListName) (store : Option CString)
  | readFirst (n : Fin (2 ^ 31)) (store : Option CString)
  | lockFiles (names : List ListName)
  | unlockFiles (names : List ListName)
  | removeFiles (names : List ListName)
  | delay (milliseconds : Fin (2 ^ 31))

namespace ClientCommand

/-- Names with commas in between. -/
def joined : List ListName → List UInt8
  | [] => []
  | [name] => name.chars
  | name :: names => name.chars ++ 44 :: joined names

def number (n : Fin (2 ^ 31)) : List UInt8 := Decimal.padded 1 n

def elements : ClientCommand → List OptHandlerEl
  | writeDirectory dirname n store =>
      ⟨'w'.toUInt8, dirname.chars ++ n.elim [] fun n => 44 :: number n⟩ ::
        store.toList.map fun dir => ⟨'D'.toUInt8, dir.chars⟩
  | writeFiles names store =>
      ⟨'W'.toUInt8, joined names⟩ :: store.toList.map fun dir => ⟨'D'.toUInt8, dir.chars⟩
  | readFiles names store =>
      ⟨'r'.toUInt8, joined names⟩ :: store.toList.map fun dir => ⟨'d'.toUInt8, dir.chars⟩
  | readFirst n store =>
      ⟨'R'.toUInt8, number n⟩ :: store.toList.map fun dir => ⟨'d'.toUInt8, dir.chars⟩
  | lockFiles names => [⟨'l'.toUInt8, joined names⟩]
  | unlockFiles names => [⟨'u'.toUInt8, joined names⟩]
  | removeFiles names => [⟨'c'.toUInt8, joined names⟩]
  | delay milliseconds => [⟨'t'.toUInt8, number milliseconds⟩]

variable {σ : Type} (m : Machine σ)

def resolve : List ListName → Api σ (List CString)
  | [] => pure []
  | name :: names => do
      let s ← get
      let path ← orFail (m.realpath name.string s.world) (.errno .bubbled)
      let paths ← resolve names
      pure (path :: paths)

/-- What a command stands for. The paths of all its files are looked up before the first of
    them is handled. -/
def meaning : ClientCommand → Api σ Unit
  | writeDirectory dirname n store => do
      let queue ← Client.optRtsScanDir m dirname.string (n.elim 0 fun n => (n.val : Int))
      Client.walk (Client.optArgSendFile m store) queue
  | writeFiles names store => do
      let queue ← resolve m names
      Client.walk (Client.optArgSendFile m store) queue
  | readFiles names store => do
      let queue ← resolve m names
      Client.walk (Client.optArgReadFile m store) queue
  | readFirst n store => do
      let _ ← Client.readNFiles m.toEnvironment (n.val : Int) store
      pure ()
  | lockFiles names => do
      let queue ← resolve m names
      Client.walk (Client.optArgLockFile m) queue
  | unlockFiles names => do
      let queue ← resolve m names
      Client.walk (Client.optArgUnlockFile m) queue
  | removeFiles names => do
      let queue ← resolve m names
      Client.walk (Client.optArgRemoveFile m) queue
  | delay _ => pure ()

/-- Connect, run, and disconnect whatever has failed. -/
def session (socketName : Option CString) (p : Api σ Unit) : CommandLine σ Unit := do
  CommandLine.argfStart m socketName
  let result ← CommandLine.onClient (attempt p)
  CommandLine.argfEnd m socketName
  match result with
  | .ok _ => pure ()
  | .error error => Program.throw error

/-- Commands one after the other, up to the first that fails. -/
def runAll : List ClientCommand → Api σ Unit
  | [] => pure ()
  | command :: commands => do
      command.meaning m
      runAll commands

/-! ## The arguments -/

theorem strtok_joined (name : ListName) (names : List ListName) :
    Txtenv.strtok 44 (joined (name :: names)) = (some name.chars, joined names) := by
  cases names with
  | nil => exact Txtenv.strtok_last 0 name.nonempty name.plain
  | cons other names =>
      have delimited : Txtenv.strtok 44 (name.chars ++ 44 :: joined (other :: names)) =
          (some name.chars, joined (other :: names)) :=
        Txtenv.strtok_delimited 0 name.nonempty name.plain
      exact delimited

theorem length_joined (name : ListName) (names : List ListName) :
    (joined names).length < (joined (name :: names)).length := by
  have positive := List.length_pos_iff.mpr name.nonempty
  cases names with
  | nil => exact positive
  | cons other names =>
      change _ < (name.chars ++ 44 :: joined (other :: names)).length
      rw [List.length_append, List.length_cons]
      omega

theorem parseTokens_joined {bound : Nat} (names : List ListName) (queue : List CString)
    (enough : (joined names).length ≤ bound) :
    Client.parseTokens m bound (joined names) queue =
      resolve m names >>= fun paths => pure (queue ++ paths) := by
  induction names generalizing bound queue with
  | nil =>
      rw [resolve, pure_bind, List.append_nil]
      cases bound <;> rfl
  | cons name names ih =>
      have shorter := length_joined name names
      cases bound with
      | zero => omega
      | succ bound =>
          rw [Client.parseTokens, strtok_joined]
          simp only [resolve, bind_assoc, pure_bind]
          congr 1
          funext s
          rw [name.upToNul_chars]
          congr 1
          funext path
          rw [ih (queue ++ [path]) (by omega)]
          simp only [List.append_assoc, List.singleton_append]

theorem filenameArgWalk_joined (names : List ListName) (callback : CString → Api σ Unit) :
    Client.filenameArgWalk m (joined names) callback =
      resolve m names >>= Client.walk callback := by
  rw [Client.filenameArgWalk, Client.optRtsParseFileList,
    parseTokens_joined m names [] (Nat.le_refl _)]
  simp only [bind_assoc, pure_bind, List.nil_append]

theorem number_nonempty (n : Fin (2 ^ 31)) : number n ≠ [] := by
  intro nothing
  have long := Decimal.width_le_length_padded 1 n
  rw [number] at nothing
  rw [nothing] at long
  cases long

theorem number_plain (n : Fin (2 ^ 31)) : 44 ∉ number n := by
  intro member
  have isDigit := Decimal.isDigit_padded 1 n 44 member
  exact absurd isDigit (by decide)

theorem argToInt_number (n : Fin (2 ^ 31)) :
    (Client.argToInt (number n) : Api σ Int) = pure (n.val : Int) := by
  rw [Client.argToInt, number, toInt_padded n.isLt]

theorem argWParseArg_elements (dirname : ListName) (n : Option (Fin (2 ^ 31))) :
    (Client.argWParseArg (dirname.chars ++ n.elim [] fun n => 44 :: number n) :
      Api σ (CString × Int)) = pure (dirname.string, n.elim 0 fun n => (n.val : Int)) := by
  cases n with
  | none =>
      have first : Txtenv.strtok 44 dirname.chars = (some dirname.chars, []) :=
        Txtenv.strtok_last 0 dirname.nonempty dirname.plain
      rw [Option.elim_none, List.append_nil, Client.argWParseArg, first]
      exact congrArg (fun dirname : CString => (pure (dirname, (0 : Int)) : Api σ (CString × Int)))
        dirname.upToNul_chars
  | some n =>
      have first : Txtenv.strtok 44 (dirname.chars ++ 44 :: number n) =
          (some dirname.chars, number n) :=
        Txtenv.strtok_delimited 0 dirname.nonempty dirname.plain
      have second : Txtenv.strtok 44 (number n) = (some (number n), []) :=
        Txtenv.strtok_last 0 (number_nonempty n) (number_plain n)
      rw [Option.elim_some, Client.argWParseArg, first]
      simp only [second, argToInt_number, pure_bind, dirname.upToNul_chars]
      rfl

/-! ## The queue -/

open CommandLine

/-- The commands behind the one that is run now. -/
def behind (queue : List OptHandlerEl) : Api σ Turn :=
  match queue with
  | [] => pure .goesOn
  | el :: els => handleCommands m (some el) els

/-- What follows a turn. -/
def andThen (turn : Turn) (next : Api σ Turn) : Api σ Turn :=
  match turn with
  | .goesOn => next
  | ended => pure ended

theorem handleCommands_behind (command : Option OptHandlerEl) (queue : List OptHandlerEl) :
    handleCommands m command queue =
      executeAssigned m command queue.head? >>= fun turn => andThen turn (behind m queue) := by
  cases queue with
  | nil =>
      rw [handleCommands, List.head?_nil]
      funext s
      rw [bind_run]
      cases executeAssigned m command none s with
      | ok turn t => cases turn <;> rfl
      | error code t => rfl
      | fault why => rfl
  | cons next queue =>
      rw [handleCommands, List.head?_cons]
      rfl

/-- The directories in a queue stand behind another command. -/
def Free (queue : List OptHandlerEl) : Prop :=
  ∀ el ∈ queue.head?, el.opt ≠ 'D'.toUInt8 ∧ el.opt ≠ 'd'.toUInt8

theorem nextArg_free {queue : List OptHandlerEl} (free : Free queue) :
    nextArg 'D' queue.head? = none ∧ nextArg 'd' queue.head? = none := by
  cases queue with
  | nil => exact ⟨rfl, rfl⟩
  | cons el els =>
      obtain ⟨notD, notd⟩ := free el rfl
      exact ⟨if_neg notD, if_neg notd⟩

theorem behind_single {queue : List OptHandlerEl} (free : Free queue) (el : OptHandlerEl) :
    behind m (el :: queue) =
      execute m el none none >>= fun turn => andThen turn (behind m queue) := by
  obtain ⟨noD, nod⟩ := nextArg_free free
  rw [behind, handleCommands_behind, executeAssigned, noD, nod]

/-- A directory takes no effect of its own. -/
theorem behind_directory (queue : List OptHandlerEl) {el dir : OptHandlerEl}
    (directory : dir.opt = 'D'.toUInt8 ∨ dir.opt = 'd'.toUInt8) :
    behind m (el :: dir :: queue) = execute m el (nextArg 'D' (some dir)) (nextArg 'd' (some dir)) >>=
      fun turn => andThen turn (behind m queue) := by
  have nothing : ∀ D d, execute m dir D d = pure .goesOn := by
    intro D d
    obtain ⟨opt, arg⟩ := dir
    rcases directory with is | is <;> cases is <;> rfl
  rw [behind, handleCommands_behind, executeAssigned]
  congr 1
  funext turn
  congr 1
  rw [behind, handleCommands_behind, executeAssigned, nothing]
  rfl

/-! ## The commands one after the other -/

theorem elements_head (command : ClientCommand) (queue : List OptHandlerEl) :
    Free (command.elements ++ queue) := by
  intro el first
  cases command <;> cases first <;> dsimp only <;> decide

theorem free_flatMap (commands : List ClientCommand) : Free (commands.flatMap elements) := by
  cases commands with
  | nil => exact fun el none_ => by cases none_
  | cons command commands => exact elements_head command _

theorem behind_stored {queue : List OptHandlerEl} (free : Free queue) (el : OptHandlerEl)
    (opt : Char) (is : opt = 'D' ∨ opt = 'd') (store : Option CString) :
    behind m (el :: (store.toList.map (fun dir => ⟨opt.toUInt8, dir.chars⟩) ++ queue)) =
      execute m el (if opt = 'D' then store else none) (if opt = 'd' then store else none) >>=
        fun turn => andThen turn (behind m queue) := by
  cases store with
  | none =>
      rw [ite_self, ite_self]
      exact behind_single m free el
  | some dir =>
      rcases is with rfl | rfl
      · exact (behind_directory m queue (.inl rfl)).trans
          (by simp only [nextArg, CString.upToNul_self]; rfl)
      · exact (behind_directory m queue (.inr rfl)).trans
          (by simp only [nextArg, CString.upToNul_self]; rfl)

theorem execute_delay (milliseconds : Fin (2 ^ 31)) (DArg dArg : Option CString) :
    execute m ⟨'t'.toUInt8, number milliseconds⟩ DArg dArg = pure .goesOn := by
  rw [execute, if_pos rfl, number, toInt_padded milliseconds.isLt]

/-- The options of a command do what it means. -/
theorem behind_elements {queue : List OptHandlerEl} (free : Free queue) (command : ClientCommand) :
    behind m (command.elements ++ queue) =
      turn (command.meaning m) >>= fun turn => andThen turn (behind m queue) := by
  cases command with
  | writeDirectory dirname n store =>
      refine (behind_stored m free _ 'D' (.inl rfl) store).trans (congrArg (· >>= _) ?_)
      change turn (Client.argw m (dirname.chars ++ n.elim [] fun n => 44 :: number n) store) = _
      rw [Client.argw, argWParseArg_elements, pure_bind]
      rfl
  | writeFiles names store =>
      refine (behind_stored m free _ 'D' (.inl rfl) store).trans (congrArg (· >>= _) ?_)
      change turn (Client.argW m (joined names) store) = _
      rw [Client.argW, filenameArgWalk_joined]
      rfl
  | readFiles names store =>
      refine (behind_stored m free _ 'd' (.inr rfl) store).trans (congrArg (· >>= _) ?_)
      change turn (Client.argr m (joined names) store) = _
      rw [Client.argr, filenameArgWalk_joined]
      rfl
  | readFirst n store =>
      refine (behind_stored m free _ 'd' (.inr rfl) store).trans (congrArg (· >>= _) ?_)
      change turn (Client.argR m (number n) store) = _
      rw [Client.argR, argToInt_number, pure_bind]
      rfl
  | lockFiles names =>
      refine (behind_single m free _).trans (congrArg (· >>= _) ?_)
      change turn (Client.argl m (joined names)) = _
      rw [Client.argl, filenameArgWalk_joined]
      rfl
  | unlockFiles names =>
      refine (behind_single m free _).trans (congrArg (· >>= _) ?_)
      change turn (Client.argu m (joined names)) = _
      rw [Client.argu, filenameArgWalk_joined]
      rfl
  | removeFiles names =>
      refine (behind_single m free _).trans (congrArg (· >>= _) ?_)
      change turn (Client.argc m (joined names)) = _
      rw [Client.argc, filenameArgWalk_joined]
      rfl
  | delay milliseconds =>
      refine (behind_single m free _).trans (congrArg (· >>= _) ?_)
      exact execute_delay m milliseconds none none

theorem behind_runAll (commands : List ClientCommand) :
    behind m (commands.flatMap elements) = turn (runAll m commands) := by
  induction commands with
  | nil => rfl
  | cons command commands ih =>
      rw [List.flatMap_cons, behind_elements m (free_flatMap commands), ih, runAll]
      funext s
      simp only [turn, bind_run, attempt]
      cases command.meaning m s with
      | ok value t => rfl
      | error code t => rfl
      | fault why => rfl

/-! ## Written down and parsed -/

/-- What the parser makes of the words for some commands. -/
def handler (prints : Bool) (socketName : Option CString) (commands : List ClientCommand) :
    OptHandler where
  commandQueue := commands.flatMap elements
  socketFilename := socketName.map CString.chars
  prints := prints

theorem follows_elements {queue : List OptHandlerEl}
    (follows : ∀ previous, OptHandler.Follows previous queue) (previous : Option UInt8)
    (command : ClientCommand) : OptHandler.Follows previous (command.elements ++ queue) := by
  have single : ∀ (opt : Char) (arg : List UInt8),
      opt.toUInt8 ≠ 'D'.toUInt8 ∧ opt.toUInt8 ≠ 'd'.toUInt8 →
      OptHandler.Follows previous (⟨opt.toUInt8, arg⟩ :: queue) :=
    fun opt arg plain => ⟨fun is => absurd is plain.1, fun is => absurd is plain.2, follows _⟩
  have stored : ∀ (opt dirOpt : Char) (arg : List UInt8) (store : Option CString),
      opt.toUInt8 ≠ 'D'.toUInt8 ∧ opt.toUInt8 ≠ 'd'.toUInt8 →
      (dirOpt = 'D' ∧ (opt = 'w' ∨ opt = 'W') ∨ dirOpt = 'd' ∧ (opt = 'r' ∨ opt = 'R')) →
      OptHandler.Follows previous (⟨opt.toUInt8, arg⟩ ::
        (store.toList.map (fun dir => ⟨dirOpt.toUInt8, dir.chars⟩) ++ queue)) := by
    intro opt dirOpt arg store plain fits
    refine ⟨fun is => absurd is plain.1, fun is => absurd is plain.2, ?_⟩
    cases store with
    | none => exact follows _
    | some dir =>
        have other : 'D'.toUInt8 ≠ 'd'.toUInt8 := by decide
        rcases fits with ⟨rfl, rfl | rfl⟩ | ⟨rfl, rfl | rfl⟩
        · exact ⟨fun _ => .inl rfl, fun is => absurd is other, follows _⟩
        · exact ⟨fun _ => .inr rfl, fun is => absurd is other, follows _⟩
        · exact ⟨fun is => absurd is.symm other, fun _ => .inl rfl, follows _⟩
        · exact ⟨fun is => absurd is.symm other, fun _ => .inr rfl, follows _⟩
  cases command with
  | writeDirectory dirname n store => exact stored 'w' 'D' _ store (by decide) (.inl ⟨rfl, .inl rfl⟩)
  | writeFiles names store => exact stored 'W' 'D' _ store (by decide) (.inl ⟨rfl, .inr rfl⟩)
  | readFiles names store => exact stored 'r' 'd' _ store (by decide) (.inr ⟨rfl, .inl rfl⟩)
  | readFirst n store => exact stored 'R' 'd' _ store (by decide) (.inr ⟨rfl, .inr rfl⟩)
  | lockFiles names => exact single 'l' _ (by decide)
  | unlockFiles names => exact single 'u' _ (by decide)
  | removeFiles names => exact single 'c' _ (by decide)
  | delay milliseconds => exact single 't' _ (by decide)

theorem follows_flatMap (commands : List ClientCommand) (previous : Option UInt8) :
    OptHandler.Follows previous (commands.flatMap elements) := by
  induction commands generalizing previous with
  | nil => trivial
  | cons command commands ih => exact follows_elements ih previous command

theorem mem_elements {command : ClientCommand} {el : OptHandlerEl}
    (member : el ∈ command.elements) :
    el.opt ∈ OptHandler.commands ∧ (el.opt = 'R'.toUInt8 → el.arg ≠ []) := by
  have stored : ∀ (first : OptHandlerEl) (opt : Char) (store : Option CString),
      (first.opt ∈ OptHandler.commands ∧ (first.opt = 'R'.toUInt8 → first.arg ≠ [])) →
      opt.toUInt8 ∈ OptHandler.commands ∧ opt.toUInt8 ≠ 'R'.toUInt8 →
      el ∈ first :: store.toList.map (fun dir => (⟨opt.toUInt8, dir.chars⟩ : OptHandlerEl)) →
      el.opt ∈ OptHandler.commands ∧ (el.opt = 'R'.toUInt8 → el.arg ≠ []) := by
    intro first opt store here dirs member
    rcases List.mem_cons.mp member with rfl | member
    · exact here
    · obtain ⟨dir, -, rfl⟩ := List.mem_map.mp member
      exact ⟨dirs.1, fun is => absurd is dirs.2⟩
  have plain : ∀ c : Char, c.toUInt8 ∈ OptHandler.commands ∧ c.toUInt8 ≠ 'R'.toUInt8 →
      ∀ arg : List UInt8, c.toUInt8 ∈ OptHandler.commands ∧
        (c.toUInt8 = 'R'.toUInt8 → arg ≠ []) :=
    fun c known arg => ⟨known.1, fun is => absurd is known.2⟩
  cases command with
  | writeDirectory dirname n store =>
      exact stored _ 'D' store (plain 'w' (by decide) _) (by decide) member
  | writeFiles names store =>
      exact stored _ 'D' store (plain 'W' (by decide) _) (by decide) member
  | readFiles names store =>
      exact stored _ 'd' store (plain 'r' (by decide) _) (by decide) member
  | readFirst n store =>
      have known : 'R'.toUInt8 ∈ OptHandler.commands := by decide
      exact stored _ 'd' store ⟨known, fun _ => number_nonempty n⟩ (by decide) member
  | lockFiles names =>
      cases List.mem_singleton.mp member
      exact plain 'l' (by decide) _
  | unlockFiles names =>
      cases List.mem_singleton.mp member
      exact plain 'u' (by decide) _
  | removeFiles names =>
      cases List.mem_singleton.mp member
      exact plain 'c' (by decide) _
  | delay milliseconds =>
      cases List.mem_singleton.mp member
      exact plain 't' (by decide) _

theorem wellFormed_handler (prints : Bool) (socketName : Option CString)
    (commands : List ClientCommand) : (handler prints socketName commands).WellFormed := by
  refine ⟨fun el member => ?_, follows_flatMap commands none, fun el member => ?_⟩
  all_goals obtain ⟨command, -, member⟩ := List.mem_flatMap.mp member
  · exact (mem_elements member).1
  · exact (mem_elements member).2

/-- The words for some commands are accepted, and the program that handles them connects,
    does what the commands mean in their order up to the first that fails, and disconnects
    in either case. -/
theorem commands_carried_out (prints : Bool) (socketName : Option CString)
    (commands : List ClientCommand) :
    OptHandler.parseOpt (handler prints socketName commands).words =
      .done (handler prints socketName commands) ∧
    handle m (handler prints socketName commands) =
      session m socketName (runAll m commands) := by
  refine ⟨OptHandler.parseOpt_words (wellFormed_handler prints socketName commands), ?_⟩
  have name : (handler prints socketName commands).socketFilename.map CString.upToNul =
      socketName := by
    cases socketName with
    | none => rfl
    | some name => exact congrArg some name.upToNul_self
  have all : handleCommands m none (handler prints socketName commands).commandQueue =
      turn (runAll m commands) := (handleCommands_behind m none _).trans (behind_runAll m commands)
  rw [handle, session, name, all]
  congr 1
  funext _ s
  simp only [bind_run, onClient, zoom, turn, attempt]
  cases runAll m commands s.client with
  | ok value t =>
      change _ = (argfEnd m socketName >>= fun _ => pure ()) ⟨t, s.socketName⟩
      rw [bind_pure_unit]
      rfl
  | error code t => rfl
  | fault why => rfl

end ClientCommand

end FileStorage
