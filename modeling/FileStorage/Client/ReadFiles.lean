import FileStorage.Client.Api

/-! # What `gnl_fss_api_read_N_files` reports

Each listed file goes through four steps: it is opened, read, closed, and saved if
there is a directory. The loop ends at the first file with a step that fails, but
only an open and a save leave their failure in `res`, from which the return value
is taken.
-/

namespace FileStorage

open Program

namespace Client

variable {σ : Type} (env : Environment σ)

/-- The steps for a listed file. -/
inductive ReadStep where
  | opening | reading | closing | saving
  deriving DecidableEq

def visitFile (dirname : Option CString) (file : MessageSnb) : Api σ (Option ReadStep) := do
  match ← attempt (openFile env file.string 0) with
  | .error _ => pure (some .opening)
  | .ok _ =>
      let read ← attempt (readFile env file.string)
      let closed ← attempt (closeFile env file.string)
      match read, closed with
      | .error _, _ => pure (some .reading)
      | .ok _, .error _ => pure (some .closing)
      | .ok (buf, _), .ok _ =>
          match ← attempt (saveFile env file.string dirname buf) with
          | .error _ => pure (some .saving)
          | .ok _ => pure none

/-- The files one after another, up to `N` of them and up to a step that fails. -/
def visitFiles (N : Int) (dirname : Option CString) :
    List MessageSnb → Nat → Api σ (Option ReadStep)
  | [], _ => pure none
  | file :: rest, count => do
      match ← visitFile env dirname file with
      | some step => pure (some step)
      | none =>
          if 0 < N ∧ (count + 1 : Nat) = N then pure none
          else visitFiles N dirname rest (count + 1)

def filesToRead (N : Int) (listed : Nat) : Nat := if 0 < N then min N.toNat listed else listed

/-- The return value tells of a step that has failed, and otherwise how many files
    have been read. -/
def Reports (N : Int) (dirname : Option CString) (s : Client σ) : Prop :=
  match (env.exchange (.READ_N ⟨N⟩) s.world).1 with
  | some (.OK_FILE_LIST payload) =>
      match visitFiles env N dirname payload.queue 0 (s.exchanged env (.READ_N ⟨N⟩)) with
      | .ok (some _) _ => ∃ code s', readNFiles env N dirname s = .error code s'
      | .ok none _ =>
          ∃ s', readNFiles env N dirname s = .ok (filesToRead N payload.queue.length) s'
      | .error _ _ | .fault _ => False
  | some .OK => ∃ s', readNFiles env N dirname s = .ok 0 s'
  | _ => ∃ code s', readNFiles env N dirname s = .error code s'

def Readable (N : Int) (dirname : Option CString) (s : Client σ) : Prop :=
  ∀ payload, (env.exchange (.READ_N ⟨N⟩) s.world).1 = some (.OK_FILE_LIST payload) →
    ∀ step s', visitFiles env N dirname payload.queue 0 (s.exchanged env (.READ_N ⟨N⟩)) =
      .ok (some step) s' → step ≠ .reading ∧ step ≠ .closing

variable {env}

/-- How the loop ends when a step for its first file fails, and how it goes on
    otherwise. -/
def Goes (outcome : Outcome ApiError Fault (Client σ) Nat) (number : Nat)
    (onward : Client σ → Outcome ApiError Fault (Client σ) Nat) :
    Option ReadStep → Client σ → Prop
  | none, s' => outcome = onward s'
  | some .opening, s' | some .saving, s' => ∃ code, outcome = .error code s'
  | some .reading, s' | some .closing, s' => outcome = .ok number s'

def Safe {α : Type} (p : Api σ α) : Prop := ∀ s why, p s ≠ .fault why

theorem safe_of_post {α : Type} {p : Api σ α}
    (post : ∀ s, (p s).Post (fun _ _ => True) (fun _ _ => True) (fun _ => False)) : Safe p := by
  intro s why outcome
  have never := post s
  rw [outcome] at never
  exact never

theorem openFile_safe (pathname : Option CString) (flags : Int) :
    Safe (openFile env pathname flags) := by
  refine safe_of_post fun s => ?_
  simp only [openFile, post_bind, post_orFail, post_send]
  refine ⟨fun _ => trivial, fun path _ => ?_⟩
  cases (env.exchange (.OPEN ⟨pathname, flags⟩) s.world).1 with
  | none => exact trivial
  | some response =>
      cases response with
      | OK_FD payload =>
          simp only [post_bind, post_modify, post_failIf, post_get, post_orFail, record]
          exact ⟨fun _ => trivial, fun _ => ⟨fun _ => trivial, fun _ _ => trivial⟩⟩
      | _ => exact trivial

theorem readFile_safe (pathname : Option CString) : Safe (readFile env pathname) := by
  refine safe_of_post fun s => ?_
  simp only [readFile, getDescriptor, post_bind, post_orFail, post_get, post_send]
  refine ⟨fun _ => trivial, fun path _ => ⟨fun _ => trivial, fun fd _ => ?_⟩⟩
  cases (env.exchange (.READ ⟨fd⟩) s.world).1 with
  | none => exact trivial
  | some response => cases response <;> exact trivial

/-- A close never follows a null pointer: it only removes a name that it has found. -/
theorem closeFile_safe (pathname : Option CString) : Safe (closeFile env pathname) := by
  refine safe_of_post fun s => ?_
  simp only [closeFile, getDescriptor, post_bind, post_orFail, post_get, post_send]
  refine ⟨fun _ => trivial, fun path _ => ⟨fun _ => trivial, fun fd found => ?_⟩⟩
  cases (env.exchange (.CLOSE ⟨fd⟩) s.world).1 with
  | none => exact trivial
  | some response =>
      cases response with
      | OK =>
          obtain ⟨table, removed⟩ := TernarySearchTree.remove_isSome found
          simp only [post_bind, post_get, exchanged, removed, post_modify, record, resetFlags]
      | _ => exact trivial

theorem saveFile_safe (filename dirname : Option CString) (buf : Option (List UInt8)) :
    Safe (saveFile env filename dirname buf) := by
  refine safe_of_post fun s => ?_
  unfold saveFile
  cases dirname with
  | none => exact trivial
  | some dirname =>
      simp only []
      split <;> exact trivial

/-! ## The loop -/

theorem readFiles_cons (N : Int) (dirname : Option CString) (file : MessageSnb)
    (rest : List MessageSnb) (count : Nat) (s : Client σ) :
    (visitFile env dirname file s).Post
      (Goes (readFiles env N dirname (file :: rest) count s) (count + 1) fun s' =>
        if 0 < N ∧ (count + 1 : Nat) = N then .ok (count + 1) s'
        else readFiles env N dirname rest (count + 1) s')
      (fun _ _ => False) (fun _ => False) := by
  simp only [visitFile, readFiles, bind_run, attempt]
  cases opened : openFile env file.string 0 s with
  | error code s₁ => exact ⟨code, rfl⟩
  | fault why => exact absurd opened (openFile_safe file.string 0 s why)
  | ok _ s₁ =>
      simp only [bind_run, attempt]
      cases read : readFile env file.string s₁ with
      | fault why => exact absurd read (readFile_safe file.string s₁ why)
      | error code s₂ =>
          simp only []
          cases closed : closeFile env file.string s₂ with
          | fault why => exact absurd closed (closeFile_safe file.string s₂ why)
          | error code' s₃ => exact rfl
          | ok _ s₃ => exact rfl
      | ok data s₂ =>
          simp only []
          cases closed : closeFile env file.string s₂ with
          | fault why => exact absurd closed (closeFile_safe file.string s₂ why)
          | error code' s₃ => exact rfl
          | ok _ s₃ =>
              simp only [bind_run, attempt]
              cases saved : saveFile env file.string dirname data.1 s₃ with
              | fault why => exact absurd saved (saveFile_safe file.string dirname data.1 s₃ why)
              | error code s₄ => exact ⟨code, rfl⟩
              | ok _ s₄ =>
                  simp only []
                  split <;> exact rfl

/-- How the loop ends for the step that fails, and with what number if none does. -/
def Ends (outcome : Outcome ApiError Fault (Client σ) Nat) (number : Nat) :
    Option ReadStep → Prop
  | none => ∃ s', outcome = .ok number s'
  | some .opening | some .saving => ∃ code s', outcome = .error code s'
  | some .reading | some .closing => ∃ other s', outcome = .ok other s'

def filesLeft (N : Int) (count listed : Nat) : Nat :=
  if 0 < N then min (N.toNat - count) listed else listed

theorem readFiles_ends (N : Int) (dirname : Option CString) (files : List MessageSnb)
    (count : Nat) (more : 0 < N → count < N) (s : Client σ) :
    (visitFiles env N dirname files count s).Post
      (fun step _ => Ends (readFiles env N dirname files count s)
        (count + filesLeft N count files.length) step)
      (fun _ _ => False) (fun _ => False) := by
  induction files generalizing count s with
  | nil =>
      have done : filesLeft N count 0 = 0 := by
        unfold filesLeft
        split <;> simp
      exact ⟨s, by rw [List.length_nil, done]; rfl⟩
  | cons file rest ih =>
      simp only [visitFiles, post_bind]
      refine (readFiles_cons N dirname file rest count s).mono ?_ (fun _ _ never => never)
        (fun _ never => never)
      intro step s' goes
      cases step with
      | some step =>
          cases step with
          | opening | saving =>
              obtain ⟨code, ends⟩ := goes
              exact ⟨code, s', ends⟩
          | reading | closing => exact ⟨count + 1, s', goes⟩
      | none =>
          simp only [post_ite]
          refine ⟨fun last => ⟨s', ?_⟩, fun notLast => ?_⟩
          · have all : filesLeft N count (file :: rest).length = 1 := by
              unfold filesLeft
              rw [if_pos last.1, List.length_cons]
              omega
            rw [all]
            exact goes.trans (if_pos last)
          · have next : 0 < N → (count + 1 : Nat) < N := by
              intro pos
              have := more pos
              omega
            have left : filesLeft N count (file :: rest).length =
                1 + filesLeft N (count + 1) rest.length := by
              unfold filesLeft
              rw [List.length_cons]
              split
              · have := next ‹_›
                omega
              · omega
            have onward : readFiles env N dirname (file :: rest) count s =
                readFiles env N dirname rest (count + 1) s' := goes.trans (if_neg notLast)
            rw [left, onward, ← Nat.add_assoc]
            exact ih (count + 1) next s'

theorem readNFiles_list {N : Int} {dirname : Option CString} {s : Client σ} {payload : MessageNq}
    (received : (env.exchange (.READ_N ⟨N⟩) s.world).1 = some (.OK_FILE_LIST payload)) :
    readNFiles env N dirname s =
      match readFiles env N dirname payload.queue 0 (s.exchanged env (.READ_N ⟨N⟩)) with
      | .ok count s' => .ok count { s' with openWithCreateLockFlags := 0 }
      | .error code s' => .error code s'
      | .fault why => .fault why := by
  simp only [readNFiles, bind_run, sendAndDestroyRequest, received]
  cases readFiles env N dirname payload.queue 0 (s.exchanged env (.READ_N ⟨N⟩)) <;> rfl

/-- The return value of the whole call is that of the loop. -/
theorem readNFiles_ends (N : Int) (dirname : Option CString) {s : Client σ} {payload : MessageNq}
    (received : (env.exchange (.READ_N ⟨N⟩) s.world).1 = some (.OK_FILE_LIST payload)) :
    ∃ step s', visitFiles env N dirname payload.queue 0 (s.exchanged env (.READ_N ⟨N⟩)) =
        .ok step s' ∧
      Ends (readNFiles env N dirname s) (filesToRead N payload.queue.length) step := by
  have ends := @readFiles_ends _ env N dirname payload.queue 0 (fun pos => pos)
    (s.exchanged env (.READ_N ⟨N⟩))
  have all : 0 + filesLeft N 0 payload.queue.length = filesToRead N payload.queue.length := by
    simp only [filesLeft, filesToRead, Nat.sub_zero, Nat.zero_add]
  rw [all] at ends
  rw [readNFiles_list received]
  cases visited : visitFiles env N dirname payload.queue 0 (s.exchanged env (.READ_N ⟨N⟩)) with
  | error code s' =>
      rw [visited] at ends
      exact ends.elim
  | fault why =>
      rw [visited] at ends
      exact ends.elim
  | ok step s' =>
      rw [visited] at ends
      refine ⟨step, s', rfl, ?_⟩
      cases step with
      | none =>
          obtain ⟨s'', ends⟩ := ends
          exact ⟨_, by rw [ends]⟩
      | some step =>
          cases step with
          | opening | saving =>
              obtain ⟨code, s'', ends⟩ := ends
              exact ⟨code, s'', by rw [ends]⟩
          | reading | closing =>
              obtain ⟨other, s'', ends⟩ := ends
              exact ⟨other, _, by rw [ends]⟩

/-- The return value tells of a failure, or of the number of files that have been read,
    exactly if no listed file is opened and then cannot be read or closed. -/
theorem reports_iff (env : Environment σ) (N : Int) (dirname : Option CString) (s : Client σ) :
    Reports env N dirname s ↔ Readable env N dirname s := by
  unfold Reports Readable
  cases received : (env.exchange (.READ_N ⟨N⟩) s.world).1 with
  | none =>
      have fails : readNFiles env N dirname s = .error (.errno .bubbled)
          (s.exchanged env (.READ_N ⟨N⟩)) := by
        simp only [readNFiles, bind_run, sendAndDestroyRequest, received]
      exact ⟨fun _ => nofun, fun _ => ⟨_, _, fails⟩⟩
  | some response =>
      cases response with
      | OK_FILE_LIST payload =>
          obtain ⟨step, s', visited, ends⟩ := readNFiles_ends N dirname received
          simp only [Option.some.injEq, Response.OK_FILE_LIST.injEq, forall_eq', visited,
            Outcome.ok.injEq, and_imp]
          cases step with
          | none => exact ⟨fun _ => nofun, fun _ => ends⟩
          | some step =>
              cases step with
              | opening | saving =>
                  refine ⟨fun _ step s'' same _ => ?_, fun _ => ends⟩
                  cases same
                  exact ⟨nofun, nofun⟩
              | reading | closing =>
                  obtain ⟨other, s'', ends⟩ := ends
                  constructor
                  · rintro ⟨code, s₁, fails⟩
                    rw [ends] at fails
                    cases fails
                  · intro readable
                    have := readable _ s' rfl rfl
                    simp at this
      | OK =>
          refine ⟨fun _ => nofun, fun _ => ⟨{ s.exchanged env (.READ_N ⟨N⟩) with
            openWithCreateLockFlags := 0 }, ?_⟩⟩
          simp only [readNFiles, bind_run, sendAndDestroyRequest, received]
          rfl
      | ERROR payload =>
          refine ⟨fun _ => nofun, fun _ => ⟨if payload.number = -1 then .errno .bubbled else
            .received payload.number, s.exchanged env (.READ_N ⟨N⟩), ?_⟩⟩
          simp only [readNFiles, bind_run, sendAndDestroyRequest, received]
          rfl
      | OK_FILE payload | OK_FD payload =>
          refine ⟨fun _ => nofun, fun _ => ⟨.errno .EBADMSG, s.exchanged env (.READ_N ⟨N⟩), ?_⟩⟩
          simp only [readNFiles, bind_run, sendAndDestroyRequest, received]
          rfl

/-- A server that lists one file, opens it and then refuses every read. -/
def unreadable : Environment Unit where
  exchange request _ := match request with
    | .READ_N _ => (some (.OK_FILE_LIST ⟨1, [⟨some (.upToNul [102]), 0, none⟩]⟩), ())
    | .OPEN _ => (some (.OK_FD ⟨3⟩), ())
    | .READ _ => (some (.ERROR ⟨13⟩), ())
    | _ => (some .OK, ())
  fileToPointer _ _ := none
  save _ _ _ _ := (true, ())

/-- The file that could not be read is counted as read. -/
theorem unread_counted :
    (readNFiles unreadable 0 none (.init ())).value? = some 1 ∧
      ¬ ∀ (env : Environment Unit) (N : Int) (dirname : Option CString) (s : Client Unit),
        Reports env N dirname s := by
  have one : (readNFiles unreadable 0 none (.init ())).value? = some 1 := by decide +kernel
  refine ⟨one, fun claimed => ?_⟩
  have reports : ∃ code s', readNFiles unreadable 0 none (.init ()) = .error code s' :=
    claimed unreadable 0 none (.init ())
  obtain ⟨code, s', fails⟩ := reports
  rw [fails] at one
  cases one

end Client

end FileStorage
