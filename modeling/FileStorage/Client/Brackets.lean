import FileStorage.Client.Agreement
import FileStorage.Client.CommandLine

/-! # What holds between two commands

Every command opens a file, works on it and closes it, whichever of its steps fails. So what
an open and a close carry from one side to the other, and what no other call disturbs,
holds again whenever a command has ended.
-/

namespace FileStorage

open Program

namespace Client

variable {σ : Type} {env : Environment σ} {request : Request} {I : Client σ → Prop}

/-! ## Rules for the calls -/

theorem keeps_descriptor (pathname : Option CString) :
    Keeps I (getDescriptor pathname : Api σ Int) :=
  .bind (.orFail _ _) fun _ => .bind .get fun _ => .orFail _ _

theorem plainCall_keeps (sends : Keeps I (sendAndDestroyRequest env request))
    (resets : Keeps I (resetFlags : Api σ Unit)) : Keeps I (plainCall env request) := by
  refine .bind sends fun response => ?_
  cases response with
  | OK => exact resets
  | _ => exact .throw _

theorem saveFile_keeps (save : ∀ s filename dirname buf, I s →
      I { s with world := (env.save filename dirname buf s.world).2 })
    (filename dirname : Option CString) (buf : Option (List UInt8)) :
    Keeps I (saveFile env filename dirname buf) := by
  intro s holds
  unfold saveFile
  cases dirname with
  | none => exact holds
  | some dirname =>
      simp only []
      split <;> exact save s _ _ _ holds

theorem saveFiles_keeps
    (saves : ∀ filename dirname buf, Keeps I (saveFile env filename dirname buf))
    (dirname : Option CString) (files : List MessageSnb) :
    Keeps I (saveFiles env dirname files) := by
  induction files with
  | nil => exact .pure _
  | cons file rest ih => exact .bind (saves _ _ _) fun _ => ih

/-- What happens between an open and a close may fail, the file is closed all the same. -/
theorem keeps_between {J K : Client σ → Prop} {α β : Type} {pathname : CString} {flags : Int}
    {inner : Api σ α} {after : α → Except ApiError Unit → Api σ β}
    (opens : ∀ s, I s → (openFile env (some pathname) flags s).Post (fun _ => J) (fun _ => I)
      (fun _ => True))
    (settles : ∀ s, J s → (inner s).Post (fun _ => K) (fun _ _ => False) (fun _ => True))
    (closes : ∀ s, K s → (closeFile env (some pathname) s).Post (fun _ => I) (fun _ => I)
      (fun _ => True))
    (kept : ∀ a result, Keeps I (after a result)) :
    Keeps I (do
      openFile env (some pathname) flags
      let a ← inner
      let result ← attempt (closeFile env (some pathname))
      after a result) := by
  intro s holds
  simp only [post_bind, post_attempt]
  refine (opens s holds).mono (fun _ s₁ opened => ?_) (fun _ _ holds => holds) (fun _ _ => trivial)
  refine (settles s₁ opened).mono (fun a s₂ opened => ?_) (fun _ _ never => never.elim)
    (fun _ _ => trivial)
  exact (closes s₂ opened).mono (fun _ s₃ holds => kept a _ s₃ holds)
    (fun _ s₃ holds => kept a _ s₃ holds) (fun _ _ => trivial)

def Reading (env : Environment σ) (I : Client σ → Prop) : Prop :=
  ∀ {β : Type} (pathname : CString)
    (after : Except ApiError (Option (List UInt8) × Nat) → Except ApiError Unit → Api σ β),
    (∀ read result, Keeps I (after read result)) → Keeps I (do
      openFile env (some pathname) 0
      let read ← attempt (readFile env (some pathname))
      let result ← attempt (closeFile env (some pathname))
      after read result)

/-- The files that the server has sent are opened, read and closed in turn. A file without
    a name is not asked for. -/
theorem keeps_readFiles (reading : Reading env I)
    (saves : ∀ filename dirname buf, Keeps I (saveFile env filename dirname buf)) (N : Int)
    (dirname : Option CString) (files : List MessageSnb) (count : Nat) :
    Keeps I (readFiles env N dirname files count) := by
  induction files generalizing count with
  | nil => exact .pure _
  | cons file rest ih =>
      cases named : file.string with
      | none =>
          intro s holds
          rw [readFiles, named]
          exact holds
      | some pathname =>
          rw [readFiles, named]
          refine reading pathname _ fun read result => ?_
          cases read with
          | error code => exact .pure _
          | ok a =>
              cases result with
              | error code => exact .pure _
              | ok _ => exact .bind (saves _ _ _) fun _ => .ite (.pure _) (ih (count + 1))

theorem keeps_readNFiles {N : Int} (sends : Keeps I (sendAndDestroyRequest env (.READ_N ⟨N⟩)))
    (resets : Keeps I (resetFlags : Api σ Unit)) (reading : Reading env I)
    (saves : ∀ filename dirname buf, Keeps I (saveFile env filename dirname buf))
    (dirname : Option CString) : Keeps I (readNFiles env N dirname) := by
  refine .bind sends fun response => ?_
  cases response with
  | OK => exact .bind resets fun _ => .pure _
  | OK_FILE_LIST payload =>
      exact .bind (keeps_readFiles reading saves _ _ _ _) fun _ => .bind resets fun _ => .pure _
  | _ => exact .throw _

/-! ## Calls that neither open nor close -/

/-- What the calls other than open and close preserve. -/
structure Undisturbed (env : Environment σ) (I : Client σ → Prop) : Prop where
  exchanged : ∀ s request, Steady request → I s → I (s.exchanged env request)
  flags : ∀ s, I s → I { s with openWithCreateLockFlags := 0 }
  save : ∀ s filename dirname buf, I s →
    I { s with world := (env.save filename dirname buf s.world).2 }

theorem Undisturbed.send (undisturbed : Undisturbed env I) (steady : Steady request) :
    Keeps I (sendAndDestroyRequest env request) :=
  keeps_send fun s holds => undisturbed.exchanged s request steady holds

theorem Undisturbed.resetFlags (undisturbed : Undisturbed env I) : Keeps I (resetFlags : Api σ Unit) :=
  .modify undisturbed.flags

theorem Undisturbed.plainCall (undisturbed : Undisturbed env I) (steady : Steady request) :
    Keeps I (plainCall env request) :=
  plainCall_keeps (undisturbed.send steady) undisturbed.resetFlags

theorem Undisturbed.readFile (undisturbed : Undisturbed env I) (pathname : Option CString) :
    Keeps I (readFile env pathname) := by
  refine .bind (keeps_descriptor pathname) fun fd => ?_
  refine .bind (undisturbed.send ⟨(fun is => by cases is), fun is => by cases is⟩) fun response => ?_
  cases response with
  | OK_FILE payload => exact .bind undisturbed.resetFlags fun _ => .pure _
  | _ => exact .throw _

theorem Undisturbed.saveFile (undisturbed : Undisturbed env I) (filename dirname : Option CString)
    (buf : Option (List UInt8)) : Keeps I (saveFile env filename dirname buf) :=
  saveFile_keeps undisturbed.save filename dirname buf

theorem Undisturbed.writeFile (undisturbed : Undisturbed env I) (pathname dirname : Option CString) :
    Keeps I (writeFile env pathname dirname) := by
  refine .bind .get fun s => .bind (.failIf _ _) fun _ => .bind (.orFail _ _) fun path => ?_
  refine .bind .get fun s => .bind (.orFail _ _) fun file => .bind (keeps_descriptor _) fun fd => ?_
  refine .bind (undisturbed.send ⟨(fun is => by cases is), fun is => by cases is⟩) fun response => ?_
  cases response with
  | OK => exact undisturbed.resetFlags
  | OK_FILE_LIST payload =>
      exact .bind (saveFiles_keeps undisturbed.saveFile _ _) fun _ => undisturbed.resetFlags
  | _ => exact .throw _

theorem Undisturbed.unlockFile (undisturbed : Undisturbed env I) (pathname : Option CString) :
    Keeps I (unlockFile env pathname) :=
  .bind (keeps_descriptor pathname) fun _ =>
    undisturbed.plainCall ⟨(fun is => by cases is), fun is => by cases is⟩

theorem Undisturbed.lockFile (undisturbed : Undisturbed env I) (pathname : Option CString) :
    Keeps I (lockFile env pathname) :=
  .bind (keeps_descriptor pathname) fun _ =>
    undisturbed.plainCall ⟨(fun is => by cases is), fun is => by cases is⟩

theorem Undisturbed.removeFile (undisturbed : Undisturbed env I) (pathname : Option CString) :
    Keeps I (removeFile env pathname) :=
  .bind (.orFail _ _) fun _ => undisturbed.plainCall ⟨(fun is => by cases is), fun is => by cases is⟩

/-! ## The commands -/

theorem keeps_reportError {I : Client σ → Prop} {α : Type} (result : Except ApiError α) :
    Keeps I (reportError result : Api σ α) := by
  cases result with
  | ok a => exact .pure a
  | error code => exact .throw code

theorem keeps_reportFirst {I : Client σ → Prop} (results : List (Except ApiError Unit)) :
    Keeps I (reportFirst results : Api σ Unit) := by
  induction results with
  | nil => exact .pure _
  | cons result results ih => exact .bind (keeps_reportError result) fun _ => ih

theorem settles_attemptAll {I : Client σ → Prop} {steps : List (Api σ Unit)}
    (each : ∀ step ∈ steps, Keeps I step) : Settles I (attemptAll steps) := by
  induction steps with
  | nil => exact .pure _
  | cons step steps ih =>
      obtain ⟨first, others⟩ := List.forall_mem_cons.mp each
      exact .bind (.attempt first) fun _ => .bind (ih others) fun _ => .pure _

theorem keeps_walk {I : Client σ → Prop} {callback : CString → Api σ Unit}
    (each : ∀ filename, Keeps I (callback filename)) (queue : List CString) :
    Keeps I (walk callback queue) := by
  induction queue with
  | nil => exact .pure _
  | cons filename queue ih => exact .bind (each filename) fun _ => ih

variable (m : Machine σ)

theorem keeps_parseTokens {I : Client σ → Prop} (bound : Nat) (text : List UInt8)
    (queue : List CString) : Keeps I (parseTokens m bound text queue) := by
  induction bound generalizing text queue with
  | zero => exact .pure _
  | succ bound ih =>
      unfold parseTokens
      cases (Txtenv.strtok 44 text).1 with
      | none => exact .pure _
      | some token => exact .bind .get fun _ => .bind (.orFail _ _) fun _ => ih _ _

theorem keeps_filenameArgWalk {I : Client σ → Prop} {callback : CString → Api σ Unit}
    (each : ∀ filename, Keeps I (callback filename)) (arg : List UInt8) :
    Keeps I (filenameArgWalk m arg callback) :=
  .bind (keeps_parseTokens m _ _ _) fun queue => keeps_walk each queue

theorem keeps_optRtsScanDir {I : Client σ → Prop} (dirname : CString) (n : Int) :
    Keeps I (optRtsScanDir m dirname n) :=
  .bind (.failIf _ _) fun _ => .bind .get fun _ => .bind (.orFail _ _) fun _ =>
    .bind (.orFail _ _) fun _ => .pure _

theorem keeps_argToInt {I : Client σ → Prop} (text : List UInt8) :
    Keeps I (argToInt text : Api σ Int) := by
  unfold argToInt
  cases toInt text with
  | ok n => exact .pure n
  | error code => exact .throw _

theorem keeps_argWParseArg {I : Client σ → Prop} (arg : List UInt8) :
    Keeps I (argWParseArg arg : Api σ (CString × Int)) := by
  unfold argWParseArg
  cases (Txtenv.strtok 44 arg).1 with
  | none => exact .fault _
  | some dirname =>
      cases (Txtenv.strtok 44 (Txtenv.strtok 44 arg).2).1 with
      | none => exact .pure _
      | some stringN => exact .bind (keeps_argToInt stringN) fun _ => .pure _

/-- What holds between two commands, and while a file is open. -/
structure Bracketed (env : Environment σ) (I : Client σ → Prop) (J : CString → Client σ → Prop) :
    Prop where
  outside : Undisturbed env I
  inside : ∀ pathname, Undisturbed env (J pathname)
  opens : ∀ s pathname flags, I s → (openFile env (some pathname) flags s).Post
    (fun _ => J pathname) (fun _ => I) (fun _ => True)
  closes : ∀ s pathname, J pathname s → (closeFile env (some pathname) s).Post
    (fun _ => I) (fun _ => I) (fun _ => True)

variable {I : Client σ → Prop} {J : CString → Client σ → Prop}

theorem Bracketed.between (bracketed : Bracketed env I J) {α β : Type} {pathname : CString}
    {flags : Int} {inner : Api σ α} {after : α → Except ApiError Unit → Api σ β}
    (settles : Settles (J pathname) inner) (kept : ∀ a result, Keeps I (after a result)) :
    Keeps I (do
      openFile env (some pathname) flags
      let a ← inner
      let result ← attempt (closeFile env (some pathname))
      after a result) :=
  keeps_between (fun s holds => bracketed.opens s pathname flags holds) settles
    (fun s opened => bracketed.closes s pathname opened) kept

theorem Bracketed.reading (bracketed : Bracketed env I J) : Reading env I :=
  fun pathname _ kept => bracketed.between (.attempt ((bracketed.inside pathname).readFile _)) kept

theorem Bracketed.onFile {m : Machine σ} (bracketed : Bracketed m.toEnvironment I J)
    {filename : CString} {flags : Nat} {steps : List (Api σ Unit)}
    (each : ∀ step ∈ steps, Keeps (J filename) step) :
    Keeps I (onFile m filename flags steps) :=
  bracketed.between (settles_attemptAll each) fun results resClose =>
    .bind (keeps_reportFirst results) fun _ => keeps_reportError resClose

theorem Bracketed.onFile_single {m : Machine σ} (bracketed : Bracketed m.toEnvironment I J)
    {filename : CString} {flags : Nat} {step : Api σ Unit} (kept : Keeps (J filename) step) :
    Keeps I (Client.onFile m filename flags [step]) := by
  refine bracketed.onFile fun other member => ?_
  obtain rfl := List.mem_singleton.mp member
  exact kept

/-- The calls of which the commands are made keep the invariant. -/
structure Guarded (m : Machine σ) (I : Client σ → Prop) : Prop where
  sends : ∀ dirname filename, Keeps I (optArgSendFile m dirname filename)
  removes : ∀ filename, Keeps I (optArgRemoveFile m filename)
  locks : ∀ filename, Keeps I (optArgLockFile m filename)
  unlocks : ∀ filename, Keeps I (optArgUnlockFile m filename)
  reads : ∀ dirname filename, Keeps I (optArgReadFile m dirname filename)
  readsN : ∀ N dirname, Keeps I (readNFiles m.toEnvironment N dirname)

theorem keeps_optArgReadFile {m : Machine σ} (reading : Reading m.toEnvironment I)
    (saves : ∀ filename dirname buf, Keeps I (saveFile m.toEnvironment filename dirname buf))
    (storeDirname : Option CString) (filename : CString) :
    Keeps I (optArgReadFile m storeDirname filename) :=
  reading filename _ fun resRead resClose => .bind (keeps_reportError resRead) fun _ =>
    .bind (saves _ _ _) fun _ => keeps_reportError resClose

theorem Bracketed.guarded {m : Machine σ} (bracketed : Bracketed m.toEnvironment I J) :
    Guarded m I where
  sends := by
    refine fun dirname filename => bracketed.onFile fun step member => ?_
    obtain rfl | rfl := List.mem_pair.mp member
    · exact (bracketed.inside filename).writeFile _ _
    · exact (bracketed.inside filename).unlockFile _
  removes := fun filename => bracketed.onFile_single ((bracketed.inside filename).removeFile _)
  locks := fun filename => bracketed.onFile_single ((bracketed.inside filename).lockFile _)
  unlocks := fun filename => bracketed.onFile_single ((bracketed.inside filename).unlockFile _)
  reads := keeps_optArgReadFile bracketed.reading bracketed.outside.saveFile
  readsN := fun _ dirname =>
    keeps_readNFiles (bracketed.outside.send ⟨(fun is => by cases is), fun is => by cases is⟩)
      bracketed.outside.resetFlags bracketed.reading bracketed.outside.saveFile dirname

end Client

/-! ## The program -/

namespace CommandLine

open Client

variable {σ : Type} {m : Machine σ} {I : Client σ → Prop}

theorem keeps_turn {p : Api σ Unit} (kept : Keeps I p) : Keeps I (turn p) := by
  refine .bind (.attempt kept) fun result => ?_
  cases result <;> exact .pure _

theorem keeps_execute (guarded : Guarded m I) (command : OptHandlerEl)
    (DArg dArg : Option CString) : Keeps I (execute m command DArg dArg) := by
  unfold execute
  refine .ite ?_ (.ite ?_ (.ite ?_ (.ite ?_ (.ite ?_ (.ite ?_ (.ite ?_ (.ite ?_ (.pure _))))))))
  · cases toInt command.arg <;> exact .pure _
  · refine keeps_turn (.bind (keeps_argWParseArg _) fun arg => ?_)
    exact .bind (keeps_optRtsScanDir m _ _) (keeps_walk (guarded.sends DArg))
  · exact keeps_turn (keeps_filenameArgWalk m (guarded.sends DArg) _)
  · exact keeps_turn (keeps_filenameArgWalk m guarded.removes _)
  · exact keeps_turn (keeps_filenameArgWalk m guarded.locks _)
  · exact keeps_turn (keeps_filenameArgWalk m (guarded.reads dArg) _)
  · exact keeps_turn (.bind (keeps_argToInt _) fun n =>
      .bind (guarded.readsN n dArg) fun _ => .pure _)
  · exact keeps_turn (keeps_filenameArgWalk m guarded.unlocks _)

theorem keeps_executeAssigned (guarded : Guarded m I)
    (command nextCommand : Option OptHandlerEl) :
    Keeps I (executeAssigned m command nextCommand) := by
  cases command with
  | none => exact .pure _
  | some command => exact keeps_execute guarded command _ _

theorem keeps_handleCommands (guarded : Guarded m I) (command : Option OptHandlerEl)
    (queue : List OptHandlerEl) : Keeps I (handleCommands m command queue) := by
  induction queue generalizing command with
  | nil => exact keeps_executeAssigned guarded command none
  | cons nextCommand queue ih =>
      refine .bind (keeps_executeAssigned guarded command _) fun turn => ?_
      cases turn with
      | goesOn => exact ih _
      | _ => exact .pure _

theorem keeps_onClient {α : Type} {p : Api σ α} (kept : Keeps I p) :
    Keeps (fun s => I s.client) (onClient p) := by
  intro s holds
  rw [onClient, post_zoom]
  exact kept s.client holds

theorem keeps_handle (guarded : Guarded m I)
    (exchanges : ∀ s t : Client σ, t.exchanges = s.exchanges → I s → I t) (h : OptHandler) :
    Keeps (fun s => I s.client) (handle m h) := by
  have starts : Keeps (fun s => I s.client) (argfStart m (h.socketFilename.map .upToNul)) :=
    .bind (.orFail _ _) fun _ => .bind .get fun _ => .bind (.failIf _ _) fun _ =>
      .bind (.modify fun s holds => exchanges s.client _ rfl holds) fun _ =>
        .bind (.failIf _ _) fun _ => .modify fun s holds => exchanges s.client _ rfl holds
  have ends : Keeps (fun s => I s.client) (argfEnd m (h.socketFilename.map .upToNul)) :=
    .bind .get fun _ => .bind (.failIf _ _) fun _ =>
      .bind (.modify fun s holds => exchanges s.client _ rfl holds) fun _ =>
        .bind (.failIf _ _) fun _ => .modify fun s holds => exchanges s.client _ rfl holds
  refine .bind starts fun _ => ?_
  refine .bind (keeps_onClient (keeps_handleCommands guarded _ _)) fun turn => ?_
  cases turn with
  | goesOn => exact ends
  | breaks error => exact .bind ends fun _ => .throw _
  | returns error => exact .throw _

end CommandLine

end FileStorage
