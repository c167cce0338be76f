import FileStorage.Lib.Program
import FileStorage.Lib.Trace
import FileStorage.DataStructures.TernarySearchTree
import FileStorage.Server.Requests
import FileStorage.Socket.Response

/-! # The client API

`gnl_fss_api.c`, on a connection that is open. The server and the disk of the
client are an environment with a state of its own. A call that returns -1 is an
error of the program; the state keeps what has been exchanged with the server and
which files have been opened and closed.
-/

namespace FileStorage

open Program

/-- What a client meets: the server, which may give no response that can be read,
    `gnl_file_to_pointer` and `gnl_file_saver_save`. -/
structure Environment (σ : Type) where
  exchange : Request → σ → Option Response × σ
  fileToPointer : CString → σ → Option (List UInt8)
  save : Option CString → CString → Option (List UInt8) → σ → Bool × σ

inductive ApiError where
  | errno (code : Errno)
  | received (number : Int)
  deriving DecidableEq

/-- `gnl_fss_api_open_file` or `gnl_fss_api_close_file` has returned 0. -/
inductive Success where
  | opened (pathname : Filename)
  | closed (pathname : Filename)
  deriving DecidableEq

structure Client (σ : Type) where
  openWithCreateLockFlags : Nat
  fileDescriptorTable : TernarySearchTree Int
  world : σ
  exchanges : List (Request × Option Response)
  successes : List Success

abbrev Api (σ : Type) := Program ApiError Fault (Client σ)

def O_CREATE : Nat := 1

def O_LOCK : Nat := 2

namespace Client

variable {σ : Type} (env : Environment σ)

def init (world : σ) : Client σ where
  openWithCreateLockFlags := 0
  fileDescriptorTable := .nil
  world
  exchanges := []
  successes := []

def exchanged (s : Client σ) (request : Request) : Client σ := { s with
  world := (env.exchange request s.world).2
  exchanges := s.exchanges ++ [(request, (env.exchange request s.world).1)] }

def sendAndDestroyRequest (request : Request) : Api σ Response := fun s =>
  match (env.exchange request s.world).1 with
  | some response => .ok response (s.exchanged env request)
  | none => .error (.errno .bubbled) (s.exchanged env request)

def errorResponse {α : Type} (payload : MessageN) : Api σ α :=
  throw (if payload.number = -1 then .errno .bubbled else .received payload.number)

/-- The descriptor bound to a pathname. -/
def getDescriptor (pathname : Option CString) : Api σ Int := do
  let _ ← orFail pathname (.errno .EINVAL)
  let s ← get
  orFail (s.fileDescriptorTable.get (Filename.ofString pathname)) (.errno .EINVAL)

/-- What the calls do with the check of `writeFile` when they succeed. -/
def resetFlags : Api σ Unit := modify fun s => { s with openWithCreateLockFlags := 0 }

def record (success : Success) : Api σ Unit :=
  modify fun s => { s with successes := s.successes ++ [success] }

def createLockBits (flags : Int) : Nat := toUnsigned32 flags &&& (O_CREATE ||| O_LOCK)

/-- `gnl_fss_api_open_file`. The check of `writeFile` is set before the descriptor is
    stored. -/
def openFile (pathname : Option CString) (flags : Int) : Api σ Unit := do
  let _ ← orFail pathname (.errno .EINVAL)
  match ← sendAndDestroyRequest env (.OPEN ⟨pathname, flags⟩) with
  | .ERROR payload => errorResponse payload
  | .OK_FD payload =>
      modify fun s => { s with openWithCreateLockFlags := createLockBits flags }
      failIf (payload.number = -1) (.errno .bubbled)
      let s ← get
      let table ← orFail
        (s.fileDescriptorTable.put (Filename.ofString pathname) payload.number) (.errno .EINVAL)
      modify fun s => { s with fileDescriptorTable := table }
      record (.opened (Filename.ofString pathname))
  | _ => throw (.errno .EBADMSG)

/-- `gnl_fss_api_read_file`: the bytes and their number. -/
def readFile (pathname : Option CString) : Api σ (Option (List UInt8) × Nat) := do
  let fd ← getDescriptor pathname
  match ← sendAndDestroyRequest env (.READ ⟨fd⟩) with
  | .ERROR payload => errorResponse payload
  | .OK_FILE payload =>
      resetFlags
      pure (payload.bytes, payload.count)
  | _ => throw (.errno .EBADMSG)

/-- The calls that expect nothing but an OK. -/
def plainCall (request : Request) : Api σ Unit := do
  match ← sendAndDestroyRequest env request with
  | .ERROR payload => errorResponse payload
  | .OK => resetFlags
  | _ => throw (.errno .EBADMSG)

def lockFile (pathname : Option CString) : Api σ Unit := do
  let fd ← getDescriptor pathname
  plainCall env (.LOCK ⟨fd⟩)

def unlockFile (pathname : Option CString) : Api σ Unit := do
  let fd ← getDescriptor pathname
  plainCall env (.UNLOCK ⟨fd⟩)

def removeFile (pathname : Option CString) : Api σ Unit := do
  let _ ← orFail pathname (.errno .EINVAL)
  plainCall env (.REMOVE ⟨pathname⟩)

def closeFile (pathname : Option CString) : Api σ Unit := do
  let fd ← getDescriptor pathname
  match ← sendAndDestroyRequest env (.CLOSE ⟨fd⟩) with
  | .ERROR payload => errorResponse payload
  | .OK =>
      let s ← get
      match s.fileDescriptorTable.remove (Filename.ofString pathname) with
      | none => fault .nullPointer
      | some table =>
          modify fun s => { s with fileDescriptorTable := table }
          record (.closed (Filename.ofString pathname))
          resetFlags
  | _ => throw (.errno .EBADMSG)

/-- `gnl_file_saver_save`, if there is a directory. -/
def saveFile (filename dirname : Option CString) (buf : Option (List UInt8)) : Api σ Unit :=
  match dirname with
  | none => pure ()
  | some dirname => fun s =>
      let (saved, world) := env.save filename dirname buf s.world
      if saved then .ok () { s with world } else .error (.errno .bubbled) { s with world }

/-- The loop of `gnl_fss_api_read_N_files`: the number of files. A file that cannot be
    read or closed ends the loop, but `res` is still 0 from its open. -/
def readFiles (N : Int) (dirname : Option CString) : List MessageSnb → Nat → Api σ Nat
  | [], count => pure count
  | file :: rest, count => do
      openFile env file.string 0
      let read ← attempt (readFile env file.string)
      let closed ← attempt (closeFile env file.string)
      match read, closed with
      | .ok (buf, _), .ok _ =>
          saveFile env file.string dirname buf
          if 0 < N ∧ (count + 1 : Nat) = N then pure (count + 1)
          else readFiles N dirname rest (count + 1)
      | _, _ => pure (count + 1)

def readNFiles (N : Int) (dirname : Option CString) : Api σ Nat := do
  match ← sendAndDestroyRequest env (.READ_N ⟨N⟩) with
  | .ERROR payload => errorResponse payload
  | .OK =>
      resetFlags
      pure 0
  | .OK_FILE_LIST payload =>
      let count ← readFiles env N dirname payload.queue 0
      resetFlags
      pure count
  | _ => throw (.errno .EBADMSG)

/-- The loop of `gnl_fss_api_append_to_file` over the files that had to make room. -/
def saveFiles (dirname : Option CString) : List MessageSnb → Api σ Unit
  | [] => pure ()
  | file :: rest => do
      saveFile env file.string dirname file.bytes
      saveFiles dirname rest

def appendToFile (pathname : Option CString) (buf : List UInt8) (dirname : Option CString) :
    Api σ Unit := do
  let fd ← getDescriptor pathname
  match ← sendAndDestroyRequest env (.WRITE ⟨fd, buf.length, some buf⟩) with
  | .ERROR payload => errorResponse payload
  | .OK => resetFlags
  | .OK_FILE_LIST payload =>
      saveFiles env dirname payload.queue
      resetFlags
  | _ => throw (.errno .EBADMSG)

def writeFile (pathname dirname : Option CString) : Api σ Unit := do
  let s ← get
  failIf (s.openWithCreateLockFlags = 0) (.errno .EPERM)
  let path ← orFail pathname (.errno .EINVAL)
  let s ← get
  let file ← orFail (env.fileToPointer path s.world) (.errno .bubbled)
  appendToFile env pathname file dirname

end Client

/-! ## The check of `writeFile` -/

namespace Client

variable {σ : Type} {env : Environment σ}

theorem post_send {Q : Response → Client σ → Prop} {E : ApiError → Client σ → Prop}
    {F : Fault → Prop} (request : Request) (s : Client σ) :
    ((sendAndDestroyRequest env request) s).Post Q E F ↔
      match (env.exchange request s.world).1 with
      | some response => Q response (s.exchanged env request)
      | none => E (.errno .bubbled) (s.exchanged env request) := by
  unfold sendAndDestroyRequest
  cases (env.exchange request s.world).1 <;> exact Iff.rfl

theorem keeps_send {I : Client σ → Prop} {request : Request}
    (kept : ∀ s, I s → I (s.exchanged env request)) :
    Keeps I (sendAndDestroyRequest env request) := by
  intro s holds
  rw [post_send]
  split <;> exact kept s holds

/-- The check has its value still, or it has been reset. -/
def Checks (bits : Nat) (s : Client σ) : Prop :=
  s.openWithCreateLockFlags = bits ∨ s.openWithCreateLockFlags = 0

theorem checks_send {bits : Nat} {request : Request} :
    Keeps (Checks bits) (sendAndDestroyRequest env request) :=
  keeps_send fun _ checks => checks

theorem checks_resetFlags {bits : Nat} : Keeps (Checks bits) (resetFlags : Api σ Unit) :=
  .modify fun _ _ => .inr rfl

theorem checks_record {bits : Nat} (success : Success) :
    Keeps (Checks bits) (record success : Api σ Unit) := .modify fun _ checks => checks

theorem checks_getDescriptor {bits : Nat} (pathname : Option CString) :
    Keeps (Checks bits) (getDescriptor pathname : Api σ Int) :=
  .bind (.orFail _ _) fun _ => .bind .get fun _ => .orFail _ _

theorem ensures_resetFlags :
    Ensures (fun s => s.openWithCreateLockFlags = 0) (resetFlags : Api σ Unit) :=
  .modify fun _ => rfl

/-- A program that keeps the check as it is or resets it, and resets it whenever it
    returns 0. -/
def Resets {α : Type} (p : Api σ α) : Prop :=
  (∀ bits, Keeps (Checks bits) p) ∧ Ensures (fun s => s.openWithCreateLockFlags = 0) p

theorem resets_readFile (pathname : Option CString) : Resets (readFile env pathname) := by
  constructor
  · intro bits
    refine .bind (checks_getDescriptor pathname) fun fd => .bind checks_send fun response => ?_
    cases response with
    | ERROR payload => exact .throw _
    | OK_FILE payload => exact .bind checks_resetFlags fun _ => .pure _
    | _ => exact .throw _
  · refine .bind fun fd => .bind fun response => ?_
    cases response with
    | ERROR payload => exact .throw _
    | OK_FILE payload => exact ensures_resetFlags.bind_pure _
    | _ => exact .throw _

theorem resets_plainCall (request : Request) : Resets (plainCall env request) := by
  constructor
  · intro bits
    refine .bind checks_send fun response => ?_
    cases response with
    | ERROR payload => exact .throw _
    | OK => exact checks_resetFlags
    | _ => exact .throw _
  · refine .bind fun response => ?_
    cases response with
    | ERROR payload => exact .throw _
    | OK => exact ensures_resetFlags
    | _ => exact .throw _

theorem Resets.after {α β : Type} {first : Api σ α} {next : α → Api σ β}
    (checks : ∀ bits, Keeps (Checks bits) first) (resets : ∀ a, Resets (next a)) :
    Resets (first >>= next) :=
  ⟨fun bits => .bind (checks bits) fun a => (resets a).1 bits, .bind fun a => (resets a).2⟩

theorem resets_closeFile (pathname : Option CString) : Resets (closeFile env pathname) := by
  constructor
  · intro bits
    refine .bind (checks_getDescriptor pathname) fun fd => .bind checks_send fun response => ?_
    cases response with
    | ERROR payload => exact .throw _
    | OK =>
        refine .bind .get fun s => ?_
        split
        · exact .fault _
        · exact .bind (.modify fun _ checks => checks) fun _ =>
            .bind (checks_record _) fun _ => checks_resetFlags
    | _ => exact .throw _
  · refine .bind fun fd => .bind fun response => ?_
    cases response with
    | ERROR payload => exact .throw _
    | OK =>
        refine .bind fun s => ?_
        split
        · exact .fault _
        · exact .bind fun _ => .bind fun _ => ensures_resetFlags
    | _ => exact .throw _

theorem checks_openFile (pathname : Option CString) {bits : Nat} :
    Keeps (Checks bits) (openFile env pathname 0) := by
  refine .bind (.orFail _ _) fun _ => .bind checks_send fun response => ?_
  cases response with
  | ERROR payload => exact .throw _
  | OK_FD payload =>
      have none_ : createLockBits 0 = 0 := by decide +kernel
      refine .bind (.modify fun _ _ => .inr none_) fun _ => .bind (.failIf _ _) fun _ => ?_
      exact .bind .get fun _ => .bind (.orFail _ _) fun _ =>
        .bind (.modify fun _ checks => checks) fun _ => checks_record _
  | _ => exact .throw _

theorem checks_saveFile (filename dirname : Option CString) (buf : Option (List UInt8))
    {bits : Nat} : Keeps (Checks bits) (saveFile env filename dirname buf) := by
  intro s checks
  unfold saveFile
  cases dirname with
  | none => exact checks
  | some dirname =>
      simp only []
      split <;> exact checks

theorem checks_readFiles (N : Int) (dirname : Option CString) (files : List MessageSnb)
    (count : Nat) {bits : Nat} : Keeps (Checks bits) (readFiles env N dirname files count) := by
  induction files generalizing count with
  | nil => exact .pure _
  | cons file rest ih =>
      refine .bind (checks_openFile file.string) fun _ => ?_
      refine .bind ((resets_readFile file.string).1 bits).attempt fun read => ?_
      refine .bind ((resets_closeFile file.string).1 bits).attempt fun closed => ?_
      split
      · exact .bind (checks_saveFile _ _ _) fun _ => .ite (.pure _) (ih _)
      · exact .pure _

theorem resets_readNFiles (N : Int) (dirname : Option CString) :
    Resets (readNFiles env N dirname) := by
  constructor
  · intro bits
    refine .bind checks_send fun response => ?_
    cases response with
    | ERROR payload => exact .throw _
    | OK => exact .bind checks_resetFlags fun _ => .pure _
    | OK_FILE_LIST payload =>
        exact .bind (checks_readFiles _ _ _ _) fun _ => .bind checks_resetFlags fun _ => .pure _
    | _ => exact .throw _
  · refine .bind fun response => ?_
    cases response with
    | ERROR payload => exact .throw _
    | OK => exact ensures_resetFlags.bind_pure _
    | OK_FILE_LIST payload => exact .bind fun _ => ensures_resetFlags.bind_pure _
    | _ => exact .throw _

theorem checks_saveFiles (dirname : Option CString) (files : List MessageSnb) {bits : Nat} :
    Keeps (Checks bits) (saveFiles env dirname files) := by
  induction files with
  | nil => exact .pure _
  | cons file rest ih => exact .bind (checks_saveFile _ _ _) fun _ => ih

theorem resets_appendToFile (pathname : Option CString) (buf : List UInt8)
    (dirname : Option CString) : Resets (appendToFile env pathname buf dirname) := by
  constructor
  · intro bits
    refine .bind (checks_getDescriptor pathname) fun fd => .bind checks_send fun response => ?_
    cases response with
    | ERROR payload => exact .throw _
    | OK => exact checks_resetFlags
    | OK_FILE_LIST payload => exact .bind (checks_saveFiles _ _) fun _ => checks_resetFlags
    | _ => exact .throw _
  · refine .bind fun fd => .bind fun response => ?_
    cases response with
    | ERROR payload => exact .throw _
    | OK => exact ensures_resetFlags
    | OK_FILE_LIST payload => exact .bind fun _ => ensures_resetFlags
    | _ => exact .throw _

theorem resets_writeFile (pathname dirname : Option CString) :
    Resets (writeFile env pathname dirname) := by
  refine .after (fun _ => .get) fun _ => .after (fun _ => .failIf _ _) fun _ => ?_
  refine .after (fun _ => .orFail _ _) fun _ => .after (fun _ => .get) fun _ => ?_
  exact .after (fun _ => .orFail _ _) fun file => resets_appendToFile pathname file dirname

end Client

/-! ## Runs -/

inductive ApiCall where
  | openFile (pathname : Option CString) (flags : Int)
  | readFile (pathname : Option CString)
  | readNFiles (N : Int) (dirname : Option CString)
  | writeFile (pathname dirname : Option CString)
  | appendToFile (pathname : Option CString) (buf : List UInt8) (dirname : Option CString)
  | lockFile (pathname : Option CString)
  | unlockFile (pathname : Option CString)
  | closeFile (pathname : Option CString)
  | removeFile (pathname : Option CString)
  deriving DecidableEq

def Client.discard {σ α : Type} (p : Api σ α) : Api σ Unit := p >>= fun _ => pure ()

def ApiCall.perform {σ : Type} (env : Environment σ) : ApiCall → Api σ Unit
  | .openFile pathname flags => Client.openFile env pathname flags
  | .readFile pathname => Client.discard (Client.readFile env pathname)
  | .readNFiles N dirname => Client.discard (Client.readNFiles env N dirname)
  | .writeFile pathname dirname => Client.writeFile env pathname dirname
  | .appendToFile pathname buf dirname => Client.appendToFile env pathname buf dirname
  | .lockFile pathname => Client.lockFile env pathname
  | .unlockFile pathname => Client.unlockFile env pathname
  | .closeFile pathname => Client.closeFile env pathname
  | .removeFile pathname => Client.removeFile env pathname

/-- A client with the last call that has succeeded. -/
structure ApiRun (σ : Type) where
  client : Client σ
  last : Option ApiCall

/-- The client goes on after a call, whether it has succeeded or failed. -/
def apiSystem {σ : Type} (env : Environment σ) : ActionSystem (ApiRun σ) ApiCall where
  Enabled s call := (call.perform env s.client).state?.isSome
  apply s call :=
    match call.perform env s.client with
    | .ok _ client => { client, last := some call }
    | .error _ client => { s with client }
    | .fault _ => s

instance {σ : Type} (env : Environment σ) (s : ApiRun σ) (call : ApiCall) :
    Decidable ((apiSystem env).Enabled s call) :=
  inferInstanceAs (Decidable (_ = true))

namespace ApiRun

variable {σ : Type} {env : Environment σ} {s : ApiRun σ}

def init (world : σ) : ApiRun σ := { client := .init world, last := none }

/-- If an open that asks for a flag is answered with a descriptor, it can be stored: the
    pathname is not empty, and the descriptor is not -1. -/
def Storable (env : Environment σ) (s : ApiRun σ) : ApiCall → Prop
  | .openFile pathname flags => pathname.isSome → Client.createLockBits flags ≠ 0 →
      ∀ payload, (env.exchange (.OPEN ⟨pathname, flags⟩) s.client.world).1 =
        some (.OK_FD payload) → Filename.ofString pathname ≠ [] ∧ payload.number ≠ -1
  | _ => True

/-- The check is set only after an open that has succeeded. -/
def Tracks (s : ApiRun σ) : Prop :=
  s.client.openWithCreateLockFlags ≠ 0 → ∃ pathname flags,
    s.last = some (.openFile pathname flags) ∧
      Client.createLockBits flags = s.client.openWithCreateLockFlags

theorem openFile_sets {client : Client σ} {pathname : Option CString} {flags : Int}
    (storable : pathname.isSome → Client.createLockBits flags ≠ 0 → ∀ payload,
      (env.exchange (.OPEN ⟨pathname, flags⟩) client.world).1 = some (.OK_FD payload) →
        Filename.ofString pathname ≠ [] ∧ payload.number ≠ -1) :
    (Client.openFile env pathname flags client).Post
      (fun _ client' => client'.openWithCreateLockFlags = Client.createLockBits flags)
      (fun _ client' => Client.Checks client.openWithCreateLockFlags client')
      (fun _ => True) := by
  have kept : Client.Checks client.openWithCreateLockFlags client := .inl rfl
  simp only [Client.openFile, post_bind, post_orFail, Client.post_send]
  refine ⟨fun _ => kept, fun path is => ?_⟩
  have storable := storable (Option.isSome_of_eq_some is)
  cases answer : (env.exchange (.OPEN ⟨pathname, flags⟩) client.world).1 with
  | none => exact kept
  | some response =>
      cases response with
      | OK_FD payload =>
          simp only [post_bind, post_modify, post_failIf, post_get, post_orFail, Client.record]
          refine ⟨fun wrong => .inr ?_, fun _ => ⟨fun empty => .inr ?_, fun table _ => trivial⟩⟩
          · by_contra set
            exact (storable set payload answer).2 wrong
          · by_contra set
            cases key : Filename.ofString pathname with
            | nil => exact (storable set payload answer).1 key
            | cons first rest =>
                rw [key] at empty
                cases empty
      | _ => exact kept

/-- The other calls keep the check as it is or reset it, and reset it when they
    succeed. -/
theorem perform_resets {call : ApiCall} (other : ∀ pathname flags, call ≠ .openFile pathname flags) :
    Client.Resets (call.perform env) := by
  have discards : ∀ {α : Type} {p : Api σ α}, Client.Resets p → Client.Resets (Client.discard p) :=
    fun resets => ⟨fun bits => .bind (resets.1 bits) fun _ => .pure _, resets.2.bind_pure _⟩
  cases call with
  | openFile pathname flags => exact absurd rfl (other pathname flags)
  | readFile pathname => exact discards (Client.resets_readFile pathname)
  | readNFiles N dirname => exact discards (Client.resets_readNFiles N dirname)
  | writeFile pathname dirname => exact Client.resets_writeFile pathname dirname
  | appendToFile pathname buf dirname => exact Client.resets_appendToFile pathname buf dirname
  | lockFile pathname | unlockFile pathname =>
      exact .after (fun _ => Client.checks_getDescriptor pathname) fun _ => Client.resets_plainCall _
  | closeFile pathname => exact Client.resets_closeFile pathname
  | removeFile pathname => exact .after (fun _ => .orFail _ _) fun _ => Client.resets_plainCall _

theorem Tracks.step {call : ApiCall} (tracks : Tracks s)
    (enabled : (apiSystem env).Enabled s call) (storable : Storable env s call) :
    Tracks ((apiSystem env).apply s call) := by
  have failed : ∀ client' : Client σ, Client.Checks s.client.openWithCreateLockFlags client' →
      Tracks { s with client := client' } := by
    rintro client' (same | reset) set
    · rw [same] at set ⊢
      exact tracks set
    · exact absurd reset set
  have sets : (call.perform env s.client).Post
      (fun _ client' => Tracks { client := client', last := some call })
      (fun _ client' => Client.Checks s.client.openWithCreateLockFlags client')
      (fun _ => True) := by
    by_cases opens : ∃ pathname flags, call = .openFile pathname flags
    · obtain ⟨pathname, flags, rfl⟩ := opens
      refine (openFile_sets storable).mono ?_ (fun _ _ checks => checks) (fun _ _ => trivial)
      exact fun _ client' bits _ => ⟨pathname, flags, rfl, bits.symm⟩
    · have resets : Client.Resets (call.perform env) :=
        perform_resets fun pathname flags is => opens ⟨pathname, flags, is⟩
      obtain ⟨checks, ensures⟩ := resets
      refine ((checks _ s.client (.inl rfl)).and (ensures s.client)).mono ?_
        (fun _ _ both => both.1) (fun _ _ => trivial)
      exact fun _ client' both set => absurd both.2 set
  simp only [apiSystem]
  cases outcome : call.perform env s.client with
  | ok value client' =>
      rw [outcome] at sets
      exact sets
  | error code client' =>
      rw [outcome] at sets
      exact failed client' sets
  | fault why =>
      simp only [apiSystem, outcome] at enabled
      cases enabled

/-! ## What `writeFile` sends -/

def SendsData (env : Environment σ) (s : ApiRun σ) (pathname dirname : Option CString) : Prop :=
  ∃ client', (Client.writeFile env pathname dirname s.client).state? = some client' ∧
    ∃ exchange ∈ client'.exchanges.drop s.client.exchanges.length, exchange.1.type = .WRITE

/-- The pathname is that of a file on the disk and in the descriptor table. -/
def ready (env : Environment σ) (s : ApiRun σ) (pathname : Option CString) : Bool :=
  (pathname.bind fun path => env.fileToPointer path s.client.world).isSome &&
    (s.client.fileDescriptorTable.get (Filename.ofString pathname)).isSome

/-- The exchange in which the data is sent. -/
def DataSent (s s' : Client σ) : Prop :=
  ∃ payload response, s'.exchanges = s.exchanges ++ [(.WRITE payload, response)]

theorem saveFiles_sends {client client' : Client σ} (sent : DataSent client client')
    (dirname : Option CString) (files : List MessageSnb) :
    (Client.saveFiles env dirname files client').Post (fun _ => DataSent client)
      (fun _ => DataSent client) (fun _ => False) := by
  induction files generalizing client' with
  | nil => exact sent
  | cons file rest ih =>
      simp only [Client.saveFiles, post_bind]
      unfold Client.saveFile
      cases dirname with
      | none => exact ih sent
      | some dirname =>
          simp only []
          split
          · exact ih sent
          · exact sent

theorem appendToFile_sends {client : Client σ} {pathname : Option CString} {path : CString}
    (named : pathname = some path) (buf : List UInt8) (dirname : Option CString) :
    (Client.appendToFile env pathname buf dirname client).Post
      (fun _ client' => (client.fileDescriptorTable.get (Filename.ofString pathname)).isSome ∧
        DataSent client client')
      (fun _ client' => if (client.fileDescriptorTable.get (Filename.ofString pathname)).isSome
        then DataSent client client' else client'.exchanges = client.exchanges)
      (fun _ => False) := by
  subst named
  simp only [Client.appendToFile, Client.getDescriptor, post_bind, post_orFail, post_get]
  refine ⟨fun absent => absurd absent (Option.some_ne_none _),
    fun _ _ => ⟨fun absent => by simp [absent], fun fd found => ?_⟩⟩
  have sent : DataSent client (client.exchanged env (.WRITE ⟨fd, buf.length, some buf⟩)) :=
    ⟨_, _, rfl⟩
  simp only [found, Option.isSome_some, if_true, Client.post_send]
  cases (env.exchange (.WRITE ⟨fd, buf.length, some buf⟩) client.world).1 with
  | none => exact sent
  | some response =>
      cases response with
      | OK_FILE_LIST payload =>
          simp only [post_bind]
          exact (saveFiles_sends sent dirname payload.queue).mono (fun _ _ sent => ⟨trivial, sent⟩)
            (fun _ _ sent => sent) (fun _ never => never)
      | OK => exact ⟨trivial, sent⟩
      | _ => exact sent

/-- `writeFile` sends the data exactly if the check is set, and the file is on the
    disk and in the descriptor table. -/
theorem sendsData_iff {pathname dirname : Option CString} :
    SendsData env s pathname dirname ↔
      s.client.openWithCreateLockFlags ≠ 0 ∧ ready env s pathname = true := by
  have writes : (Client.writeFile env pathname dirname s.client).Post
      (fun _ client' => if s.client.openWithCreateLockFlags ≠ 0 ∧ ready env s pathname = true
        then DataSent s.client client' else client'.exchanges = s.client.exchanges)
      (fun _ client' => if s.client.openWithCreateLockFlags ≠ 0 ∧ ready env s pathname = true
        then DataSent s.client client' else client'.exchanges = s.client.exchanges)
      (fun _ => False) := by
    simp only [Client.writeFile, post_bind, post_get, post_failIf, post_orFail, ready,
      Bool.and_eq_true]
    refine ⟨fun unset => ?_, fun set => ⟨fun null => ?_, fun path named => ⟨fun missing => ?_, ?_⟩⟩⟩
    · simp [unset]
    · simp [null]
    · simp [named, missing]
    · intro buf loaded
      refine (appendToFile_sends named buf dirname).mono ?_ ?_ (fun _ never => never)
      · rintro - client' ⟨found, sent⟩
        rw [if_pos ⟨set, by rw [named, Option.bind_some, loaded]; rfl, found⟩]
        exact sent
      · intro _ client' sent
        simpa [named, set, loaded] using sent
  constructor
  · rintro ⟨client', result, exchange, member, -⟩
    by_contra unready
    simp only [if_neg unready] at writes
    rw [writes.of_state result, List.drop_length] at member
    cases member
  · intro ready_
    simp only [if_pos ready_] at writes
    obtain ⟨client', result⟩ : ∃ client',
        (Client.writeFile env pathname dirname s.client).state? = some client' := by
      cases outcome : Client.writeFile env pathname dirname s.client with
      | ok value client' | error code client' => exact ⟨client', rfl⟩
      | fault why =>
          rw [outcome] at writes
          exact writes.elim
    obtain ⟨payload, response, sent⟩ := writes.of_state result
    refine ⟨client', result, (.WRITE payload, response), ?_, rfl⟩
    rw [sent, List.drop_left]
    exact List.mem_cons_self

/-- In every run in which the descriptors of opens with a flag can be stored,
    `writeFile` sends data only right after an open of the same file with both flags,
    exactly unless the check is set, the file is on the disk and in the descriptor
    table, and the last successful call was an open of another file or with other
    flags. -/
theorem write_follows_open (env : Environment σ) (world : σ) (calls : List ApiCall) (s : ApiRun σ)
    (run : (apiSystem env).Trace (init world) calls s)
    (storable : (apiSystem env).Meets (Storable env) (init world) calls)
    (pathname dirname : Option CString) :
    (SendsData env s pathname dirname →
      s.last = some (.openFile pathname (O_CREATE ||| O_LOCK : Nat))) ↔
    ¬ (s.client.openWithCreateLockFlags ≠ 0 ∧ ready env s pathname = true ∧ ∃ other flags,
      s.last = some (.openFile other flags) ∧
        (other ≠ pathname ∨ flags ≠ (O_CREATE ||| O_LOCK : Nat))) := by
  have step : ∀ (s : ApiRun σ) (call : ApiCall), Tracks s → (apiSystem env).Enabled s call →
      Storable env s call → Tracks ((apiSystem env).apply s call) :=
    fun _ _ tracks enabled storable => tracks.step enabled storable
  have tracks : Tracks s := run.keeps step storable fun set => absurd rfl set
  rw [sendsData_iff]
  constructor
  · rintro follows ⟨set, ready, other, flags, last, different⟩
    rw [follows ⟨set, ready⟩] at last
    cases last
    exact different.elim (absurd rfl) (absurd rfl)
  · rintro fine ⟨set, ready⟩
    obtain ⟨other, flags, last, -⟩ := tracks set
    by_contra wrong
    refine fine ⟨set, ready, other, flags, last, ?_⟩
    by_contra same
    obtain ⟨rfl, rfl⟩ := not_or.mp same |>.imp not_not.mp not_not.mp
    exact wrong last

/-- A server that gives out one descriptor after the other and agrees to all that is
    asked, and a disk on which every file is there. -/
def obliging : Environment Nat where
  exchange request next := match request with
    | .OPEN _ => (some (.OK_FD ⟨next⟩), next + 1)
    | _ => (some .OK, next)
  fileToPointer _ _ := some [1]
  save _ _ _ next := (true, next)

theorem write_follows_open_both : ∃ s,
    (apiSystem obliging).Trace (init 0) [.openFile (some (.upToNul [102])) 3] s ∧
    SendsData obliging s (some (.upToNul [102])) none ∧
    s.last = some (.openFile (some (.upToNul [102])) 3) := by
  have enabled : (apiSystem obliging).Meets (apiSystem obliging).Enabled (init 0)
      [.openFile (some (.upToNul [102])) 3] := by decide +kernel
  have storable : (apiSystem obliging).Meets (Storable obliging) (init 0)
      [.openFile (some (.upToNul [102])) 3] := by
    refine ⟨fun _ _ payload answer => ?_, trivial⟩
    cases answer
    decide +kernel
  have run := ActionSystem.Trace.of_enabled enabled
  have sends : SendsData obliging ([.openFile (some (.upToNul [102])) 3].foldl
      (apiSystem obliging).apply (init 0)) (some (.upToNul [102])) none := by
    rw [sendsData_iff]
    decide +kernel
  have follows := (write_follows_open obliging 0 _ _ run storable (some (.upToNul [102])) none).mpr
  refine ⟨_, run, sends, follows ?_ sends⟩
  rintro ⟨-, -, other, flags, last, different⟩
  cases last
  exact different.elim (absurd rfl) (absurd rfl)

/-- An open with one of the two flags is enough. -/
theorem write_follows_open_one : ∃ s,
    (apiSystem obliging).Trace (init 0) [.openFile (some (.upToNul [102])) 2] s ∧
    ¬ (SendsData obliging s (some (.upToNul [102])) none →
      s.last = some (.openFile (some (.upToNul [102])) (O_CREATE ||| O_LOCK : Nat))) := by
  have enabled : (apiSystem obliging).Meets (apiSystem obliging).Enabled (init 0)
      [.openFile (some (.upToNul [102])) 2] := by decide +kernel
  refine ⟨_, ActionSystem.Trace.of_enabled enabled, ?_⟩
  rw [sendsData_iff]
  decide +kernel

end ApiRun

end FileStorage
