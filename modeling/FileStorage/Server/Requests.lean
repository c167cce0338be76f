import FileStorage.Simfs.Run
import FileStorage.Socket.Request

/-! # Handling a request

`handle_request` of `gnl_fss_worker.c` turns a request into one call of the file
system and the outcome of the call into an answer. `waiting_list_subscribe` and
`get_unlock_request_target` find the file that a request is about.
-/

namespace FileStorage

open Program FileSystem

variable {codec : Codec}

/-- The characters of a name that came over the wire; a null pointer and an empty
    string are refused alike. -/
def Filename.ofString (string : Option CString) : Filename :=
  string.elim [] fun string => string.chars.map UInt8.toInt8

/-- The response `handle_request` builds, an error under its name. -/
inductive Answer where
  | OK_FD (fd : Nat)
  | OK_FILE (bytes : List UInt8)
  | OK_FILE_LIST (files : List EvictedFile)
  | OK
  | ERROR (code : Errno)
  deriving DecidableEq

namespace Request

/-- The file system call of a request; a `READ_N` only lists the files. -/
def event (pid : Pid) (now : Int) : Request → Option Event
  | OPEN payload =>
      some (.open (Filename.ofString payload.string) (toUnsigned32 payload.number) pid now)
  | READ payload => some (.read payload.number pid now)
  | READ_N _ => none
  | WRITE payload => some (.write payload.number payload.bytes pid now)
  | LOCK payload => some (.lock payload.number pid now)
  | UNLOCK payload => some (.unlock payload.number pid now)
  | CLOSE payload => some (.close payload.number pid now)
  | REMOVE payload => some (.remove (Filename.ofString payload.string) pid)

end Request

/-- The list of files a `READ_N` is answered with: every file has its own name as
    its content. -/
def listFiles (names : List Filename) : Answer :=
  if names = [] then .OK
  else .OK_FILE_LIST (names.map fun name => {
    name, bytes := name.map Int8.toUInt8 ++ [0] })

/-- The `WRITE` branch of `handle_request`, with the files that had to make room. -/
def handleWrite (fd : Int) (buf : Option (List UInt8)) (pid : Pid) (now : Int) :
    Call codec (Progress Answer) := fun fs =>
  match fileSystemWrite fd buf pid now { fileSystem := fs, evictedList := [] } with
  | .ok _ s =>
      .ok (.done (if s.evictedList = [] then .OK else .OK_FILE_LIST s.evictedList)) s.fileSystem
  | .error code s => .ok (.done (.ERROR code)) s.fileSystem
  | .fault why => .fault why

def handlePlain (call : Call codec Unit) : Call codec (Progress Answer) := do
  match ← attempt call with
  | .ok _ => pure (.done .OK)
  | .error code => pure (.done (.ERROR code))

/-- `handle_request`, up to the point where the call has to wait. -/
def handleRequest (pid : Pid) (now : Int) : Request → Call codec (Progress Answer)
  | .OPEN payload => do
      match ← attempt (fileSystemOpen (Filename.ofString payload.string)
          (toUnsigned32 payload.number) pid now) with
      | .ok (.done fd) => pure (.done (.OK_FD fd))
      | .ok .waiting => pure .waiting
      | .error code => pure (.done (.ERROR code))
  | .READ_N _ => do
      let fs ← get
      pure (.done (listFiles fs.fileTable.presenceList))
  | .READ payload => do
      match ← attempt (fileSystemRead payload.number pid now) with
      | .ok bytes => pure (.done (.OK_FILE bytes))
      | .error code => pure (.done (.ERROR code))
  | .WRITE payload => handleWrite payload.number payload.bytes pid now
  | .LOCK payload => do
      match ← attempt (fileSystemLock payload.number pid now) with
      | .ok (.done _) => pure (.done .OK)
      | .ok .waiting => pure .waiting
      | .error code => pure (.done (.ERROR code))
  | .UNLOCK payload => handlePlain (fileSystemUnlock payload.number pid now)
  | .CLOSE payload => handlePlain (fileSystemClose payload.number pid now)
  | .REMOVE payload => handlePlain (fileSystemRemove (Filename.ofString payload.string) pid)

/-- What `handle_request` goes on with when a call that waits has woken up. -/
def handleWakeUp (waiter : Waiter) (now : Int) : Call codec (Progress Answer) := do
  match ← attempt (wakeUp waiter now) with
  | .ok (.done (some fd)) => pure (.done (.OK_FD fd))
  | .ok (.done none) => pure (.done .OK)
  | .ok .waiting => pure .waiting
  | .error code => pure (.done (.ERROR code))

def fstatName (fs : FileSystem codec) (fd : Int) (pid : Pid) : Except Errno Filename :=
  (fs.fileDescriptorTable.1.get (toUnsigned32 fd) pid).map Inode.name

/-- The target `waiting_list_subscribe` finds. For a negative descriptor the
    variable is never set. -/
def subscriptionTarget (fs : FileSystem codec) (pid : Pid) : Request → Except Failure Filename
  | .OPEN payload => .ok (Filename.ofString payload.string)
  | .READ payload | .LOCK payload => ofDescriptor payload.number
  | .WRITE payload => ofDescriptor payload.number
  | .READ_N _ | .UNLOCK _ | .CLOSE _ | .REMOVE _ => .error (.errno .EINVAL)
where
  ofDescriptor (fd : Int) : Except Failure Filename :=
    if 0 ≤ fd then (fstatName fs fd pid).mapError .errno else .error (.fault .nullPointer)

/-- `get_unlock_request_target`, which is asked for a request answered with OK. -/
def unlockRequestTarget (fs : FileSystem codec) (pid : Pid) : Request → Option Filename
  | .UNLOCK payload => (fstatName fs payload.number pid).toOption
  | _ => none

/-! ## Requests and calls -/

/-- The handling of a request ends as its call does, with an answer in place of
    what the call returns. -/
def Handles : Outcome Errno Fault (FileSystem codec) Reply →
    Outcome Errno Fault (FileSystem codec) (Progress Answer) → Prop
  | .ok .waiting fs, handled => handled = .ok .waiting fs
  | .ok _ fs, handled => ∃ answer, (∀ code, answer ≠ .ERROR code) ∧ handled = .ok (.done answer) fs
  | .error code fs, handled => handled = .ok (.done (.ERROR code)) fs
  | .fault why, handled => handled = .fault why

variable {fs : FileSystem codec} {pid : Pid} {now : Int}

theorem handles_plain (call : Call codec Unit) (fs : FileSystem codec) :
    Handles ((do call; pure .success : Call codec Reply) fs) (handlePlain call fs) := by
  simp only [handlePlain, bind_run, attempt]
  cases call fs with
  | ok a fs' => exact ⟨.OK, nofun, rfl⟩
  | error code fs' => rfl
  | fault why => rfl

theorem handles_write (fd : Int) (buf : Option (List UInt8)) (pid : Pid) (now : Int)
    (fs : FileSystem codec) :
    Handles (Event.writeCall fd buf pid now fs) (handleWrite fd buf pid now fs) := by
  simp only [Event.writeCall, handleWrite]
  cases fileSystemWrite fd buf pid now { fileSystem := fs, evictedList := [] } with
  | ok a s =>
      refine ⟨_, fun code is => ?_, rfl⟩
      split at is <;> cases is
  | error code s => rfl
  | fault why => rfl

theorem handleRequest_handles {request : Request} {event : Event}
    (is : request.event pid now = some event) (fs : FileSystem codec) :
    Handles (event.call fs) (handleRequest pid now request fs) := by
  cases request with
  | OPEN payload =>
      cases is
      simp only [Event.call, handleRequest, bind_run, attempt]
      cases fileSystemOpen (Filename.ofString payload.string) (toUnsigned32 payload.number) pid now
        fs with
      | ok progress fs' =>
          cases progress with
          | done fd => exact ⟨.OK_FD fd, nofun, rfl⟩
          | waiting => rfl
      | error code fs' => rfl
      | fault why => rfl
  | READ_N payload => cases is
  | READ payload =>
      cases is
      simp only [Event.call, handleRequest, bind_run, attempt]
      cases fileSystemRead payload.number pid now fs with
      | ok bytes fs' => exact ⟨.OK_FILE bytes, nofun, rfl⟩
      | error code fs' => rfl
      | fault why => rfl
  | WRITE payload =>
      cases is
      exact handles_write payload.number payload.bytes pid now fs
  | LOCK payload =>
      cases is
      simp only [Event.call, handleRequest, bind_run, attempt]
      cases fileSystemLock payload.number pid now fs with
      | ok progress fs' =>
          cases progress with
          | done fd => exact ⟨.OK, nofun, rfl⟩
          | waiting => rfl
      | error code fs' => rfl
      | fault why => rfl
  | UNLOCK payload | CLOSE payload | REMOVE payload =>
      cases is
      exact handles_plain _ fs

theorem handleWakeUp_handles (waiter : Waiter) (now : Int) (fs : FileSystem codec) :
    Handles ((Event.wake waiter now).call fs) (handleWakeUp waiter now fs) := by
  simp only [Event.call, handleWakeUp, bind_run, attempt]
  cases wakeUp waiter now fs with
  | ok progress fs' =>
      cases progress with
      | done fd =>
          cases fd with
          | none => exact ⟨.OK, nofun, rfl⟩
          | some fd => exact ⟨.OK_FD fd, nofun, rfl⟩
      | waiting => rfl
  | error code fs' => rfl
  | fault why => rfl

end FileStorage
