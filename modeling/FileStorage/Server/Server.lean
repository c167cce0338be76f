import FileStorage.Server.Requests
import FileStorage.Server.WaitingList

/-! # The server

The master of `gnl_fss_server.c`, the workers of `gnl_fss_worker.c` and what they
share. A client is known by the number of its socket, which is also its pid in the
file system. A worker is cut into the pieces between which another thread can run:
each piece touches one shared object, and a call of the file system that has to
wait is a piece of its own. Which request a client sends is up to the run.

A client that has disconnected can still be read from, but nothing can be written
to it. The counter of the active connections and the signals are left out. `accept` and
`close` succeed, and a connection gets a descriptor that fits into an `fd_set`.
-/

namespace FileStorage

open Program FileSystem

/-- Where a worker is. -/
inductive Phase where
  /-- the last client is done with -/
  | ready
  /-- a client was taken from the queue -/
  | reading (pid : Pid)
  /-- before the call of the file system -/
  | handling (pid : Pid) (request : Request)
  /-- inside a call, in `gnl_simfs_rts_wait_file_to_be_lockable` -/
  | waiting (pid : Pid) (request : Request) (waiter : Waiter)
  /-- at the beginning of `handle_fd_c_response` -/
  | answered (pid : Pid) (request : Request) (answer : Answer)
  /-- before the push of `waiting_list_subscribe` -/
  | subscribing (pid : Pid) (request : Request) (target : Filename)
  /-- before the answer is sent; a target is what has been unlocked -/
  | responding (pid : Pid) (answer : Answer) (target : Option Filename)
  /-- before `send_message_to_master` -/
  | notifying (pid : Pid) (target : Option Filename)
  /-- at the beginning of `handle_error` -/
  | failing (pid : Pid) (code : Errno)
  /-- a client has gone away: before it is taken off the waiting list -/
  | unsubscribing (pid : Pid)
  /-- before its session is removed -/
  | leaving (pid : Pid)
  /-- before its socket is closed -/
  | closing (pid : Pid)
  /-- before the master is told -/
  | parting
  deriving DecidableEq

def Phase.pid? : Phase → Option Pid
  | .ready | .parting => none
  | .reading pid | .handling pid _ | .waiting pid _ _ | .answered pid _ _ | .subscribing pid _ _
  | .responding pid _ _ | .notifying pid _ | .failing pid _ | .unsubscribing pid | .leaving pid
  | .closing pid => some pid

/-- A worker, with the targets of the broadcast loops it is in, innermost first. -/
structure Worker where
  phase : Phase
  broadcasts : List Filename
  deriving DecidableEq

def Worker.idle : Worker := ⟨.ready, []⟩

inductive Incoming where
  | request (request : Request)
  | failed (code : Errno)
  | closed
  deriving DecidableEq

structure Server (codec : Codec) where
  fileSystem : FileSystem codec
  waitingList : WaitingList Request
  /-- the sockets that were accepted and not closed -/
  connections : List Pid
  /-- those whose client has disconnected -/
  gone : List Pid
  selectSet : List Pid
  workerQueue : List Pid
  /-- the messages to the master; 0 says that a client has gone away -/
  pipe : List Pid
  workers : List Worker

inductive Move where
  | accept (pid : Pid)
  | disconnect (pid : Pid)
  | dispatch (pid : Pid)
  | listen
  | receive (index : Nat) (incoming : Incoming)
  | work (index : Nat) (now : Int)

namespace Server

variable {codec : Codec}

def init (fileSystem : FileSystem codec) (size : Nat) : Server codec where
  fileSystem
  waitingList := .init
  connections := []
  gone := []
  selectSet := []
  workerQueue := []
  pipe := []
  workers := List.replicate size .idle

/-- What `gnl_fss_worker_handle` does with what it has read. -/
def received (s : Server codec) (pid : Pid) : Incoming → Option Phase
  | .request request => some (.handling pid request)
  | .failed code => some (.failing pid code)
  | .closed => if pid ∈ s.gone then some (.unsubscribing pid) else none

/-- A worker between two clients: it goes on with the innermost broadcast, or else
    waits for the queue. -/
def proceed (s : Server codec) (w : Worker) : Option (Worker × Server codec) :=
  match w.broadcasts with
  | [] =>
      match s.workerQueue with
      | [] => none
      | pid :: rest => some (⟨.reading pid, []⟩, { s with workerQueue := rest })
  | target :: outer =>
      let popped := s.waitingList.pop target
      match popped.1 with
      | none => some (⟨.ready, outer⟩, { s with waitingList := popped.2 })
      | some el => some (⟨.handling el.pid el.request, target :: outer⟩,
          { s with waitingList := popped.2 })

/-- The beginning of `handle_fd_c_response`. -/
def respond (s : Server codec) (pid : Pid) (request : Request) (answer : Answer) : Option Phase :=
  if answer = .ERROR .EBUSY then
    match subscriptionTarget s.fileSystem pid request with
    | .ok target => some (.subscribing pid request target)
    | .error (.errno code) => some (.failing pid code)
    | .error (.fault _) => none
  else if answer = .OK then
    some (.responding pid answer (unlockRequestTarget s.fileSystem pid request))
  else some (.responding pid answer none)

/-- The next piece of a worker, if it can run and does not run into undefined
    behaviour. -/
def advance (s : Server codec) (now : Int) (w : Worker) : Option (Worker × Server codec) :=
  match w.phase with
  | .ready => proceed s w
  | .reading _ => none
  | .handling pid request =>
      match handleRequest pid now request s.fileSystem with
      | .ok (.done answer) fs =>
          some ({ w with phase := .answered pid request answer }, { s with fileSystem := fs })
      | .ok .waiting fs => fs.blocked.getLast?.map fun waiter =>
          ({ w with phase := .waiting pid request waiter }, { s with fileSystem := fs })
      | _ => none
  | .waiting pid request waiter =>
      match handleWakeUp waiter now s.fileSystem with
      | .ok (.done answer) fs =>
          some ({ w with phase := .answered pid request answer }, { s with fileSystem := fs })
      | .ok .waiting fs => some (w, { s with fileSystem := fs })
      | _ => none
  | .answered pid request answer =>
      (respond s pid request answer).map fun phase => ({ w with phase }, s)
  | .subscribing pid request target =>
      some ({ w with phase := .ready },
        { s with waitingList := s.waitingList.push target pid request })
  | .responding pid _ target =>
      some ({ w with phase := if pid ∈ s.gone then .failing pid .EPIPE else .notifying pid target },
        s)
  | .notifying pid target =>
      some (⟨.ready, target.toList ++ w.broadcasts⟩, { s with pipe := s.pipe ++ [pid] })
  -- the master is not told about a client the error cannot be sent to
  | .failing pid _ =>
      some ({ w with phase := if pid ∈ s.gone then .ready else .notifying pid none }, s)
  | .unsubscribing pid =>
      some ({ w with phase := .leaving pid }, { s with waitingList := s.waitingList.remove pid })
  | .leaving pid =>
      match fileSystemRemoveSession pid now s.fileSystem with
      | .ok _ fs | .error _ fs =>
          some ({ w with phase := .closing pid }, { s with fileSystem := fs })
      | .fault _ => none
  | .closing pid =>
      some ({ w with phase := .parting }, { s with
        connections := s.connections.erase pid, gone := s.gone.filter (· ≠ pid) })
  | .parting => some ({ w with phase := .ready }, { s with pipe := s.pipe ++ [0] })

/-- One step. The kernel gives a new connection a positive number that is not in
    use; the master puts a client into the queue when there is room. -/
def step (s : Server codec) : Move → Option (Server codec)
  | .accept pid =>
      if 0 < asInt pid ∧ pid ∉ s.connections then
        some { s with
          connections := pid :: s.connections, selectSet := s.selectSet.insert pid }
      else none
  | .disconnect pid =>
      if pid ∈ s.connections then some { s with gone := s.gone.insert pid } else none
  | .dispatch pid =>
      if pid ∈ s.selectSet ∧ s.workerQueue.length < s.workers.length then
        some { s with
          selectSet := s.selectSet.erase pid, workerQueue := s.workerQueue ++ [pid] }
      else none
  | .listen =>
      match s.pipe with
      | [] => none
      | pid :: rest =>
          some { s with
            pipe := rest, selectSet := if pid = 0 then s.selectSet else s.selectSet.insert pid }
  | .receive index incoming =>
      match s.workers[index]? with
      | some ⟨.reading pid, broadcasts⟩ => (s.received pid incoming).map fun phase =>
          { s with workers := s.workers.set index ⟨phase, broadcasts⟩ }
      | _ => none
  | .work index now =>
      s.workers[index]?.bind fun w => (s.advance now w).map fun (w', s') =>
        { s' with workers := s.workers.set index w' }

/-! ## What a worker can do -/

/-- The pieces of a worker, one constructor for each way on. -/
inductive Advances (s : Server codec) (now : Int) : Worker → Worker → Server codec → Prop where
  | dequeue {pid rest} : s.workerQueue = pid :: rest →
      Advances s now ⟨.ready, []⟩ ⟨.reading pid, []⟩ { s with workerQueue := rest }
  | done {target outer} : (s.waitingList.pop target).1 = none →
      Advances s now ⟨.ready, target :: outer⟩ ⟨.ready, outer⟩
        { s with waitingList := (s.waitingList.pop target).2 }
  | pop {target outer el} : (s.waitingList.pop target).1 = some el →
      Advances s now ⟨.ready, target :: outer⟩ ⟨.handling el.pid el.request, target :: outer⟩
        { s with waitingList := (s.waitingList.pop target).2 }
  | answer {pid request answer fs broadcasts} :
      handleRequest pid now request s.fileSystem = .ok (.done answer) fs →
      Advances s now ⟨.handling pid request, broadcasts⟩ ⟨.answered pid request answer, broadcasts⟩
        { s with fileSystem := fs }
  | wait {pid request waiter fs broadcasts} :
      handleRequest pid now request s.fileSystem = .ok .waiting fs →
      fs.blocked.getLast? = some waiter →
      Advances s now ⟨.handling pid request, broadcasts⟩ ⟨.waiting pid request waiter, broadcasts⟩
        { s with fileSystem := fs }
  | wake {pid request waiter answer fs broadcasts} :
      handleWakeUp waiter now s.fileSystem = .ok (.done answer) fs →
      Advances s now ⟨.waiting pid request waiter, broadcasts⟩
        ⟨.answered pid request answer, broadcasts⟩ { s with fileSystem := fs }
  | waitAgain {pid request waiter fs broadcasts} :
      handleWakeUp waiter now s.fileSystem = .ok .waiting fs →
      Advances s now ⟨.waiting pid request waiter, broadcasts⟩
        ⟨.waiting pid request waiter, broadcasts⟩ { s with fileSystem := fs }
  | busy {pid request target broadcasts} :
      subscriptionTarget s.fileSystem pid request = .ok target →
      Advances s now ⟨.answered pid request (.ERROR .EBUSY), broadcasts⟩
        ⟨.subscribing pid request target, broadcasts⟩ s
  | unsubscribable {pid request code broadcasts} :
      subscriptionTarget s.fileSystem pid request = .error (.errno code) →
      Advances s now ⟨.answered pid request (.ERROR .EBUSY), broadcasts⟩
        ⟨.failing pid code, broadcasts⟩ s
  | succeeded {pid request broadcasts} :
      Advances s now ⟨.answered pid request .OK, broadcasts⟩
        ⟨.responding pid .OK (unlockRequestTarget s.fileSystem pid request), broadcasts⟩ s
  | respond {pid request answer broadcasts} : answer ≠ .ERROR .EBUSY → answer ≠ .OK →
      Advances s now ⟨.answered pid request answer, broadcasts⟩
        ⟨.responding pid answer none, broadcasts⟩ s
  | subscribe {pid request target broadcasts} :
      Advances s now ⟨.subscribing pid request target, broadcasts⟩ ⟨.ready, broadcasts⟩
        { s with waitingList := s.waitingList.push target pid request }
  | sent {pid answer target broadcasts} : pid ∉ s.gone →
      Advances s now ⟨.responding pid answer target, broadcasts⟩
        ⟨.notifying pid target, broadcasts⟩ s
  | unsent {pid answer target broadcasts} : pid ∈ s.gone →
      Advances s now ⟨.responding pid answer target, broadcasts⟩
        ⟨.failing pid .EPIPE, broadcasts⟩ s
  | notify {pid target broadcasts} :
      Advances s now ⟨.notifying pid target, broadcasts⟩ ⟨.ready, target.toList ++ broadcasts⟩
        { s with pipe := s.pipe ++ [pid] }
  | errorSent {pid code broadcasts} : pid ∉ s.gone →
      Advances s now ⟨.failing pid code, broadcasts⟩ ⟨.notifying pid none, broadcasts⟩ s
  | lose {pid code broadcasts} : pid ∈ s.gone →
      Advances s now ⟨.failing pid code, broadcasts⟩ ⟨.ready, broadcasts⟩ s
  | unsubscribe {pid broadcasts} :
      Advances s now ⟨.unsubscribing pid, broadcasts⟩ ⟨.leaving pid, broadcasts⟩
        { s with waitingList := s.waitingList.remove pid }
  | leave {pid fs broadcasts} : (fileSystemRemoveSession pid now s.fileSystem).state? = some fs →
      Advances s now ⟨.leaving pid, broadcasts⟩ ⟨.closing pid, broadcasts⟩
        { s with fileSystem := fs }
  | close {pid broadcasts} :
      Advances s now ⟨.closing pid, broadcasts⟩ ⟨.parting, broadcasts⟩
        { s with connections := s.connections.erase pid, gone := s.gone.filter (· ≠ pid) }
  | part {broadcasts} :
      Advances s now ⟨.parting, broadcasts⟩ ⟨.ready, broadcasts⟩ { s with pipe := s.pipe ++ [0] }

variable {s s' : Server codec} {now : Int}

theorem advances_of_proceed {w w' : Worker} (ready : w.phase = .ready)
    (result : s.proceed w = some (w', s')) : Advances s now w w' s' := by
  obtain ⟨_, broadcasts⟩ := w
  subst ready
  cases broadcasts with
  | nil =>
      simp only [proceed] at result
      split at result
      · cases result
      · rename_i queue
        cases result
        exact .dequeue queue
  | cons target outer =>
      simp only [proceed] at result
      split at result
      · rename_i none_
        cases result
        exact .done none_
      · rename_i el popped
        cases result
        exact .pop popped

theorem advances_of_respond {pid : Pid} {request : Request} {answer : Answer} {phase : Phase}
    {broadcasts : List Filename} (result : s.respond pid request answer = some phase) :
    Advances s now ⟨.answered pid request answer, broadcasts⟩ ⟨phase, broadcasts⟩ s := by
  unfold Server.respond at result
  split at result
  · rename_i is
    subst is
    split at result
    · rename_i found
      cases result
      exact .busy found
    · rename_i failed
      cases result
      exact .unsubscribable failed
    · cases result
  · rename_i notBusy
    split at result
    · rename_i is
      subst is
      cases result
      exact .succeeded
    · rename_i notOk
      cases result
      exact .respond notBusy notOk

theorem advances_of_advance {w w' : Worker} (result : s.advance now w = some (w', s')) :
    Advances s now w w' s' := by
  obtain ⟨phase, broadcasts⟩ := w
  cases phase with
  | ready => exact advances_of_proceed rfl result
  | reading pid => cases result
  | handling pid request =>
      simp only [advance] at result
      split at result
      · rename_i handled
        cases result
        exact .answer handled
      · rename_i handled
        obtain ⟨waiter, last, is⟩ := Option.map_eq_some_iff.mp result
        cases is
        exact .wait handled last
      · cases result
  | waiting pid request waiter =>
      simp only [advance] at result
      split at result
      · rename_i woken
        cases result
        exact .wake woken
      · rename_i woken
        cases result
        exact .waitAgain woken
      · cases result
  | answered pid request answer =>
      obtain ⟨phase, responded, is⟩ := Option.map_eq_some_iff.mp result
      cases is
      exact advances_of_respond responded
  | subscribing pid request target =>
      cases result
      exact .subscribe
  | responding pid answer target =>
      simp only [advance] at result
      split at result
      · rename_i gone
        cases result
        exact .unsent gone
      · rename_i here
        cases result
        exact .sent here
  | notifying pid target =>
      cases result
      exact .notify
  | failing pid code =>
      simp only [advance] at result
      split at result
      · rename_i gone
        cases result
        exact .lose gone
      · rename_i here
        cases result
        exact .errorSent here
  | unsubscribing pid =>
      cases result
      exact .unsubscribe
  | leaving pid =>
      simp only [advance] at result
      split at result
      · rename_i removed
        cases result
        exact .leave (by rw [removed]; rfl)
      · rename_i removed
        cases result
        exact .leave (by rw [removed]; rfl)
      · cases result
  | closing pid =>
      cases result
      exact .close
  | parting =>
      cases result
      exact .part

theorem step_work {index : Nat} (result : s.step (.work index now) = some s') :
    ∃ w w' s₁, s.workers[index]? = some w ∧ Advances s now w w' s₁ ∧
      s' = { s₁ with workers := s.workers.set index w' } := by
  obtain ⟨w, found, mapped⟩ := Option.bind_eq_some_iff.mp result
  obtain ⟨⟨w', s₁⟩, advanced, rfl⟩ := Option.map_eq_some_iff.mp mapped
  exact ⟨w, w', s₁, found, advances_of_advance advanced, rfl⟩

theorem step_receive {index : Nat} {incoming : Incoming}
    (result : s.step (.receive index incoming) = some s') :
    ∃ pid broadcasts phase, s.workers[index]? = some ⟨.reading pid, broadcasts⟩ ∧
      s.received pid incoming = some phase ∧
      s' = { s with workers := s.workers.set index ⟨phase, broadcasts⟩ } := by
  simp only [step] at result
  split at result
  · rename_i pid broadcasts found
    obtain ⟨phase, received, rfl⟩ := Option.map_eq_some_iff.mp result
    exact ⟨pid, broadcasts, phase, found, received, rfl⟩
  · cases result

end Server

def serverSystem (codec : Codec) : ActionSystem (Server codec) Move where
  Enabled s move := (s.step move).isSome
  apply s move := (s.step move).getD s

instance {codec : Codec} (s : Server codec) (move : Move) :
    Decidable ((serverSystem codec).Enabled s move) :=
  inferInstanceAs (Decidable (_ = true))

/-- A client sends a request, which a worker handles in a number of pieces. -/
def Move.serve (index : Nat) (pid : Pid) (request : Request) (pieces : Nat) (now : Int) :
    List Move :=
  [.dispatch pid, .work index now, .receive index (.request request)] ++
    List.replicate pieces (.work index now)

theorem serverSystem_step {codec : Codec} {s : Server codec} {move : Move}
    (enabled : (serverSystem codec).Enabled s move) :
    s.step move = some ((serverSystem codec).apply s move) := by
  obtain ⟨s', result⟩ := Option.isSome_iff_exists.mp enabled
  simp only [serverSystem, result, Option.getD_some]

end FileStorage
