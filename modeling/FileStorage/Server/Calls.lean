import FileStorage.Server.Connections
import FileStorage.Simfs.LockStates

/-! # The calls of the workers

The pieces of a worker that use the file system each make one call, on behalf of
the client in its hands. A worker that waits inside a call is one of the threads
that are blocked in the file system, in all runs.
-/

namespace FileStorage

open Program FileSystem

variable {codec : Codec}

def Phase.event (now : Int) : Phase → Option Event
  | .handling pid request => request.event pid now
  | .waiting _ _ waiter => some (.wake waiter now)
  | .leaving pid => some (.removeSession pid now)
  | _ => none

theorem Request.event_pid {pid : Pid} {now : Int} {request : Request} {event : Event}
    (is : request.event pid now = some event) : event.pid = pid := by
  cases request <;> cases is <;> rfl

theorem Handles.state? {outcome : Outcome Errno Fault (FileSystem codec) Reply}
    {handled : Outcome Errno Fault (FileSystem codec) (Progress Answer)}
    (handles : Handles outcome handled) : handled.state? = outcome.state? := by
  cases outcome with
  | ok reply fs =>
      cases reply with
      | waiting => exact congrArg _ handles
      | descriptor fd | data bytes | success =>
          obtain ⟨answer, -, is⟩ := handles
          exact congrArg _ is
  | error code fs => exact congrArg _ handles
  | fault why => exact congrArg _ handles

/-! ## Requests that wait -/

def lockTarget (fs : FileSystem codec) (pid : Pid) : Request → Option Filename
  | .OPEN payload =>
      if (toUnsigned32 payload.number).testBit 1 then some (Filename.ofString payload.string)
      else none
  | .LOCK payload => (fstatName fs payload.number pid).toOption
  | _ => none

theorem fstatName_eq_ok {fs : FileSystem codec} {fd : Int} {pid : Pid} {name : Filename} :
    fstatName fs fd pid = .ok name ↔
      ∃ copy, fs.slot (toUnsigned32 fd) = some { owner := pid, inode := copy } ∧
        copy.name = name := by
  simp only [fstatName, FileSystem.slot, ← FileDescriptorTable.get_eq_ok]
  cases fs.fileDescriptorTable.1.get (toUnsigned32 fd) pid with
  | error code => simp [Except.map]
  | ok copy => simp [Except.map]

theorem Handles.waiting {outcome : Outcome Errno Fault (FileSystem codec) Reply}
    {fs' : FileSystem codec} (handles : Handles outcome (.ok .waiting fs')) :
    outcome = .ok .waiting fs' := by
  cases outcome with
  | ok reply fs =>
      cases reply with
      | waiting =>
          cases handles
          rfl
      | descriptor fd | data bytes | success =>
          obtain ⟨answer, -, is⟩ := handles
          cases is
  | error code fs => cases handles
  | fault why => cases handles

theorem handleRequest_waits {fs fs' : FileSystem codec} {pid : Pid} {now : Int} {request : Request}
    (handled : handleRequest pid now request fs = .ok .waiting fs') :
    ∃ name call, lockTarget fs pid request = some name ∧ fs.Waits name pid call fs' := by
  have called : ∀ event, request.event pid now = some event →
      event.call fs = .ok .waiting fs' := by
    intro event is
    have handles := handleRequest_handles is fs
    rw [handled] at handles
    exact handles.waiting
  cases request with
  | OPEN payload =>
      obtain ⟨progress, fs₁, opened, rest⟩ := bind_eq_ok (called _ rfl)
      have waits := fileSystemOpen_waits fs (Filename.ofString payload.string)
        (toUnsigned32 payload.number) pid now
      rw [opened] at waits
      cases progress with
      | done fd => cases rest
      | waiting =>
          cases rest
          obtain ⟨flag, waits⟩ := waits rfl
          exact ⟨_, .open, if_pos flag, waits⟩
  | LOCK payload =>
      obtain ⟨progress, fs₁, locked, rest⟩ := bind_eq_ok (called _ rfl)
      have waits := fileSystemLock_waits fs payload.number pid now
      rw [locked] at waits
      cases progress with
      | done _ => cases rest
      | waiting =>
          cases rest
          obtain ⟨copy, live, waits⟩ := waits rfl
          refine ⟨copy.name, .lock, ?_, waits⟩
          rw [lockTarget, fstatName_eq_ok.mpr ⟨copy, live, rfl⟩]
          rfl
  | READ_N payload => cases handled
  | WRITE payload =>
      have returned := called _ rfl
      simp only [Event.call, Event.writeCall] at returned
      split at returned <;> cases returned
  | READ payload | UNLOCK payload | CLOSE payload | REMOVE payload =>
      obtain ⟨value, fs₁, -, rest⟩ := bind_eq_ok (called _ rfl)
      cases rest

theorem handleWakeUp_waits {fs fs' : FileSystem codec} {waiter : Waiter} {now : Int}
    (blocked : waiter ∈ fs.blocked) (handled : handleWakeUp waiter now fs = .ok .waiting fs') :
    fs' = fs := by
  have handles := handleWakeUp_handles waiter now fs
  rw [handled] at handles
  obtain ⟨progress, fs₁, woken, rest⟩ := bind_eq_ok handles.waiting
  have returns := wakeUp_performs blocked now
  rw [woken] at returns
  rcases progress with (_ | fd) | _ <;> cases rest
  exact returns.1

namespace Server

variable {s s' s₁ : Server codec} {now : Int} {w w' : Worker}

theorem Advances.fileSystem (advances : Advances s now w w' s₁) :
    s₁.fileSystem = s.fileSystem ∨ ∃ event, w.phase.event now = some event ∧
      (event.call s.fileSystem).state? = some s₁.fileSystem := by
  have called : ∀ pid request handled fs, handleRequest pid now request s.fileSystem = handled →
      handled.state? = some fs → fs = s.fileSystem ∨ ∃ event, request.event pid now = some event ∧
        (event.call s.fileSystem).state? = some fs := by
    rintro pid request - fs rfl ends
    cases is : request.event pid now with
    | none =>
        cases request with
        | READ_N payload =>
            cases ends
            exact .inl rfl
        | _ => cases is
    | some event =>
        rw [(handleRequest_handles is s.fileSystem).state?] at ends
        exact .inr ⟨event, rfl, ends⟩
  have woken : ∀ waiter handled fs, handleWakeUp waiter now s.fileSystem = handled →
      handled.state? = some fs → ((Event.wake waiter now).call s.fileSystem).state? = some fs := by
    rintro waiter - fs rfl ends
    rw [(handleWakeUp_handles waiter now s.fileSystem).state?] at ends
    exact ends
  cases advances with
  | answer handled => exact called _ _ _ _ handled rfl
  | wait handled => exact called _ _ _ _ handled rfl
  | wake handled => exact .inr ⟨_, rfl, woken _ _ _ handled rfl⟩
  | waitAgain handled => exact .inr ⟨_, rfl, woken _ _ _ handled rfl⟩
  | @leave pid fs broadcasts left =>
      refine .inr ⟨_, rfl, ?_⟩
      rw [Event.call, bind_run]
      cases outcome : fileSystemRemoveSession pid now s.fileSystem with
      | ok value fs₁ =>
          rw [outcome] at left
          exact left
      | error code fs₁ =>
          rw [outcome] at left
          exact left
      | fault why =>
          rw [outcome] at left
          cases left
  | _ => exact .inl rfl

/-- A step is a piece of a worker, or a worker receives something, or the workers
    and what they share are left alone. -/
theorem step_cases {move : Move} (stepped : s.step move = some s') :
    (∃ index now w w' s₁, move = .work index now ∧ s.workers[index]? = some w ∧
      Advances s now w w' s₁ ∧ s' = { s₁ with workers := s.workers.set index w' }) ∨
    (∃ index pid broadcasts phase, s.workers[index]? = some ⟨.reading pid, broadcasts⟩ ∧
      ((∃ request, phase = .handling pid request) ∨ (∃ code, phase = .failing pid code) ∨
        phase = .unsubscribing pid) ∧
      s' = { s with workers := s.workers.set index ⟨phase, broadcasts⟩ }) ∨
    (s'.fileSystem = s.fileSystem ∧ s'.waitingList = s.waitingList ∧ s'.workers = s.workers) := by
  cases move with
  | accept new | disconnect new | dispatch new | listen =>
      simp only [step] at stepped
      split at stepped <;> cases stepped
      exact .inr (.inr ⟨rfl, rfl, rfl⟩)
  | receive index incoming =>
      obtain ⟨pid, broadcasts, phase, found, received, rfl⟩ := step_receive stepped
      refine .inr (.inl ⟨index, pid, broadcasts, phase, found, ?_, rfl⟩)
      unfold Server.received at received
      split at received
      · exact .inl ⟨_, (Option.some.inj received).symm⟩
      · exact .inr (.inl ⟨_, (Option.some.inj received).symm⟩)
      · split at received <;> cases received
        exact .inr (.inr rfl)
  | work index now =>
      obtain ⟨w, w', s₁, found, advances, rfl⟩ := step_work stepped
      exact .inl ⟨index, now, w, w', s₁, rfl, found, advances, rfl⟩

theorem Accounted.apart (accounted : Accounted s) {index other : Nat} {u : Worker}
    (found : s.workers[index]? = some w) (found' : s.workers[other]? = some u)
    (different : other ≠ index) {pid : Pid} (holds : w.phase.pid? = some pid) :
    u.phase.pid? ≠ some pid := by
  intro holds'
  have hands := Threads.countP_set_add (Worker.holding pid) found .idle
  have remains : u ∈ s.workers.set index .idle := by
    refine List.mem_of_getElem? (i := other) ?_
    rw [List.getElem?_set_ne (Ne.symm different)]
    exact found'
  have positive : 0 < (s.workers.set index .idle).countP (Worker.holding pid) :=
    List.countP_pos_iff.mpr ⟨u, remains, by simp [Worker.holding, holds']⟩
  have one := accounted.count_le_one pid
  have holding : w.holding pid = true := by simp [Worker.holding, holds]
  rw [places] at one
  rw [holding, if_pos rfl] at hands
  have idle : Worker.idle.holding pid = false := rfl
  rw [idle, if_neg (by simp)] at hands
  omega

/-! ## Who waits inside a call -/

/-- The workers that wait are blocked in the file system on behalf of their clients. -/
def Asleep (s : Server codec) : Prop :=
  ∀ w ∈ s.workers, ∀ pid request waiter, w.phase = .waiting pid request waiter →
    waiter.pid = pid ∧ waiter ∈ s.fileSystem.blocked

theorem Asleep.possible (asleep : Asleep s) (member : w ∈ s.workers) {event : Event}
    (is : w.phase.event now = some event) : event.Possible s.fileSystem := by
  obtain ⟨phase, broadcasts⟩ := w
  cases phase with
  | handling pid request => cases request <;> cases is <;> trivial
  | waiting pid request waiter =>
      cases is
      exact (asleep _ member pid request waiter rfl).2
  | leaving pid =>
      cases is
      trivial
  | _ => cases is

theorem Asleep.event_pid (asleep : Asleep s) (member : w ∈ s.workers) {event : Event}
    (is : w.phase.event now = some event) : w.phase.pid? = some event.pid := by
  obtain ⟨phase, broadcasts⟩ := w
  cases phase with
  | handling pid request => exact congrArg some (Request.event_pid is).symm
  | waiting pid request waiter =>
      cases is
      exact congrArg some (asleep _ member pid request waiter rfl).1.symm
  | leaving pid =>
      cases is
      rfl
  | _ => cases is

theorem asleep_init (fileSystem : FileSystem codec) (size : Nat) :
    Asleep (init fileSystem size) := by
  intro w member pid request waiter is
  rw [List.eq_of_mem_replicate member] at is
  cases is

theorem Waits.blocked {fs fs' : FileSystem codec} {name : Filename} {pid : Pid} {call : WaitingCall}
    (waits : fs.Waits name pid call fs') {waiter : Waiter}
    (last : fs'.blocked.getLast? = some waiter) :
    ∃ inode, fs.file name = some inode ∧
      waiter = { pid, name, generation := inode.generation, call } := by
  obtain ⟨-, inode, present, performs⟩ := waits
  refine ⟨inode, present, ?_⟩
  have ends := congrArg View.blocked performs.eq_foldl
  have ends : fs'.blocked = fs.blocked ++ [{ pid, name, generation := inode.generation, call }] :=
    ends
  rw [ends, List.getLast?_concat] at last
  exact (Option.some.inj last).symm

theorem Asleep.step (asleep : Asleep s) (accounted : Accounted s) {move : Move}
    (stepped : s.step move = some s') : Asleep s' := by
  rcases step_cases stepped with ⟨index, now, w, w', s₁, rfl, found, advances, rfl⟩ |
    ⟨index, pid, broadcasts, phase, found, kinds, rfl⟩ | ⟨files, -, workers⟩
  · have member := List.mem_of_getElem? found
    intro u there pid request waiter is
    rcases Threads.mem_of_mem_set there with rfl | ⟨other, different, elsewhere⟩
    · cases advances with
      | wait handled last =>
          cases is
          obtain ⟨name, call, -, waits⟩ := handleRequest_waits handled
          obtain ⟨inode, -, rfl⟩ := Waits.blocked waits last
          exact ⟨rfl, List.mem_of_getLast? last⟩
      | waitAgain handled =>
          cases is
          obtain ⟨own, blocked⟩ := asleep _ member _ _ _ rfl
          rw [handleWakeUp_waits blocked handled]
          exact ⟨own, blocked⟩
      | _ => cases is
    · obtain ⟨own, blocked⟩ := asleep u (List.mem_of_getElem? elsewhere) pid request waiter is
      refine ⟨own, ?_⟩
      rcases advances.fileSystem with same | ⟨event, next, result⟩
      · exact same ▸ blocked
      · refine Event.mem_blocked_call (asleep.possible member next) result blocked ?_
        rintro now rfl
        have holds := asleep.event_pid member next
        refine accounted.apart found elsewhere different holds ?_
        rw [is, Phase.pid?]
        exact congrArg some own.symm
  · intro u there pid request waiter is
    rcases Threads.mem_of_mem_set there with rfl | ⟨other, -, elsewhere⟩
    · rcases kinds with ⟨_, rfl⟩ | ⟨_, rfl⟩ | rfl <;> cases is
    · exact asleep u (List.mem_of_getElem? elsewhere) pid request waiter is
  · intro u there
    rw [files]
    exact asleep u (workers ▸ there)

/-- What holds in all runs: the clients are accounted for, the workers that wait
    are blocked in the file system. -/
structure Orderly (s : Server codec) : Prop where
  accounted : Accounted s
  asleep : Asleep s

theorem orderly_init (fileSystem : FileSystem codec) (size : Nat) :
    Orderly (init fileSystem size) :=
  ⟨accounted_init fileSystem size, asleep_init fileSystem size⟩

theorem Orderly.step (orderly : Orderly s) {move : Move} (stepped : s.step move = some s') :
    Orderly s' :=
  ⟨orderly.accounted.step stepped, orderly.asleep.step orderly.accounted stepped⟩

theorem Orderly.positive (orderly : Orderly s) (member : w ∈ s.workers) {event : Event}
    (is : w.phase.event now = some event) : 0 < asInt event.pid := by
  obtain ⟨connected, -⟩ := orderly.accounted.held member (orderly.asleep.event_pid member is)
  exact orderly.accounted.positive event.pid connected

end Server

end FileStorage
