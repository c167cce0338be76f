import FileStorage.Server.Connections

/-! # The process of the server

`run_server` counts the active connections, and `gnl_fss_server_start` destroys the thread
pool when it returns. A soft termination lets it return when no connection is left, a hard one
at the next interruption. The pool is ended by one message for each worker; the messages
stand in the queue behind the clients that were dispatched before. As for the server,
`accept` and `close` succeed, also while connections are refused.
-/

namespace FileStorage

/-- `GNL_FSS_WORKER_TERMINATE`, in the queue where the clients stand. -/
def terminate : Pid := (-1970 : Int32).toUInt32

/-- The worker has taken a termination message: it is out of its loop. -/
def Worker.ended (w : Worker) : Bool := w.phase = .reading terminate

/-- The worker is about to tell the master that a client has gone away. -/
def Worker.parts (w : Worker) : Bool := w.phase = .parting

inductive Termination where
  | hard
  | soft
  /-- `select` was interrupted by something else -/
  | failed
  deriving DecidableEq

inductive Stage where
  | running
  /-- in `gnl_fss_thread_pool_destroy`, with the number of messages sent so far -/
  | destroying (why : Termination) (sent : Nat)
  /-- every worker has been joined -/
  | destroyed (why : Termination)
  deriving DecidableEq

/-- The server with the variables of its main thread. -/
structure Process (codec : Codec) where
  server : Server codec
  activeConnections : Int
  softTermination : Bool
  hardTermination : Bool
  stage : Stage

inductive ProcessMove where
  | server (move : Move)
  /-- a connection is closed again in a soft termination -/
  | refuse
  /-- a SIGHUP, or one of the other signals -/
  | signal (hangUp : Bool)
  /-- `select` is interrupted -/
  | interrupted
  /-- a termination message is put into the queue -/
  | dispatchTermination
  | join

def ProcessMove.proceeds : ProcessMove → Bool
  | .signal _ => false
  | _ => true

namespace Process

variable {codec : Codec}

def init (fileSystem : FileSystem codec) (size : Nat) : Process codec where
  server := .init fileSystem size
  activeConnections := 0
  softTermination := false
  hardTermination := false
  stage := .running

/-- The main thread takes part in a step of the server only while it runs, and a worker that
    has ended in none. -/
def allows (s : Process codec) : Move → Bool
  | .accept _ => s.stage = .running && !s.softTermination
  | .dispatch _ | .listen => s.stage = .running
  | .receive index _ => s.server.workers[index]?.all fun w => !w.ended
  | .disconnect _ | .work _ _ => true

def counted (s : Process codec) (move : Move) (server : Server codec) : Process codec :=
  match move with
  | .accept _ => { s with server, activeConnections := s.activeConnections + 1 }
  | .listen =>
      if s.server.pipe.head? = some 0 then { s with
        server
        activeConnections := s.activeConnections - 1
        stage := if s.softTermination ∧ s.activeConnections - 1 = 0 then .destroying .soft 0
          else s.stage }
      else { s with server }
  | _ => { s with server }

/-- What `run_server` does when `select` is interrupted. -/
def interrupt (s : Process codec) : Process codec :=
  if s.hardTermination then { s with stage := .destroying .hard 0 }
  else if s.softTermination then
    if s.activeConnections = 0 then { s with stage := .destroying .soft 0 } else s
  else { s with stage := .destroying .failed 0 }

/-- One step. A message is put into the queue when there is room. -/
def step (s : Process codec) : ProcessMove → Option (Process codec)
  | .server move =>
      if s.allows move then (s.server.step move).map (s.counted move) else none
  | .refuse => if s.stage = .running ∧ s.softTermination then some s else none
  | .signal hangUp =>
      some (if hangUp then { s with softTermination := true }
        else { s with hardTermination := true })
  | .interrupted => if s.stage = .running then some s.interrupt else none
  | .dispatchTermination =>
      match s.stage with
      | .destroying why sent =>
          if sent < s.server.workers.length ∧
              s.server.workerQueue.length < s.server.workers.length then some { s with
            server := { s.server with workerQueue := s.server.workerQueue ++ [terminate] }
            stage := .destroying why (sent + 1) }
          else none
      | _ => none
  | .join =>
      match s.stage with
      | .destroying why sent =>
          if sent = s.server.workers.length ∧ s.server.workers.all Worker.ended then
            some { s with stage := .destroyed why }
          else none
      | _ => none

end Process

def processSystem (codec : Codec) : ActionSystem (Process codec) ProcessMove where
  Enabled s move := (s.step move).isSome
  apply s move := (s.step move).getD s

instance {codec : Codec} (s : Process codec) (move : ProcessMove) :
    Decidable ((processSystem codec).Enabled s move) :=
  inferInstanceAs (Decidable (_ = true))

theorem processSystem_step {codec : Codec} {s : Process codec} {move : ProcessMove}
    (enabled : (processSystem codec).Enabled s move) :
    s.step move = some ((processSystem codec).apply s move) := by
  obtain ⟨s', result⟩ := Option.isSome_iff_exists.mp enabled
  simp only [processSystem, result, Option.getD_some]

/-! ## The counter of the active connections -/

namespace Server

variable {codec : Codec} {s s' s₁ : Server codec} {now : Int} {w w' : Worker}

/-- The connections the master has not heard of the end of: they are open, or their worker
    is about to tell, or has told it. -/
def unheard (s : Server codec) : Nat :=
  s.connections.length + s.workers.countP Worker.parts + s.pipe.count 0

def hears (s : Server codec) : Move → Bool
  | .listen => s.pipe.head? = some 0
  | _ => false

def accepts : Move → Bool
  | .accept _ => true
  | _ => false

theorem Advances.unheard (advances : Advances s now w w' s₁)
    (held : ∀ pid, w.phase.pid? = some pid → pid ≠ 0 ∧ pid ∈ s.connections) :
    s₁.connections.length + (if w'.parts then 1 else 0) + s₁.pipe.count 0 =
      s.connections.length + (if w.parts then 1 else 0) + s.pipe.count 0 := by
  simp only [Worker.parts]
  cases advances with
  | notify =>
      obtain ⟨positive, -⟩ := held _ rfl
      simp [List.count_append, positive]
  | close =>
      obtain ⟨-, connected⟩ := held _ rfl
      have positive := List.length_pos_of_mem connected
      simp only [List.length_erase_of_mem connected]
      simp
      omega
  | part =>
      simp [List.count_append]
      omega
  | _ => simp

theorem step_unheard (accounted : Accounted s) {move : Move} (stepped : s.step move = some s') :
    s'.unheard + (if s.hears move then 1 else 0) =
      s.unheard + if accepts move then 1 else 0 := by
  simp only [Server.unheard]
  cases move with
  | accept new =>
      simp only [step] at stepped
      split at stepped <;> cases stepped
      simp only [hears, accepts, List.length_cons]
      simp
      omega
  | disconnect gone | dispatch gone =>
      simp only [step] at stepped
      split at stepped <;> cases stepped
      rfl
  | listen =>
      simp only [step] at stepped
      split at stepped
      · cases stepped
      · rename_i back rest pipe
        cases stepped
        simp only [hears, accepts, pipe, List.head?_cons, List.count_cons]
        by_cases zero : back = 0 <;> simp [zero]
        omega
  | receive index incoming =>
      obtain ⟨reader, broadcasts, phase, found, received, rfl⟩ := step_receive stepped
      have quiet : Worker.parts ⟨phase, broadcasts⟩ = false := by
        unfold Server.received at received
        split at received
        · cases received
          rfl
        · cases received
          rfl
        · split at received <;> cases received
          rfl
      have counts := Threads.countP_set_add Worker.parts found ⟨phase, broadcasts⟩
      have reading : Worker.parts ⟨.reading reader, broadcasts⟩ = false := rfl
      simp only [quiet, reading, Bool.false_eq_true, if_false] at counts
      simp only [hears, accepts, Bool.false_eq_true, if_false]
      omega
  | work index now =>
      obtain ⟨w, w', s₁, found, advances, rfl⟩ := step_work stepped
      have balance := advances.unheard fun pid holds => by
        obtain ⟨connected, -⟩ := accounted.held (List.mem_of_getElem? found) holds
        exact ⟨accounted.ne_zero connected, connected⟩
      have counts := Threads.countP_set_add Worker.parts found w'
      simp only [hears, accepts, Bool.false_eq_true, if_false]
      change s₁.connections.length + _ + s₁.pipe.count 0 + _ = _
      omega

/-! ## The queue while the pool is destroyed -/

def Bounded (s : Server codec) : Prop := s.workerQueue.length ≤ s.workers.length

/-- The clients that were dispatched come before the messages, and a message is only taken
    when no client is left. -/
def Draining (s : Server codec) (sent : Nat) : Prop :=
  ∃ clients left, s.workerQueue = clients ++ List.replicate left terminate ∧
    terminate ∉ clients ∧ left + s.workers.countP Worker.ended = sent ∧
    (clients ≠ [] → s.workers.countP Worker.ended = 0)

theorem step_workers_length {move : Move} (stepped : s.step move = some s') :
    s'.workers.length = s.workers.length := by
  cases move with
  | accept pid | disconnect pid | dispatch pid | listen =>
      simp only [step] at stepped
      split at stepped <;> cases stepped
      rfl
  | receive index incoming =>
      obtain ⟨_, _, _, -, -, rfl⟩ := step_receive stepped
      exact List.length_set
  | work index now =>
      obtain ⟨_, _, _, -, -, rfl⟩ := step_work stepped
      exact List.length_set

theorem Bounded.step (bounded : Bounded s) {move : Move} (stepped : s.step move = some s') :
    Bounded s' := by
  unfold Bounded
  rw [step_workers_length stepped]
  cases move with
  | accept pid | disconnect pid | listen =>
      simp only [Server.step] at stepped
      split at stepped <;> cases stepped
      exact bounded
  | dispatch pid =>
      simp only [Server.step] at stepped
      split at stepped <;> cases stepped
      rename_i room
      rw [List.length_append]
      exact room.2
  | receive index incoming =>
      obtain ⟨_, _, _, -, -, rfl⟩ := step_receive stepped
      exact bounded
  | work index now =>
      obtain ⟨w, w', s₁, -, advances, rfl⟩ := step_work stepped
      refine le_trans ?_ bounded
      cases advances with
      | dequeue queue => simp [queue]
      | _ => exact le_refl _

theorem asInt_terminate : ¬ 0 < asInt terminate := by decide

/-- Before the pool is destroyed nobody knows of the message. -/
theorem Accounted.draining (accounted : Accounted s) : Draining s 0 := by
  have unknown : s.connections.count terminate = 0 := by
    rw [List.count_eq_zero]
    exact fun connected => asInt_terminate (accounted.positive terminate connected)
  have nowhere := accounted.placed terminate
  rw [unknown, places, shared] at nowhere
  have none_ended : s.workers.countP Worker.ended = 0 := by
    refine Nat.eq_zero_of_le_zero (le_trans (List.countP_mono_left fun w _ ended => ?_)
      (show s.workers.countP (Worker.holding terminate) ≤ 0 by omega))
    have reading : w.phase = .reading terminate := by simpa [Worker.ended] using ended
    simp [Worker.holding, reading, Phase.pid?]
  refine ⟨s.workerQueue, 0, (List.append_nil _).symm, ?_, ?_, fun _ => none_ended⟩
  · exact List.count_eq_zero.mp (by omega)
  · rw [none_ended]

theorem Advances.ended (advances : Advances s now w w' s₁) :
    w.ended = false ∧ ((s₁.workerQueue = s.workerQueue ∧ w'.ended = false) ∨
      ∃ pid, s.workerQueue = pid :: s₁.workerQueue ∧ w'.ended = decide (pid = terminate)) := by
  cases advances with
  | @dequeue pid rest queue =>
      exact ⟨rfl, .inr ⟨pid, queue, by simp [Worker.ended]⟩⟩
  | _ => exact ⟨rfl, .inl ⟨rfl, rfl⟩⟩

theorem Draining.work {sent : Nat} (draining : Draining s sent) {index : Nat}
    (found : s.workers[index]? = some w) (advances : Advances s now w w' s₁) :
    Draining { s₁ with workers := s.workers.set index w' } sent := by
  obtain ⟨clients, left, queue, fresh, count, order⟩ := draining
  have counts := Threads.countP_set_add Worker.ended found w'
  obtain ⟨works, ⟨same, going⟩ | ⟨pid, taken, ended⟩⟩ := advances.ended
  · simp only [works, going, Bool.false_eq_true, if_false, Nat.add_zero] at counts
    refine ⟨clients, left, same.trans queue, fresh, ?_, fun some_ => ?_⟩
    · exact counts ▸ count
    · exact counts ▸ order some_
  · rw [queue] at taken
    cases clients with
    | nil =>
        cases left with
        | zero => cases taken
        | succ left =>
            obtain ⟨rfl, rest⟩ := List.cons.inj taken
            simp only [works, ended, decide_true, Bool.false_eq_true, if_false, if_true] at counts
            refine ⟨[], left, rest.symm, List.not_mem_nil, ?_, fun some_ => absurd rfl some_⟩
            change left + List.countP Worker.ended (s.workers.set index w') = sent
            omega
    | cons client clients =>
        obtain ⟨rfl, rest⟩ := List.cons.inj taken
        have other : client ≠ terminate := fun is => fresh (is ▸ List.mem_cons_self)
        simp only [works, ended, other, decide_false, Bool.false_eq_true, if_false,
          Nat.add_zero] at counts
        have none_ended := order (List.cons_ne_nil _ _)
        refine ⟨clients, left, rest.symm, fun member => fresh (List.mem_cons_of_mem _ member), ?_,
          fun _ => counts.trans none_ended⟩
        exact counts ▸ count

theorem Draining.clients_first {sent : Nat} (draining : Draining s sent) :
    ∀ w ∈ s.workers, w.ended = true → ∀ pid ∈ s.workerQueue, pid = terminate := by
  obtain ⟨clients, left, queue, -, -, order⟩ := draining
  intro w member ended pid queued
  have none_left : clients = [] := by
    by_contra some_
    exact List.countP_eq_zero.mp (order some_) w member ended
  rw [queue, none_left, List.nil_append] at queued
  exact List.eq_of_mem_replicate queued

theorem Draining.receive {sent : Nat} (draining : Draining s sent) {index : Nat} {pid : Pid}
    {broadcasts : List Filename} {phase : Phase}
    (found : s.workers[index]? = some ⟨.reading pid, broadcasts⟩) (other : pid ≠ terminate)
    (going : Worker.ended ⟨phase, broadcasts⟩ = false) :
    Draining { s with workers := s.workers.set index ⟨phase, broadcasts⟩ } sent := by
  obtain ⟨clients, left, queue, fresh, count, order⟩ := draining
  have counts := Threads.countP_set_add Worker.ended found ⟨phase, broadcasts⟩
  have before : Worker.ended ⟨.reading pid, broadcasts⟩ = false := by simp [Worker.ended, other]
  simp only [before, going, Bool.false_eq_true, if_false, Nat.add_zero] at counts
  refine ⟨clients, left, queue, fresh, ?_, fun some_ => ?_⟩
  · exact counts ▸ count
  · exact counts ▸ order some_

theorem Draining.dispatch {sent : Nat} (draining : Draining s sent) :
    Draining { s with workerQueue := s.workerQueue ++ [terminate] } (sent + 1) := by
  obtain ⟨clients, left, queue, fresh, count, order⟩ := draining
  refine ⟨clients, left + 1, ?_, fresh, ?_, order⟩
  · rw [queue, List.append_assoc, List.replicate_succ']
  · rw [← count, Nat.add_right_comm]

end Server

/-! ## Runs of the process -/

namespace Process

open Server

variable {codec : Codec} {s s' : Process codec}

theorem counted_server (s : Process codec) (move : Move) (server : Server codec) :
    (s.counted move server).server = server := by
  unfold counted
  split
  · rfl
  · split <;> rfl
  · rfl

theorem interrupt_server (s : Process codec) : s.interrupt.server = s.server := by
  unfold interrupt
  split
  · rfl
  · split
    · split <;> rfl
    · rfl

/-- A step of the process, one constructor for each way on. -/
inductive Steps (s : Process codec) : ProcessMove → Process codec → Prop where
  | server {move server} : s.allows move = true → s.server.step move = some server →
      Steps s (.server move) (s.counted move server)
  | refuse : s.stage = .running → Steps s .refuse s
  | hangUp : Steps s (.signal true) { s with softTermination := true }
  | quit : Steps s (.signal false) { s with hardTermination := true }
  | interrupted : s.stage = .running → Steps s .interrupted s.interrupt
  | dispatchTermination {why sent} : s.stage = .destroying why sent →
      sent < s.server.workers.length → s.server.workerQueue.length < s.server.workers.length →
      Steps s .dispatchTermination { s with
        server := { s.server with workerQueue := s.server.workerQueue ++ [terminate] }
        stage := .destroying why (sent + 1) }
  | join {why sent} : s.stage = .destroying why sent → sent = s.server.workers.length →
      (∀ w ∈ s.server.workers, w.ended = true) → Steps s .join { s with stage := .destroyed why }

theorem steps_of_step {move : ProcessMove} (stepped : s.step move = some s') :
    Steps s move s' := by
  cases move with
  | server move =>
      simp only [step] at stepped
      split at stepped
      · rename_i allowed
        obtain ⟨server, result, rfl⟩ := Option.map_eq_some_iff.mp stepped
        exact .server allowed result
      · cases stepped
  | refuse =>
      simp only [step] at stepped
      split at stepped <;> cases stepped
      rename_i running
      exact .refuse running.1
  | signal hangUp =>
      cases stepped
      cases hangUp with
      | true => exact .hangUp
      | false => exact .quit
  | interrupted =>
      simp only [step] at stepped
      split at stepped <;> cases stepped
      rename_i running
      exact .interrupted running
  | dispatchTermination =>
      simp only [step] at stepped
      split at stepped
      · rename_i destroying
        split at stepped <;> cases stepped
        rename_i room
        exact .dispatchTermination destroying room.1 room.2
      · cases stepped
  | join =>
      simp only [step] at stepped
      split at stepped
      · rename_i destroying
        split at stepped <;> cases stepped
        rename_i done
        exact .join destroying done.1 (List.all_eq_true.mp done.2)
      · cases stepped

/-- Nobody is connected, and no worker has anything to do but to end. -/
structure Quiet (s : Server codec) : Prop where
  connections : s.connections = []
  selectSet : s.selectSet = []
  pipe : s.pipe = []
  presence : s.waitingList.presenceList = []
  queue : ∀ pid ∈ s.workerQueue, pid = terminate
  workers : ∀ w ∈ s.workers, w.phase = .ready ∨ w = ⟨.reading terminate, []⟩

def Sound (s : Process codec) : Prop :=
  Bounded s.server ∧
  match s.stage with
  | .running => Accounted s.server ∧ s.activeConnections = s.server.unheard
  | .destroying why sent =>
      Draining s.server sent ∧ sent ≤ s.server.workers.length ∧ (why = .soft → Quiet s.server)
  | .destroyed why =>
      Draining s.server s.server.workers.length ∧ (∀ w ∈ s.server.workers, w.ended = true) ∧
        (why = .soft → Quiet s.server)

theorem sound_init (fileSystem : FileSystem codec) (size : Nat) :
    Sound (init fileSystem size) := by
  refine ⟨Nat.zero_le _, accounted_init fileSystem size, ?_⟩
  have idle : (List.replicate size Worker.idle).countP Worker.parts = 0 := by
    rw [List.countP_eq_zero]
    intro w member
    rw [List.eq_of_mem_replicate member]
    exact Bool.false_ne_true
  simp [init, Server.init, Server.unheard, idle]

/-- When the counter is 0, every client has been seen off. -/
theorem quiet_of_unheard {s : Server codec} (accounted : Accounted s) (none_ : s.unheard = 0) :
    Quiet s := by
  rw [Server.unheard] at none_
  have closed : s.connections = [] := List.length_eq_zero_iff.mp (by omega)
  have nowhere : ∀ pid, s.places pid = 0 := by
    intro pid
    have placed := accounted.placed pid
    rw [closed] at placed
    exact Nat.le_zero.mp placed
  have shared : ∀ pid, s.selectSet.count pid = 0 ∧ s.workerQueue.count pid = 0 ∧
      s.waitingList.presenceList.count pid = 0 ∧ s.pipe.count pid = 0 := by
    intro pid
    have placed := nowhere pid
    rw [places, Server.shared] at placed
    refine ⟨by omega, by omega, by omega, ?_⟩
    by_cases zero : pid = 0
    · subst zero
      omega
    · rw [if_neg zero] at placed
      omega
  have empty : ∀ list : List Pid, (∀ pid, list.count pid = 0) → list = [] := by
    intro list counts
    exact List.eq_nil_iff_forall_not_mem.mpr fun pid => List.count_eq_zero.mp (counts pid)
  refine ⟨closed, empty _ fun pid => (shared pid).1, empty _ fun pid => (shared pid).2.2.2,
    empty _ fun pid => (shared pid).2.2.1, ?_, fun w member => .inl ?_⟩
  · rw [empty s.workerQueue fun pid => (shared pid).2.1]
    exact fun pid member => absurd member List.not_mem_nil
  · have free : w.phase.pid? = none := by
      cases holds : w.phase.pid? with
      | none => rfl
      | some pid =>
          have held := (accounted.held member holds).1
          rw [closed] at held
          exact absurd held List.not_mem_nil
    have quiet : Worker.parts w = false := by
      have zero : s.workers.countP Worker.parts = 0 := by omega
      simpa using List.countP_eq_zero.mp zero w member
    obtain ⟨phase, broadcasts⟩ := w
    cases phase with
    | ready => rfl
    | parting => cases quiet
    | _ => cases free

theorem allows_outside {move : Move} (outside : s.stage ≠ .running)
    (allowed : s.allows move = true) : (∃ pid, move = .disconnect pid) ∨
      (∃ index incoming, move = .receive index incoming ∧
        ∀ w, s.server.workers[index]? = some w → w.ended = false) ∨
      ∃ index now, move = .work index now := by
  cases move with
  | accept pid => simp [allows, outside] at allowed
  | dispatch pid | listen => simp [allows, outside] at allowed
  | disconnect pid => exact .inl ⟨pid, rfl⟩
  | receive index incoming =>
      refine .inr (.inl ⟨index, incoming, rfl, fun w found => ?_⟩)
      simpa [allows, found] using allowed
  | work index now => exact .inr (.inr ⟨index, now, rfl⟩)

theorem counted_outside {move : Move} (outside : s.stage ≠ .running)
    (allowed : s.allows move = true) (server : Server codec) :
    s.counted move server = { s with server } := by
  rcases allows_outside outside allowed with ⟨_, rfl⟩ | ⟨_, _, rfl, -⟩ | ⟨_, _, rfl⟩ <;> rfl

theorem not_ended_of_received {s : Server codec} {pid : Pid} {incoming : Incoming} {phase : Phase}
    {broadcasts : List Filename} (received : s.received pid incoming = some phase) :
    Worker.ended ⟨phase, broadcasts⟩ = false := by
  unfold Server.received at received
  split at received
  · cases received
    rfl
  · cases received
    rfl
  · split at received <;> cases received
    rfl

theorem draining_outside {move : Move} {server : Server codec} {sent : Nat}
    (draining : Draining s.server sent) (outside : s.stage ≠ .running)
    (allowed : s.allows move = true) (stepped : s.server.step move = some server) :
    Draining server sent := by
  rcases allows_outside outside allowed with ⟨pid, rfl⟩ | ⟨index, incoming, rfl, going⟩ |
    ⟨index, now, rfl⟩
  · simp only [Server.step] at stepped
    split at stepped <;> cases stepped
    exact draining
  · obtain ⟨pid, broadcasts, phase, found, received, rfl⟩ := step_receive stepped
    refine draining.receive found ?_ (not_ended_of_received received)
    simpa [Worker.ended] using going _ found
  · obtain ⟨w, w', s₁, found, advances, rfl⟩ := step_work stepped
    exact draining.work found advances

theorem Quiet.set {s : Server codec} (quiet : Quiet s) {index : Nat} {w : Worker}
    (idle : w.phase = .ready ∨ w = ⟨.reading terminate, []⟩) :
    Quiet { s with workers := s.workers.set index w } where
  connections := quiet.connections
  selectSet := quiet.selectSet
  pipe := quiet.pipe
  presence := quiet.presence
  queue := quiet.queue
  workers := by
    intro u member
    rcases Threads.mem_of_mem_set member with rfl | ⟨other, -, elsewhere⟩
    · exact idle
    · exact quiet.workers u (List.mem_of_getElem? elsewhere)

theorem Quiet.advances {s s₁ : Server codec} {now : Int} {w w' : Worker} (quiet : Quiet s)
    (member : w ∈ s.workers) (advances : Advances s now w w' s₁) :
    (∃ target outer, w = ⟨.ready, target :: outer⟩ ∧ w' = ⟨.ready, outer⟩ ∧
      s₁ = { s with waitingList := (s.waitingList.pop target).2 }) ∨
    ∃ rest, w = ⟨.ready, []⟩ ∧ w' = ⟨.reading terminate, []⟩ ∧
      s.workerQueue = terminate :: rest ∧ s₁ = { s with workerQueue := rest } := by
  have idle := quiet.workers w member
  cases advances with
  | @dequeue pid rest queue =>
      have is : pid = terminate := quiet.queue pid (queue ▸ List.mem_cons_self)
      subst is
      exact .inr ⟨rest, rfl, rfl, queue, rfl⟩
  | @done target outer none_ => exact .inl ⟨target, outer, rfl, rfl, rfl⟩
  | pop popped =>
      have present := WaitingList.mem_presenceList_of_popped popped
      rw [quiet.presence] at present
      exact absurd present List.not_mem_nil
  | _ =>
      rcases idle with ready | ending
      · cases ready
      · cases ending

theorem Quiet.work {s s₁ : Server codec} {now : Int} {w w' : Worker} (quiet : Quiet s)
    {index : Nat} (found : s.workers[index]? = some w) (advances : Advances s now w w' s₁) :
    Quiet { s₁ with workers := s.workers.set index w' } := by
  obtain ⟨target, outer, rfl, rfl, rfl⟩ | ⟨rest, rfl, rfl, queue, rfl⟩ :=
    quiet.advances (List.mem_of_getElem? found) advances
  · have presence : (s.waitingList.pop target).2.presenceList = [] := by
      refine List.eq_nil_iff_forall_not_mem.mpr fun pid => List.count_eq_zero.mp ?_
      have count := s.waitingList.count_pop target pid
      rw [quiet.presence, List.count_nil] at count
      omega
    exact { quiet.set (.inl rfl) with presence }
  · exact { quiet.set (.inr rfl) with
      queue := fun pid member => quiet.queue pid (queue ▸ List.mem_cons_of_mem _ member) }

theorem quiet_outside {move : Move} {server : Server codec} (quiet : Quiet s.server)
    (outside : s.stage ≠ .running) (allowed : s.allows move = true)
    (stepped : s.server.step move = some server) : Quiet server := by
  rcases allows_outside outside allowed with ⟨pid, rfl⟩ | ⟨index, incoming, rfl, going⟩ |
    ⟨index, now, rfl⟩
  · simp only [Server.step, quiet.connections] at stepped
    cases stepped
  · obtain ⟨pid, broadcasts, phase, found, -, -⟩ := step_receive stepped
    rcases quiet.workers _ (List.mem_of_getElem? found) with ready | ending
    · cases ready
    · cases ending
      exact absurd (going _ found) (by decide)
  · obtain ⟨w, w', s₁, found, advances, rfl⟩ := step_work stepped
    exact quiet.work found advances

/-- The counter follows the connections, and the loop ends only when there are none. -/
theorem sound_counted {move : Move} {server : Server codec} (running : s.stage = .running)
    (accounted : Accounted s.server) (exact_ : s.activeConnections = s.server.unheard)
    (bounded : Bounded server) (stepped : s.server.step move = some server) :
    Sound (s.counted move server) := by
  have accounted' := accounted.step stepped
  have unheard := step_unheard accounted stepped
  cases move with
  | accept pid =>
      simp only [hears, accepts, Bool.false_eq_true, if_false, if_true] at unheard
      refine ⟨bounded, ?_⟩
      simp only [counted, running]
      exact ⟨accounted', by omega⟩
  | listen =>
      simp only [hears, accepts, Bool.false_eq_true, if_false, decide_eq_true_eq] at unheard
      by_cases zero : s.server.pipe.head? = some 0
      · rw [if_pos zero] at unheard
        simp only [counted, if_pos zero]
        refine ⟨bounded, ?_⟩
        by_cases ends : s.softTermination ∧ s.activeConnections - 1 = 0
        · simp only [if_pos ends]
          exact ⟨accounted'.draining, Nat.zero_le _,
            fun _ => quiet_of_unheard accounted' (by omega)⟩
        · simp only [if_neg ends, running]
          exact ⟨accounted', by omega⟩
      · rw [if_neg zero] at unheard
        simp only [counted, if_neg zero]
        refine ⟨bounded, ?_⟩
        simp only [running]
        exact ⟨accounted', by omega⟩
  | disconnect _ | dispatch _ | receive _ _ | work _ _ =>
      simp only [hears, accepts, Bool.false_eq_true, if_false] at unheard
      refine ⟨bounded, ?_⟩
      simp only [counted, running]
      exact ⟨accounted', by omega⟩

theorem sound_interrupt (running : s.stage = .running) (sound : Sound s) :
    Sound s.interrupt := by
  have holds := sound.2
  simp only [running] at holds
  obtain ⟨accounted, exact_⟩ := holds
  unfold interrupt
  split
  · exact ⟨sound.1, accounted.draining, Nat.zero_le _, fun soft => by cases soft⟩
  · split
    · split
      · rename_i zero
        refine ⟨sound.1, accounted.draining, Nat.zero_le _, fun _ => ?_⟩
        have none_ : s.server.unheard = 0 := by omega
        exact quiet_of_unheard accounted none_
      · exact sound
    · exact ⟨sound.1, accounted.draining, Nat.zero_le _, fun soft => by cases soft⟩

/-- The workers go on while the messages are sent. -/
theorem sound_outside {move : Move} {server : Server codec} (sound : Sound s)
    (outside : s.stage ≠ .running) (allowed : s.allows move = true)
    (stepped : s.server.step move = some server) : Sound (s.counted move server) := by
  have size := step_workers_length stepped
  rw [counted_outside outside allowed]
  refine ⟨sound.1.step stepped, ?_⟩
  have holds := sound.2
  cases stage : s.stage with
  | running => exact absurd stage outside
  | destroying why sent =>
      simp only [stage] at holds
      obtain ⟨draining, within, quiet⟩ := holds
      simp only [size]
      exact ⟨draining_outside draining outside allowed stepped, within,
        fun soft => quiet_outside (quiet soft) outside allowed stepped⟩
  | destroyed why =>
      simp only [stage] at holds
      obtain ⟨draining, ended, quiet⟩ := holds
      simp only [size]
      refine ⟨draining_outside draining outside allowed stepped, ?_,
        fun soft => quiet_outside (quiet soft) outside allowed stepped⟩
      rcases allows_outside outside allowed with ⟨pid, rfl⟩ | ⟨index, incoming, rfl, going⟩ |
        ⟨index, now, rfl⟩
      · simp only [Server.step] at stepped
        split at stepped <;> cases stepped
        exact ended
      · obtain ⟨pid, broadcasts, phase, found, -, -⟩ := step_receive stepped
        have over_ := ended _ (List.mem_of_getElem? found)
        rw [going _ found] at over_
        cases over_
      · obtain ⟨w, w', s₁, found, advances, -⟩ := step_work stepped
        have over_ := ended _ (List.mem_of_getElem? found)
        rw [advances.ended.1] at over_
        cases over_

theorem Quiet.dispatch {s : Server codec} (quiet : Quiet s) :
    Quiet { s with workerQueue := s.workerQueue ++ [terminate] } :=
  { quiet with
    queue := fun pid member => by
      rcases List.mem_append.mp member with before | last
      · exact quiet.queue pid before
      · exact List.mem_singleton.mp last }

theorem Sound.step (sound : Sound s) {move : ProcessMove} (stepped : s.step move = some s') :
    Sound s' := by
  cases steps_of_step stepped with
  | @server move server allowed result =>
      cases stage : s.stage with
      | running =>
          have holds := sound.2
          simp only [stage] at holds
          exact sound_counted stage holds.1 holds.2 (sound.1.step result) result
      | destroying why sent =>
          exact sound_outside sound (fun is => by cases stage.symm.trans is) allowed result
      | destroyed why =>
          exact sound_outside sound (fun is => by cases stage.symm.trans is) allowed result
  | refuse running => exact sound
  | hangUp => exact sound
  | quit => exact sound
  | interrupted running => exact sound_interrupt running sound
  | dispatchTermination destroying few room =>
      have holds := sound.2
      simp only [destroying] at holds
      obtain ⟨draining, within, quiet⟩ := holds
      refine ⟨?_, draining.dispatch, few, fun soft => (quiet soft).dispatch⟩
      unfold Bounded
      rw [List.length_append]
      exact room
  | join destroying all_ ended =>
      have holds := sound.2
      simp only [destroying] at holds
      obtain ⟨draining, within, quiet⟩ := holds
      exact ⟨sound.1, all_ ▸ draining, ended, quiet⟩

theorem sound_of_trace {fileSystem : FileSystem codec} {size : Nat} {moves : List ProcessMove}
    (run : (processSystem codec).Trace (init fileSystem size) moves s) : Sound s := by
  have step : ∀ (s : Process codec) (move : ProcessMove), Sound s →
      (processSystem codec).Enabled s move → True → Sound ((processSystem codec).apply s move) :=
    fun _ _ sound enabled _ => sound.step (processSystem_step enabled)
  exact run.keeps step (.of_forall fun _ _ _ => trivial) (sound_init fileSystem size)

end Process

end FileStorage
