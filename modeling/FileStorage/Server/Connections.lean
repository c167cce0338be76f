import FileStorage.Lib.Threads
import FileStorage.Server.Server

/-! # Where the connections are

A connection is handed from the select set to the queue, to a worker, to the pipe
and back to the select set, or it is parked in the waiting list on its way. No step
makes two of one. The one step that drops a connection is the end of `handle_error`
for a client that the error cannot be sent to: the master is not told about it.
-/

namespace FileStorage

namespace WaitingList

variable {ρ : Type} {w : WaitingList ρ}

theorem mem_presenceList_of_popped {target : Filename} {el : Waiting ρ}
    (popped : (w.pop target).1 = some el) : el.pid ∈ w.presenceList := by
  rw [pop_fst] at popped
  obtain ⟨-, -, -, valid, -⟩ := dequeueValid_spec w.presenceList (w.queueOf target)
  exact valid el popped

theorem count_push (w : WaitingList ρ) (target : Filename) (pid : Pid) (request : ρ) (other : Pid) :
    (w.push target pid request).presenceList.count other =
      w.presenceList.count other + if pid = other then 1 else 0 := by
  simp [push, List.count_append, List.count_singleton]

theorem count_pop (w : WaitingList ρ) (target : Filename) (other : Pid) :
    (w.pop target).2.presenceList.count other +
      (w.pop target).1.elim 0 (fun el => if el.pid = other then 1 else 0) =
      w.presenceList.count other := by
  rw [pop_presenceList]
  cases popped : (w.pop target).1 with
  | none => rfl
  | some el =>
      have member := mem_presenceList_of_popped popped
      have positive := List.count_pos_iff.mpr member
      simp only [Option.elim_some, List.count_erase, beq_iff_eq]
      split
      · rename_i same
        subst same
        omega
      · omega

theorem count_remove (w : WaitingList ρ) (pid other : Pid) :
    (w.remove pid).presenceList.count other =
      if pid = other then 0 else w.presenceList.count other := by
  simp only [remove]
  split
  · rename_i same
    subst same
    rw [List.count_eq_zero]
    simp
  · rename_i different
    exact List.count_filter (by simpa using Ne.symm different)

theorem queued_pop_le (w : WaitingList ρ) (target : Filename) (pid : Pid) :
    queued pid (w.pop target).2.targetList ≤ queued pid w.targetList := by
  simp only [pop]
  cases found : w.targetList.find? fun el => el.target = target with
  | none => exact Nat.le_refl _
  | some queue =>
      have counts := queued_changeQueue pid target
        (fun _ => (dequeueValid w.presenceList queue.queue).2) found
      obtain ⟨skipped, -, split, -, -⟩ := dequeueValid_spec w.presenceList queue.queue
      have parts := congrArg (List.countP fun el => decide (el.pid = pid)) split
      rw [List.countP_append, List.countP_append] at parts
      simp only at counts ⊢
      omega

theorem filed_pop (filed : ∀ pid, queued pid w.targetList = w.presenceList.count pid)
    (target : Filename) (pid : Pid) :
    queued pid (w.pop target).2.targetList = (w.pop target).2.presenceList.count pid := by
  have count := w.count_pop target pid
  have before := filed pid
  by_cases present : pid ∈ w.presenceList
  · have entries := w.queued_pop target pid present
    omega
  · have fewer := w.queued_pop_le target pid
    rw [List.count_eq_zero.mpr present] at count before
    omega

end WaitingList

def Worker.holding (pid : Pid) (w : Worker) : Bool := w.phase.pid? = some pid

/-- The client that a worker drops when it goes on: the error cannot be sent, and
    the message to the master is left out. -/
def Worker.drops (gone : List Pid) (w : Worker) : Option Pid :=
  match w.phase with
  | .failing pid _ => if pid ∈ gone then some pid else none
  | _ => none

namespace Server

variable {codec : Codec} {s s' : Server codec} {now : Int} {w w' : Worker}

/-- How often a client is in the select set, the queue, the waiting list and the
    pipe, where a 0 is no client. -/
def shared (s : Server codec) (pid : Pid) : Nat :=
  s.selectSet.count pid + s.workerQueue.count pid + s.waitingList.presenceList.count pid +
    if pid = 0 then 0 else s.pipe.count pid

def places (s : Server codec) (pid : Pid) : Nat :=
  s.shared pid + s.workers.countP (Worker.holding pid)

def drops (s : Server codec) : Move → Option Pid
  | .work index _ => s.workers[index]?.bind (Worker.drops s.gone)
  | _ => none

/-- Every client is in at most one place, and only if it is connected. The presence
    list counts the entries in the queues of the waiting list. -/
structure Accounted (s : Server codec) : Prop where
  positive : ∀ pid ∈ s.connections, 0 < asInt pid
  nodup : s.connections.Nodup
  placed : ∀ pid, s.places pid ≤ s.connections.count pid
  filed : ∀ pid, WaitingList.queued pid s.waitingList.targetList =
    s.waitingList.presenceList.count pid

variable {pid : Pid}

theorem Accounted.count_le_one (accounted : Accounted s) (pid : Pid) : s.places pid ≤ 1 :=
  (accounted.placed pid).trans (List.nodup_iff_count_le_one.mp accounted.nodup pid)

theorem Accounted.connected (accounted : Accounted s) (somewhere : 0 < s.places pid) :
    pid ∈ s.connections :=
  List.count_pos_iff.mp (somewhere.trans_le (accounted.placed pid))

theorem Accounted.ne_zero (accounted : Accounted s) (connected : pid ∈ s.connections) :
    pid ≠ 0 := by
  rintro rfl
  simpa using accounted.positive 0 connected

theorem Accounted.held (accounted : Accounted s) (member : w ∈ s.workers)
    (holds : w.phase.pid? = some pid) : pid ∈ s.connections ∧ s.shared pid = 0 := by
  have positive : 0 < s.workers.countP (Worker.holding pid) :=
    List.countP_pos_iff.mpr ⟨w, member, by simp [Worker.holding, holds]⟩
  have one := accounted.count_le_one pid
  rw [places] at one
  refine ⟨accounted.connected ?_, by omega⟩
  rw [places]
  omega

/-! ## One step -/

theorem Advances.balance {s₁ : Server codec} (advances : Advances s now w w' s₁)
    (held : ∀ pid, w.phase.pid? = some pid →
      pid ≠ 0 ∧ pid ∈ s.connections ∧ s.waitingList.presenceList.count pid = 0) (pid : Pid) :
    s₁.shared pid + (if w'.holding pid then 1 else 0) + s.connections.count pid +
      (if w.drops s.gone = some pid then 1 else 0) =
    s.shared pid + (if w.holding pid then 1 else 0) + s₁.connections.count pid := by
  simp only [shared, Worker.holding, Worker.drops]
  cases advances with
  | dequeue queue =>
      simp only [queue, Phase.pid?, List.count_cons]
      grind
  | @done target _ none_ =>
      have count := s.waitingList.count_pop target pid
      rw [none_] at count
      simp only [Phase.pid?]
      grind
  | @pop target _ el popped =>
      have count := s.waitingList.count_pop target pid
      rw [popped] at count
      simp only [Phase.pid?]
      grind
  | subscribe =>
      simp only [WaitingList.count_push, Phase.pid?]
      grind
  | notify =>
      obtain ⟨positive, -, -⟩ := held _ rfl
      simp only [Phase.pid?, List.count_append, List.count_singleton]
      grind
  | lose gone =>
      simp only [Phase.pid?, if_pos gone]
      grind
  | errorSent here =>
      simp only [Phase.pid?, if_neg here]
      grind
  | unsubscribe =>
      obtain ⟨-, -, absent⟩ := held _ rfl
      simp only [WaitingList.count_remove, Phase.pid?]
      grind
  | close =>
      obtain ⟨-, connected, -⟩ := held _ rfl
      have positive := List.count_pos_iff.mpr connected
      simp only [Phase.pid?, List.count_erase]
      grind
  | part =>
      simp only [Phase.pid?, List.count_append, List.count_singleton]
      grind
  | answer | wait | wake | waitAgain | busy | unsubscribable | succeeded | respond | sent | unsent
  | leave =>
      simp only [Phase.pid?]
      grind

theorem Advances.filed {s₁ : Server codec} (advances : Advances s now w w' s₁)
    (held : ∀ pid, w.phase.pid? = some pid → s.waitingList.presenceList.count pid = 0)
    (filed : ∀ pid, WaitingList.queued pid s.waitingList.targetList =
      s.waitingList.presenceList.count pid) (pid : Pid) :
    WaitingList.queued pid s₁.waitingList.targetList = s₁.waitingList.presenceList.count pid := by
  cases advances with
  | done | pop => exact WaitingList.filed_pop filed _ pid
  | subscribe => rw [WaitingList.queued_push, WaitingList.count_push, filed]
  | @unsubscribe holder _ =>
      have absent := held holder rfl
      rw [WaitingList.count_remove]
      split
      · rename_i same
        exact same ▸ (filed holder).trans absent
      · exact filed pid
  | _ => exact filed pid

/-- A step moves clients from place to place, apart from the one it accepts, the
    one it closes and the one it drops. -/
theorem step_balance (accounted : Accounted s) {move : Move} (stepped : s.step move = some s')
    (pid : Pid) : s'.places pid + s.connections.count pid +
      (if s.drops move = some pid then 1 else 0) = s.places pid + s'.connections.count pid := by
  cases move with
  | accept new =>
      simp only [step] at stepped
      split at stepped
      · rename_i fresh
        cases stepped
        have nowhere : s.selectSet.count new = 0 := by
          have placed := accounted.placed new
          rw [List.count_eq_zero.mpr fresh.2, places, shared] at placed
          omega
        have absent := List.count_eq_zero.mp nowhere
        simp only [places, shared, drops, List.insert_of_not_mem absent, List.count_cons]
        grind
      · cases stepped
  | disconnect gone =>
      simp only [step] at stepped
      split at stepped
      · cases stepped
        rfl
      · cases stepped
  | dispatch ready =>
      simp only [step] at stepped
      split at stepped
      · rename_i member
        cases stepped
        have positive := List.count_pos_iff.mpr member.1
        simp only [places, shared, drops, List.count_erase, List.count_append, List.count_singleton]
        grind
      · cases stepped
  | listen =>
      simp only [step] at stepped
      split at stepped
      · cases stepped
      · rename_i back rest pipe
        cases stepped
        have one := accounted.count_le_one back
        rw [places, shared, pipe, List.count_cons_self] at one
        by_cases zero : back = 0
        · simp only [places, shared, drops, pipe, if_pos zero, List.count_cons]
          grind
        · rw [if_neg zero] at one
          have absent : back ∉ s.selectSet := List.count_eq_zero.mp (by omega)
          simp only [places, shared, drops, pipe, if_neg zero, List.insert_of_not_mem absent,
            List.count_cons]
          grind
  | receive index incoming =>
      obtain ⟨reader, broadcasts, phase, found, received, rfl⟩ := step_receive stepped
      have same : phase.pid? = some reader := by
        unfold Server.received at received
        split at received
        · cases received
          rfl
        · cases received
          rfl
        · split at received <;> cases received
          rfl
      have holds : Worker.holding pid ⟨phase, broadcasts⟩ =
          Worker.holding pid ⟨.reading reader, broadcasts⟩ := by
        rw [Worker.holding, same]
        rfl
      have hands := Threads.countP_set_add (Worker.holding pid) found ⟨phase, broadcasts⟩
      rw [holds] at hands
      simp only [places, shared, drops, reduceCtorEq, if_false]
      omega
  | work index now =>
      obtain ⟨w, w', s₁, found, advances, rfl⟩ := step_work stepped
      have member := List.mem_of_getElem? found
      have balance := advances.balance (fun holder holds => by
        obtain ⟨connected, apart⟩ := accounted.held member holds
        rw [shared] at apart
        exact ⟨accounted.ne_zero connected, connected, by omega⟩) pid
      have hands := Threads.countP_set_add (Worker.holding pid) found w'
      simp only [places, drops, found, Option.bind_some]
      change s₁.shared pid + _ + _ + _ = _
      omega

theorem accounted_init (fileSystem : FileSystem codec) (size : Nat) :
    Accounted (init fileSystem size) where
  positive := nofun
  nodup := List.nodup_nil
  placed := by
    intro pid
    have idle : (List.replicate size Worker.idle).countP (Worker.holding pid) = 0 := by
      rw [List.countP_eq_zero]
      intro w member
      rw [List.eq_of_mem_replicate member]
      simp [Worker.holding, Worker.idle, Phase.pid?]
    simp [places, shared, init, idle, WaitingList.init]
  filed := fun _ => rfl

/-- Connections are only added by an `accept` and only taken away by a worker that
    closes the one it holds. -/
theorem step_connections {move : Move} (stepped : s.step move = some s') :
    s'.connections = s.connections ∨
      (∃ pid, 0 < asInt pid ∧ pid ∉ s.connections ∧ s'.connections = pid :: s.connections) ∨
      ∃ pid, s'.connections = s.connections.erase pid := by
  cases move with
  | accept new =>
      simp only [step] at stepped
      split at stepped
      · rename_i fresh
        cases stepped
        exact .inr (.inl ⟨new, fresh.1, fresh.2, rfl⟩)
      · cases stepped
  | disconnect gone =>
      simp only [step] at stepped
      split at stepped <;> cases stepped
      exact .inl rfl
  | dispatch ready =>
      simp only [step] at stepped
      split at stepped <;> cases stepped
      exact .inl rfl
  | listen =>
      simp only [step] at stepped
      split at stepped <;> cases stepped
      exact .inl rfl
  | receive index incoming =>
      obtain ⟨reader, broadcasts, phase, -, -, rfl⟩ := step_receive stepped
      exact .inl rfl
  | work index now =>
      obtain ⟨w, w', s₁, -, advances, rfl⟩ := step_work stepped
      cases advances with
      | close => exact .inr (.inr ⟨_, rfl⟩)
      | _ => exact .inl rfl

theorem step_filed (accounted : Accounted s) {move : Move} (stepped : s.step move = some s')
    (pid : Pid) : WaitingList.queued pid s'.waitingList.targetList =
      s'.waitingList.presenceList.count pid := by
  cases move with
  | accept new | disconnect new | dispatch new | listen =>
      simp only [step] at stepped
      split at stepped <;> cases stepped
      exact accounted.filed pid
  | receive index incoming =>
      obtain ⟨reader, broadcasts, phase, -, -, rfl⟩ := step_receive stepped
      exact accounted.filed pid
  | work index now =>
      obtain ⟨w, w', s₁, found, advances, rfl⟩ := step_work stepped
      refine advances.filed (fun holder holds => ?_) accounted.filed pid
      have apart := (accounted.held (List.mem_of_getElem? found) holds).2
      rw [shared] at apart
      omega

theorem Accounted.step (accounted : Accounted s) {move : Move} (stepped : s.step move = some s') :
    Accounted s' := by
  have placed : ∀ pid, s'.places pid ≤ s'.connections.count pid := by
    intro pid
    have balance := step_balance accounted stepped pid
    have before := accounted.placed pid
    omega
  have filed := step_filed accounted stepped
  rcases step_connections stepped with same | ⟨new, positive, fresh, added⟩ | ⟨old, closed⟩
  · exact ⟨same ▸ accounted.positive, same ▸ accounted.nodup, placed, filed⟩
  · refine ⟨?_, ?_, placed, filed⟩
    · rw [added]
      exact List.forall_mem_cons.mpr ⟨positive, accounted.positive⟩
    · rw [added]
      exact List.nodup_cons.mpr ⟨fresh, accounted.nodup⟩
  · refine ⟨fun pid member => ?_, ?_, placed, filed⟩
    · rw [closed] at member
      exact accounted.positive pid (List.mem_of_mem_erase member)
    · rw [closed]
      exact accounted.nodup.erase old

def AnyMove : Server codec → Move → Prop := fun _ _ => True

theorem meets_anyMove (s : Server codec) (moves : List Move) :
    (serverSystem codec).Meets AnyMove s moves :=
  .of_forall fun _ _ _ => trivial

/-- No client is dropped: the error that follows a failed answer, or an unreadable
    request, is sent to a client that is still there. -/
def KeepsClient (s : Server codec) (move : Move) : Prop := s.drops move = none

instance (s : Server codec) (move : Move) : Decidable (KeepsClient s move) :=
  inferInstanceAs (Decidable (_ = none))

/-- Every client is in one place exactly if it is connected. -/
def Conserved (s : Server codec) : Prop :=
  Accounted s ∧ ∀ pid, s.places pid = s.connections.count pid

theorem conserved_init (fileSystem : FileSystem codec) (size : Nat) :
    Conserved (init fileSystem size) := by
  have accounted := accounted_init fileSystem size
  refine ⟨accounted, fun pid => Nat.le_antisymm (accounted.placed pid) ?_⟩
  exact Nat.zero_le _

theorem Conserved.step (conserved : Conserved s) {move : Move} (keeps : KeepsClient s move)
    (stepped : s.step move = some s') : Conserved s' := by
  obtain ⟨accounted, placed⟩ := conserved
  refine ⟨accounted.step stepped, fun pid => ?_⟩
  have balance := step_balance accounted stepped pid
  rw [keeps, if_neg (by simp), placed pid] at balance
  omega

end Server

open Server

variable {codec : Codec}

/-- Along the runs in which no error has to be sent to a client that has
    disconnected, every connection that is not closed is in exactly one place, and
    it is in the waiting list as often as there are entries for it. -/
theorem connection_in_one_place (fileSystem : FileSystem codec) (size : Nat) (moves : List Move)
    (s : Server codec) (run : (serverSystem codec).Trace (.init fileSystem size) moves s)
    (keeps : (serverSystem codec).Meets KeepsClient (.init fileSystem size) moves) :
    ∀ pid ∈ s.connections, s.places pid = 1 ∧
      s.waitingList.presenceList.count pid =
        WaitingList.queued pid s.waitingList.targetList := by
  have step : ∀ (s : Server codec) (move : Move), Conserved s →
      (serverSystem codec).Enabled s move → KeepsClient s move →
      Conserved ((serverSystem codec).apply s move) :=
    fun _ _ conserved enabled keeps => conserved.step keeps (serverSystem_step enabled)
  obtain ⟨accounted, placed⟩ := run.keeps step keeps (conserved_init fileSystem size)
  intro pid connected
  refine ⟨?_, (accounted.filed pid).symm⟩
  rw [placed pid]
  exact List.count_eq_one_of_mem accounted.nodup connected

def oneWorker : Server huffmanCodec := .init (.init 1 4 .fifo) 1

/-- A client creates and locks a file, another one has to wait for it. -/
def parkedMoves : List Move :=
  [.accept 5, .accept 6] ++ Move.serve 0 5 (.OPEN ⟨some (.upToNul [102]), 3⟩) 4 1 ++
    Move.serve 0 6 (.OPEN ⟨some (.upToNul [102]), 0⟩) 3 2

theorem connection_in_one_place_parked :
    ∃ s, (serverSystem huffmanCodec).Trace oneWorker parkedMoves s ∧
      (serverSystem huffmanCodec).Meets KeepsClient oneWorker parkedMoves ∧
      s.waitingList.presenceList = [6] ∧ s.places 6 = 1 ∧ s.pipe = [5] ∧ s.places 5 = 1 := by
  have enabled : (serverSystem huffmanCodec).Meets (serverSystem huffmanCodec).Enabled oneWorker
      parkedMoves := by decide +kernel
  have keeps : (serverSystem huffmanCodec).Meets KeepsClient oneWorker parkedMoves := by
    decide +kernel
  have run := ActionSystem.Trace.of_enabled enabled
  have placed := connection_in_one_place (.init 1 4 .fifo) 1 parkedMoves _ run keeps
  exact ⟨_, run, keeps, by decide +kernel, (placed 6 (by decide +kernel)).1, by decide +kernel,
    (placed 5 (by decide +kernel)).1⟩

/-- A client that disconnects while its request is handled is in no place at all
    and never closed. -/
theorem connection_lost : ∃ moves s, (serverSystem huffmanCodec).Trace oneWorker moves s ∧
    ∃ pid ∈ s.connections, ¬ s.places pid = 1 := by
  have enabled : (serverSystem huffmanCodec).Meets (serverSystem huffmanCodec).Enabled oneWorker
      ([.accept 5] ++ Move.serve 0 5 (.READ_N ⟨0⟩) 0 1 ++ [.disconnect 5, .work 0 1, .work 0 1,
        .work 0 1, .work 0 1]) := by decide +kernel
  exact ⟨_, _, ActionSystem.Trace.of_enabled enabled, 5, by decide +kernel, by decide +kernel⟩

end FileStorage
