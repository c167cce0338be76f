import FileStorage.Server.Connections

/-! # One answer for each request

A client that sends its requests one by one gets one answer to each of them: the response, or
the error that stands for it. In between the request is in the hands of a worker or parked in
the waiting list. Only a client that has disconnected gets none.
-/

namespace FileStorage

/-- The worker has read something from the client that was not answered yet. -/
def Worker.owes (pid : Pid) (w : Worker) : Bool :=
  match w.phase with
  | .handling other _ | .waiting other _ _ | .answered other _ _ | .subscribing other _ _
  | .responding other _ _ | .failing other _ => other = pid
  | .ready | .reading _ | .notifying .. | .unsubscribing _ | .leaving _ | .closing _ | .parting =>
      false

namespace Server

variable {codec : Codec} {s s' s₁ : Server codec} {now : Int} {w w' : Worker} {pid : Pid}

def owes (pid : Pid) (s : Server codec) : Nat :=
  s.waitingList.presenceList.count pid + s.workers.countP (Worker.owes pid)

def asks (pid : Pid) (s : Server codec) : Move → Bool
  | .receive index (.request _) | .receive index (.failed _) =>
      s.workers[index]?.any fun w => w.phase = .reading pid
  | _ => false

def sends (pid : Pid) (gone : List Pid) (w : Worker) : Bool :=
  match w.phase with
  | .responding other _ _ => other = pid && pid ∉ gone
  | .failing other _ => other = pid && pid ∉ gone
  | _ => false

/-- The client gets an answer, or it is dropped because it is not there any more. -/
def concludes (pid : Pid) (s : Server codec) : Move → Bool
  | .work index _ => s.workers[index]?.any fun w => sends pid s.gone w || w.drops s.gone = some pid
  | _ => false

theorem Advances.owes {s₁ : Server codec} (advances : Advances s now w w' s₁)
    (held : ∀ pid, w.phase.pid? = some pid → s.waitingList.presenceList.count pid = 0) (pid : Pid) :
    s₁.waitingList.presenceList.count pid + (if w'.owes pid then 1 else 0) +
      (if sends pid s.gone w || w.drops s.gone = some pid then 1 else 0) =
    s.waitingList.presenceList.count pid + if w.owes pid then 1 else 0 := by
  simp only [Worker.owes, sends, Worker.drops]
  cases advances with
  | @done target _ none_ =>
      have count := s.waitingList.count_pop target pid
      rw [none_] at count
      grind
  | @pop target _ el popped =>
      have count := s.waitingList.count_pop target pid
      rw [popped] at count
      grind
  | subscribe =>
      simp only [WaitingList.count_push]
      grind
  | unsubscribe =>
      have absent := held _ rfl
      simp only [WaitingList.count_remove]
      grind
  | _ => grind

theorem step_owes (accounted : Accounted s) {move : Move} (stepped : s.step move = some s')
    (pid : Pid) : s'.owes pid + (if s.concludes pid move then 1 else 0) =
      s.owes pid + if s.asks pid move then 1 else 0 := by
  simp only [Server.owes]
  cases move with
  | accept other | disconnect other | dispatch other | listen =>
      simp only [step] at stepped
      split at stepped <;> cases stepped
      rfl
  | receive index incoming =>
      obtain ⟨reader, broadcasts, phase, found, received, rfl⟩ := step_receive stepped
      have counts := Threads.countP_set_add (Worker.owes pid) found ⟨phase, broadcasts⟩
      have reading : Worker.owes pid ⟨.reading reader, broadcasts⟩ = false := rfl
      cases incoming with
      | request request =>
          cases received
          simp only [reading] at counts
          simp only [concludes, asks, found, Worker.owes] at counts ⊢
          grind
      | failed code =>
          cases received
          simp only [reading] at counts
          simp only [concludes, asks, found, Worker.owes] at counts ⊢
          grind
      | closed =>
          simp only [Server.received] at received
          split at received <;> cases received
          simp only [reading] at counts
          simp only [concludes, asks, Worker.owes] at counts ⊢
          grind
  | work index now =>
      obtain ⟨w, w', s₁, found, advances, rfl⟩ := step_work stepped
      have balance := advances.owes (fun holder holds => by
        have apart := (accounted.held (List.mem_of_getElem? found) holds).2
        rw [shared] at apart
        omega) pid
      have counts := Threads.countP_set_add (Worker.owes pid) found w'
      simp only [concludes, asks, found, Option.any_some, Bool.false_eq_true, if_false]
      change s₁.waitingList.presenceList.count pid + _ + _ = _
      omega

/-- What is owed to a client is a place where it is. -/
theorem owes_le_places (s : Server codec) (pid : Pid) : s.owes pid ≤ s.places pid := by
  have fewer : s.workers.countP (Worker.owes pid) ≤ s.workers.countP (Worker.holding pid) := by
    refine List.countP_mono_left fun w _ owes => ?_
    obtain ⟨phase, broadcasts⟩ := w
    cases phase <;> simp [Worker.owes, Worker.holding, Phase.pid?] at owes ⊢ <;> exact owes
  rw [Server.owes, places, shared]
  omega

theorem owes_init (fileSystem : FileSystem codec) (size : Nat) (pid : Pid) :
    (init fileSystem size).owes pid = 0 := by
  have idle : (List.replicate size Worker.idle).countP (Worker.owes pid) = 0 := by
    rw [List.countP_eq_zero]
    intro w member
    rw [List.eq_of_mem_replicate member]
    exact Bool.false_ne_true
  simp [Server.owes, init, idle, WaitingList.init]

end Server

open Server

variable {codec : Codec}

/-- In every run, whatever the clients send and whenever they disconnect: of all that was
    read from a client each message has been answered exactly once, or given up because the
    client is gone, but for the last one at most, which is owed to it still. -/
theorem requests_answered_once (fileSystem : FileSystem codec) (size : Nat) (moves : List Move)
    (s : Server codec) (run : (serverSystem codec).Trace (.init fileSystem size) moves s)
    (pid : Pid) :
    (serverSystem codec).occurrences (asks pid) (.init fileSystem size) moves =
      (serverSystem codec).occurrences (concludes pid) (.init fileSystem size) moves + s.owes pid ∧
    s.owes pid ≤ 1 := by
  have step : ∀ (s : Server codec) (move : Move), Accounted s →
      (serverSystem codec).Enabled s move → Accounted ((serverSystem codec).apply s move) ∧
        ((serverSystem codec).apply s move).owes pid + (if s.concludes pid move then 1 else 0) =
          s.owes pid + if s.asks pid move then 1 else 0 := by
    intro s move accounted enabled
    have stepped := serverSystem_step enabled
    exact ⟨accounted.step stepped, step_owes accounted stepped pid⟩
  obtain ⟨accounted, balance⟩ := run.balance step (accounted_init fileSystem size)
  rw [owes_init, Nat.zero_add] at balance
  refine ⟨by omega, (owes_le_places s pid).trans (accounted.count_le_one pid)⟩

theorem requests_answered_once_parked : ∃ s,
    (serverSystem huffmanCodec).Trace oneWorker parkedMoves s ∧
    (serverSystem huffmanCodec).occurrences (asks 5) oneWorker parkedMoves = 1 ∧ s.owes 5 = 0 ∧
    (serverSystem huffmanCodec).occurrences (concludes 5) oneWorker parkedMoves = 1 ∧
    s.owes 6 = 1 := by
  have enabled : (serverSystem huffmanCodec).Meets (serverSystem huffmanCodec).Enabled oneWorker
      parkedMoves := by decide +kernel
  have run := ActionSystem.Trace.of_enabled enabled
  have asked : (serverSystem huffmanCodec).occurrences (asks 5) oneWorker parkedMoves = 1 := by
    decide +kernel
  have owed : (parkedMoves.foldl (serverSystem huffmanCodec).apply oneWorker).owes 5 = 0 := by
    decide +kernel
  have balance := (requests_answered_once (.init 1 4 .fifo) 1 parkedMoves _ run 5).1
  refine ⟨_, run, asked, owed, ?_, by decide +kernel⟩
  rw [owed, Nat.add_zero] at balance
  exact balance.symm.trans asked

end FileStorage
