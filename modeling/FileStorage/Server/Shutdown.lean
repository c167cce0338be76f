import FileStorage.Server.Process

/-! # How the server ends

A soft termination leaves nothing behind, and the pool is destroyed in a number of steps that
is known. It is never reached when a client was dropped, and a termination of any kind hangs
when a worker sleeps inside a call.
-/

namespace FileStorage

namespace Process

open Server

variable {codec : Codec} {s s' : Process codec}

/-! ## The end of a soft termination -/

def pieces (w : Worker) : Nat := if w.ended then 0 else w.broadcasts.length + 1

def remaining (s : Process codec) : Nat :=
  match s.stage with
  | .running | .destroyed _ => 0
  | .destroying _ sent =>
      s.server.workers.length - sent + (s.server.workers.map pieces).sum + 1

/-- The loop of the main thread was left in a soft termination. -/
def Softly (s : Process codec) : Prop :=
  (∃ sent, s.stage = .destroying .soft sent) ∨ s.stage = .destroyed .soft

theorem Softly.quiet (softly : Softly s) (sound : Sound s) : Quiet s.server := by
  have holds := sound.2
  obtain ⟨sent, stage⟩ | stage := softly
  · simp only [stage] at holds
    exact holds.2.2 trivial
  · simp only [stage] at holds
    exact holds.2.2 trivial

theorem Softly.outside (softly : Softly s) : s.stage ≠ .running := by
  intro running
  obtain ⟨sent, stage⟩ | stage := softly <;> cases running.symm.trans stage

theorem Quiet.pieces {s s₁ : Server codec} {now : Int} {w w' : Worker} (quiet : Quiet s)
    (member : w ∈ s.workers) (advances : Advances s now w w' s₁) :
    pieces w' + 1 = pieces w := by
  obtain ⟨target, outer, rfl, rfl, -⟩ | ⟨rest, rfl, rfl, -, -⟩ := quiet.advances member advances
  · rfl
  · rfl

theorem Softly.step (softly : Softly s) (sound : Sound s) {move : ProcessMove}
    (stepped : s.step move = some s') :
    Softly s' ∧ s'.remaining + (if move.proceeds then 1 else 0) = s.remaining := by
  have quiet := softly.quiet sound
  cases steps_of_step stepped with
  | @server move server allowed result =>
      rw [counted_outside softly.outside allowed]
      refine ⟨softly, ?_⟩
      rcases allows_outside softly.outside allowed with ⟨pid, rfl⟩ | ⟨index, incoming, rfl, going⟩ |
        ⟨index, now, rfl⟩
      · simp only [Server.step, quiet.connections] at result
        cases result
      · obtain ⟨pid, broadcasts, phase, found, -, -⟩ := step_receive result
        rcases quiet.workers _ (List.mem_of_getElem? found) with ready | ending
        · cases ready
        · cases ending
          exact absurd (going _ found) (by decide)
      · obtain ⟨w, w', s₁, found, advances, rfl⟩ := step_work result
        have member := List.mem_of_getElem? found
        have fewer := quiet.pieces member advances
        have sums := Threads.sum_set_add Process.pieces found w'
        obtain ⟨sent, stage⟩ | stage := softly
        · simp only [remaining, stage, ProcessMove.proceeds, List.length_set, if_true]
          omega
        · have holds := sound.2
          simp only [stage] at holds
          have over_ := holds.2.1 w member
          rw [advances.ended.1] at over_
          cases over_
  | refuse running => exact absurd running softly.outside
  | interrupted running => exact absurd running softly.outside
  | hangUp => exact ⟨softly, rfl⟩
  | quit => exact ⟨softly, rfl⟩
  | @dispatchTermination why sent destroying few room =>
      obtain ⟨sent', stage⟩ | stage := softly
      · cases destroying.symm.trans stage
        refine ⟨.inl ⟨sent + 1, rfl⟩, ?_⟩
        simp only [remaining, stage, ProcessMove.proceeds, if_true]
        omega
      · cases destroying.symm.trans stage
  | @join why sent destroying all_ ended =>
      obtain ⟨sent', stage⟩ | stage := softly
      · cases destroying.symm.trans stage
        refine ⟨.inr rfl, ?_⟩
        have none_ : (s.server.workers.map Process.pieces).sum = 0 := by
          refine List.sum_eq_zero fun n member => ?_
          obtain ⟨w, there, rfl⟩ := List.mem_map.mp member
          exact if_pos (ended w there)
        simp only [remaining, stage, ProcessMove.proceeds, if_true, none_]
        omega
      · cases destroying.symm.trans stage

theorem proceeds_of_work {s : Server codec} {w : Worker}
    (work : ¬ (w.broadcasts = [] ∧ s.workerQueue = [])) : (s.proceed w).isSome := by
  unfold Server.proceed
  cases broadcasts : w.broadcasts with
  | nil =>
      cases queue : s.workerQueue with
      | nil => exact absurd ⟨broadcasts, queue⟩ work
      | cons pid rest => rfl
  | cons target outer =>
      simp only []
      split <;> rfl

/-- The destruction of the pool is never stuck: a worker can go on, or the main thread can. -/
theorem Softly.goes_on (softly : Softly s) (sound : Sound s) :
    s.stage = .destroyed .soft ∨ ∃ move, move.proceeds = true ∧ (s.step move).isSome := by
  obtain ⟨sent, stage⟩ | stage := softly
  · refine .inr ?_
    have quiet := Softly.quiet (.inl ⟨sent, stage⟩) sound
    have holds := sound.2
    simp only [stage] at holds
    obtain ⟨⟨clients, left, queue, fresh, count, order⟩, within, -⟩ := holds
    by_cases all_ : ∀ w ∈ s.server.workers, w.ended = true
    · refine ⟨.join, rfl, ?_⟩
      have everyone := List.countP_eq_length.mpr all_
      have every : s.server.workers.all Worker.ended = true := List.all_eq_true.mpr all_
      have exactly : sent = s.server.workers.length := by omega
      rw [Process.step, stage]
      exact (congrArg Option.isSome (if_pos ⟨exactly, every⟩)).trans rfl
    · obtain ⟨w, member, going⟩ : ∃ w ∈ s.server.workers, ¬ w.ended = true := by
        by_contra none_
        exact all_ fun w member => by_contra fun going => none_ ⟨w, member, going⟩
      obtain ⟨index, found⟩ := List.mem_iff_getElem?.mp member
      have ready : w.phase = .ready := by
        rcases quiet.workers w member with ready | rfl
        · exact ready
        · exact absurd rfl going
      by_cases idle : w.broadcasts = [] ∧ s.server.workerQueue = []
      · refine ⟨.dispatchTermination, rfl, ?_⟩
        have fewer : s.server.workers.countP Worker.ended < s.server.workers.length :=
          lt_of_le_of_ne List.countP_le_length fun is => all_ (List.countP_eq_length.mp is)
        have none_ : left = 0 := by
          have empty := idle.2.symm.trans queue
          have length := congrArg List.length empty
          rw [List.length_append, List.length_replicate, List.length_nil] at length
          omega
        have room : sent < s.server.workers.length ∧
            s.server.workerQueue.length < s.server.workers.length := by
          rw [idle.2, List.length_nil]
          omega
        rw [Process.step, stage]
        exact (congrArg Option.isSome (if_pos room)).trans rfl
      · refine ⟨.server (.work index 0), rfl, ?_⟩
        have advances : (s.server.advance 0 w).isSome := by
          rw [Server.advance, ready]
          exact proceeds_of_work idle
        obtain ⟨result, is⟩ := Option.isSome_iff_exists.mp advances
        simp [Process.step, allows, Server.step, found, is]
  · exact .inl stage

theorem softly_of_trace {moves : List ProcessMove} {t : Process codec}
    (run : (processSystem codec).Trace s moves t) (sound : Sound s) (softly : Softly s) :
    Sound t ∧ Softly t ∧ moves.countP ProcessMove.proceeds + t.remaining = s.remaining := by
  induction run with
  | nil s => exact ⟨sound, softly, by rw [List.countP_nil, Nat.zero_add]⟩
  | @cons s move moves t enabled _ ih =>
      have stepped := processSystem_step enabled
      obtain ⟨softly', fewer⟩ := softly.step sound stepped
      obtain ⟨sound_, softly_, count⟩ := ih (sound.step stepped) softly'
      refine ⟨sound_, softly_, ?_⟩
      rw [List.countP_cons]
      omega

/-- A client that no worker and no list knows of although it is connected. -/
def Lost (pid : Pid) (s : Process codec) : Prop :=
  (s.stage = .running ∧ pid ∈ s.server.connections ∧ s.server.places pid = 0) ∨
    (s.stage ≠ .running ∧ ¬ Softly s)

theorem lost_server {s s' : Server codec} {pid : Pid} (accounted : Accounted s)
    (connected : pid ∈ s.connections) {move : Move} (stepped : s.step move = some s')
    (lost : s.places pid = 0 ∨ s.drops move = some pid) :
    pid ∈ s'.connections ∧ s'.places pid = 0 := by
  have balance := step_balance accounted stepped pid
  have once := List.count_eq_one_of_mem accounted.nodup connected
  have placed := accounted.placed pid
  have most := List.nodup_iff_count_le_one.mp (accounted.step stepped).nodup pid
  have positive : 0 < s'.connections.count pid ∧ s'.places pid = 0 := by
    rcases lost with nowhere | drops
    · split at balance <;> omega
    · rw [if_pos drops] at balance
      omega
  exact ⟨List.count_pos_iff.mp positive.1, positive.2⟩

theorem outside_step (outside : s.stage ≠ .running) {move : ProcessMove}
    (stepped : s.step move = some s') : s'.stage ≠ .running ∧ (Softly s' → Softly s) := by
  cases steps_of_step stepped with
  | server allowed result =>
      rw [counted_outside outside allowed]
      exact ⟨outside, id⟩
  | refuse running => exact absurd running outside
  | hangUp => exact ⟨outside, id⟩
  | quit => exact ⟨outside, id⟩
  | interrupted running => exact absurd running outside
  | dispatchTermination destroying few room =>
      refine ⟨fun is => Stage.noConfusion is, ?_⟩
      rintro (⟨sent', is⟩ | is)
      · cases is
        exact .inl ⟨_, destroying⟩
      · cases is
  | join destroying all_ ended =>
      refine ⟨fun is => Stage.noConfusion is, ?_⟩
      rintro (⟨sent', is⟩ | is)
      · cases is
      · cases is
        exact .inl ⟨_, destroying⟩

theorem lost_of_connected {pid : Pid} (sound : Sound s) (connected : pid ∈ s.server.connections)
    (nowhere : s.server.places pid = 0) : Lost pid s := by
  by_cases running : s.stage = .running
  · exact .inl ⟨running, connected, nowhere⟩
  · refine .inr ⟨running, fun softly => ?_⟩
    rw [(softly.quiet sound).connections] at connected
    exact absurd connected List.not_mem_nil

theorem Lost.step {pid : Pid} (lost : Lost pid s) (sound : Sound s) {move : ProcessMove}
    (stepped : s.step move = some s') : Lost pid s' := by
  have sound' := sound.step stepped
  obtain ⟨running, connected, nowhere⟩ | ⟨outside, never⟩ := lost
  · cases steps_of_step stepped with
    | @server move server allowed result =>
        have holds := sound.2
        simp only [running] at holds
        have still := lost_server holds.1 connected result (.inl nowhere)
        have same := counted_server s move server
        exact lost_of_connected sound' (same.symm ▸ still.1) (same.symm ▸ still.2)
    | refuse _ => exact .inl ⟨running, connected, nowhere⟩
    | hangUp => exact .inl ⟨running, connected, nowhere⟩
    | quit => exact .inl ⟨running, connected, nowhere⟩
    | interrupted _ =>
        have same := interrupt_server s
        exact lost_of_connected sound' (same.symm ▸ connected) (same.symm ▸ nowhere)
    | dispatchTermination destroying _ _ => cases running.symm.trans destroying
    | join destroying _ _ => cases running.symm.trans destroying
  · obtain ⟨outside', same⟩ := outside_step outside stepped
    exact .inr ⟨outside', fun softly => never (same softly)⟩

theorem lost_of_drops {pid : Pid} (sound : Sound s) {move : Move}
    (drops : s.server.drops move = some pid) (stepped : s.step (.server move) = some s') :
    Lost pid s' := by
  have sound' := sound.step stepped
  obtain ⟨w, member, phase⟩ : ∃ w ∈ s.server.workers, ∃ code, w.phase = .failing pid code := by
    cases move with
    | work index now =>
        obtain ⟨w, found, dropped⟩ := Option.bind_eq_some_iff.mp drops
        refine ⟨w, List.mem_of_getElem? found, ?_⟩
        unfold Worker.drops at dropped
        split at dropped
        · rename_i phase
          split at dropped <;> cases dropped
          exact ⟨_, phase⟩
        · cases dropped
    | _ => cases drops
  obtain ⟨code, phase⟩ := phase
  by_cases running : s.stage = .running
  · cases steps_of_step stepped with
    | @server move server allowed result =>
        have holds := sound.2
        simp only [running] at holds
        have serves : w.phase.pid? = some pid := by rw [phase]; rfl
        have connected := (holds.1.held member serves).1
        have lost := lost_server holds.1 connected result (.inr drops)
        have same := counted_server s move server
        exact lost_of_connected sound' (same.symm ▸ lost.1) (same.symm ▸ lost.2)
  · obtain ⟨outside', same⟩ := outside_step running stepped
    refine .inr ⟨outside', fun softly => ?_⟩
    rcases ((same softly).quiet sound).workers w member with ready | ending
    · cases ready.symm.trans phase
    · rw [ending] at phase
      cases phase

theorem Lost.trace {pid : Pid} {moves : List ProcessMove} {t : Process codec}
    (run : (processSystem codec).Trace s moves t) (sound : Sound s) (lost : Lost pid s) :
    Lost pid t := by
  induction run with
  | nil s => exact lost
  | cons enabled _ ih =>
      have stepped := processSystem_step enabled
      exact ih (sound.step stepped) (lost.step sound stepped)

end Process

/-! ## A signal that comes too early -/

namespace Process

variable {codec : Codec} {s s' : Process codec}

/-- The server is told to terminate softly, and nobody is connected. -/
structure Deserted (s : Process codec) : Prop where
  running : s.stage = .running
  soft : s.softTermination = true
  quiet : Quiet s.server
  queue : s.server.workerQueue = []

/-- Only an interruption ends a loop in which nothing comes in. -/
theorem Deserted.step (deserted : Deserted s) {move : ProcessMove} (other : move ≠ .interrupted)
    (stepped : s.step move = some s') : Deserted s' := by
  obtain ⟨running, soft, quiet, queue⟩ := deserted
  cases steps_of_step stepped with
  | @server move server allowed result =>
      cases move with
      | accept pid => simp [allows, soft] at allowed
      | disconnect pid =>
          simp only [Server.step, quiet.connections] at result
          cases result
      | dispatch pid =>
          simp only [Server.step, quiet.selectSet] at result
          cases result
      | listen =>
          simp only [Server.step, quiet.pipe] at result
          cases result
      | receive index incoming =>
          obtain ⟨pid, broadcasts, phase, found, -, -⟩ := Server.step_receive result
          rcases quiet.workers _ (List.mem_of_getElem? found) with ready | ending
          · cases ready
          · cases ending
            simp [allows, found, Worker.ended] at allowed
      | work index now =>
          obtain ⟨w, w', s₁, found, advances, rfl⟩ := Server.step_work result
          have still := quiet.work found advances
          obtain ⟨target, outer, -, -, rfl⟩ | ⟨rest, -, -, taken, -⟩ :=
            quiet.advances (List.mem_of_getElem? found) advances
          · exact ⟨running, soft, still, queue⟩
          · cases queue.symm.trans taken
  | refuse _ => exact ⟨running, soft, quiet, queue⟩
  | hangUp => exact ⟨running, rfl, quiet, queue⟩
  | quit => exact ⟨running, soft, quiet, queue⟩
  | interrupted _ => exact absurd rfl other
  | dispatchTermination destroying _ _ => cases running.symm.trans destroying
  | join destroying _ _ => cases running.symm.trans destroying

end Process

/-! ## A pool that cannot be destroyed -/

namespace Server

variable {codec : Codec} {s s' : Server codec} {w : Worker}

open FileSystem

/-- The worker waits for a file that its client does not have for itself. -/
def Sleeps (s : Server codec) (w : Worker) : Prop :=
  ∃ pid request waiter inode, w.phase = .waiting pid request waiter ∧
    s.fileSystem.file waiter.name = some inode ∧ inode.generation = waiter.generation ∧
    mustWait inode waiter.pid = true

/-- No client is in the queue, and a worker that does not sleep has none. -/
structure Stuck (s : Server codec) : Prop where
  queue : ∀ pid ∈ s.workerQueue, pid = terminate
  workers : ∀ w ∈ s.workers, w = .idle ∨ w = ⟨.reading terminate, []⟩ ∨ Sleeps s w
  sleeps : ∃ w ∈ s.workers, Sleeps s w

theorem handleWakeUp_sleeps {fs : FileSystem codec} {waiter : Waiter} {inode : Inode}
    (present : fs.file waiter.name = some inode) (alive : inode.generation = waiter.generation)
    (must : mustWait inode waiter.pid = true) (now : Int) :
    handleWakeUp waiter now fs = .ok .waiting fs := by
  have woken : wakeUp waiter now fs = .ok .waiting fs := by
    simp only [wakeUp, Program.bind_run, Program.get, present, alive, must, ne_eq,
      not_true_eq_false, if_false, if_true]
    rfl
  simp only [handleWakeUp, Program.bind_run, Program.attempt, woken]
  rfl

theorem Sleeps.advances {s₁ : Server codec} {now : Int} {w' : Worker} (sleeps : Sleeps s w)
    (advances : Advances s now w w' s₁) : w' = w ∧ s₁ = s := by
  obtain ⟨pid, request, waiter, inode, phase, present, alive, must⟩ := sleeps
  have again := handleWakeUp_sleeps present alive must now
  cases advances with
  | wake handled =>
      cases phase
      cases again.symm.trans handled
  | waitAgain handled =>
      cases phase
      cases again.symm.trans handled
      exact ⟨rfl, rfl⟩
  | _ => cases phase

theorem Stuck.step (stuck : Stuck s) {move : Move} (stepped : s.step move = some s')
    (kind : (∃ pid, move = .disconnect pid) ∨
      (∃ index incoming, move = .receive index incoming ∧
        ∀ w, s.workers[index]? = some w → w.ended = false) ∨
      ∃ index now, move = .work index now) : Stuck s' := by
  rcases kind with ⟨pid, rfl⟩ | ⟨index, incoming, rfl, going⟩ | ⟨index, now, rfl⟩
  · simp only [Server.step] at stepped
    split at stepped <;> cases stepped
    exact ⟨stuck.queue, stuck.workers, stuck.sleeps⟩
  · obtain ⟨pid, broadcasts, phase, found, -, -⟩ := step_receive stepped
    rcases stuck.workers _ (List.mem_of_getElem? found) with idle | ending | sleeping
    · cases idle
    · cases ending
      exact absurd (going _ found) (by decide)
    · obtain ⟨_, _, _, _, is, -⟩ := sleeping
      cases is
  · obtain ⟨w, w', s₁, found, advances, rfl⟩ := step_work stepped
    have member := List.mem_of_getElem? found
    rcases stuck.workers w member with rfl | rfl | sleeping
    · cases advances with
      | @dequeue pid rest queue =>
          have is : pid = terminate := stuck.queue pid (queue ▸ List.mem_cons_self)
          subst is
          refine ⟨fun pid member => stuck.queue pid (queue ▸ List.mem_cons_of_mem _ member),
            fun u there => ?_, ?_⟩
          · rcases Threads.mem_of_mem_set there with rfl | ⟨other, -, elsewhere⟩
            · exact .inr (.inl rfl)
            · exact stuck.workers u (List.mem_of_getElem? elsewhere)
          · obtain ⟨u, there, sleeping⟩ := stuck.sleeps
            obtain ⟨other, elsewhere⟩ := List.mem_iff_getElem?.mp there
            have different : other ≠ index := by
              rintro rfl
              obtain ⟨_, _, _, _, is, -⟩ := sleeping
              cases found.symm.trans elsewhere
              cases is
            exact ⟨u, Threads.mem_set_of_ne different elsewhere _, sleeping⟩
    · cases advances
    · obtain ⟨rfl, rfl⟩ := sleeping.advances advances
      obtain ⟨inside, is⟩ := List.getElem?_eq_some_iff.mp found
      rw [← is, List.set_getElem_self]
      exact stuck

theorem Stuck.dispatch (stuck : Stuck s) :
    Stuck { s with workerQueue := s.workerQueue ++ [terminate] } where
  queue := by
    intro pid member
    rcases List.mem_append.mp member with before | last
    · exact stuck.queue pid before
    · exact List.mem_singleton.mp last
  workers := stuck.workers
  sleeps := stuck.sleeps

end Server

theorem Process.stuck_step {codec : Codec} {s s' : Process codec} {why : Termination} {sent : Nat}
    (destroying : s.stage = .destroying why sent) (stuck : Server.Stuck s.server)
    {move : ProcessMove} (stepped : s.step move = some s') :
    (∃ sent, s'.stage = .destroying why sent) ∧ Server.Stuck s'.server := by
  have outside : s.stage ≠ .running := fun running => by cases destroying.symm.trans running
  cases steps_of_step stepped with
  | server allowed result =>
      rw [counted_outside outside allowed]
      exact ⟨⟨sent, destroying⟩, stuck.step result (allows_outside outside allowed)⟩
  | refuse running => exact absurd running outside
  | hangUp => exact ⟨⟨sent, destroying⟩, stuck⟩
  | quit => exact ⟨⟨sent, destroying⟩, stuck⟩
  | interrupted running => exact absurd running outside
  | dispatchTermination is few room =>
      cases destroying.symm.trans is
      exact ⟨⟨_, rfl⟩, stuck.dispatch⟩
  | join is all_ ended =>
      obtain ⟨w, member, pid, request, waiter, inode, phase, -⟩ := stuck.sleeps
      have over_ := ended w member
      rw [Worker.ended, phase] at over_
      cases over_

open Process

variable {codec : Codec}

/-- The counter of the main thread is exact: it counts the open connections, and those that
    are closed while the word of it is still on its way. -/
theorem active_connections_exact (fileSystem : FileSystem codec) (size : Nat)
    (moves : List ProcessMove) (s : Process codec)
    (run : (processSystem codec).Trace (.init fileSystem size) moves s)
    (running : s.stage = .running) :
    s.activeConnections = (s.server.connections.length + s.server.workers.countP Worker.parts +
      s.server.pipe.count 0 : Nat) := by
  have holds := (sound_of_trace run).2
  simp only [running] at holds
  exact holds.2

def Process.start (size : Nat) : Process huffmanCodec := .init (.init 1 4 .fifo) size

def leavingMoves : List ProcessMove :=
  [.accept 5, .dispatch 5, .work 0 1, .disconnect 5, .receive 0 .closed, .work 0 1, .work 0 1,
    .work 0 1].map .server

theorem active_connections_exact_closed : ∃ s,
    (processSystem huffmanCodec).Trace (.start 1) leavingMoves s ∧ s.stage = .running ∧
      s.server.connections = [] ∧ s.activeConnections = (s.server.connections.length +
        s.server.workers.countP Worker.parts + s.server.pipe.count 0 : Nat) := by
  have enabled : (processSystem huffmanCodec).Meets (processSystem huffmanCodec).Enabled
      (.start 1) leavingMoves := by decide +kernel
  have run := ActionSystem.Trace.of_enabled enabled
  exact ⟨_, run, by decide +kernel, by decide +kernel,
    active_connections_exact (.init 1 4 .fifo) 1 leavingMoves _ run (by decide +kernel)⟩

/-- After a soft termination every client is gone and nothing of it is left behind, and the
    destruction of the pool comes to its end in a number of steps that is known from the
    start, in whichever order they are made. -/
theorem soft_termination_clean (fileSystem : FileSystem codec) (size : Nat)
    (moves : List ProcessMove) (s : Process codec)
    (run : (processSystem codec).Trace (.init fileSystem size) moves s) (softly : Softly s)
    (later : List ProcessMove) (t : Process codec)
    (goes : (processSystem codec).Trace s later t) :
    Quiet t.server ∧ later.countP ProcessMove.proceeds + t.remaining = s.remaining ∧
      (t.stage = .destroyed .soft ∨
        ∃ move, move.proceeds = true ∧ (processSystem codec).Enabled t move) := by
  obtain ⟨sound, softly', count⟩ := softly_of_trace goes (sound_of_trace run) softly
  exact ⟨softly'.quiet sound, count, softly'.goes_on sound⟩

/-- The server is told to terminate while its client goes away. -/
def softMoves : List ProcessMove :=
  leavingMoves ++ [.signal true, .interrupted, .server (.work 0 1), .server .listen]

theorem soft_termination_clean_left : ∃ s t,
    (processSystem huffmanCodec).Trace (.start 1) softMoves s ∧ Softly s ∧ s.remaining = 3 ∧
      (processSystem huffmanCodec).Trace s [.dispatchTermination, .server (.work 0 1), .join] t ∧
      Quiet t.server ∧ t.remaining = 0 := by
  have enabled : (processSystem huffmanCodec).Meets (processSystem huffmanCodec).Enabled
      (.start 1) softMoves := by decide +kernel
  have run := ActionSystem.Trace.of_enabled enabled
  have softly : Softly (softMoves.foldl (processSystem huffmanCodec).apply (.start 1)) :=
    .inl ⟨0, by decide +kernel⟩
  have remaining : (softMoves.foldl (processSystem huffmanCodec).apply (.start 1)).remaining = 3 := by
    decide +kernel
  have later : (processSystem huffmanCodec).Meets (processSystem huffmanCodec).Enabled
      (softMoves.foldl (processSystem huffmanCodec).apply (.start 1))
      [.dispatchTermination, .server (.work 0 1), .join] := by decide +kernel
  have goes := ActionSystem.Trace.of_enabled later
  obtain ⟨quiet, count, -⟩ := soft_termination_clean (.init 1 4 .fifo) 1 softMoves _ run softly _ _
    goes
  refine ⟨_, _, run, softly, remaining, goes, quiet, ?_⟩
  rw [remaining] at count
  exact Nat.add_left_cancel (count.trans rfl)

/-- However the server is terminated: no worker ends while a client that was dispatched
    stands in the queue, and in the end the queue is empty. -/
theorem clients_before_messages (fileSystem : FileSystem codec) (size : Nat)
    (moves : List ProcessMove) (s : Process codec)
    (run : (processSystem codec).Trace (.init fileSystem size) moves s) :
    (∀ w ∈ s.server.workers, w.ended = true → ∀ pid ∈ s.server.workerQueue, pid = terminate) ∧
    ∀ why, s.stage = .destroyed why →
      s.server.workerQueue = [] ∧ ∀ w ∈ s.server.workers, w.ended = true := by
  obtain ⟨bounded, holds⟩ := sound_of_trace run
  cases stage : s.stage with
  | running =>
      simp only [stage] at holds
      exact ⟨holds.1.draining.clients_first, fun why is => by cases is⟩
  | destroying why sent =>
      simp only [stage] at holds
      exact ⟨holds.1.clients_first, fun why is => by cases is⟩
  | destroyed why =>
      simp only [stage] at holds
      obtain ⟨draining, ended, -⟩ := holds
      refine ⟨draining.clients_first, fun _ _ => ⟨?_, ended⟩⟩
      obtain ⟨clients, left, queue, -, count, order⟩ := draining
      have everyone := List.countP_eq_length.mpr ended
      have none_left : left = 0 := by omega
      cases clients with
      | nil => rw [queue, none_left, List.nil_append, List.replicate_zero]
      | cons client clients =>
          have none_ended := order (List.cons_ne_nil _ _)
          rw [everyone] at none_ended
          have empty : s.server.workerQueue.length ≤ 0 := none_ended ▸ bounded
          exact List.eq_nil_of_length_eq_zero (Nat.le_zero.mp empty)

def hardMoves : List ProcessMove :=
  [.server (.accept 5), .server (.dispatch 5), .signal false, .interrupted]

theorem clients_before_messages_interrupted : ∃ s,
    (processSystem huffmanCodec).Trace (.start 2) (hardMoves ++ [.dispatchTermination,
      .server (.work 0 1), .server (.work 1 1)]) s ∧ s.stage = .destroying .hard 1 ∧
      s.server.workers = [⟨.reading 5, []⟩, ⟨.reading terminate, []⟩] ∧
      ∀ w ∈ s.server.workers, w.ended = true → ∀ pid ∈ s.server.workerQueue, pid = terminate := by
  have enabled : (processSystem huffmanCodec).Meets (processSystem huffmanCodec).Enabled
      (.start 2) (hardMoves ++ [.dispatchTermination, .server (.work 0 1), .server (.work 1 1)]) := by
    decide +kernel
  have run := ActionSystem.Trace.of_enabled enabled
  exact ⟨_, run, by decide +kernel, by decide +kernel,
    (clients_before_messages (.init 1 4 .fifo) 2 _ _ run).1⟩

/-- Once a client is dropped, the server cannot be terminated softly any more. -/
theorem dropped_client_never_soft (fileSystem : FileSystem codec) (size : Nat)
    (moves : List ProcessMove) (s : Process codec)
    (run : (processSystem codec).Trace (.init fileSystem size) moves s)
    (move : Move) (pid : Pid) (drops : s.server.drops move = some pid)
    (later : List ProcessMove) (t : Process codec)
    (goes : (processSystem codec).Trace s (.server move :: later) t) : ¬ Softly t := by
  obtain _ | ⟨enabled, goes⟩ := goes
  have sound := sound_of_trace run
  have stepped := processSystem_step enabled
  have sound' := sound.step stepped
  have lost := (lost_of_drops sound drops stepped).trace goes sound'
  obtain ⟨running, -, -⟩ | ⟨-, never⟩ := lost
  · exact fun softly => softly.outside running
  · exact never

/-- A client disconnects while its request is handled. -/
def droppedMoves : List ProcessMove :=
  ([.accept 5] ++ Move.serve 0 5 (.READ_N ⟨0⟩) 0 1 ++ [.disconnect 5, .work 0 1, .work 0 1,
    .work 0 1] : List Move).map .server

theorem dropped_client_never_soft_readN : ∃ t,
    (processSystem huffmanCodec).Trace (.start 1) (droppedMoves ++ [.server (.work 0 1),
      .signal true, .interrupted]) t ∧ ¬ Softly t := by
  have enabled : (processSystem huffmanCodec).Meets (processSystem huffmanCodec).Enabled
      (.start 1) (droppedMoves ++ [.server (.work 0 1), .signal true, .interrupted]) := by
    decide +kernel
  have run := ActionSystem.Trace.of_enabled enabled
  obtain ⟨s, before, goes⟩ := run.of_append
  have is := before.eq_foldl
  have drops : s.server.drops (.work 0 1) = some 5 := by
    rw [is]
    decide +kernel
  exact ⟨_, run, dropped_client_never_soft (.init 1 4 .fifo) 1 droppedMoves s before (.work 0 1) 5
    drops _ _ goes⟩

/-- A termination never ends while a worker waits for the lock of a file that others have
    open and no worker has another client: nobody is listened to any more. -/
theorem sleeping_worker_never_joined (s : Process codec) (why : Termination) (sent : Nat)
    (destroying : s.stage = .destroying why sent) (stuck : Server.Stuck s.server)
    (later : List ProcessMove) (t : Process codec)
    (goes : (processSystem codec).Trace s later t) : ∃ sent, t.stage = .destroying why sent := by
  induction goes generalizing sent with
  | nil s => exact ⟨sent, destroying⟩
  | cons enabled _ ih =>
      obtain ⟨⟨sent', still⟩, stuck'⟩ := stuck_step destroying stuck (processSystem_step enabled)
      exact ih sent' still stuck'

/-- A client asks for the lock of a file that another client has open. -/
def sleepingMoves : List ProcessMove :=
  ([.accept 5, .accept 6] ++ Move.serve 0 5 (.OPEN ⟨some (.upToNul [102]), 1⟩) 4 1 ++ [.listen] ++
    Move.serve 0 6 (.OPEN ⟨some (.upToNul [102]), 0⟩) 4 2 ++ [.listen] ++
    Move.serve 0 5 (.LOCK ⟨0⟩) 1 3 : List Move).map .server ++ [.signal false, .interrupted]

theorem sleeping_worker_never_joined_lock : ∃ s,
    (processSystem huffmanCodec).Trace (.start 2) sleepingMoves s ∧
      s.stage = .destroying .hard 0 ∧ ∀ later t, (processSystem huffmanCodec).Trace s later t →
        ∃ sent, t.stage = .destroying .hard sent := by
  have enabled : (processSystem huffmanCodec).Meets (processSystem huffmanCodec).Enabled
      (.start 2) sleepingMoves := by decide +kernel
  have run := ActionSystem.Trace.of_enabled enabled
  have stage : (sleepingMoves.foldl (processSystem huffmanCodec).apply (.start 2)).stage =
      .destroying .hard 0 := by decide +kernel
  have queue : (sleepingMoves.foldl (processSystem huffmanCodec).apply (.start 2)).server.workerQueue =
      [] := by decide +kernel
  have workers : (sleepingMoves.foldl (processSystem huffmanCodec).apply (.start 2)).server.workers =
      [⟨.waiting 5 (.LOCK ⟨0⟩) ⟨5, [102], 0, .lock⟩, []⟩, .idle] := by decide +kernel
  have must : ((sleepingMoves.foldl (processSystem huffmanCodec).apply
      (.start 2)).server.fileSystem.file [102]).any (fun inode => inode.generation = 0 ∧
        FileSystem.mustWait inode 5 = true) = true := by decide +kernel
  obtain ⟨inode, present, holds⟩ := (Option.any_eq_true _ _).mp must
  obtain ⟨alive, must⟩ := of_decide_eq_true holds
  have sleeping : Server.Sleeps (sleepingMoves.foldl (processSystem huffmanCodec).apply
      (.start 2)).server ⟨.waiting 5 (.LOCK ⟨0⟩) ⟨5, [102], 0, .lock⟩, []⟩ :=
    ⟨5, _, _, inode, rfl, present, alive, must⟩
  refine ⟨_, run, stage, fun later t goes => ?_⟩
  refine sleeping_worker_never_joined _ .hard 0 stage ⟨?_, ?_, ?_⟩ later t goes
  · rw [queue]
    exact fun pid member => absurd member List.not_mem_nil
  · rw [workers]
    exact List.forall_mem_cons.mpr ⟨.inr (.inr sleeping), List.forall_mem_singleton.mpr (.inl rfl)⟩
  · rw [workers]
    exact ⟨_, List.mem_cons_self, sleeping⟩

/-- A soft termination that has not interrupted `select` is not seen when nobody is connected:
    the main thread stays in its loop, whatever else happens. -/
theorem hang_up_missed (fileSystem : FileSystem codec) (size : Nat) (moves : List ProcessMove)
    (s : Process codec) (run : (processSystem codec).Trace (.init fileSystem size) moves s)
    (running : s.stage = .running) (soft : s.softTermination = true)
    (nobody : s.activeConnections = 0) (later : List ProcessMove) (t : Process codec)
    (goes : (processSystem codec).Trace s later t) (missed : .interrupted ∉ later) :
    t.stage = .running := by
  have holds := (sound_of_trace run).2
  simp only [running] at holds
  obtain ⟨accounted, exact_⟩ := holds
  have none_ : s.server.unheard = 0 := by omega
  have quiet := quiet_of_unheard accounted none_
  have queue : s.server.workerQueue = [] := by
    refine List.eq_nil_iff_forall_not_mem.mpr fun pid queued => ?_
    have somewhere : 0 < s.server.places pid := by
      have counted := List.count_pos_iff.mpr queued
      rw [Server.places, Server.shared]
      omega
    have connected := accounted.connected somewhere
    rw [quiet.connections] at connected
    exact absurd connected List.not_mem_nil
  have deserted : Deserted s := ⟨running, soft, quiet, queue⟩
  clear run running soft nobody accounted exact_ none_ quiet queue
  induction goes with
  | nil s => exact deserted.running
  | @cons s move later t enabled _ ih =>
      have other : move ≠ .interrupted := fun is => missed (is ▸ List.mem_cons_self)
      exact ih (fun member => missed (List.mem_cons_of_mem _ member))
        (deserted.step other (processSystem_step enabled))

theorem hang_up_missed_refused : ∃ s, (processSystem huffmanCodec).Trace (.start 1)
    [.signal true] s ∧ ∃ t, (processSystem huffmanCodec).Trace s [.refuse, .refuse] t ∧
      t.stage = .running := by
  have enabled : (processSystem huffmanCodec).Meets (processSystem huffmanCodec).Enabled
      (.start 1) [.signal true] := by decide +kernel
  have run := ActionSystem.Trace.of_enabled enabled
  have later : (processSystem huffmanCodec).Meets (processSystem huffmanCodec).Enabled
      ([ProcessMove.signal true].foldl (processSystem huffmanCodec).apply (.start 1))
      [.refuse, .refuse] := by decide +kernel
  have goes := ActionSystem.Trace.of_enabled later
  refine ⟨_, run, _, goes, ?_⟩
  exact hang_up_missed (.init 1 4 .fifo) 1 _ _ run (by decide +kernel) (by decide +kernel)
    (by decide +kernel) _ _ goes (by simp)

end FileStorage
