import FileStorage.Server.Calls

/-! # The pool of workers

A request for the lock of a file that others have open blocks its worker, and the
requests that would let it go on need a worker too. A file has at most one pending
lock request, so the workers that wait do so for different files.
-/

namespace FileStorage

open FileSystem

variable {codec : Codec}

def Worker.waiter? (w : Worker) : Option Waiter :=
  match w.phase with
  | .waiting _ _ waiter => some waiter
  | _ => none

theorem Worker.phase_of_waiter? {w : Worker} {waiter : Waiter} (is : w.waiter? = some waiter) :
    ∃ pid request, w.phase = .waiting pid request waiter := by
  unfold waiter? at is
  split at is
  · rename_i pid request other phase
    cases is
    exact ⟨pid, request, phase⟩
  · cases is

def FileSystem.pendingFiles (fs : FileSystem codec) : List Filename :=
  fs.fileTable.presenceList.filter fun name => (fs.file name).any Inode.hasPendingLocks

def FileSystem.Awaited (fs : FileSystem codec) (name : Filename) : Prop :=
  ∃ state, fs.view.lockState name = some state ∧ 0 < state.pendingLocks ∧ asInt state.locked ≤ 0

theorem FileSystem.Awaited.mem {fs : FileSystem codec} {name : Filename}
    (awaited : fs.Awaited name) : name ∈ fs.pendingFiles := by
  obtain ⟨state, is, pending, -⟩ := awaited
  obtain ⟨inode, present, rfl⟩ := Event.lockState_of_file is
  have pending : 0 < inode.pendingLocks := pending
  refine List.mem_filter.mpr ⟨FileTable.mem_presenceList.mpr ⟨inode, present⟩, ?_⟩
  simpa [present, Inode.hasPendingLocks] using pending

def Request.evicted (fs : FileSystem codec) (now : Int) : Request → List Filename
  | .WRITE payload => fs.evictedBy payload.bytes now
  | _ => []

/-- A request that has to wait leaves a worker for the others, and no file is
    evicted while a lock of it is pending. -/
def Phase.SparesWorker (fs : FileSystem codec) (size : Nat) (now : Int) : Phase → Prop
  | .handling pid request =>
      ((lockTarget fs pid request).any (fs.waitsFor · pid) = true →
        fs.pendingFiles.length + 1 < size) ∧
      ∀ name ∈ fs.pendingFiles, name ∉ request.evicted fs now
  | _ => True

instance (fs : FileSystem codec) (size : Nat) (now : Int) :
    (phase : Phase) → Decidable (phase.SparesWorker fs size now)
  | .handling .. => inferInstanceAs (Decidable (_ ∧ _))
  | .ready | .reading .. | .waiting .. | .answered .. | .subscribing .. | .responding ..
  | .notifying .. | .failing .. | .unsubscribing .. | .leaving .. | .closing .. | .parting =>
      inferInstanceAs (Decidable True)

namespace Server

variable {s s' s₁ : Server codec} {now : Int} {w w' : Worker}

def SparesWorker (s : Server codec) : Move → Prop
  | .work index now =>
      ∀ w ∈ s.workers[index]?, w.phase.SparesWorker s.fileSystem s.workers.length now
  | _ => True

instance (s : Server codec) : (move : Move) → Decidable (SparesWorker s move)
  | .work index now => inferInstanceAs (Decidable (∀ w ∈ s.workers[index]?,
      w.phase.SparesWorker s.fileSystem s.workers.length now))
  | .accept .. | .disconnect .. | .dispatch .. | .listen | .receive .. =>
      inferInstanceAs (Decidable True)

/-- The workers that wait do so for different files, each with a pending lock
    request, and one worker does not wait. -/
structure Spared (s : Server codec) : Prop where
  orderly : Orderly s
  awaited : ∀ w ∈ s.workers, ∀ waiter, w.waiter? = some waiter → s.fileSystem.Awaited waiter.name
  distinct : ∀ (i j : Nat) w u, i ≠ j → s.workers[i]? = some w → s.workers[j]? = some u →
    ∀ a, w.waiter? = some a → ∀ b, u.waiter? = some b → a.name ≠ b.name
  spare : s.workers.countP (·.waiter?.isSome) < s.workers.length

theorem Spared.count_le (spared : Spared s) :
    s.workers.countP (·.waiter?.isSome) ≤ s.fileSystem.pendingFiles.length := by
  have names : (s.workers.filterMap fun w => w.waiter?.map Waiter.name).Nodup := by
    rw [List.Nodup, List.pairwise_filterMap, List.pairwise_iff_getElem]
    intro i j inside inside' before a isA b isB
    obtain ⟨waiter, waits, rfl⟩ := Option.map_eq_some_iff.mp isA
    obtain ⟨other, waits', rfl⟩ := Option.map_eq_some_iff.mp isB
    exact spared.distinct i j _ _ (Nat.ne_of_lt before) (List.getElem?_eq_getElem inside)
      (List.getElem?_eq_getElem inside') waiter waits other waits'
  calc s.workers.countP (·.waiter?.isSome)
      = (s.workers.filterMap fun w => w.waiter?.map Waiter.name).length := by
        rw [List.length_filterMap_eq_countP]
        simp
    _ ≤ s.fileSystem.pendingFiles.length := by
        refine names.length_le_of_subset fun name member => ?_
        obtain ⟨w, there, is⟩ := List.mem_filterMap.mp member
        obtain ⟨waiter, waits, rfl⟩ := Option.map_eq_some_iff.mp is
        exact (spared.awaited w there waiter waits).mem

theorem spared_init (fileSystem : FileSystem codec) {size : Nat} (positive : 0 < size) :
    Spared (init fileSystem size) := by
  have idle : ∀ w ∈ (init fileSystem size).workers, w.waiter? = none := by
    intro w member
    rw [List.eq_of_mem_replicate member]
    rfl
  refine ⟨orderly_init fileSystem size, ?_, ?_, ?_⟩
  · intro w member waiter is
    rw [idle w member] at is
    cases is
  · intro i j w u _ found _ a is
    rw [idle w (List.mem_of_getElem? found)] at is
    cases is
  · have none_ : (init fileSystem size).workers.countP (·.waiter?.isSome) = 0 := by
      rw [List.countP_eq_zero]
      intro w member
      simp [idle w member]
    rw [none_]
    simpa [init] using positive

theorem Spared.awaited_call (spared : Spared s) {index other : Nat} {u : Worker} {event : Event}
    (spares : w.phase.SparesWorker s.fileSystem s.workers.length now)
    (found : s.workers[index]? = some w) (elsewhere : s.workers[other]? = some u)
    (different : other ≠ index) (next : w.phase.event now = some event) {fs : FileSystem codec}
    (result : (event.call s.fileSystem).state? = some fs) {waiter : Waiter}
    (waits : u.waiter? = some waiter) : fs.Awaited waiter.name := by
  have member := List.mem_of_getElem? found
  have awaited := spared.awaited u (List.mem_of_getElem? elsewhere) waiter waits
  obtain ⟨state, is, pending, unlocked⟩ := id awaited
  refine ⟨state, ?_, pending, unlocked⟩
  refine Event.lockState_pending (spared.orderly.asleep.possible member next) result
    (spared.orderly.positive member next) is pending unlocked ?_
  obtain ⟨phase, broadcasts⟩ := w
  cases phase with
  | handling pid request =>
      cases request with
      | WRITE payload =>
          cases next
          exact spares.2 waiter.name awaited.mem
      | _ => cases next <;> exact id
  | waiting pid request woken =>
      cases next
      exact spared.distinct index other _ u (Ne.symm different) found elsewhere woken rfl waiter
        waits
  | leaving pid =>
      cases next
      exact id
  | _ => cases next

/-- How a worker comes to wait: its request has to, or it wakes up too early. -/
theorem Advances.waits (advances : Advances s now w w' s₁) {waiter : Waiter}
    (is : w'.waiter? = some waiter) :
    (∃ pid request, w.phase = .handling pid request ∧
      handleRequest pid now request s.fileSystem = .ok .waiting s₁.fileSystem ∧
      s₁.fileSystem.blocked.getLast? = some waiter) ∨
    (w.waiter? = some waiter ∧
      handleWakeUp waiter now s.fileSystem = .ok .waiting s₁.fileSystem) := by
  cases advances with
  | wait handled last =>
      cases is
      exact .inl ⟨_, _, rfl, handled, last⟩
  | waitAgain handled =>
      cases is
      exact .inr ⟨rfl, handled⟩
  | _ => cases is

theorem Waits.awaited {fs fs' : FileSystem codec} {name : Filename} {pid : Pid} {call : WaitingCall}
    (waits : fs.Waits name pid call fs') : ¬ fs.Awaited name ∧ fs'.Awaited name := by
  obtain ⟨must, inode, present, performs⟩ := waits
  obtain ⟨⟨free, unlocked⟩, -⟩ : (inode.pendingLocks = 0 ∧ inode.isFileLocked ≤ 0) ∧ _ := by
    simpa [waitsFor, present, Inode.hasPendingLocks] using must
  have before : fs.view.lockState name = some (FileView.of inode).lockState := by
    rw [View.lockState, view_file present, Option.map_some]
  have ends : fs'.view = _ := performs.eq_foldl
  constructor
  · rintro ⟨state, is, pending, -⟩
    obtain rfl := Option.some.inj (before.symm.trans is)
    exact absurd free (Nat.pos_iff_ne_zero.mp pending)
  · refine ⟨{ (FileView.of inode).lockState with pendingLocks := inode.pendingLocks + 1 }, ?_,
      Nat.succ_pos _, unlocked⟩
    rw [ends]
    simp only [List.foldl_cons, List.foldl_nil, viewSystem, View.lockState_block,
      View.lockState_request, before, Option.map_some]
    rfl

/-- One worker goes on, and what the others wait for stays as it is. -/
theorem Spared.set (spared : Spared s) (orderly : Orderly s') {index : Nat}
    (found : s.workers[index]? = some w) (workers : s'.workers = s.workers.set index w')
    (others : ∀ other u, other ≠ index → s.workers[other]? = some u → ∀ waiter,
      u.waiter? = some waiter → s'.fileSystem.Awaited waiter.name)
    (self : ∀ waiter, w'.waiter? = some waiter → s'.fileSystem.Awaited waiter.name)
    (joins : ∀ waiter, w'.waiter? = some waiter → w.waiter? = some waiter ∨
      ¬ s.fileSystem.Awaited waiter.name ∧
        s.workers.countP (·.waiter?.isSome) + 1 < s.workers.length) : Spared s' := by
  have apart : ∀ other u, other ≠ index → s.workers[other]? = some u → ∀ a, w'.waiter? = some a →
      ∀ b, u.waiter? = some b → a.name ≠ b.name := by
    intro other u different elsewhere a waits b waits' same
    rcases joins a waits with before | ⟨free, -⟩
    · exact spared.distinct index other w u (Ne.symm different) found elsewhere a before b waits'
        same
    · rw [same] at free
      exact free (spared.awaited u (List.mem_of_getElem? elsewhere) b waits')
  refine ⟨orderly, ?_, ?_, ?_⟩
  · intro u there waiter waits
    rw [workers] at there
    rcases Threads.mem_of_mem_set there with rfl | ⟨other, different, elsewhere⟩
    · exact self waiter waits
    · exact others other u different elsewhere waiter waits
  · intro i j u v different first second a waits b waits'
    simp only [workers, List.getElem?_set] at first second
    by_cases atI : index = i <;> by_cases atJ : index = j
    · exact absurd (atI.symm.trans atJ) different
    · obtain rfl : w' = u := by grind
      exact apart j v (Ne.symm atJ) (by simpa [atJ] using second) a waits b waits'
    · obtain rfl : w' = v := by grind
      exact (apart i u (Ne.symm atI) (by simpa [atI] using first) b waits' a waits).symm
    · exact spared.distinct i j u v different (by simpa [atI] using first)
        (by simpa [atJ] using second) a waits b waits'
  · have counts := Threads.countP_set_add (·.waiter?.isSome) found w'
    have spare := spared.spare
    rw [workers, List.length_set]
    cases waits : w'.waiter? with
    | none =>
        simp only [waits] at counts
        grind
    | some waiter =>
        rcases joins waiter waits with before | ⟨-, room⟩
        · simp only [waits, before] at counts
          grind
        · simp only [waits] at counts
          grind

theorem Spared.work (spared : Spared s) {index : Nat} (found : s.workers[index]? = some w)
    (spares : w.phase.SparesWorker s.fileSystem s.workers.length now)
    (advances : Advances s now w w' s₁)
    (stepped : s.step (.work index now) = some { s₁ with workers := s.workers.set index w' }) :
    Spared { s₁ with workers := s.workers.set index w' } := by
  have member := List.mem_of_getElem? found
  have others : ∀ other u, other ≠ index → s.workers[other]? = some u → ∀ waiter,
      u.waiter? = some waiter → s₁.fileSystem.Awaited waiter.name := by
    intro other u different elsewhere waiter waits
    rcases advances.fileSystem with same | ⟨event, next, result⟩
    · rw [same]
      exact spared.awaited u (List.mem_of_getElem? elsewhere) waiter waits
    · exact spared.awaited_call spares found elsewhere different next result waits
  have self : ∀ waiter, w'.waiter? = some waiter → s₁.fileSystem.Awaited waiter.name ∧
      (w.waiter? = some waiter ∨ ¬ s.fileSystem.Awaited waiter.name ∧
        s.workers.countP (·.waiter?.isSome) + 1 < s.workers.length) := by
    intro waiter waits
    rcases advances.waits waits with ⟨pid, request, phase, handled, last⟩ | ⟨before, woken⟩
    · obtain ⟨name, call, target, must⟩ := handleRequest_waits handled
      obtain ⟨inode, -, rfl⟩ := Waits.blocked must last
      obtain ⟨free, awaited⟩ := Waits.awaited must
      rw [phase] at spares
      have room := spares.1 (by
        rw [target]
        exact must.1)
      have bound := spared.count_le
      exact ⟨awaited, .inr ⟨free, by omega⟩⟩
    · obtain ⟨pid, request, phase⟩ := Worker.phase_of_waiter? before
      have blocked := (spared.orderly.asleep w member pid request waiter phase).2
      rw [handleWakeUp_waits blocked woken]
      exact ⟨spared.awaited w member waiter before, .inl before⟩
  exact spared.set (spared.orderly.step stepped) found rfl others
    (fun waiter waits => (self waiter waits).1) (fun waiter waits => (self waiter waits).2)

theorem Spared.step (spared : Spared s) {move : Move} (spares : SparesWorker s move)
    (stepped : s.step move = some s') : Spared s' := by
  rcases step_cases stepped with ⟨index, now, w, w', s₁, rfl, found, advances, rfl⟩ |
    ⟨index, pid, broadcasts, phase, found, kinds, rfl⟩ | ⟨files, -, workers⟩
  · exact spared.work found (spares w found) advances stepped
  · have idle : ∀ waiter, Worker.waiter? ⟨phase, broadcasts⟩ ≠ some waiter := by
      rcases kinds with ⟨_, rfl⟩ | ⟨_, rfl⟩ | rfl <;> exact nofun
    exact spared.set (spared.orderly.step stepped) found rfl
      (fun _ u _ elsewhere => spared.awaited u (List.mem_of_getElem? elsewhere))
      (fun waiter waits => absurd waits (idle waiter))
      (fun waiter waits => absurd waits (idle waiter))
  · refine ⟨spared.orderly.step stepped, ?_, ?_, ?_⟩
    · rw [files, workers]
      exact spared.awaited
    · rw [workers]
      exact spared.distinct
    · rw [workers]
      exact spared.spare

end Server

open Server

/-- Along the runs in which a request that has to wait leaves a worker for the
    others, and no file is evicted while a lock of it is pending, one of the workers
    does not wait for a file to be lockable. -/
theorem worker_not_waiting (fileSystem : FileSystem codec) (size : Nat) (positive : 0 < size)
    (moves : List Move) (s : Server codec)
    (run : (serverSystem codec).Trace (.init fileSystem size) moves s)
    (spares : (serverSystem codec).Meets SparesWorker (.init fileSystem size) moves) :
    ∃ w ∈ s.workers, w.waiter? = none := by
  have step : ∀ (s : Server codec) (move : Move), Spared s →
      (serverSystem codec).Enabled s move → SparesWorker s move →
      Spared ((serverSystem codec).apply s move) :=
    fun _ _ spared enabled spares => spared.step spares (serverSystem_step enabled)
  have spared := run.keeps step spares (spared_init fileSystem positive)
  by_contra all
  have waits : ∀ w ∈ s.workers, w.waiter?.isSome := by
    intro w member
    exact Option.isSome_iff_ne_none.mpr fun none_ => all ⟨w, member, none_⟩
  have spare := spared.spare
  rw [List.countP_eq_length.mpr waits] at spare
  exact absurd spare (Nat.lt_irrefl _)

/-- Two clients open two files, and each asks for the lock of one of them. -/
def crossedMoves (second : Nat) : List Move :=
  [.accept 5, .accept 6] ++ Move.serve 0 5 (.OPEN ⟨some (.upToNul [102]), 1⟩) 4 1 ++ [.listen] ++
    Move.serve 0 5 (.OPEN ⟨some (.upToNul [103]), 1⟩) 4 2 ++ [.listen] ++
    Move.serve 0 6 (.OPEN ⟨some (.upToNul [102]), 0⟩) 4 3 ++ [.listen] ++
    Move.serve 0 6 (.OPEN ⟨some (.upToNul [103]), 0⟩) 4 4 ++ [.listen] ++
    Move.serve 0 5 (.LOCK ⟨0⟩) 1 5 ++ Move.serve 1 6 (.LOCK ⟨3⟩) second 6

def twoWorkers : Server huffmanCodec := .init (.init 1 4 .fifo) 2

theorem worker_not_waiting_crossed :
    ∃ s, (serverSystem huffmanCodec).Trace twoWorkers (crossedMoves 0) s ∧
      (serverSystem huffmanCodec).Meets SparesWorker twoWorkers (crossedMoves 0) ∧
      s.workers.countP (·.waiter?.isSome) = 1 ∧ ∃ w ∈ s.workers, w.waiter? = none := by
  have enabled : (serverSystem huffmanCodec).Meets (serverSystem huffmanCodec).Enabled twoWorkers
      (crossedMoves 0) := by decide +kernel
  have spares : (serverSystem huffmanCodec).Meets SparesWorker twoWorkers (crossedMoves 0) := by
    decide +kernel
  have run := ActionSystem.Trace.of_enabled enabled
  exact ⟨_, run, spares, by decide +kernel,
    worker_not_waiting (.init 1 4 .fifo) 2 (by decide) (crossedMoves 0) _ run spares⟩

/-- Each of the two workers waits for a file that the client of the other one has
    open. -/
theorem workers_all_waiting : ∃ moves s, (serverSystem huffmanCodec).Trace twoWorkers moves s ∧
    0 < s.workers.length ∧ ¬ ∃ w ∈ s.workers, w.waiter? = none := by
  have enabled : (serverSystem huffmanCodec).Meets (serverSystem huffmanCodec).Enabled twoWorkers
      (crossedMoves 1) := by decide +kernel
  exact ⟨_, _, ActionSystem.Trace.of_enabled enabled, by decide +kernel, by decide +kernel⟩

end FileStorage
