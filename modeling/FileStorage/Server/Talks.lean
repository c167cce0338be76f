import FileStorage.Server.Conduct
import FileStorage.Server.Parking

/-! # What careful clients are told

The server as before, with what every client has asked and was told since it has connected.
If all clients are careful, then in every run, in whatever order their requests are handled,
the files hold bytes that are right, and so does every answer.
-/

namespace FileStorage

open Program FileSystem

variable {codec : Codec} {Right : Contents}

structure Overheard (codec : Codec) where
  server : Server codec
  talks : Pid → Talk

namespace Overheard

def init (server : Server codec) : Overheard codec where
  server
  talks := fun _ => []

/-- The talks when a worker has gone on. A request has been dealt with when there is an
    answer to it, unless the client is parked. A client that has gone away leaves nothing
    behind. -/
def heard (talks : Pid → Talk) (w w' : Worker) : Pid → Talk :=
  match w'.phase with
  | .answered pid request answer =>
      if answer = .ERROR .EBUSY then talks
      else Function.update talks pid (talks pid ++ [(request, answer.descriptor)])
  | .failing pid _ =>
      match w.phase with
      | .answered _ request _ => Function.update talks pid (talks pid ++ [(request, none)])
      | _ => talks
  | .unsubscribing pid => Function.update talks pid []
  | _ => talks

def follow (s s' : Server codec) (talks : Pid → Talk) : Move → Pid → Talk
  | .accept pid => Function.update talks pid []
  | .receive index _ | .work index _ =>
      match s.workers[index]?, s'.workers[index]? with
      | some w, some w' => heard talks w w'
      | _, _ => talks
  | _ => talks

def Careful (Right : Contents) (s : Overheard codec) : Move → Prop
  | .receive index (.request request) => ∀ w ∈ s.server.workers[index]?,
      ∀ pid ∈ w.phase.pid?, request.Permitted Right (s.talks pid).held
  | _ => True

instance decidableCareful [∀ name bytes, Decidable (Right name bytes)] (s : Overheard codec) :
    (move : Move) → Decidable (s.Careful Right move)
  | .receive _ (.request request) =>
      haveI : ∀ w : Worker, Decidable (∀ pid ∈ w.phase.pid?,
          request.Permitted Right (s.talks pid).held) := fun _ => Option.decidableForallMem _
      Option.decidableForallMem _
  | .receive _ .closed | .receive _ (.failed _) | .accept _ | .disconnect _ | .dispatch _
  | .listen | .work _ _ => .isTrue trivial

/-- What can be decoded of a stored file is right for its name, and so is all that the clients
    are told. No worker is about to decode an artifact that was freed. -/
structure TellsRight (Right : Contents) (s : Overheard codec) : Prop where
  stored : ∀ name inode, s.server.fileSystem.file name = some inode →
    s.server.fileSystem.content inode ≠ [] → Right name (s.server.fileSystem.content inode)
  answered : ∀ w ∈ s.server.workers, ∀ pid request answer,
    w.phase = .answered pid request answer →
      answer.Rightful Right (s.talks pid).held request
  decodes : ∀ w ∈ s.server.workers, ∀ now event, w.phase.event now = some event →
    (event.call s.server.fileSystem).fault? ≠ some .decodeFreed

end Overheard

open Overheard

def overheardSystem (codec : Codec) : ActionSystem (Overheard codec) Move where
  Enabled s move := (s.server.step move).isSome
  apply s move := {
    server := (s.server.step move).getD s.server
    talks := follow s.server ((s.server.step move).getD s.server) s.talks move }

instance (s : Overheard codec) (move : Move) :
    Decidable ((overheardSystem codec).Enabled s move) :=
  inferInstanceAs (Decidable (_ = true))

/-! ## What the workers know -/

def Phase.Sound (Right : Contents) (talks : Pid → Talk) : Phase → Prop
  | .handling pid request | .subscribing pid request _ =>
      request.Permitted Right (talks pid).held
  | .waiting pid request waiter =>
      request.Permitted Right (talks pid).held ∧ request.Suits waiter
  | .answered pid request answer => answer.Rightful Right (talks pid).held request ∧
      (answer = .ERROR .EBUSY → request.Permitted Right (talks pid).held)
  | .unsubscribing pid | .leaving pid => talks pid = []
  | _ => True

theorem Phase.Sound.congr {talks talks' : Pid → Talk} {phase : Phase}
    (sound : phase.Sound Right talks)
    (same : ∀ pid, phase.pid? = some pid → talks' pid = talks pid) : phase.Sound Right talks' := by
  cases phase with
  | ready | reading | responding | notifying | failing | closing | parting => trivial
  | _ => simpa only [Phase.Sound, same _ rfl] using sound

theorem Request.mem_next_none {request : Request} {held : Option Handle} {h : Handle}
    (has : h ∈ request.next held none) : h ∈ held := by
  cases request with
  | OPEN payload | WRITE payload | CLOSE payload => cases has
  | _ => exact has

theorem Answer.Rightful.after {held : Option Handle} {request : Request} {answer : Answer}
    (rightful : answer.Rightful Right held request) :
    answer.Rightful Right (request.after held answer) request := by
  cases answer with
  | OK_FILE bytes =>
      obtain ⟨⟨payload, rfl⟩, has⟩ := rightful
      exact ⟨⟨payload, rfl⟩, has⟩
  | _ => exact rightful

theorem heard_answered (talks : Pid → Talk) (w : Worker) (pid : Pid) (request : Request)
    (answer : Answer) (broadcasts : List Filename) :
    (heard talks w ⟨.answered pid request answer, broadcasts⟩ pid).held =
      request.after (talks pid).held answer := by
  unfold heard Request.after
  simp only []
  split
  · rfl
  · rw [Function.update_self, Talk.held_append]

theorem WaitingList.mem_validOf_of_popped {ρ : Type} {w : WaitingList ρ} {target : Filename}
    {el : Waiting ρ} (popped : (w.pop target).1 = some el) : el ∈ w.validOf target := by
  refine mem_validOf.mpr ⟨?_, mem_presenceList_of_popped popped⟩
  rw [pop_fst] at popped
  obtain ⟨skipped, -, split, -⟩ := dequeueValid_spec w.presenceList (w.queueOf target)
  rw [split, popped]
  simp

namespace Server

variable {s s' s₁ : Server codec} {now : Int} {w w' : Worker} {talks : Pid → Talk}

/-- Only the talk of the client in the hands of a worker goes on. -/
theorem Advances.heard_other (advances : Advances s now w w' s₁) {pid : Pid}
    (other : w.phase.pid? ≠ some pid) : heard talks w w' pid = talks pid := by
  cases advances with
  | @answer holder _ answer | @wake holder _ _ answer =>
      have apart : pid ≠ holder := fun same => other (same ▸ rfl)
      unfold heard
      simp only []
      split
      · rfl
      · exact Function.update_of_ne apart _ _
  | @unsubscribable holder =>
      have apart : pid ≠ holder := fun same => other (same ▸ rfl)
      exact Function.update_of_ne apart _ _
  | _ => rfl

/-- What is true in every run with careful clients. The request of a parked client is kept
    until the client is served. -/
structure Sound (Right : Contents) (s : Server codec) (talks : Pid → Talk) : Prop where
  orderly : Orderly s
  own : OwnCopies s.fileSystem.view
  faithful : Faithful Right s.fileSystem.view
  holds : ∀ pid, ∀ h ∈ (talks pid).held, h.Held pid s.fileSystem.view
  phases : ∀ w ∈ s.workers, w.phase.Sound Right talks
  parked : ∀ target, ∀ el ∈ s.waitingList.validOf target,
    el.request.Permitted Right (talks el.pid).held

/-- What an answer leaves, whether the worker has just made the call or was woken up in it. -/
theorem sound_answered {pid : Pid} {request : Request} {answer : Answer}
    {broadcasts : List Filename} (permitted : request.Permitted Right (talks pid).held)
    (rightful : answer.Rightful Right (talks pid).held request) (w : Worker) :
    (Phase.answered pid request answer).Sound Right
      (heard talks w ⟨.answered pid request answer, broadcasts⟩) := by
  rw [Phase.Sound, heard_answered]
  refine ⟨rightful.after, fun busy => ?_⟩
  rwa [Request.after, if_pos busy]

/-- What one piece of a worker does to the files and to the client in its hands. -/
theorem Sound.piece (truthful : codec.Truthful) (sound : Sound Right s talks)
    (member : w ∈ s.workers) (advances : Advances s now w w' s₁) :
    Faithful Right s₁.fileSystem.view ∧ w'.phase.Sound Right (heard talks w w') ∧
      ∀ pid, w.phase.pid? = some pid →
        ∀ h ∈ (heard talks w w' pid).held, h.Held pid s₁.fileSystem.view := by
  have here := sound.phases w member
  have faithful := sound.faithful
  have holds := sound.holds
  have called := advances.fileSystem
  cases advances with
  | @answer pid request answer fs broadcasts handled =>
      have right := handleRequest_faithful truthful faithful (holds pid) here now
      have rightful := handleRequest_rightful truthful faithful (holds pid) here now
      have held := handleRequest_held sound.own (holds pid) request now
      rw [handled] at right rightful held
      refine ⟨right, sound_answered here (rightful answer rfl) _, ?_⟩
      rintro _ ⟨⟩
      rw [heard_answered]
      exact held
  | @wait pid request waiter fs broadcasts handled last =>
      have right := handleRequest_faithful truthful faithful (holds pid) here now
      have held := handleRequest_held sound.own (holds pid) request now
      rw [handled] at right held
      refine ⟨right, ⟨here, handleRequest_suits handled last⟩, ?_⟩
      rintro _ ⟨⟩
      exact held
  | @wake pid request waiter answer fs broadcasts handled =>
      obtain ⟨own, waits⟩ := sound.orderly.asleep _ member _ _ _ rfl
      have right := handleWakeUp_faithful truthful faithful waits now
      have held := handleWakeUp_held Right waits own here.2 (holds pid) now
      rw [handled] at right held
      obtain ⟨rightful, held⟩ := held answer rfl
      refine ⟨right, sound_answered here.1 rightful _, ?_⟩
      rintro _ ⟨⟩
      rw [heard_answered]
      exact held
  | @waitAgain pid request waiter fs broadcasts handled =>
      obtain ⟨own, waits⟩ := sound.orderly.asleep _ member _ _ _ rfl
      obtain rfl := handleWakeUp_waits waits handled
      exact ⟨faithful, here, fun other _ => holds other⟩
  | @leave pid fs broadcasts left =>
      have empty : talks pid = [] := here
      refine ⟨?_, trivial, ?_⟩
      · rcases called with same | ⟨event, is, result⟩
        · exact same ▸ faithful
        · cases is
          have possible : (Event.removeSession pid now).Possible s.fileSystem := trivial
          exact faithful.step truthful possible rfl result
      · rintro _ ⟨⟩ h has
        simp only [heard, empty, Talk.held_nil] at has
        cases has
  | @pop target outer el popped =>
      have valid := WaitingList.mem_validOf_of_popped popped
      exact ⟨faithful, sound.parked target el valid, fun pid never => by cases never⟩
  | busy found => exact ⟨faithful, here.2 rfl, fun pid _ => holds pid⟩
  | @unsubscribable pid request code broadcasts =>
      refine ⟨faithful, trivial, ?_⟩
      rintro _ ⟨⟩ h has
      simp only [heard, Function.update_self, Talk.held_append] at has
      exact holds _ h (Request.mem_next_none has)
  | unsubscribe => exact ⟨faithful, here, fun pid _ => holds pid⟩
  | _ => exact ⟨faithful, trivial, fun pid _ => holds pid⟩

theorem Sound.work (truthful : codec.Truthful) (sound : Sound Right s talks) {index : Nat}
    (found : s.workers[index]? = some w) (advances : Advances s now w w' s₁)
    (stepped : s.step (.work index now) = some { s₁ with workers := s.workers.set index w' }) :
    Sound Right { s₁ with workers := s.workers.set index w' } (heard talks w w') := by
  have member := List.mem_of_getElem? found
  obtain ⟨faithful, phase, holds⟩ := sound.piece truthful member advances
  have called := advances.fileSystem
  refine ⟨sound.orderly.step stepped, ?_, faithful, fun pid => ?_, fun u there => ?_,
    fun target el valid => ?_⟩
  · rcases called with same | ⟨event, next, result⟩
    · exact same ▸ sound.own
    · exact sound.own.call (sound.orderly.asleep.possible member next) result
  · by_cases mine : w.phase.pid? = some pid
    · exact holds pid mine
    · -- the descriptors of the other clients
      rw [advances.heard_other mine]
      intro h has
      rcases called with same | ⟨event, next, result⟩
      · exact same ▸ sound.holds pid h has
      · refine (sound.holds pid h has).step (sound.orderly.asleep.possible member next) ?_ result
        intro own
        exact absurd (own ▸ sound.orderly.asleep.event_pid member next) mine
  · rcases Threads.mem_of_mem_set there with rfl | ⟨other, different, elsewhere⟩
    · exact phase
    · refine (sound.phases u (List.mem_of_getElem? elsewhere)).congr fun pid holder => ?_
      refine advances.heard_other fun mine => ?_
      exact sound.orderly.accounted.apart found elsewhere different mine holder
  · rcases advances.entry sound.orderly.accounted member valid with old | ⟨-, phase⟩
    · rw [advances.heard_other fun mine => ?_]
      · exact sound.parked target el old
      · -- a client in the hands of a worker is not parked
        have apart := (sound.orderly.accounted.held member mine).2
        have present := List.count_pos_iff.mpr (WaitingList.mem_validOf.mp old).2
        rw [shared] at apart
        omega
    · have permitted := sound.phases w member
      obtain ⟨_, broadcasts⟩ := w
      subst phase
      cases advances
      exact permitted

theorem Sound.of_same (sound : Sound Right s talks) (orderly : Orderly s')
    (files : s'.fileSystem = s.fileSystem) (parked : s'.waitingList = s.waitingList)
    (workers : s'.workers = s.workers) : Sound Right s' talks where
  orderly
  own := files ▸ sound.own
  faithful := files ▸ sound.faithful
  holds := files ▸ sound.holds
  phases := workers ▸ sound.phases
  parked := parked ▸ sound.parked

/-- The talk of a client that no other worker has in its hands and that is not parked can begin
    again. -/
theorem Sound.restart (sound : Sound Right s talks) {pid : Pid}
    (hands : ∀ w ∈ s.workers, w.phase.pid? = some pid →
      w.phase.Sound Right (Function.update talks pid []))
    (unparked : pid ∉ s.waitingList.presenceList) :
    Sound Right s (Function.update talks pid []) where
  orderly := sound.orderly
  own := sound.own
  faithful := sound.faithful
  holds := by
    intro other h has
    by_cases same : other = pid
    · rw [same, Function.update_self] at has
      cases has
    · rw [Function.update_of_ne same] at has
      exact sound.holds other h has
  phases := by
    intro w member
    by_cases mine : w.phase.pid? = some pid
    · exact hands w member mine
    · refine (sound.phases w member).congr fun other holder => Function.update_of_ne ?_ _ _
      rintro rfl
      exact mine holder
  parked := by
    intro target el valid
    have apart : el.pid ≠ pid := fun same => unparked (same ▸ (WaitingList.mem_validOf.mp valid).2)
    rw [Function.update_of_ne apart]
    exact sound.parked target el valid

theorem Sound.receive (sound : Sound Right s talks) {index : Nat}
    {broadcasts : List Filename} {phase : Phase}
    (orderly : Orderly { s with workers := s.workers.set index ⟨phase, broadcasts⟩ })
    (fits : phase.Sound Right talks) :
    Sound Right { s with workers := s.workers.set index ⟨phase, broadcasts⟩ } talks where
  orderly
  own := sound.own
  faithful := sound.faithful
  holds := sound.holds
  phases := by
    intro u there
    rcases Threads.mem_of_mem_set there with rfl | ⟨other, -, elsewhere⟩
    · exact fits
    · exact sound.phases u (List.mem_of_getElem? elsewhere)
  parked := sound.parked

theorem Sound.step (truthful : codec.Truthful) (sound : Sound Right s talks) {move : Move}
    (stepped : s.step move = some s') (careful : Overheard.Careful Right ⟨s, talks⟩ move) :
    Sound Right s' (follow s s' talks move) := by
  have orderly := sound.orderly.step stepped
  cases move with
  | accept pid =>
      simp only [Server.step] at stepped
      split at stepped
      · rename_i fresh
        cases stepped
        refine .restart (sound.of_same orderly rfl rfl rfl) (fun w member holder => ?_)
          fun parked => ?_
        · exact absurd (sound.orderly.accounted.held member holder).1 fresh.2
        · have present : 0 < s.waitingList.presenceList.count pid := List.count_pos_iff.mpr parked
          refine fresh.2 (sound.orderly.accounted.connected ?_)
          rw [places, shared]
          omega
      · cases stepped
  | disconnect pid | dispatch pid | listen =>
      simp only [Server.step] at stepped
      split at stepped <;> cases stepped
      exact sound.of_same orderly rfl rfl rfl
  | receive index incoming =>
      obtain ⟨pid, broadcasts, phase, found, received, rfl⟩ := step_receive stepped
      have after : (s.workers.set index ⟨phase, broadcasts⟩)[index]? =
          some ⟨phase, broadcasts⟩ := by
        rw [List.getElem?_set_self', found]
        rfl
      simp only [follow, found, after]
      cases incoming with
      | request request =>
          cases received
          exact sound.receive orderly (careful _ found pid rfl)
      | failed code =>
          cases received
          exact sound.receive orderly trivial
      | closed =>
          simp only [Server.received] at received
          split at received <;> cases received
          have member := List.mem_of_getElem? found
          refine Sound.receive (.restart sound (fun w there holder => ?_) fun parked => ?_) orderly
            (Function.update_self _ _ _)
          · obtain ⟨other, elsewhere⟩ := List.mem_iff_getElem?.mp there
            by_cases same : other = index
            · subst same
              obtain rfl := Option.some.inj (found.symm.trans elsewhere)
              trivial
            · exact absurd holder (sound.orderly.accounted.apart found elsewhere same rfl)
          · have present := List.count_pos_iff.mpr parked
            have apart := (sound.orderly.accounted.held member rfl).2
            rw [shared] at apart
            omega
  | work index now =>
      obtain ⟨w, w', s₁, found, advances, rfl⟩ := step_work stepped
      have after : (s.workers.set index w')[index]? = some w' := by
        rw [List.getElem?_set_self', found]
        rfl
      simp only [follow, found, after]
      exact sound.work truthful found advances stepped

theorem sound_init (memoryLimit filesLimit : UInt32) (policy : ReplacementPolicy) (size : Nat) :
    Sound Right (.init (.init memoryLimit filesLimit policy) size : Server codec) fun _ => [] := by
  have start : (FileSystem.init memoryLimit filesLimit policy : FileSystem codec).view = .initial :=
    init_view ..
  refine ⟨orderly_init _ _, ?_, ?_, fun _ _ never => ?_, fun w member => ?_, fun _ _ never => ?_⟩
  · intro fd s live
    rw [init, start] at live
    cases live
  · rw [init, start]
    exact faithful_initial
  · cases never
  · rw [List.eq_of_mem_replicate member]
    trivial
  · cases never

theorem Sound.decodes_nothing_freed (truthful : codec.Truthful) (sound : Sound Right s talks)
    (member : w ∈ s.workers) {event : Event} (next : w.phase.event now = some event) :
    (event.call s.fileSystem).fault? ≠ some .decodeFreed := by
  have possible := sound.orderly.asleep.possible member next
  have here := sound.phases w member
  obtain ⟨phase, broadcasts⟩ := w
  cases phase with
  | handling pid request =>
      have right := handleRequest_faithful truthful sound.faithful (sound.holds pid) here now
      have handles := handleRequest_handles next s.fileSystem
      intro freed
      cases outcome : event.call s.fileSystem with
      | ok reply fs | error code fs =>
          rw [outcome] at freed
          cases freed
      | fault why =>
          rw [outcome] at freed handles
          rw [show handleRequest pid now request s.fileSystem = .fault why from handles] at right
          exact right (Option.some.inj freed)
  | waiting pid request waiter =>
      cases next
      exact Event.plain_decodes_nothing rfl possible
  | leaving pid =>
      cases next
      exact Event.plain_decodes_nothing rfl possible
  | _ => cases next

theorem Sound.apply {s : Overheard codec} {move : Move} (truthful : codec.Truthful)
    (sound : Sound Right s.server s.talks) (enabled : (overheardSystem codec).Enabled s move)
    (careful : s.Careful Right move) : Sound Right ((overheardSystem codec).apply s move).server
      ((overheardSystem codec).apply s move).talks := by
  obtain ⟨s', stepped⟩ := Option.isSome_iff_exists.mp enabled
  simp only [overheardSystem, stepped, Option.getD_some]
  exact sound.step truthful stepped careful

theorem Sound.tellsRight {s : Overheard codec} (truthful : codec.Truthful)
    (sound : Sound Right s.server s.talks) : s.TellsRight Right where
  stored := fun _ _ present some_ => sound.faithful.file present some_
  answered := by
    intro w member pid request answer phase
    have here := sound.phases w member
    rw [phase] at here
    exact here.1
  decodes := fun _ member _ _ next => sound.decodes_nothing_freed truthful member next

/-- A run in which every step meets a guard that makes the clients careful. -/
theorem tellsRight_of_run {guard : Overheard huffmanCodec → Move → Prop}
    {memoryLimit filesLimit : UInt32} {policy : ReplacementPolicy} {size : Nat}
    {moves : List Move} {s : Overheard huffmanCodec}
    (careful : ∀ s move, guard s move → s.Careful Right move)
    (run : (overheardSystem huffmanCodec).Trace
      (.init (.init (.init memoryLimit filesLimit policy) size)) moves s)
    (meets : (overheardSystem huffmanCodec).Meets guard
      (.init (.init (.init memoryLimit filesLimit policy) size)) moves) : s.TellsRight Right := by
  have step : ∀ (s : Overheard huffmanCodec) (move : Move), Sound Right s.server s.talks →
      (overheardSystem huffmanCodec).Enabled s move → guard s move →
      Sound Right ((overheardSystem huffmanCodec).apply s move).server
        ((overheardSystem huffmanCodec).apply s move).talks :=
    fun s move sound enabled met => sound.apply huffmanCodec_truthful enabled (careful s move met)
  have sound := run.keeps step meets (sound_init memoryLimit filesLimit policy size)
  exact sound.tellsRight huffmanCodec_truthful

end Server

/-- In every run in which all clients are careful, in whatever order the workers handle what
    the clients send: what can be decoded of a stored file is right for its name, and so is
    all that the clients are told. No artifact is decoded after it was freed. -/
theorem careful_clients_told_right (Right : Contents) (memoryLimit filesLimit : UInt32)
    (policy : ReplacementPolicy) (size : Nat) (moves : List Move) (s : Overheard huffmanCodec)
    (run : (overheardSystem huffmanCodec).Trace
      (.init (.init (.init memoryLimit filesLimit policy) size)) moves s)
    (careful : (overheardSystem huffmanCodec).Meets (Overheard.Careful Right)
      (.init (.init (.init memoryLimit filesLimit policy) size)) moves) : s.TellsRight Right :=
  Server.tellsRight_of_run (fun _ _ careful => careful) run careful

/-- A client creates a file and writes it, while another one has to wait for the file and
    reads it when it gets it. -/
def toldMoves : List Move :=
  [.accept 5, .accept 6] ++ Move.serve 0 5 (.OPEN ⟨some (.upToNul [102]), 3⟩) 4 1 ++ [.listen] ++
    Move.serve 0 5 (.WRITE ⟨0, 2, some [97, 98]⟩) 4 2 ++ [.listen] ++
    Move.serve 0 6 (.OPEN ⟨some (.upToNul [102]), 0⟩) 3 3 ++
    Move.serve 0 5 (.UNLOCK ⟨0⟩) 4 4 ++ List.replicate 6 (.work 0 5) ++ [.listen, .listen] ++
    Move.serve 0 6 (.READ ⟨1⟩) 1 6

theorem careful_clients_told_right_read : ∃ s,
    (overheardSystem huffmanCodec).Trace (.init oneWorker) toldMoves s ∧
    (overheardSystem huffmanCodec).Meets (Overheard.Careful fun name bytes =>
      name = [102] ∧ bytes = [97, 98]) (.init oneWorker) toldMoves ∧
    s.TellsRight (fun name bytes => name = [102] ∧ bytes = [97, 98]) ∧
    (∃ inode ∈ s.server.fileSystem.file [102],
      s.server.fileSystem.content inode = [97, 98]) ∧
    ∃ w ∈ s.server.workers, w.phase = .answered 6 (.READ ⟨1⟩) (.OK_FILE [97, 98]) := by
  have enabled : (overheardSystem huffmanCodec).Meets (overheardSystem huffmanCodec).Enabled
      (.init oneWorker) toldMoves := by decide +kernel
  have careful : (overheardSystem huffmanCodec).Meets (Overheard.Careful fun name bytes =>
      name = [102] ∧ bytes = [97, 98]) (.init oneWorker) toldMoves := by decide +kernel
  have run := ActionSystem.Trace.of_enabled enabled
  exact ⟨_, run, careful, careful_clients_told_right _ 1 4 .fifo 1 toldMoves _ run careful,
    by decide +kernel, by decide +kernel⟩

end FileStorage
