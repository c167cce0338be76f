import FileStorage.Server.Parking
import FileStorage.Simfs.Refusals

/-! # The broadcast after an unlock

The loop of `handle_fd_c_response` pops the clients that wait for a file one after
the other and handles their requests again. A request that is refused once more is
put back into the queue the loop pops from.
-/

namespace FileStorage

open Program FileSystem

variable {codec : Codec}

namespace Request

def isData : Request → Bool
  | .READ _ | .WRITE _ => true
  | _ => false

def AddressedTo (fs : FileSystem codec) (pid : Pid) (target : Filename) : Request → Prop
  | .OPEN payload => Filename.ofString payload.string = target
  | .LOCK payload => 0 ≤ payload.number ∧ fstatName fs payload.number pid = .ok target
  | _ => False

/-- The request is answered with EBUSY, or it waits. -/
def refused (fs : FileSystem codec) (pid : Pid) : Request → Bool
  | .OPEN payload =>
      fs.openRefused (Filename.ofString payload.string) (toUnsigned32 payload.number) pid
  | .LOCK payload => fs.lockRefused payload.number pid
  | _ => false

variable {fs fs' : FileSystem codec} {pid : Pid} {now : Int} {request : Request} {target : Filename}

theorem addressedTo_of_subscription (plain : request.isData = false)
    (subscribes : subscriptionTarget fs pid request = .ok target) :
    request.AddressedTo fs pid target := by
  cases request with
  | OPEN payload => exact Except.ok.inj subscribes
  | LOCK payload =>
      simp only [subscriptionTarget, subscriptionTarget.ofDescriptor] at subscribes
      split at subscribes
      · rename_i valid
        refine ⟨valid, ?_⟩
        cases found : fstatName fs payload.number pid with
        | ok name =>
            rw [found] at subscribes
            cases subscribes
            rfl
        | error code =>
            rw [found] at subscribes
            cases subscribes
      · cases subscribes
  | READ payload | WRITE payload => cases plain
  | READ_N payload | UNLOCK payload | CLOSE payload | REMOVE payload => cases subscribes

theorem AddressedTo.subscription (addressed : request.AddressedTo fs pid target) :
    subscriptionTarget fs pid request = .ok target := by
  cases request with
  | OPEN payload => exact congrArg Except.ok addressed
  | LOCK payload =>
      obtain ⟨valid, found⟩ := addressed
      simp only [subscriptionTarget, subscriptionTarget.ofDescriptor, if_pos valid, found]
      rfl
  | _ => exact addressed.elim

/-- The descriptors of the pid stay open under their names. -/
def Stay (fs fs' : FileSystem codec) (pid : Pid) : Prop :=
  ∀ fd s, fs.view.slot fd = some s → s.owner = pid →
    (fs'.view.slot fd).map SlotView.key = some s.key

theorem AddressedTo.stay (addressed : request.AddressedTo fs pid target) (stay : Stay fs fs' pid) :
    request.AddressedTo fs' pid target := by
  cases request with
  | OPEN payload => exact addressed
  | LOCK payload =>
      obtain ⟨valid, found⟩ := addressed
      refine ⟨valid, ?_⟩
      obtain ⟨copy, live, rfl⟩ := fstatName_eq_ok.mp found
      obtain ⟨slot, live', key⟩ :=
        Option.map_eq_some_iff.mp (stay _ _ (view_slot live) rfl)
      obtain ⟨owner, named, -⟩ := SlotView.key_eq.mp key
      obtain ⟨copy', found', named'⟩ := Event.descriptor_of_view live' owner
      exact fstatName_eq_ok.mpr ⟨copy', found', named'.trans named⟩
  | _ => exact addressed.elim

/-- An addressed request is refused exactly if it waits or is answered with EBUSY. -/
theorem AddressedTo.handled (addressed : request.AddressedTo fs pid target) (now : Int) :
    (handleRequest pid now request fs).Post
      (fun progress _ => match progress with
        | .waiting => request.refused fs pid = true
        | .done answer => answer = .ERROR .EBUSY ↔ request.refused fs pid = true)
      (fun _ _ => False) (fun _ => False) := by
  cases request with
  | OPEN payload =>
      have refuses := fileSystemOpen_refuses fs (Filename.ofString payload.string)
        (toUnsigned32 payload.number) pid now
      simp only [handleRequest, bind_run, attempt]
      unfold Refuses at refuses
      cases outcome : fileSystemOpen (Filename.ofString payload.string)
          (toUnsigned32 payload.number) pid now fs with
      | ok progress fs' =>
          rw [outcome] at refuses
          cases progress with
          | done fd => exact ⟨fun busy => (by cases busy), fun refused => by cases refuses.mpr refused⟩
          | waiting => exact refuses.mp rfl
      | error code fs' =>
          rw [outcome] at refuses
          exact ⟨fun busy => refuses.mp (Answer.ERROR.inj busy),
            fun refused => congrArg _ (refuses.mpr refused)⟩
      | fault why =>
          rw [outcome] at refuses
          exact refuses
  | LOCK payload =>
      have refuses := fileSystemLock_refuses fs payload.number pid now
      simp only [handleRequest, bind_run, attempt]
      unfold Refuses at refuses
      cases outcome : fileSystemLock payload.number pid now fs with
      | ok progress fs' =>
          rw [outcome] at refuses
          cases progress with
          | done value =>
              exact ⟨fun busy => (by cases busy), fun refused => by cases refuses.mpr refused⟩
          | waiting => exact refuses.mp rfl
      | error code fs' =>
          rw [outcome] at refuses
          exact ⟨fun busy => refuses.mp (Answer.ERROR.inj busy),
            fun refused => congrArg _ (refuses.mpr refused)⟩
      | fault why =>
          rw [outcome] at refuses
          exact refuses
  | _ => exact addressed.elim

theorem AddressedTo.stays (addressed : request.AddressedTo fs pid target) {event : Event}
    (is : request.event pid now = some event) (result : (event.call fs).state? = some fs')
    (other : Pid) : Stay fs fs' other := by
  intro fd s live own
  have possible : event.Possible fs := by cases request <;> cases is <;> trivial
  obtain ⟨acts, does, performs⟩ := Step.performed possible result
  have may := does.mayDo
  refine View.slot_trace performs live fun a member => ?_
  cases request with
  | OPEN payload =>
      cases is
      cases may a member <;> exact id
  | LOCK payload =>
      cases is
      cases may a member <;> exact id
  | _ => exact addressed.elim

theorem AddressedTo.stays_handled (addressed : request.AddressedTo fs pid target) (now : Int)
    (result : (handleRequest pid now request fs).state? = some fs') (other : Pid) :
    Stay fs fs' other := by
  cases is : request.event pid now with
  | none =>
      cases request with
      | OPEN payload | LOCK payload => cases is
      | _ => exact addressed.elim
  | some event =>
      rw [(handleRequest_handles is fs).state?] at result
      exact addressed.stays is result other

theorem AddressedTo.unlocks_nothing (addressed : request.AddressedTo fs pid target) :
    unlockRequestTarget fs' pid request = none := by
  cases request with
  | UNLOCK payload => exact addressed.elim
  | _ => rfl

end Request

theorem FileSystem.Waits.getLast? {fs fs' : FileSystem codec} {name : Filename} {pid : Pid}
    {call : WaitingCall} (waits : fs.Waits name pid call fs') :
    ∃ waiter, fs'.blocked.getLast? = some waiter := by
  obtain ⟨-, inode, -, performs⟩ := waits
  have ends : fs'.blocked = fs.blocked ++ [{ pid, name, generation := inode.generation, call }] :=
    congrArg View.blocked performs.eq_foldl
  exact ⟨_, by rw [ends, List.getLast?_concat]⟩

theorem FileSystem.Waits.asleep {fs fs' : FileSystem codec} {name : Filename} {pid : Pid} {call : WaitingCall}
    (waits : fs.Waits name pid call fs') {waiter : Waiter}
    (last : fs'.blocked.getLast? = some waiter) (now : Int) :
    handleWakeUp waiter now fs' = .ok .waiting fs' := by
  obtain ⟨inode, present, rfl⟩ := Server.Waits.blocked waits last
  obtain ⟨-, inode₁, present₁, performs⟩ := waits
  obtain rfl := Option.some.inj (present.symm.trans present₁)
  have ends := performs.eq_foldl
  obtain _ | ⟨-, rest⟩ := performs
  obtain _ | ⟨⟨f, found, current, must⟩, -⟩ := rest
  have after : fs'.view.file name = some f := by
    rw [ends]
    exact found
  obtain ⟨inode', present', rfl⟩ := Option.map_eq_some_iff.mp after
  have generation : inode'.generation = inode.generation := current
  have must : mustWait inode' pid = true := (mustWait_iff inode' pid).mpr must
  have woken : wakeUp { pid, name, generation := inode.generation, call } now fs' =
      .ok .waiting fs' := by
    simp only [wakeUp, bind_run, Program.get, present', generation, must, ne_eq, not_true,
      if_false, if_true]
    rfl
  simp only [handleWakeUp, bind_run, attempt, woken]
  rfl

/-- A worker that parks a client parks an open or a lock of the target. -/
def Phase.Addressed (fs : FileSystem codec) : Phase → Prop
  | .waiting _ request _ => request.isData = false
  | .answered _ request (.ERROR .EBUSY) => request.isData = false
  | .subscribing pid request target => request.AddressedTo fs pid target
  | _ => True

theorem Phase.addressed_answered {fs : FileSystem codec} {pid : Pid} {request : Request}
    {answer : Answer} (plain : answer = .ERROR .EBUSY → request.isData = false) :
    (Phase.answered pid request answer).Addressed fs := by
  unfold Phase.Addressed
  split
  · rename_i is
    cases is
  · rename_i is
    cases is
    exact plain rfl
  · rename_i is
    cases is
  · trivial

theorem Phase.Addressed.stay {fs fs' : FileSystem codec} {phase : Phase}
    (addressed : phase.Addressed fs) (stay : ∀ pid, phase.pid? = some pid → Request.Stay fs fs' pid) :
    phase.Addressed fs' := by
  cases phase with
  | subscribing pid request target => exact Request.AddressedTo.stay addressed (stay pid rfl)
  | answered pid request answer =>
      refine addressed_answered fun busy => ?_
      subst busy
      exact addressed
  | waiting pid request waiter => exact addressed
  | _ => trivial

theorem handleRequest_data {fs fs' : FileSystem codec} {pid : Pid} {now : Int} {request : Request}
    (copies : OwnCopies fs.view)
    (handled : handleRequest pid now request fs = .ok (.done (.ERROR .EBUSY)) fs') :
    request.isData = false := by
  cases request with
  | READ payload =>
      have avoids := fileSystemRead_neverBusy fs payload.number pid now (copies.ownCopy _ pid)
      simp only [handleRequest, bind_run, attempt] at handled
      cases outcome : fileSystemRead payload.number pid now fs with
      | ok bytes fs₁ =>
          rw [outcome] at handled
          cases handled
      | error code fs₁ =>
          rw [outcome] at handled avoids
          cases handled
          exact absurd rfl avoids
      | fault why =>
          rw [outcome] at handled
          cases handled
  | WRITE payload =>
      have avoids := fileSystemWrite_neverBusy { fileSystem := fs, evictedList := [] }
        payload.number payload.bytes pid now (copies.ownCopy _ pid)
      simp only [handleRequest, handleWrite] at handled
      cases outcome : fileSystemWrite payload.number payload.bytes pid now
          { fileSystem := fs, evictedList := [] } with
      | ok value s =>
          rw [outcome] at handled
          simp only [Outcome.ok.injEq, Progress.done.injEq] at handled
          obtain ⟨answer, -⟩ := handled
          split at answer <;> cases answer
      | error code s =>
          rw [outcome] at handled avoids
          cases handled
          exact absurd rfl avoids
      | fault why =>
          rw [outcome] at handled
          cases handled
  | _ => rfl

namespace Server

variable {s s' s₁ : Server codec} {now : Int} {w w' : Worker} {target : Filename}

structure Addressed (s : Server codec) : Prop where
  orderly : Orderly s
  copies : OwnCopies s.fileSystem.view
  phases : ∀ w ∈ s.workers, w.phase.Addressed s.fileSystem
  parked : ∀ target, ∀ el ∈ s.waitingList.validOf target,
    el.request.AddressedTo s.fileSystem el.pid target

theorem addressed_init (memoryLimit filesLimit : UInt32) (policy : ReplacementPolicy) (size : Nat) :
    Addressed (init (.init memoryLimit filesLimit policy : FileSystem codec) size) := by
  refine ⟨orderly_init _ size, ?_, ?_, nofun⟩
  · change OwnCopies (FileSystem.init memoryLimit filesLimit policy : FileSystem codec).view
    rw [init_view]
    exact nofun
  · intro w member
    rw [List.eq_of_mem_replicate member]
    trivial

/-- A call of the worker leaves the descriptors of all clients alone that it does
    not have in its hands. -/
theorem Advances.stay (advances : Advances s now w w' s₁) (orderly : Orderly s)
    (member : w ∈ s.workers) {pid : Pid} (foreign : w.phase.pid? ≠ some pid) :
    Request.Stay s.fileSystem s₁.fileSystem pid := by
  intro fd slot live own
  rcases advances.fileSystem with same | ⟨event, next, result⟩
  · rw [same, live, Option.map_some]
  · refine Event.slot_call (orderly.asleep.possible member next) result live ?_
    rintro same
    exact foreign ((orderly.asleep.event_pid member next).trans (congrArg some (same.symm.trans own)))

theorem Advances.addressed (advances : Advances s now w w' s₁) (addressed : Addressed s)
    (member : w ∈ s.workers) : w'.phase.Addressed s₁.fileSystem := by
  have phase := addressed.phases w member
  cases advances with
  | answer handled =>
      refine Phase.addressed_answered fun busy => ?_
      rw [busy] at handled
      exact handleRequest_data addressed.copies handled
  | @wait pid request waiter fs broadcasts handled =>
      obtain ⟨name, call, locks, -⟩ := handleRequest_waits handled
      cases request with
      | OPEN payload | LOCK payload => rfl
      | _ => cases locks
  | wake handled => exact Phase.addressed_answered fun _ => phase
  | waitAgain => exact phase
  | busy subscribes => exact Request.addressedTo_of_subscription phase subscribes
  | _ => trivial

theorem Addressed.step (addressed : Addressed s) {move : Move} (stepped : s.step move = some s') :
    Addressed s' := by
  have orderly := addressed.orderly.step stepped
  rcases step_cases stepped with ⟨index, now, w, w', s₁, rfl, found, advances, rfl⟩ |
    ⟨index, pid, broadcasts, phase, found, kinds, rfl⟩ | ⟨files, list, workers⟩
  · have member := List.mem_of_getElem? found
    refine ⟨orderly, ?_, ?_, ?_⟩
    · rcases advances.fileSystem with same | ⟨event, next, result⟩
      · exact same ▸ addressed.copies
      · exact addressed.copies.call (addressed.orderly.asleep.possible member next) result
    · intro u there
      rcases Threads.mem_of_mem_set there with rfl | ⟨other, different, elsewhere⟩
      · exact advances.addressed addressed member
      · refine (addressed.phases u (List.mem_of_getElem? elsewhere)).stay fun pid holds => ?_
        refine advances.stay addressed.orderly member fun holds' => ?_
        exact addressed.orderly.accounted.apart found elsewhere different holds' holds
    · intro target el valid
      rcases advances.entry addressed.orderly.accounted member valid with before | ⟨same, phase⟩
      · refine (addressed.parked target el before).stay (advances.stay addressed.orderly member ?_)
        intro holds
        have apart := (addressed.orderly.accounted.held member holds).2
        have present := List.count_pos_iff.mpr (WaitingList.mem_validOf.mp before).2
        rw [shared] at apart
        omega
      · have pushed := addressed.phases w member
        rw [phase] at pushed
        rw [same]
        exact pushed
  · refine ⟨orderly, addressed.copies, ?_, addressed.parked⟩
    intro u there
    rcases Threads.mem_of_mem_set there with rfl | ⟨other, -, elsewhere⟩
    · rcases kinds with ⟨_, rfl⟩ | ⟨_, rfl⟩ | rfl <;> trivial
    · exact addressed.phases u (List.mem_of_getElem? elsewhere)
  · refine ⟨orderly, files ▸ addressed.copies, ?_, ?_⟩
    · rw [files, workers]
      exact addressed.phases
    · rw [files, list]
      exact addressed.parked

/-! ## The loop -/

def popped (s : Server codec) (w : Worker) : Option (Waiting Request) :=
  match w.phase, w.broadcasts with
  | .ready, target :: _ => (s.waitingList.pop target).1
  | _, _ => none

/-- A worker runs alone until its innermost broadcast has ended and the outer ones
    are left: the entries it has handled, and the state it ends in. The clock says
    when the next one is handled, by the number of those before. -/
def finish (index : Nat) (outer : List Filename) (clock : Nat → Int) :
    (fuel : Nat) → (count : Nat) → Server codec → Option (List (Waiting Request) × Server codec)
  | 0, _, _ => none
  | fuel + 1, count, s =>
      match s.workers[index]? with
      | none => none
      | some w =>
          if w = ⟨.ready, outer⟩ then some ([], s)
          else
            match s.step (.work index (clock count)) with
            | none => none
            | some s' =>
                let handled := (s.popped w).toList
                (finish index outer clock fuel (count + handled.length) s').map fun (rest, last) =>
                  (handled ++ rest, last)

variable {index : Nat} {outer : List Filename} {clock : Nat → Int} {fuel count : Nat}

theorem finish_ended (found : s.workers[index]? = some ⟨.ready, outer⟩) :
    finish index outer clock (fuel + 1) count s = some ([], s) := by
  rw [finish, found]
  exact if_pos rfl

theorem step_of_advance (found : s.workers[index]? = some w)
    (advanced : s.advance now w = some (w', s₁)) :
    s.step (.work index now) = some { s₁ with workers := s.workers.set index w' } := by
  simp only [step, found, Option.bind_some, advanced, Option.map_some]

theorem finish_step (found : s.workers[index]? = some w) (going : w ≠ ⟨.ready, outer⟩)
    (advanced : s.advance (clock count) w = some (w', s₁)) :
    finish index outer clock (fuel + 1) count s =
      (finish index outer clock fuel (count + (s.popped w).toList.length)
        { s₁ with workers := s.workers.set index w' }).map
          fun (rest, last) => ((s.popped w).toList ++ rest, last) := by
  rw [finish, found]
  simp only [if_neg going, step_of_advance found advanced]

structure Pieces (index : Nat) (outer : List Filename) (clock : Nat → Int) (count pieces : Nat)
    (s t : Server codec) : Prop where
  finish_eq : ∀ fuel, finish index outer clock (fuel + pieces) count s =
    finish index outer clock fuel count t
  addressed : Addressed s → Addressed t

theorem Pieces.one (found : s.workers[index]? = some w) (busy : w.phase ≠ .ready)
    (advanced : s.advance (clock count) w = some (w', s₁)) :
    Pieces index outer clock count 1 s { s₁ with workers := s.workers.set index w' } where
  finish_eq := by
    intro fuel
    have nothing : s.popped w = none := by
      unfold popped
      split
      · rename_i ready _
        exact absurd ready busy
      · rfl
    have going : w ≠ ⟨.ready, outer⟩ := by
      rintro rfl
      exact busy rfl
    rw [finish_step found going advanced, nothing]
    simp only [Option.toList_none, List.length_nil, Nat.add_zero, List.nil_append]
    cases finish index outer clock fuel count _ <;> rfl
  addressed := fun addressed => addressed.step (step_of_advance found advanced)

theorem Pieces.trans {m n : Nat} {t u : Server codec}
    (first : Pieces index outer clock count m s t)
    (second : Pieces index outer clock count n t u) :
    Pieces index outer clock count (n + m) s u where
  finish_eq := by
    intro fuel
    rw [← Nat.add_assoc, first.finish_eq, second.finish_eq]
  addressed := fun addressed => second.addressed (first.addressed addressed)

def place (s : Server codec) (index : Nat) (w : Worker) : Server codec :=
  { s with workers := s.workers.set index w }

theorem Pieces.next {t : Server codec} (inside : index < s.workers.length) (busy : w.phase ≠ .ready)
    (advanced : (s.place index w).advance (clock count) w = some (w', t.place index w))
    (same : t.workers = s.workers) :
    Pieces index outer clock count 1 (s.place index w) (t.place index w') := by
  have found : (s.place index w).workers[index]? = some w := by
    simp [place, inside]
  have piece : Pieces index outer clock count 1 (s.place index w)
      { t.place index w with workers := (s.place index w).workers.set index w' } :=
    .one found busy advanced
  have ends : ({ t.place index w with workers := (s.place index w).workers.set index w' } :
      Server codec) = t.place index w' := by
    simp only [place, List.set_set, same]
  rwa [ends] at piece

theorem pieces_handled (inside : index < s.workers.length) {pid : Pid} {request : Request}
    {answer : Answer} {fs : FileSystem codec}
    (handled : handleRequest pid (clock count) request s.fileSystem = .ok (.done answer) fs)
    (broadcasts : List Filename) :
    Pieces index outer clock count 1 (s.place index ⟨.handling pid request, broadcasts⟩)
      (place { s with fileSystem := fs } index ⟨.answered pid request answer, broadcasts⟩) := by
  refine .next inside nofun ?_ rfl
  simp only [advance, place, handled]

theorem pieces_answered (inside : index < s.workers.length) {pid : Pid} {request : Request}
    {answer : Answer} (notBusy : answer ≠ .ERROR .EBUSY)
    (plain : unlockRequestTarget s.fileSystem pid request = none) (broadcasts : List Filename) :
    ∃ t : Server codec, Pieces index outer clock count 3
        (s.place index ⟨.answered pid request answer, broadcasts⟩)
        (t.place index ⟨.ready, broadcasts⟩) ∧
      t.workers = s.workers ∧ t.fileSystem = s.fileSystem ∧ t.waitingList = s.waitingList := by
  have responded : s.respond pid request answer = some (.responding pid answer none) := by
    unfold Server.respond
    rw [if_neg notBusy]
    split
    · rw [plain]
    · rfl
  have first : Pieces index outer clock count 1
      (s.place index ⟨.answered pid request answer, broadcasts⟩)
      (s.place index ⟨.responding pid answer none, broadcasts⟩) := by
    refine .next inside (by simp) ?_ rfl
    change (s.respond pid request answer).map _ = _
    rw [responded]
    rfl
  by_cases gone : pid ∈ s.gone
  · have second : Pieces index outer clock count 1
        (s.place index ⟨.responding pid answer none, broadcasts⟩)
        (s.place index ⟨.failing pid .EPIPE, broadcasts⟩) := by
      refine .next inside (by simp) ?_ rfl
      simp [advance, place, gone]
    have third : Pieces index outer clock count 1
        (s.place index ⟨.failing pid .EPIPE, broadcasts⟩) (s.place index ⟨.ready, broadcasts⟩) := by
      refine .next inside (by simp) ?_ rfl
      simp [advance, place, gone]
    exact ⟨s, first.trans (second.trans third), rfl, rfl, rfl⟩
  · have second : Pieces index outer clock count 1
        (s.place index ⟨.responding pid answer none, broadcasts⟩)
        (s.place index ⟨.notifying pid none, broadcasts⟩) := by
      refine .next inside (by simp) ?_ rfl
      simp [advance, place, gone]
    have third : Pieces index outer clock count 1
        (s.place index ⟨.notifying pid none, broadcasts⟩)
        (place { s with pipe := s.pipe ++ [pid] } index ⟨.ready, broadcasts⟩) :=
      .next inside (by simp) rfl rfl
    exact ⟨_, first.trans (second.trans third), rfl, rfl, rfl⟩

theorem pieces_parked (inside : index < s.workers.length) {pid : Pid} {request : Request}
    (subscribes : subscriptionTarget s.fileSystem pid request = .ok target)
    (broadcasts : List Filename) :
    Pieces index outer clock count 2
      (s.place index ⟨.answered pid request (.ERROR .EBUSY), broadcasts⟩)
      (place { s with waitingList := s.waitingList.push target pid request } index
        ⟨.ready, broadcasts⟩) := by
  have first : Pieces index outer clock count 1
      (s.place index ⟨.answered pid request (.ERROR .EBUSY), broadcasts⟩)
      (s.place index ⟨.subscribing pid request target, broadcasts⟩) := by
    refine .next inside nofun ?_ rfl
    have responded : s.respond pid request (.ERROR .EBUSY) =
        some (.subscribing pid request target) := by
      simp only [Server.respond, subscribes, if_true]
    change (s.respond pid request (.ERROR .EBUSY)).map _ = _
    rw [responded]
    rfl
  exact first.trans (.next inside nofun rfl rfl)

theorem place_found (found : s.workers[index]? = some w) (w' : Worker) :
    (s.place index w').workers[index]? = some w' := by
  rw [place, List.getElem?_set_self', found]
  rfl

theorem finish_pop (found : s.workers[index]? = some ⟨.ready, target :: outer⟩)
    {el : Waiting Request} (popped : (s.waitingList.pop target).1 = some el) :
    finish index outer clock (fuel + 1) count s =
      (finish index outer clock fuel (count + 1)
        (place { s with waitingList := (s.waitingList.pop target).2 } index
          ⟨.handling el.pid el.request, target :: outer⟩)).map
        fun (rest, last) => (el :: rest, last) := by
  have advanced : s.advance (clock count) ⟨.ready, target :: outer⟩ =
      some (⟨.handling el.pid el.request, target :: outer⟩,
        { s with waitingList := (s.waitingList.pop target).2 }) := by
    simp only [advance, proceed, popped]
  have going : (⟨.ready, target :: outer⟩ : Worker) ≠ ⟨.ready, outer⟩ := by simp
  have first : s.popped ⟨.ready, target :: outer⟩ = some el := popped
  rw [finish_step found going advanced, first]
  rfl

theorem finish_done (found : s.workers[index]? = some ⟨.ready, target :: outer⟩)
    (popped : (s.waitingList.pop target).1 = none) :
    ∃ last, ∀ fuel, finish index outer clock (fuel + 2) count s = some ([], last) := by
  have advanced : s.advance (clock count) ⟨.ready, target :: outer⟩ =
      some (⟨.ready, outer⟩, { s with waitingList := (s.waitingList.pop target).2 }) := by
    simp only [advance, proceed, popped]
  have going : (⟨.ready, target :: outer⟩ : Worker) ≠ ⟨.ready, outer⟩ := by simp
  have nothing : s.popped ⟨.ready, target :: outer⟩ = none := popped
  refine ⟨place { s with waitingList := (s.waitingList.pop target).2 } index ⟨.ready, outer⟩,
    fun fuel => ?_⟩
  have ended : (place { s with waitingList := (s.waitingList.pop target).2 } index
      ⟨.ready, outer⟩).workers[index]? = some ⟨.ready, outer⟩ := place_found found _
  rw [finish_step found going advanced, nothing]
  exact congrArg (Option.map _) (finish_ended ended)

structure AtHead (s : Server codec) (index : Nat) (target : Filename) (outer : List Filename) :
    Prop where
  addressed : Addressed s
  found : s.workers[index]? = some ⟨.ready, target :: outer⟩

theorem AtHead.inside (head : s.AtHead index target outer) : index < s.workers.length :=
  (List.getElem?_eq_some_iff.mp head.found).1

theorem Accounted.refines (accounted : Accounted s) :
    WaitingList.Refines s.waitingList s.waitingList.validOf where
  counted pid _ := (accounted.filed pid).symm
  valid _ := rfl

theorem AtHead.pop_eq (head : s.AtHead index target outer) :
    (s.waitingList.pop target).1 = (s.waitingList.validOf target).head? :=
  head.addressed.orderly.accounted.refines.pop_eq_head? target

theorem AtHead.validOf_pop (head : s.AtHead index target outer) :
    (s.waitingList.pop target).2.validOf target = (s.waitingList.validOf target).tail := by
  have valid := (head.addressed.orderly.accounted.refines.pop target).valid target
  simp only [WaitingList.pendingStep, if_true] at valid
  exact valid.symm

def handlingState (s : Server codec) (index : Nat) (target : Filename) (outer : List Filename)
    (el : Waiting Request) : Server codec :=
  place { s with waitingList := (s.waitingList.pop target).2 } index
    ⟨.handling el.pid el.request, target :: outer⟩

theorem AtHead.handling (head : s.AtHead index target outer) {el : Waiting Request}
    (popped : (s.waitingList.pop target).1 = some el) :
    Addressed (s.handlingState index target outer el) := by
  have stepped : s.step (.work index 0) = some (s.handlingState index target outer el) := by
    refine step_of_advance head.found ?_
    simp only [advance, proceed, popped]
  exact head.addressed.step stepped

theorem AtHead.turn (head : s.AtHead index target outer) {el : Waiting Request} {pieces : Nat}
    {t : Server codec} (popped : (s.waitingList.pop target).1 = some el)
    (rest : Pieces index outer clock (count + 1) pieces (s.handlingState index target outer el) t)
    (found : t.workers[index]? = some ⟨.ready, target :: outer⟩) :
    t.AtHead index target outer ∧ ∀ fuel, finish index outer clock (fuel + pieces + 1) count s =
      (finish index outer clock fuel (count + 1) t).map fun (rest, last) => (el :: rest, last) := by
  refine ⟨⟨rest.addressed (head.handling popped), found⟩, fun fuel => ?_⟩
  rw [finish_pop head.found popped]
  exact congrArg _ (rest.finish_eq fuel)

theorem AtHead.serve (head : s.AtHead index target outer) {el : Waiting Request}
    {rest : List (Waiting Request)} (entries : s.waitingList.validOf target = el :: rest)
    (free : el.request.refused s.fileSystem el.pid = false) :
    ∃ (pieces : Nat) (t : Server codec), t.AtHead index target outer ∧
      (handleRequest el.pid (clock (count + 1)) el.request s.fileSystem).state? =
        some t.fileSystem ∧ t.waitingList = (s.waitingList.pop target).2 ∧
      ∀ fuel, finish index outer clock (fuel + pieces + 1) count s =
        (finish index outer clock fuel (count + 1) t).map fun (rest, last) => (el :: rest, last) := by
  have popped : (s.waitingList.pop target).1 = some el := by rw [head.pop_eq, entries]; rfl
  have addressed := head.addressed.parked target el (entries ▸ List.mem_cons_self)
  have answered := addressed.handled (clock (count + 1))
  cases outcome : handleRequest el.pid (clock (count + 1)) el.request s.fileSystem with
  | error code fs =>
      rw [outcome] at answered
      exact answered.elim
  | fault why =>
      rw [outcome] at answered
      exact answered.elim
  | ok progress fs =>
      rw [outcome] at answered
      cases progress with
      | waiting =>
          rw [free] at answered
          cases answered
      | done answer =>
          have notBusy : answer ≠ .ERROR .EBUSY := by
            intro busy
            have refused := answered.mp busy
            rw [free] at refused
            cases refused
          let s₁ : Server codec := { s with waitingList := (s.waitingList.pop target).2 }
          let s₂ : Server codec := { s₁ with fileSystem := fs }
          have inside₁ : index < s₁.workers.length := head.inside
          have inside₂ : index < s₂.workers.length := head.inside
          have first : Pieces index outer clock (count + 1) 1 (s.handlingState index target outer el)
              (s₂.place index ⟨.answered el.pid el.request answer, target :: outer⟩) :=
            pieces_handled inside₁ outcome _
          obtain ⟨t, second, workers, files, list⟩ :
              ∃ t : Server codec, Pieces index outer clock (count + 1) 3
                (s₂.place index ⟨.answered el.pid el.request answer, target :: outer⟩)
                (t.place index ⟨.ready, target :: outer⟩) ∧
                t.workers = s₂.workers ∧ t.fileSystem = s₂.fileSystem ∧
                t.waitingList = s₂.waitingList :=
            pieces_answered inside₂ notBusy addressed.unlocks_nothing _
          have found : (t.place index ⟨.ready, target :: outer⟩).workers[index]? =
              some ⟨.ready, target :: outer⟩ := place_found (workers ▸ head.found) _
          obtain ⟨head', turns⟩ := head.turn popped (first.trans second) found
          exact ⟨_, _, head', congrArg some files.symm, list, turns⟩

theorem finish_waiting (inside : index < s.workers.length) {pid : Pid} {request : Request}
    {waiter : Waiter} {broadcasts : List Filename}
    (asleep : ∀ now, handleWakeUp waiter now s.fileSystem = .ok .waiting s.fileSystem)
    (fuel : Nat) :
    finish index outer clock fuel count
      (s.place index ⟨.waiting pid request waiter, broadcasts⟩) = none := by
  have again : Pieces index outer clock count 1
      (s.place index ⟨.waiting pid request waiter, broadcasts⟩)
      (s.place index ⟨.waiting pid request waiter, broadcasts⟩) := by
    refine .next inside nofun ?_ rfl
    simp only [advance, place, asleep]
  induction fuel with
  | zero => rfl
  | succ fuel ih =>
      rw [again.finish_eq]
      exact ih

/-- An entry that is refused keeps the loop from ending, or it is at the end of the
    queue when the loop comes back to its head. -/
theorem AtHead.refuse (head : s.AtHead index target outer) {el : Waiting Request}
    {rest : List (Waiting Request)} (entries : s.waitingList.validOf target = el :: rest)
    (refused : el.request.refused s.fileSystem el.pid = true) :
    (∀ fuel, finish index outer clock fuel count s = none) ∨
    ∃ (pieces : Nat) (t : Server codec), t.AtHead index target outer ∧
      t.waitingList = (s.waitingList.pop target).2.push target el.pid el.request ∧
      ∀ fuel, finish index outer clock (fuel + pieces + 1) count s =
        (finish index outer clock fuel (count + 1) t).map fun (rest, last) => (el :: rest, last) := by
  have popped : (s.waitingList.pop target).1 = some el := by rw [head.pop_eq, entries]; rfl
  have addressed := head.addressed.parked target el (entries ▸ List.mem_cons_self)
  have answered := addressed.handled (clock (count + 1))
  let s₁ : Server codec := { s with waitingList := (s.waitingList.pop target).2 }
  have inside₁ : index < s₁.workers.length := head.inside
  cases outcome : handleRequest el.pid (clock (count + 1)) el.request s.fileSystem with
  | error code fs =>
      rw [outcome] at answered
      exact answered.elim
  | fault why =>
      rw [outcome] at answered
      exact answered.elim
  | ok progress fs =>
      rw [outcome] at answered
      let s₂ : Server codec := { s₁ with fileSystem := fs }
      have inside₂ : index < s₂.workers.length := head.inside
      cases progress with
      | waiting =>
          obtain ⟨name, call, -, waits⟩ := handleRequest_waits outcome
          obtain ⟨waiter, last⟩ := waits.getLast?
          have first : Pieces index outer clock (count + 1) 1 (s.handlingState index target outer el)
              (s₂.place index ⟨.waiting el.pid el.request waiter, target :: outer⟩) := by
            refine .next inside₁ nofun ?_ rfl
            simp only [advance, place, outcome, last]
            rfl
          refine .inl fun fuel => ?_
          cases fuel with
          | zero => rfl
          | succ fuel =>
              rw [finish_pop head.found popped]
              cases fuel with
              | zero => rfl
              | succ fuel =>
                  change Option.map _ (finish index outer clock (fuel + 1) (count + 1)
                    (s.handlingState index target outer el)) = none
                  rw [first.finish_eq, finish_waiting inside₂ (waits.asleep last)]
                  rfl
      | done answer =>
          obtain rfl := answered.mpr refused
          have first : Pieces index outer clock (count + 1) 1 (s.handlingState index target outer el)
              (s₂.place index ⟨.answered el.pid el.request (.ERROR .EBUSY), target :: outer⟩) :=
            pieces_handled inside₁ outcome _
          have stay : Request.Stay s.fileSystem s₂.fileSystem el.pid := by
            refine addressed.stays_handled (clock (count + 1)) ?_ el.pid
            rw [outcome]
            rfl
          have second : Pieces index outer clock (count + 1) 2
              (s₂.place index ⟨.answered el.pid el.request (.ERROR .EBUSY), target :: outer⟩)
              (place { s₂ with waitingList := s₂.waitingList.push target el.pid el.request } index
                ⟨.ready, target :: outer⟩) :=
            pieces_parked inside₂ (addressed.stay stay).subscription _
          obtain ⟨head', turns⟩ := head.turn popped (first.trans second) (place_found head.found _)
          exact .inr ⟨_, _, head', rfl, turns⟩

theorem finish_succ {result : List (Waiting Request) × Server codec}
    (ended : finish index outer clock fuel count s = some result) :
    finish index outer clock (fuel + 1) count s = some result := by
  induction fuel generalizing count s result with
  | zero => cases ended
  | succ fuel ih =>
      rw [finish] at ended ⊢
      cases found : s.workers[index]? with
      | none =>
          rw [found] at ended
          cases ended
      | some w =>
          simp only [found] at ended ⊢
          split
          · rename_i idle
            rwa [if_pos idle] at ended
          · rename_i going
            rw [if_neg going] at ended
            cases stepped : s.step (.work index (clock count)) with
            | none =>
                rw [stepped] at ended
                cases ended
            | some s' =>
                simp only [stepped] at ended ⊢
                obtain ⟨later, rest, is⟩ := Option.map_eq_some_iff.mp ended
                rw [ih rest, Option.map_some, is]

theorem finish_mono {result : List (Waiting Request) × Server codec}
    (ended : finish index outer clock fuel count s = some result) (more : Nat) :
    finish index outer clock (fuel + more) count s = some result := by
  induction more with
  | zero => exact ended
  | succ more ih => exact finish_succ ih

/-! ## When the loop ends -/

/-- Handled one after the other, none of the entries is refused. -/
def settles (clock : Nat → Int) : Nat → FileSystem codec → List (Waiting Request) → Bool
  | _, _, [] => true
  | count, fs, el :: rest => !el.request.refused fs el.pid &&
      settles clock (count + 1)
        ((handleRequest el.pid (clock (count + 1)) el.request fs).state?.getD fs) rest

theorem settles_cons {fs fs' : FileSystem codec} {el : Waiting Request}
    {rest : List (Waiting Request)}
    (handled : (handleRequest el.pid (clock (count + 1)) el.request fs).state? = some fs') :
    settles clock count fs (el :: rest) = true ↔
      el.request.refused fs el.pid = false ∧ settles clock (count + 1) fs' rest = true := by
  simp only [settles, handled, Option.getD_some, Bool.and_eq_true, Bool.not_eq_true']

/-- Entries that are not refused are handled in their order, and the loop ends. -/
theorem AtHead.finishes {entries : List (Waiting Request)} (head : s.AtHead index target outer)
    (valid : s.waitingList.validOf target = entries)
    (settle : settles clock count s.fileSystem entries = true) :
    ∃ fuel last, finish index outer clock fuel count s = some (entries, last) := by
  induction entries generalizing s count with
  | nil =>
      have popped : (s.waitingList.pop target).1 = none := by rw [head.pop_eq, valid]; rfl
      obtain ⟨last, ended⟩ := finish_done head.found popped
      exact ⟨2, last, ended 0⟩
  | cons el rest ih =>
      have free : el.request.refused s.fileSystem el.pid = false := by
        simp only [settles, Bool.and_eq_true, Bool.not_eq_true'] at settle
        exact settle.1
      obtain ⟨pieces, t, head', handled, list, turns⟩ := head.serve valid free
      have shorter : t.waitingList.validOf target = rest := by
        rw [list, head.validOf_pop, valid]
        rfl
      obtain ⟨fuel, last, ended⟩ := ih head' shorter ((settles_cons handled).mp settle).2
      refine ⟨fuel + pieces + 1, last, ?_⟩
      rw [turns, ended]
      rfl

theorem AtHead.mem_validOf_push (head : s.AtHead index target outer) {el other : Waiting Request}
    {rest : List (Waiting Request)} (entries : s.waitingList.validOf target = el :: rest)
    (member : other ∈ el :: rest) :
    other ∈ ((s.waitingList.pop target).2.push target el.pid el.request).validOf target := by
  rw [WaitingList.mem_validOf, WaitingList.queueOf_push, if_pos rfl]
  rcases List.mem_cons.mp member with rfl | later
  · exact ⟨List.mem_append_right _ List.mem_cons_self, List.mem_append_right _ List.mem_cons_self⟩
  · have kept : other ∈ (s.waitingList.pop target).2.validOf target := by
      rw [head.validOf_pop, entries]
      exact later
    obtain ⟨queued, present⟩ := WaitingList.mem_validOf.mp kept
    exact ⟨List.mem_append_left _ queued, List.mem_append_left _ present⟩

theorem AtHead.ended_cons {handled rest : List (Waiting Request)} {last : Server codec}
    (head : s.AtHead index target outer)
    (ended : finish index outer clock fuel count s = some (handled, last)) {el : Waiting Request}
    (entries : s.waitingList.validOf target = el :: rest) :
    ∃ t handled', handled = el :: handled' ∧ t.AtHead index target outer ∧
      finish index outer clock fuel (count + 1) t = some (handled', last) ∧
      if el.request.refused s.fileSystem el.pid then
        ∀ other ∈ el :: rest, other ∈ t.waitingList.validOf target
      else (handleRequest el.pid (clock (count + 1)) el.request s.fileSystem).state? =
          some t.fileSystem ∧ t.waitingList.validOf target = rest := by
  have turned : ∀ {pieces : Nat} {t : Server codec},
      finish index outer clock (fuel + pieces + 1) count s =
        (finish index outer clock fuel (count + 1) t).map (fun (rest, last) => (el :: rest, last)) →
      ∃ handled', handled = el :: handled' ∧
        finish index outer clock fuel (count + 1) t = some (handled', last) := by
    intro pieces t turn
    have longer := finish_mono ended (pieces + 1)
    rw [← Nat.add_assoc, turn] at longer
    obtain ⟨⟨handled', last'⟩, later, is⟩ := Option.map_eq_some_iff.mp longer
    obtain ⟨rfl, rfl⟩ := Prod.mk.inj is
    exact ⟨handled', rfl, later⟩
  cases refused : el.request.refused s.fileSystem el.pid with
  | true =>
      rcases head.refuse entries refused with never | ⟨pieces, t, head', list, turns⟩
      · rw [never] at ended
        cases ended
      · obtain ⟨handled', is, later⟩ := turned (turns fuel)
        refine ⟨t, handled', is, head', later, ?_⟩
        rw [if_pos rfl, list]
        exact fun other member => head.mem_validOf_push entries member
  | false =>
      obtain ⟨pieces, t, head', files, list, turns⟩ := head.serve entries refused
      obtain ⟨handled', is, later⟩ := turned (turns fuel)
      refine ⟨t, handled', is, head', later, ?_⟩
      rw [if_neg Bool.false_ne_true, list, head.validOf_pop, entries]
      exact ⟨files, rfl⟩

/-- An entry that waits when the loop begins is handled before it ends. -/
theorem AtHead.mem_handled {handled : List (Waiting Request)} {last : Server codec}
    (head : s.AtHead index target outer)
    (ended : finish index outer clock fuel count s = some (handled, last)) {el : Waiting Request}
    (waits : el ∈ s.waitingList.validOf target) : el ∈ handled := by
  induction handled generalizing s count with
  | nil =>
      obtain ⟨first, rest, entries⟩ := List.exists_cons_of_ne_nil (List.ne_nil_of_mem waits)
      obtain ⟨t, handled', is, -⟩ := head.ended_cons ended entries
      cases is
  | cons one handled ih =>
      obtain ⟨first, rest, entries⟩ := List.exists_cons_of_ne_nil (List.ne_nil_of_mem waits)
      obtain ⟨t, handled', is, head', later, turn⟩ := head.ended_cons ended entries
      obtain ⟨rfl, rfl⟩ := List.cons.inj is
      rw [entries] at waits
      rcases List.mem_cons.mp waits with rfl | behind
      · exact List.mem_cons_self
      · refine List.mem_cons_of_mem _ (ih head' later ?_)
        split at turn
        · exact turn el waits
        · rw [turn.2]
          exact behind

/-- A loop that ends and handles nobody twice refuses nobody. -/
theorem AtHead.settles {handled : List (Waiting Request)} {last : Server codec}
    (head : s.AtHead index target outer)
    (ended : finish index outer clock fuel count s = some (handled, last))
    (once : ∀ el ∈ s.waitingList.validOf target, (handled.map Waiting.pid).count el.pid ≤ 1) :
    Server.settles clock count s.fileSystem (s.waitingList.validOf target) = true := by
  induction handled generalizing s count with
  | nil =>
      cases entries : s.waitingList.validOf target with
      | nil => rfl
      | cons el rest =>
          obtain ⟨t, handled', is, -⟩ := head.ended_cons ended entries
          cases is
  | cons one handled ih =>
      cases entries : s.waitingList.validOf target with
      | nil => rfl
      | cons el rest =>
          obtain ⟨t, handled', is, head', later, turn⟩ := head.ended_cons ended entries
          obtain ⟨rfl, rfl⟩ := List.cons.inj is
          rw [entries] at once
          split at turn
          · -- the entry is popped a second time
            have again : one ∈ handled := head'.mem_handled later (turn one List.mem_cons_self)
            have twice := once one List.mem_cons_self
            have counted : 0 < (handled.map Waiting.pid).count one.pid :=
              List.count_pos_iff.mpr (List.mem_map_of_mem again)
            rw [List.map_cons, List.count_cons_self] at twice
            omega
          · rename_i free
            obtain ⟨files, shorter⟩ := turn
            rw [settles_cons files, ← shorter]
            refine ⟨Bool.eq_false_iff.mpr free, ih head' later fun other member => ?_⟩
            rw [shorter] at member
            have bound := once other (List.mem_cons_of_mem _ member)
            rw [List.map_cons] at bound
            exact List.count_le_count_cons.trans bound

theorem Accounted.count_validOf (accounted : Accounted s) (target : Filename) (pid : Pid) :
    ((s.waitingList.validOf target).map Waiting.pid).count pid ≤ 1 := by
  have sublist : (s.waitingList.validOf target).Sublist
      (s.waitingList.targetList.flatMap TargetQueue.queue) := by
    refine List.filter_sublist.trans ?_
    rw [WaitingList.queueOf]
    cases found : s.waitingList.targetList.find? fun el => el.target = target with
    | none => exact List.nil_sublist _
    | some queue =>
        rw [List.flatMap_def]
        exact List.sublist_flatten_of_mem
          (List.mem_map_of_mem (List.mem_of_find?_eq_some found))
  calc ((s.waitingList.validOf target).map Waiting.pid).count pid
      = (s.waitingList.validOf target).countP (·.pid = pid) := by
        simp only [List.count, List.countP_map, Function.comp_def, beq_eq_decide]
    _ ≤ WaitingList.queued pid s.waitingList.targetList := sublist.countP_le
    _ = s.waitingList.presenceList.count pid := accounted.filed pid
    _ ≤ s.places pid := by
        rw [places, shared]
        omega
    _ ≤ 1 := accounted.count_le_one pid

/-! ## The broadcast -/

theorem atHead_of_trace {memoryLimit filesLimit : UInt32} {policy : ReplacementPolicy} {size : Nat}
    {moves : List Move}
    (run : (serverSystem codec).Trace (init (.init memoryLimit filesLimit policy) size) moves s)
    (broadcasting : s.workers[index]? = some ⟨.ready, target :: outer⟩) :
    s.AtHead index target outer := by
  have step : ∀ (s : Server codec) (move : Move), Addressed s →
      (serverSystem codec).Enabled s move → AnyMove s move →
      Addressed ((serverSystem codec).apply s move) :=
    fun _ _ addressed enabled _ => addressed.step (serverSystem_step enabled)
  exact ⟨run.keeps step (meets_anyMove _ _) (addressed_init memoryLimit filesLimit policy size),
    broadcasting⟩

/-- In every state a run reaches, a broadcast ends on its own and handles every client
    at most once exactly if, handled one after the other, none of the parked requests
    is refused again. -/
theorem broadcast_ends_iff (memoryLimit filesLimit : UInt32) (policy : ReplacementPolicy)
    (size : Nat) (moves : List Move) (s : Server codec)
    (run : (serverSystem codec).Trace (init (.init memoryLimit filesLimit policy) size) moves s)
    (index : Nat) (target : Filename) (outer : List Filename)
    (broadcasting : s.workers[index]? = some ⟨.ready, target :: outer⟩) (clock : Nat → Int) :
    (∃ fuel handled last, finish index outer clock fuel 0 s = some (handled, last) ∧
      ∀ pid ∈ s.waitingList.presenceList, (handled.map Waiting.pid).count pid ≤ 1) ↔
    Server.settles clock 0 s.fileSystem (s.waitingList.validOf target) = true := by
  have head := atHead_of_trace run broadcasting
  constructor
  · rintro ⟨fuel, handled, last, ended, once⟩
    exact head.settles ended fun el member => once _ (WaitingList.mem_validOf.mp member).2
  · intro settle
    obtain ⟨fuel, last, ended⟩ := head.finishes rfl settle
    exact ⟨fuel, _, last, ended,
      fun pid _ => head.addressed.orderly.accounted.count_validOf target pid⟩

/-- One client unlocks the file that another one waits for. -/
def unlockMoves : List Move :=
  parkedMoves ++ [.listen] ++ Move.serve 0 5 (.UNLOCK ⟨0⟩) 4 3

theorem broadcast_ends_iff_one : ∃ s, (serverSystem huffmanCodec).Trace oneWorker unlockMoves s ∧
    s.workers[0]? = some ⟨.ready, [[102]]⟩ ∧ s.waitingList.presenceList = [6] ∧
    ∃ fuel handled last, finish 0 [] (fun _ => 4) fuel 0 s = some (handled, last) ∧
      ∀ pid ∈ s.waitingList.presenceList, (handled.map Waiting.pid).count pid ≤ 1 := by
  have enabled : (serverSystem huffmanCodec).Meets (serverSystem huffmanCodec).Enabled oneWorker
      unlockMoves := by decide +kernel
  have run := ActionSystem.Trace.of_enabled enabled
  have broadcasting : (unlockMoves.foldl (serverSystem huffmanCodec).apply oneWorker).workers[0]? =
      some ⟨.ready, [[102]]⟩ := by decide +kernel
  refine ⟨_, run, broadcasting, by decide +kernel, ?_⟩
  exact (broadcast_ends_iff 1 4 .fifo 1 unlockMoves _ run 0 [102] [] broadcasting _).mpr
    (by decide +kernel)

/-- One client unlocks the file whose lock two others wait for. -/
def contendedMoves : List Move :=
  [.accept 5, .accept 6, .accept 7] ++
    Move.serve 0 5 (.OPEN ⟨some (.upToNul [102]), 3⟩) 4 1 ++ [.listen] ++
    Move.serve 0 6 (.OPEN ⟨some (.upToNul [102]), 2⟩) 3 2 ++
    Move.serve 0 7 (.OPEN ⟨some (.upToNul [102]), 2⟩) 3 2 ++
    Move.serve 0 5 (.UNLOCK ⟨0⟩) 4 3

/-- Two clients wait for the lock of the file: the one that comes second is refused
    again and again, by the worker that has given the lock to the first. -/
theorem broadcast_never_ends : ∃ s, (serverSystem huffmanCodec).Trace oneWorker contendedMoves s ∧
    s.workers[0]? = some ⟨.ready, [[102]]⟩ ∧ s.waitingList.presenceList = [6, 7] ∧
    ¬ ∃ fuel handled last, finish 0 [] (fun _ => 4) fuel 0 s = some (handled, last) ∧
      ∀ pid ∈ s.waitingList.presenceList, (handled.map Waiting.pid).count pid ≤ 1 := by
  have enabled : (serverSystem huffmanCodec).Meets (serverSystem huffmanCodec).Enabled oneWorker
      contendedMoves := by decide +kernel
  have run := ActionSystem.Trace.of_enabled enabled
  have head : (contendedMoves.foldl (serverSystem huffmanCodec).apply oneWorker).AtHead 0 [102] [] :=
    atHead_of_trace run (by decide +kernel)
  refine ⟨_, run, head.found, by decide +kernel, ?_⟩
  rintro ⟨fuel, handled, last, ended, once⟩
  have settle := head.settles ended fun el member => once _ (WaitingList.mem_validOf.mp member).2
  revert settle
  decide +kernel

end Server

end FileStorage
