import FileStorage.Server.Calls

/-! # Clients that are parked

A client whose request meets a locked file is parked, and the waiting clients of a
file are served after an `UNLOCK`. A lock also disappears with its file or with the
session that has it, which nobody announces, and a client can be parked after the
file has been given free. Where neither happens to a file somebody waits for, the
file of every parked client is held, or a worker is about to serve its clients.
-/

namespace FileStorage

open Program FileSystem

variable {codec : Codec}

namespace WaitingList

variable {ρ : Type} {w : WaitingList ρ} {target other : Filename}

def Waited (w : WaitingList ρ) (target : Filename) : Prop :=
  ∃ el ∈ w.queueOf target, el.pid ∈ w.presenceList

instance (w : WaitingList ρ) (target : Filename) : Decidable (w.Waited target) :=
  inferInstanceAs (Decidable (∃ el ∈ _, _))

def targets (w : WaitingList ρ) : List Filename := w.targetList.map TargetQueue.target

theorem Waited.mem_targets (waited : w.Waited target) : target ∈ w.targets := by
  obtain ⟨el, member, -⟩ := waited
  simp only [queueOf] at member
  cases found : w.targetList.find? fun el => el.target = target with
  | none => simp [found] at member
  | some queue =>
      have same : queue.target = target := by simpa using List.find?_some found
      exact List.mem_map.mpr ⟨queue, List.mem_of_find?_eq_some found, same⟩

def validOf (w : WaitingList ρ) (target : Filename) : List (Waiting ρ) :=
  (w.queueOf target).filter (·.pid ∈ w.presenceList)

theorem mem_validOf {el : Waiting ρ} :
    el ∈ w.validOf target ↔ el ∈ w.queueOf target ∧ el.pid ∈ w.presenceList := by
  simp [validOf]

theorem waited_iff : w.Waited target ↔ ∃ el, el ∈ w.validOf target := by
  simp only [Waited, mem_validOf]

theorem mem_validOf_of_pop {el : Waiting ρ} (member : el ∈ (w.pop target).2.validOf other) :
    el ∈ w.validOf other := by
  obtain ⟨member, present⟩ := mem_validOf.mp member
  refine mem_validOf.mpr ⟨?_, mem_presenceList_of_pop present⟩
  rw [queueOf_pop] at member
  split at member
  · rename_i same
    obtain ⟨skipped, -, split, -⟩ := dequeueValid_spec w.presenceList (w.queueOf target)
    rw [same, split]
    exact List.mem_append_right _ member
  · exact member

theorem not_waited_of_pop (none_ : (w.pop target).1 = none) : ¬ (w.pop target).2.Waited target := by
  rintro ⟨el, member, -⟩
  rw [pop_fst] at none_
  rw [queueOf_pop, if_pos rfl, dequeueValid_none none_] at member
  cases member

theorem mem_validOf_of_push {pid : Pid} {request : ρ} {el : Waiting ρ}
    (fresh : queued pid w.targetList = 0)
    (member : el ∈ (w.push target pid request).validOf other) :
    other = target ∧ el = ⟨pid, request⟩ ∨ el ∈ w.validOf other := by
  obtain ⟨member, present⟩ := mem_validOf.mp member
  have old : el ∈ w.queueOf other → el ∈ w.validOf other := by
    intro before
    have different := pid_ne_of_queued_zero fresh before
    exact mem_validOf.mpr ⟨before, by simpa [push, different] using present⟩
  rw [queueOf_push] at member
  split at member
  · rename_i same
    rcases List.mem_append.mp member with before | new
    · exact .inr (old (same ▸ before))
    · exact .inl ⟨same, List.mem_singleton.mp new⟩
  · exact .inr (old member)

theorem mem_validOf_of_remove {pid : Pid} {el : Waiting ρ}
    (member : el ∈ (w.remove pid).validOf other) : el ∈ w.validOf other := by
  obtain ⟨member, present⟩ := mem_validOf.mp member
  exact mem_validOf.mpr ⟨member, List.mem_of_mem_filter present⟩

theorem targets_changeQueue (target : Filename) (f : List (Waiting ρ) → List (Waiting ρ))
    (list : List (TargetQueue ρ)) :
    (changeQueue target f list).map TargetQueue.target = list.map TargetQueue.target := by
  induction list with
  | nil => rfl
  | cons el rest ih =>
      rw [changeQueue]
      split
      · rfl
      · rw [List.map_cons, ih, List.map_cons]

theorem targets_pop (w : WaitingList ρ) (target : Filename) :
    (w.pop target).2.targets = w.targets := by
  simp only [pop, targets]
  cases w.targetList.find? fun el => el.target = target with
  | none => rfl
  | some queue => exact targets_changeQueue target _ _

theorem targets_push (distinct : w.targets.Nodup) (target : Filename) (pid : Pid) (request : ρ) :
    (w.push target pid request).targets.Nodup := by
  simp only [push, targets] at distinct ⊢
  split
  · rw [targets_changeQueue]
    exact distinct
  · rename_i unknown
    rw [List.map_append, List.map_singleton, List.nodup_append]
    refine ⟨distinct, List.nodup_singleton _, ?_⟩
    grind

theorem find?_of_mem {list : List (TargetQueue ρ)} (distinct : (list.map TargetQueue.target).Nodup)
    {queue : TargetQueue ρ} (member : queue ∈ list) :
    list.find? (fun el => el.target = queue.target) = some queue := by
  induction list with
  | nil => cases member
  | cons first rest ih =>
      obtain ⟨apart, distinct⟩ := List.nodup_cons.mp distinct
      rcases List.mem_cons.mp member with rfl | later
      · simp
      · have different : first.target ≠ queue.target := fun same =>
          apart (same ▸ List.mem_map_of_mem later)
        rw [List.find?_cons_of_neg (by simpa using different)]
        exact ih distinct later

theorem queueOf_of_mem (distinct : w.targets.Nodup) {queue : TargetQueue ρ}
    (member : queue ∈ w.targetList) : w.queueOf queue.target = queue.queue := by
  rw [queueOf, find?_of_mem distinct member, Option.elim_some]

end WaitingList

/-! ## Announcements -/

/-- The worker is on its way to serve the clients that wait for the target: the
    target has been unlocked, and the answer is not sent yet. -/
def Phase.announces (fs : FileSystem codec) (target : Filename) : Phase → Bool
  | .answered pid request answer =>
      answer = .OK ∧ unlockRequestTarget fs pid request = some target
  | .responding _ _ announced | .notifying _ announced => announced = some target
  | _ => false

def Worker.announces (fs : FileSystem codec) (target : Filename) (w : Worker) : Bool :=
  target ∈ w.broadcasts ∨ w.phase.announces fs target = true

namespace Server

variable {s s' s₁ : Server codec} {now : Int} {w w' : Worker} {target : Filename}

/-- Some worker serves the clients that wait for the target, whatever becomes of
    the request that the worker at the index handles. -/
def announcedBesides (s : Server codec) (index : Nat) (w : Worker) (target : Filename) : Bool :=
  (s.workers.set index ⟨.ready, w.broadcasts⟩).any (·.announces s.fileSystem target)

/-- A call does not take away a file that somebody waits for, unless its clients
    are served anyway. -/
def Lets (s : Server codec) (index : Nat) (w : Worker) (event : Event) : Prop :=
  ∀ target ∈ s.waitingList.targets, s.waitingList.Waited target →
    event.takes s.fileSystem target = true → s.announcedBesides index w target = true

instance (s : Server codec) (index : Nat) (w : Worker) (event : Event) :
    Decidable (s.Lets index w event) :=
  inferInstanceAs (Decidable (∀ target ∈ _, _))

/-- A client is parked only while somebody holds the file, the announcement of an
    unlock is not lost, and no call takes a file away from the parked clients. -/
def PhaseAttends (s : Server codec) (index : Nat) (now : Int) (w : Worker) : Phase → Prop
  | .handling pid request => ∀ event ∈ request.event pid now, s.Lets index w event
  | .leaving pid => s.Lets index w (.removeSession pid now)
  | .subscribing _ _ target =>
      s.fileSystem.held target = true ∨ s.announcedBesides index w target = true
  | .responding pid _ (some target) => pid ∈ s.gone → s.waitingList.Waited target →
      s.fileSystem.held target = true ∨ s.announcedBesides index w target = true
  | _ => True

instance (s : Server codec) (index : Nat) (now : Int) (w : Worker) :
    (phase : Phase) → Decidable (s.PhaseAttends index now w phase)
  | .handling pid request =>
      inferInstanceAs (Decidable (∀ event ∈ request.event pid now, s.Lets index w event))
  | .leaving pid => inferInstanceAs (Decidable (s.Lets index w (.removeSession pid now)))
  | .subscribing .. => inferInstanceAs (Decidable (_ ∨ _))
  | .responding _ _ (some _) => inferInstanceAs (Decidable (_ → _ → _ ∨ _))
  | .ready | .reading .. | .waiting .. | .answered .. | .responding _ _ none | .notifying ..
  | .failing .. | .unsubscribing .. | .closing .. | .parting => inferInstanceAs (Decidable True)

def Attends (s : Server codec) : Move → Prop
  | .work index now => ∀ w ∈ s.workers[index]?, s.PhaseAttends index now w w.phase
  | _ => True

instance (s : Server codec) : (move : Move) → Decidable (Attends s move)
  | .work index now =>
      inferInstanceAs (Decidable (∀ w ∈ s.workers[index]?, s.PhaseAttends index now w w.phase))
  | .accept .. | .disconnect .. | .dispatch .. | .listen | .receive .. =>
      inferInstanceAs (Decidable True)

/-! ## What one piece of a worker does -/

theorem Advances.broadcasts (advances : Advances s now w w' s₁) (member : target ∈ w.broadcasts)
    (waited : s₁.waitingList.Waited target) : target ∈ w'.broadcasts := by
  cases advances with
  | done none_ =>
      rcases List.mem_cons.mp member with rfl | outer
      · exact absurd waited (WaitingList.not_waited_of_pop none_)
      · exact outer
  | notify => exact List.mem_append_right _ member
  | _ => exact member

/-- A worker keeps its announcements until it has served everybody, unless the
    answer to an unlock cannot be sent. -/
theorem Advances.announces (advances : Advances s now w w' s₁)
    (announces : w.announces s.fileSystem target = true)
    (waited : s₁.waitingList.Waited target) :
    w'.announces s₁.fileSystem target = true ∨
      ∃ pid answer, w.phase = .responding pid answer (some target) ∧ pid ∈ s.gone := by
  have either : target ∈ w.broadcasts ∨ w.phase.announces s.fileSystem target = true := by
    simpa [Worker.announces] using announces
  rcases either with member | phase
  · have kept := advances.broadcasts member waited
    exact .inl (by simp [Worker.announces, kept])
  · cases advances with
    | succeeded =>
        have found := (of_decide_eq_true phase).2
        exact .inl (by simp [Worker.announces, Phase.announces, found])
    | sent here => exact .inl (by simp_all [Worker.announces, Phase.announces])
    | notify => exact .inl (by simp_all [Worker.announces, Phase.announces])
    | unsent gone =>
        obtain rfl := of_decide_eq_true phase
        exact .inr ⟨_, _, rfl, gone⟩
    | respond _ notOk => exact absurd (of_decide_eq_true phase).1 notOk
    | busy | unsubscribable => simp [Phase.announces] at phase
    | _ => cases phase

theorem Advances.entry (advances : Advances s now w w' s₁) (accounted : Accounted s)
    (member : w ∈ s.workers) {el : Waiting Request} (valid : el ∈ s₁.waitingList.validOf target) :
    el ∈ s.waitingList.validOf target ∨ s₁.fileSystem = s.fileSystem ∧
      w.phase = .subscribing el.pid el.request target := by
  cases advances with
  | done | pop => exact .inl (WaitingList.mem_validOf_of_pop valid)
  | @subscribe pid request subscribed broadcasts =>
      have fresh : WaitingList.queued pid s.waitingList.targetList = 0 := by
        have apart := (accounted.held member rfl).2
        rw [shared] at apart
        rw [accounted.filed]
        omega
      rcases WaitingList.mem_validOf_of_push fresh valid with ⟨rfl, rfl⟩ | before
      · exact .inr ⟨rfl, rfl⟩
      · exact .inl before
  | unsubscribe => exact .inl (WaitingList.mem_validOf_of_remove valid)
  | _ => exact .inl valid

theorem Advances.waited (advances : Advances s now w w' s₁) (accounted : Accounted s)
    (member : w ∈ s.workers) (waited : s₁.waitingList.Waited target) :
    s.waitingList.Waited target ∨ s₁.fileSystem = s.fileSystem ∧
      ∃ pid request, w.phase = .subscribing pid request target := by
  obtain ⟨el, valid⟩ := WaitingList.waited_iff.mp waited
  rcases advances.entry accounted member valid with before | ⟨same, phase⟩
  · exact .inl (WaitingList.waited_iff.mpr ⟨el, before⟩)
  · exact .inr ⟨same, el.pid, el.request, phase⟩

theorem unlockRequestTarget_eq_some {fs : FileSystem codec} {pid : Pid} {request : Request} :
    unlockRequestTarget fs pid request = some target ↔ ∃ payload, request = .UNLOCK payload ∧
      ∃ copy, fs.slot (toUnsigned32 payload.number) = some { owner := pid, inode := copy } ∧
        copy.name = target := by
  cases request with
  | UNLOCK payload =>
      simp only [unlockRequestTarget, Request.UNLOCK.injEq, exists_eq_left', ← fstatName_eq_ok]
      cases fstatName fs payload.number pid <;> simp [Except.toOption]
  | _ => simp [unlockRequestTarget]

theorem unlock_announced {fs fs' : FileSystem codec} {pid : Pid} {now : Int} {payload : MessageN}
    {answer : Answer} (handled : handleRequest pid now (.UNLOCK payload) fs = .ok (.done answer) fs')
    (unlocks : Event.Unlocks fs target (.unlock payload.number pid now)) :
    fs' = fs ∨ answer = .OK ∧ unlockRequestTarget fs' pid (.UNLOCK payload) = some target := by
  have performs := fileSystemUnlock_performs fs payload.number pid now
  simp only [handleRequest, handlePlain, bind_run, attempt] at handled
  cases outcome : fileSystemUnlock payload.number pid now fs with
  | ok value fs₁ =>
      rw [outcome] at handled performs
      cases handled
      obtain ⟨copy, live, rfl⟩ := unlocks
      obtain ⟨_, _, unlocked⟩ := performs
      have slots : fs'.view.slot = fs.view.slot := by
        rw [unlocked.view_single]
        rfl
      have live' : fs'.view.slot (toUnsigned32 payload.number) = _ :=
        (congrFun slots _).trans (view_slot live)
      obtain ⟨copy', found, named⟩ := Event.descriptor_of_view live' rfl
      exact .inr ⟨rfl, unlockRequestTarget_eq_some.mpr ⟨payload, rfl, copy', found, named⟩⟩
  | error code fs₁ =>
      rw [outcome] at handled performs
      cases handled
      exact .inl performs
  | fault why =>
      rw [outcome] at handled
      cases handled

theorem Advances.unlocked (advances : Advances s now w w' s₁) {event : Event}
    (next : w.phase.event now = some event) (held : s.fileSystem.held target = true)
    (unlocks : event.Unlocks s.fileSystem target) :
    s₁.fileSystem.held target = true ∨ w'.announces s₁.fileSystem target = true := by
  have requested : ∀ pid (request : Request), request.event pid now = some event →
      ∃ payload, request = .UNLOCK payload ∧ event = .unlock payload.number pid now := by
    intro pid request is
    cases request with
    | UNLOCK payload => exact ⟨payload, rfl, (Option.some.inj is).symm⟩
    | READ_N payload => cases is
    | _ =>
        cases is
        exact unlocks.elim
  cases advances with
  | @answer pid request answer fs broadcasts handled =>
      obtain ⟨payload, rfl, rfl⟩ := requested pid request next
      rcases unlock_announced handled unlocks with rfl | ⟨rfl, announced⟩
      · exact .inl held
      · exact .inr (by simp [Worker.announces, Phase.announces, announced])
  | @wait pid request waiter fs broadcasts handled =>
      obtain ⟨payload, rfl, rfl⟩ := requested pid request next
      obtain ⟨name, call, none_, -⟩ := handleRequest_waits handled
      cases none_
  | wake | waitAgain | leave =>
      cases next
      exact unlocks.elim
  | _ => cases next

theorem Advances.held (advances : Advances s now w w' s₁) (orderly : Orderly s)
    (member : w ∈ s.workers) (held : s.fileSystem.held target = true) :
    s₁.fileSystem.held target = true ∨ w'.announces s₁.fileSystem target = true ∨
      ∃ event, w.phase.event now = some event ∧ event.takes s.fileSystem target = true := by
  rcases advances.fileSystem with same | ⟨event, next, result⟩
  · exact .inl (same ▸ held)
  · by_cases takes : event.takes s.fileSystem target = true
    · exact .inr (.inr ⟨event, next, takes⟩)
    by_cases unlocks : event.Unlocks s.fileSystem target
    · rcases advances.unlocked next held unlocks with kept | announced
      · exact .inl kept
      · exact .inr (.inl announced)
    have nonzero : event.pid ≠ 0 := by
      intro zero
      have positive := orderly.positive member next
      rw [zero] at positive
      simp at positive
    exact .inl (Event.held_call (orderly.asleep.possible member next) result nonzero held
      (Bool.eq_false_iff.mpr takes) unlocks)

theorem Advances.announces_other (advances : Advances s now w w' s₁) (orderly : Orderly s)
    {index other : Nat} {u : Worker} (found : s.workers[index]? = some w)
    (elsewhere : s.workers[other]? = some u) (different : other ≠ index)
    (announces : u.announces s.fileSystem target = true) :
    u.announces s₁.fileSystem target = true := by
  rcases advances.fileSystem with same | ⟨event, next, result⟩
  · exact same ▸ announces
  have member := List.mem_of_getElem? found
  have foreign : ∀ pid, u.phase.pid? = some pid → pid ≠ event.pid := by
    rintro pid holds rfl
    exact orderly.accounted.apart found elsewhere different (orderly.asleep.event_pid member next)
      holds
  have kept : ∀ pid request, u.phase.pid? = some pid →
      unlockRequestTarget s.fileSystem pid request = some target →
      unlockRequestTarget s₁.fileSystem pid request = some target := by
    intro pid request holds is
    obtain ⟨payload, rfl, copy, live, rfl⟩ := unlockRequestTarget_eq_some.mp is
    have stays := Event.slot_call (orderly.asleep.possible member next) result (view_slot live)
      (foreign pid holds)
    obtain ⟨slot, live', key⟩ := Option.map_eq_some_iff.mp stays
    obtain ⟨owner, named, -⟩ := SlotView.key_eq.mp key
    obtain ⟨copy', found', named'⟩ := Event.descriptor_of_view live' owner
    exact unlockRequestTarget_eq_some.mpr ⟨payload, rfl, copy', found', named'.trans named⟩
  obtain ⟨phase, broadcasts⟩ := u
  have either : target ∈ broadcasts ∨ phase.announces s.fileSystem target = true := by
    simpa [Worker.announces] using announces
  rcases either with inside | ahead
  · simp [Worker.announces, inside]
  · cases phase with
    | answered pid request answer =>
        obtain ⟨rfl, is⟩ := of_decide_eq_true ahead
        simp [Worker.announces, Phase.announces, kept pid request rfl is]
    | responding pid answer announced | notifying pid announced =>
        obtain rfl := of_decide_eq_true ahead
        simp [Worker.announces, Phase.announces]
    | _ => cases ahead

/-! ## Runs -/

structure Attended (s : Server codec) : Prop where
  orderly : Orderly s
  distinct : s.waitingList.targets.Nodup
  attended : ∀ target, s.waitingList.Waited target →
    s.fileSystem.held target = true ∨ ∃ w ∈ s.workers, w.announces s.fileSystem target = true

theorem attended_init (fileSystem : FileSystem codec) (size : Nat) :
    Attended (init fileSystem size) := by
  refine ⟨orderly_init fileSystem size, List.nodup_nil, ?_⟩
  rintro target ⟨el, member, -⟩
  cases member

theorem Advances.targets (advances : Advances s now w w' s₁)
    (distinct : s.waitingList.targets.Nodup) : s₁.waitingList.targets.Nodup := by
  cases advances with
  | done | pop =>
      rw [WaitingList.targets_pop]
      exact distinct
  | subscribe => exact WaitingList.targets_push distinct _ _ _
  | _ => exact distinct

/-- What is announced besides a request stays announced while it goes on. -/
theorem Advances.announcedBesides (advances : Advances s now w w' s₁) (orderly : Orderly s)
    {index : Nat} (found : s.workers[index]? = some w)
    (announced : s.announcedBesides index w target = true)
    (waited : s₁.waitingList.Waited target) :
    ∃ u ∈ s.workers.set index w', u.announces s₁.fileSystem target = true := by
  obtain ⟨u, there, announces⟩ := List.any_eq_true.mp announced
  rcases Threads.mem_of_mem_set there with rfl | ⟨other, different, elsewhere⟩
  · have member : target ∈ w.broadcasts := by
      simpa [Worker.announces, Phase.announces] using announces
    have kept := advances.broadcasts member waited
    exact ⟨w', Threads.mem_set_self found w', by simp [Worker.announces, kept]⟩
  · exact ⟨u, Threads.mem_set_of_ne different elsewhere w',
      advances.announces_other orderly found elsewhere different announces⟩

theorem PhaseAttends.announced {index : Nat} {phase : Phase}
    (attends : s.PhaseAttends index now w phase) (waited : s.waitingList.Waited target)
    {event : Event} (next : phase.event now = some event)
    (takes : event.takes s.fileSystem target = true) :
    s.announcedBesides index w target = true := by
  cases phase with
  | handling pid request => exact attends event next target waited.mem_targets waited takes
  | leaving pid =>
      cases next
      exact attends target waited.mem_targets waited takes
  | waiting pid request waiter =>
      cases next
      cases takes
  | _ => cases next

theorem Attended.work (attended : Attended s) {index : Nat} (found : s.workers[index]? = some w)
    (attends : s.PhaseAttends index now w w.phase) (advances : Advances s now w w' s₁)
    (waited : s₁.waitingList.Waited target) :
    s₁.fileSystem.held target = true ∨
      ∃ u ∈ s.workers.set index w', u.announces s₁.fileSystem target = true := by
  have orderly := attended.orderly
  have member := List.mem_of_getElem? found
  have besides : s.announcedBesides index w target = true →
      ∃ u ∈ s.workers.set index w', u.announces s₁.fileSystem target = true :=
    fun announced => advances.announcedBesides orderly found announced waited
  rcases advances.waited orderly.accounted member waited with before | ⟨same, pid, request, phase⟩
  · have held : s.fileSystem.held target = true → s₁.fileSystem.held target = true ∨
        ∃ u ∈ s.workers.set index w', u.announces s₁.fileSystem target = true := by
      intro held
      rcases advances.held orderly member held with kept | announces | ⟨event, next, takes⟩
      · exact .inl kept
      · exact .inr ⟨w', Threads.mem_set_self found w', announces⟩
      · exact .inr (besides (attends.announced before next takes))
    rcases attended.attended target before with holds | ⟨u, there, announces⟩
    · exact held holds
    · obtain ⟨other, elsewhere⟩ := List.mem_iff_getElem?.mp there
      by_cases here : other = index
      · obtain rfl : u = w := by
          rw [here, found] at elsewhere
          exact (Option.some.inj elsewhere).symm
        rcases advances.announces announces waited with announces | ⟨pid, answer, phase, gone⟩
        · exact .inr ⟨w', Threads.mem_set_self found w', announces⟩
        · rw [phase] at attends
          rcases attends gone before with holds | announced
          · exact held holds
          · exact .inr (besides announced)
      · exact .inr ⟨u, Threads.mem_set_of_ne here elsewhere w',
          advances.announces_other orderly found elsewhere here announces⟩
  · rw [phase] at attends
    rcases attends with holds | announced
    · exact .inl (same ▸ holds)
    · exact .inr (besides announced)

theorem Attended.step (attended : Attended s) {move : Move} (attends : Attends s move)
    (stepped : s.step move = some s') : Attended s' := by
  have orderly := attended.orderly.step stepped
  rcases step_cases stepped with ⟨index, now, w, w', s₁, rfl, found, advances, rfl⟩ |
    ⟨index, pid, broadcasts, phase, found, -, rfl⟩ | ⟨files, list, workers⟩
  · refine ⟨orderly, advances.targets attended.distinct, fun target waited => ?_⟩
    have served := attended.work found (attends w found) advances waited
    exact served
  · refine ⟨orderly, attended.distinct, fun target waited => ?_⟩
    rcases attended.attended target waited with held | ⟨u, there, announces⟩
    · exact .inl held
    · obtain ⟨other, elsewhere⟩ := List.mem_iff_getElem?.mp there
      by_cases here : other = index
      · obtain rfl : u = ⟨.reading pid, broadcasts⟩ := by
          rw [here, found] at elsewhere
          exact (Option.some.inj elsewhere).symm
        have member : target ∈ broadcasts := by
          simpa [Worker.announces, Phase.announces] using announces
        exact .inr ⟨_, Threads.mem_set_self found _, by simp [Worker.announces, member]⟩
      · exact .inr ⟨u, Threads.mem_set_of_ne here elsewhere _, announces⟩
  · refine ⟨orderly, list ▸ attended.distinct, fun target waited => ?_⟩
    rw [list] at waited
    rw [files, workers]
    exact attended.attended target waited

end Server

open Server

/-- Along the runs in which a client is parked only while somebody holds the file,
    no answer to an unlock fails while somebody waits for the file, and no file is
    taken away from its parked clients, the file of every valid entry of the waiting
    list is locked or has a pending lock request, whenever no worker is in the middle
    of a request. -/
theorem parked_file_held (fileSystem : FileSystem codec) (size : Nat) (moves : List Move)
    (s : Server codec) (run : (serverSystem codec).Trace (.init fileSystem size) moves s)
    (attends : (serverSystem codec).Meets Attends (.init fileSystem size) moves)
    (idle : ∀ w ∈ s.workers, w = .idle) :
    ∀ queue ∈ s.waitingList.targetList, ∀ el ∈ queue.queue, el.pid ∈ s.waitingList.presenceList →
      ∃ inode, s.fileSystem.file queue.target = some inode ∧
        (inode.locked ≠ 0 ∨ 0 < inode.pendingLocks) := by
  have step : ∀ (s : Server codec) (move : Move), Attended s →
      (serverSystem codec).Enabled s move → Attends s move →
      Attended ((serverSystem codec).apply s move) :=
    fun _ _ attended enabled attends => attended.step attends (serverSystem_step enabled)
  have attended := run.keeps step attends (attended_init fileSystem size)
  intro queue member el entry present
  have waited : s.waitingList.Waited queue.target := by
    refine ⟨el, ?_, present⟩
    rw [WaitingList.queueOf_of_mem attended.distinct member]
    exact entry
  rcases attended.attended queue.target waited with held | ⟨w, there, announces⟩
  · exact held_iff.mp held
  · rw [idle w there] at announces
    simp [Worker.announces, Worker.idle, Phase.announces] at announces

theorem parked_file_held_waiting :
    ∃ s, (serverSystem huffmanCodec).Trace oneWorker parkedMoves s ∧
      (serverSystem huffmanCodec).Meets Attends oneWorker parkedMoves ∧
      s.waitingList.presenceList = [6] ∧ ∀ queue ∈ s.waitingList.targetList, ∀ el ∈ queue.queue,
        el.pid ∈ s.waitingList.presenceList → ∃ inode,
          s.fileSystem.file queue.target = some inode ∧
            (inode.locked ≠ 0 ∨ 0 < inode.pendingLocks) := by
  have enabled : (serverSystem huffmanCodec).Meets (serverSystem huffmanCodec).Enabled oneWorker
      parkedMoves := by decide +kernel
  have attends : (serverSystem huffmanCodec).Meets Attends oneWorker parkedMoves := by
    decide +kernel
  have run := ActionSystem.Trace.of_enabled enabled
  exact ⟨_, run, attends, by decide +kernel, parked_file_held (.init 1 4 .fifo) 1 parkedMoves _ run
    attends (by decide +kernel)⟩

/-- The client that has the lock removes the file, and nobody tells the client that
    waits for it. -/
theorem parked_file_removed : ∃ moves s, (serverSystem huffmanCodec).Trace oneWorker moves s ∧
    (∀ w ∈ s.workers, w = .idle) ∧ ¬ ∀ queue ∈ s.waitingList.targetList, ∀ el ∈ queue.queue,
      el.pid ∈ s.waitingList.presenceList → ∃ inode,
        s.fileSystem.file queue.target = some inode ∧
          (inode.locked ≠ 0 ∨ 0 < inode.pendingLocks) := by
  have enabled : (serverSystem huffmanCodec).Meets (serverSystem huffmanCodec).Enabled oneWorker
      (parkedMoves ++ [.listen] ++ Move.serve 0 5 (.REMOVE ⟨some (.upToNul [102])⟩) 4 3) := by
    decide +kernel
  refine ⟨_, _, ActionSystem.Trace.of_enabled enabled, by decide +kernel, ?_⟩
  simp only [← held_iff]
  decide +kernel

end FileStorage
