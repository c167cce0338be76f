import FileStorage.Server.Calls

/-! # The descriptors behind a connection

What the requests of one client do to the descriptors it has on the server, while
other clients do whatever they like. A request that finds its file locked is parked
and handled again; one that has to wait for readers goes on when it is woken up.
-/

namespace FileStorage

open Program FileSystem

variable {codec : Codec} {fs fs' fs₁ : FileSystem codec} {pid : Pid} {fd : Nat}

/-! ## Opening and closing -/

theorem owns_apply {v : View codec} {a : Action codec} (still : a.movesSlots = false) :
    Owns (v.apply a) fd pid ↔ Owns v fd pid := by
  have keys := View.slot_apply (v := v) still fd
  have owners : ((v.apply a).slot fd).map SlotView.owner = (v.slot fd).map SlotView.owner := by
    have first := congrArg (Option.map Prod.fst) keys
    rwa [Option.map_map, Option.map_map] at first
  have owned : ∀ slot : Option SlotView,
      (∃ s, slot = some s ∧ s.owner = pid) ↔ slot.map SlotView.owner = some pid := by
    intro slot
    rw [Option.map_eq_some_iff]
  rw [Owns, Owns, owned, owned, owners]

theorem owns_trace {v v' : View codec} {acts : List (Action codec)}
    (trace : (viewSystem codec).Trace v acts v') (still : ∀ a ∈ acts, a.movesSlots = false) :
    Owns v' fd pid ↔ Owns v fd pid := by
  induction trace with
  | nil v => exact Iff.rfl
  | cons _ _ ih =>
      obtain ⟨first, rest⟩ := List.forall_mem_cons.mp still
      exact (ih rest).trans (owns_apply first)

/-- The client has the same descriptors. -/
def Unmoved (pid : Pid) (fs fs' : FileSystem codec) : Prop :=
  ∀ fd, Owns fs'.view fd pid ↔ Owns fs.view fd pid

def Opened (pid : Pid) (fd : Nat) (fs fs' : FileSystem codec) : Prop :=
  ¬ Owns fs.view fd pid ∧ ∀ other, Owns fs'.view other pid ↔ other = fd ∨ Owns fs.view other pid

def Closed (pid : Pid) (fd : Nat) (fs fs' : FileSystem codec) : Prop :=
  Owns fs.view fd pid ∧ ∀ other, Owns fs'.view other pid ↔ other ≠ fd ∧ Owns fs.view other pid

theorem Unmoved.trans (first : Unmoved pid fs fs₁) (second : Unmoved pid fs₁ fs') :
    Unmoved pid fs fs' := fun fd => (second fd).trans (first fd)

theorem Unmoved.of_performs {acts : List (Action codec)} (performs : fs.Performs acts fs')
    (still : ∀ a ∈ acts, a.movesSlots = false) : Unmoved pid fs fs' :=
  fun _ => owns_trace performs still

theorem owns_attach {v : View codec} {name : Filename}
    (enabled : v.Enabled (.attach fd name pid)) (other : Nat) :
    Owns (v.apply (.attach fd name pid)) other pid ↔ other = fd ∨ Owns v other pid := by
  obtain ⟨-, -, f, found, -⟩ := enabled
  by_cases same : other = fd
  · subst same
    simp [Owns, View.apply, found]
  · simp [Owns, View.apply, same]

theorem Opened.of_performs {acts : List (Action codec)} {name : Filename}
    (performs : fs.Performs (acts ++ [.attach fd name pid]) fs')
    (still : ∀ a ∈ acts, a.movesSlots = false) : Opened pid fd fs fs' := by
  obtain ⟨v, before, last⟩ := ActionSystem.Trace.of_append performs
  have ends : fs'.view = v.apply (.attach fd name pid) := last.eq_foldl
  obtain _ | ⟨enabled, -⟩ := last
  have same : ∀ other, Owns v other pid ↔ Owns fs.view other pid := fun _ => owns_trace before still
  constructor
  · rw [← same]
    rintro ⟨s, live, -⟩
    rw [enabled.1] at live
    cases live
  · intro other
    rw [← same, ends]
    exact owns_attach enabled other

theorem Closed.of_performs (owns : Owns fs.view fd pid) (performs : fs.Performs [.close fd] fs') :
    Closed pid fd fs fs' := by
  refine ⟨owns, fun other => ?_⟩
  have ends : fs'.view = fs.view.apply (.close fd) := performs.view_single
  obtain ⟨s, live, -⟩ := owns
  rw [ends]
  by_cases same : other = fd
  · simp [Owns, View.apply, live, same]
  · simp [Owns, View.apply, live, same]

/-! ## Other clients -/

def Others (pid : Pid) : FileSystem codec → FileSystem codec → Prop :=
  Relation.ReflTransGen (Step fun _ event => event.pid ≠ pid)

theorem owns_of_apply {v : View codec} {a : Action codec} (enabled : v.Enabled a)
    (foreign : ∀ fd name owner, a = .attach fd name owner → owner ≠ pid)
    (owns : Owns (v.apply a) fd pid) : Owns v fd pid := by
  obtain ⟨s', live, own⟩ := id owns
  cases a with
  | attach fd' name owner =>
      obtain ⟨-, -, f, found, -⟩ := enabled
      by_cases same : fd = fd'
      · subst same
        simp only [View.apply, Function.update_self, found, Option.map_some,
          Option.some.injEq] at live
        subst live
        exact absurd own (foreign fd name owner rfl)
      · refine ⟨s', ?_, own⟩
        simpa [View.apply, same] using live
  | close fd' => exact ⟨s', (View.slot_of_close live).2, own⟩
  | forget left | leave left => exact ⟨s', (Option.filter_eq_some_iff.mp live).1, own⟩
  | _ => exact (owns_apply rfl).mp owns

theorem owns_of_trace {v v' : View codec} {acts : List (Action codec)}
    (trace : (viewSystem codec).Trace v acts v')
    (foreign : ∀ fd name owner, .attach fd name owner ∈ acts → owner ≠ pid)
    (owns : Owns v' fd pid) : Owns v fd pid := by
  induction trace with
  | nil v => exact owns
  | cons enabled _ ih =>
      refine owns_of_apply enabled (fun fd name owner is => ?_) (ih ?_ owns)
      · exact foreign fd name owner (is ▸ List.mem_cons_self)
      · exact fun fd name owner member => foreign fd name owner (List.mem_cons_of_mem _ member)

theorem Unmoved.of_other {event : Event} (possible : event.Possible fs)
    (result : (event.call fs).state? = some fs') (other : event.pid ≠ pid) :
    Unmoved pid fs fs' := by
  intro fd
  constructor
  · obtain ⟨acts, does, performs⟩ := Step.performed possible result
    refine owns_of_trace performs fun fd name owner member => ?_
    cases does.mayDo _ member <;> exact other
  · rintro ⟨s, live, rfl⟩
    have kept := Event.slot_call possible result live (Ne.symm other)
    obtain ⟨s', live', key⟩ := Option.map_eq_some_iff.mp kept
    exact ⟨s', live', (SlotView.key_eq.mp key).1⟩

theorem Others.unmoved (others : Others pid fs fs') : Unmoved pid fs fs' := by
  induction others with
  | refl => exact fun _ => Iff.rfl
  | tail _ step ih =>
      obtain ⟨event, possible, other, result⟩ := step
      exact ih.trans (.of_other possible result other)

theorem Others.blocked {waiter : Waiter} (others : Others waiter.pid fs fs')
    (waits : waiter ∈ fs.blocked) : waiter ∈ fs'.blocked := by
  induction others with
  | refl => exact waits
  | tail _ step ih =>
      obtain ⟨event, possible, other, result⟩ := step
      refine Event.mem_blocked_call possible result ih fun now is => ?_
      rw [is] at other
      exact other rfl

/-! ## Serving a request -/

/-- A request of the client is answered, with other clients in between. -/
inductive Serves (pid : Pid) (request : Request) :
    FileSystem codec → Answer → FileSystem codec → Prop where
  | answered {now fs answer fs'} :
      handleRequest pid now request fs = .ok (.done answer) fs' →
      Serves pid request fs answer fs'
  | parked {now fs fs₁ target answer fs'} :
      handleRequest pid now request fs = .ok (.done (.ERROR .EBUSY)) fs₁ →
      subscriptionTarget fs₁ pid request = .ok target →
      Serves pid request fs₁ answer fs' → Serves pid request fs answer fs'
  | waited {now later fs fs₁ fs₂ waiter answer fs'} :
      handleRequest pid now request fs = .ok .waiting fs₁ →
      fs₁.blocked.getLast? = some waiter → Others pid fs₁ fs₂ →
      handleWakeUp waiter later fs₂ = .ok (.done answer) fs' →
      Serves pid request fs answer fs'
  | others {fs fs₁ answer fs'} :
      Others pid fs fs₁ → Serves pid request fs₁ answer fs' → Serves pid request fs answer fs'

/-- What the answer to a request tells about the descriptors of the client. A call
    that fails may have dropped one. -/
def Effect (pid : Pid) (fs fs' : FileSystem codec) : Request → Answer → Prop
  | _, .ERROR _ => True
  | .OPEN payload, .OK_FD fd =>
      (Filename.ofString payload.string ≠ [] ∧ fd < maxOpenFiles) ∧ Opened pid fd fs fs'
  | .CLOSE payload, .OK => Closed pid (toUnsigned32 payload.number) fs fs'
  | .READ _, .OK_FILE _ => Unmoved pid fs fs'
  | .READ_N _, .OK | .READ_N _, .OK_FILE_LIST _ => Unmoved pid fs fs'
  | .WRITE _, .OK | .WRITE _, .OK_FILE_LIST _ => Unmoved pid fs fs'
  | .LOCK _, .OK | .UNLOCK _, .OK | .REMOVE _, .OK => Unmoved pid fs fs'
  | _, _ => False

theorem Unmoved.of_handled {now : Int} {request : Request} {event : Event}
    (is : request.event pid now = some event)
    (still : ∀ a : Action codec, event.MayDo a → a.movesSlots = false) {answer : Answer}
    (handled : handleRequest pid now request fs = .ok (.done answer) fs') :
    Unmoved pid fs fs' := by
  have possible : event.Possible fs := by cases request <;> cases is <;> trivial
  have result : (event.call fs).state? = some fs' := by
    rw [← (handleRequest_handles is fs).state?, handled]
    rfl
  obtain ⟨acts, does, performs⟩ := Step.performed possible result
  exact .of_performs performs fun a member => still a (does.mayDo a member)

theorem opening_still {name : Filename} {flags : Nat} {acts : List (Action codec)}
    (opening : Opening name flags acts) : ∀ a ∈ acts, a.movesSlots = false := by
  rcases opening with ⟨-, rfl⟩ | ⟨-, rfl⟩ <;> simp [Action.movesSlots]

theorem requested_still {name : Filename} {acts : List (Action codec)}
    (requested : Requested name pid acts) : ∀ a ∈ acts, a.movesSlots = false := by
  rcases requested with rfl | rfl | rfl | rfl <;> simp [Action.movesSlots]

theorem openFails_unmoved {name : Filename} {flags : Nat}
    (fails : OpenFails fs name flags pid fs') : Unmoved pid fs fs' := by
  rcases fails with performs | ⟨pre, acts, opening, kinds, performs⟩
  · exact .of_performs performs nofun
  · refine .of_performs performs fun a member => ?_
    rcases List.mem_append.mp member with first | rest
    · exact opening_still opening a first
    · rcases kinds with rfl | ⟨-, requested⟩
      · cases rest
      · exact requested_still requested a rest

theorem attach_range {name : Filename} {acts : List (Action codec)}
    (performs : fs.Performs (acts ++ [.attach fd name pid]) fs') :
    name ≠ [] ∧ fd < maxOpenFiles := by
  obtain ⟨v, -, last⟩ := ActionSystem.Trace.of_append performs
  have ends : fs'.view = v.apply (.attach fd name pid) := last.eq_foldl
  obtain _ | ⟨⟨-, small, f, found, -⟩, -⟩ := last
  have present : fs'.view.file name ≠ none := by
    rw [ends]
    simp [View.apply, View.changeFile, found]
  refine ⟨?_, small⟩
  rintro rfl
  exact present rfl

theorem open_effect {now : Int} {payload : MessageSn} {answer : Answer}
    (handled : handleRequest pid now (.OPEN payload) fs = .ok (.done answer) fs') :
    Effect pid fs fs' (.OPEN payload) answer ∧ (answer = .ERROR .EBUSY → Unmoved pid fs fs') := by
  have performs := fileSystemOpen_performs fs (Filename.ofString payload.string)
    (toUnsigned32 payload.number) pid now
  simp only [handleRequest, bind_run, attempt] at handled
  cases outcome : fileSystemOpen (Filename.ofString payload.string)
      (toUnsigned32 payload.number) pid now fs with
  | ok progress fs₁ =>
      rw [outcome] at handled performs
      cases progress with
      | done fd =>
          cases handled
          obtain ⟨pre, lock, opening, kinds, performs⟩ := performs
          rw [← List.append_assoc] at performs
          refine ⟨⟨attach_range performs, .of_performs performs fun a member => ?_⟩, by simp⟩
          rcases List.mem_append.mp member with first | rest
          · exact opening_still opening a first
          · rcases kinds with rfl | ⟨-, rfl⟩
            · cases rest
            · exact requested_still (.inr (.inr (.inr rfl))) a rest
      | waiting => cases handled
  | error code fs₁ =>
      rw [outcome] at handled performs
      cases handled
      exact ⟨trivial, fun _ => openFails_unmoved performs⟩
  | fault why =>
      rw [outcome] at handled
      cases handled

theorem plain_answer {call : Call codec Unit} {answer : Answer}
    (handled : handlePlain call fs = .ok (.done answer) fs') :
    answer = .OK ∧ call fs = .ok () fs' ∨ ∃ code, answer = .ERROR code := by
  simp only [handlePlain, bind_run, attempt] at handled
  cases outcome : call fs with
  | ok value fs₁ =>
      rw [outcome] at handled
      cases handled
      exact .inl ⟨rfl, rfl⟩
  | error code fs₁ =>
      rw [outcome] at handled
      cases handled
      exact .inr ⟨code, rfl⟩
  | fault why =>
      rw [outcome] at handled
      cases handled

theorem handleRequest_effect {now : Int} {request : Request} {answer : Answer}
    (handled : handleRequest pid now request fs = .ok (.done answer) fs') :
    Effect pid fs fs' request answer := by
  cases request with
  | OPEN payload => exact (open_effect handled).1
  | READ payload =>
      have unmoved : Unmoved pid fs fs' := .of_handled rfl (fun a may => by cases may <;> rfl) handled
      simp only [handleRequest, bind_run, attempt] at handled
      cases outcome : fileSystemRead payload.number pid now fs with
      | ok bytes fs₁ =>
          rw [outcome] at handled
          cases handled
          exact unmoved
      | error code fs₁ =>
          rw [outcome] at handled
          cases handled
          trivial
      | fault why =>
          rw [outcome] at handled
          cases handled
  | READ_N payload =>
      obtain ⟨is, rfl⟩ : Progress.done (listFiles fs.fileTable.presenceList) = .done answer ∧
          fs = fs' := Outcome.ok.inj handled
      cases is
      unfold listFiles
      split <;> exact fun _ => Iff.rfl
  | WRITE payload =>
      have unmoved : Unmoved pid fs fs' := .of_handled rfl (fun a may => by cases may <;> rfl) handled
      simp only [handleRequest, handleWrite] at handled
      cases outcome : fileSystemWrite payload.number payload.bytes pid now
          { fileSystem := fs, evictedList := [] } with
      | ok value s =>
          rw [outcome] at handled
          cases handled
          split <;> exact unmoved
      | error code s =>
          rw [outcome] at handled
          cases handled
          trivial
      | fault why =>
          rw [outcome] at handled
          cases handled
  | LOCK payload =>
      have unmoved : Unmoved pid fs fs' := .of_handled rfl (fun a may => by cases may <;> rfl) handled
      simp only [handleRequest, bind_run, attempt] at handled
      cases outcome : fileSystemLock payload.number pid now fs with
      | ok progress fs₁ =>
          rw [outcome] at handled
          cases progress with
          | done value =>
              cases handled
              exact unmoved
          | waiting => cases handled
      | error code fs₁ =>
          rw [outcome] at handled
          cases handled
          trivial
      | fault why =>
          rw [outcome] at handled
          cases handled
  | CLOSE payload =>
      rcases plain_answer handled with ⟨rfl, closed⟩ | ⟨code, rfl⟩
      · have performs := fileSystemClose_performs fs payload.number pid now
        rw [closed] at performs
        exact .of_performs performs.1 performs.2
      · trivial
  | UNLOCK payload | REMOVE payload =>
      rcases plain_answer handled with ⟨rfl, -⟩ | ⟨code, rfl⟩
      · exact .of_handled rfl (fun a may => by cases may; rfl) handled
      · trivial

/-- A request that is parked has opened and closed nothing. -/
theorem parked_unmoved {now : Int} {request : Request} {target : Filename}
    (handled : handleRequest pid now request fs = .ok (.done (.ERROR .EBUSY)) fs')
    (subscribes : subscriptionTarget fs' pid request = .ok target) : Unmoved pid fs fs' := by
  cases request with
  | OPEN payload => exact (open_effect handled).2 rfl
  | READ payload | WRITE payload | LOCK payload =>
      exact .of_handled rfl (fun a may => by cases may <;> rfl) handled
  | READ_N payload | UNLOCK payload | CLOSE payload | REMOVE payload => cases subscribes

theorem Effect.after {request : Request} {answer : Answer} (unmoved : Unmoved pid fs fs₁)
    (effect : Effect pid fs₁ fs' request answer) : Effect pid fs fs' request answer := by
  have opened : ∀ fd, Opened pid fd fs₁ fs' → Opened pid fd fs fs' := by
    rintro fd ⟨fresh, all⟩
    refine ⟨fun owns => fresh ((unmoved fd).mpr owns), fun other => ?_⟩
    rw [all, unmoved]
  have closed : ∀ fd, Closed pid fd fs₁ fs' → Closed pid fd fs fs' := by
    rintro fd ⟨owns, all⟩
    refine ⟨(unmoved fd).mp owns, fun other => ?_⟩
    rw [all, unmoved]
  unfold Effect at effect ⊢
  split at effect
  · trivial
  · exact ⟨effect.1, opened _ effect.2⟩
  · exact closed _ effect
  all_goals first | exact unmoved.trans effect | exact effect.elim

theorem waits_unmoved {name : Filename} {call : WaitingCall} (waits : fs.Waits name pid call fs') :
    Unmoved pid fs fs' := by
  obtain ⟨-, inode, -, performs⟩ := waits
  exact .of_performs performs (by simp [Action.movesSlots])

theorem waiting_request {now : Int} {request : Request} {waiter : Waiter}
    (handled : handleRequest pid now request fs = .ok .waiting fs')
    (last : fs'.blocked.getLast? = some waiter) :
    waiter.pid = pid ∧ Unmoved pid fs fs' ∧
      ((∃ payload, request = .OPEN payload ∧ waiter.call = .open ∧
          waiter.name = Filename.ofString payload.string) ∨
        ∃ payload, request = .LOCK payload ∧ waiter.call = .lock) := by
  have called : ∀ event, request.event pid now = some event →
      event.call fs = .ok .waiting fs' := by
    intro event is
    have handles := handleRequest_handles is fs
    rw [handled] at handles
    exact handles.waiting
  cases request with
  | OPEN payload =>
      obtain ⟨progress, fs₁, opened, rest⟩ := bind_eq_ok (called _ rfl)
      have waits := fileSystemOpen_waits fs (Filename.ofString payload.string)
        (toUnsigned32 payload.number) pid now
      rw [opened] at waits
      cases progress with
      | done fd => cases rest
      | waiting =>
          cases rest
          obtain ⟨-, waits⟩ := waits rfl
          obtain ⟨inode, -, rfl⟩ := Server.Waits.blocked waits last
          exact ⟨rfl, waits_unmoved waits, .inl ⟨payload, rfl, rfl, rfl⟩⟩
  | LOCK payload =>
      obtain ⟨progress, fs₁, locked, rest⟩ := bind_eq_ok (called _ rfl)
      have waits := fileSystemLock_waits fs payload.number pid now
      rw [locked] at waits
      cases progress with
      | done value => cases rest
      | waiting =>
          cases rest
          obtain ⟨copy, -, waits⟩ := waits rfl
          obtain ⟨inode, -, rfl⟩ := Server.Waits.blocked waits last
          exact ⟨rfl, waits_unmoved waits, .inr ⟨payload, rfl, rfl⟩⟩
  | READ payload | READ_N payload | WRITE payload | UNLOCK payload | CLOSE payload
  | REMOVE payload =>
      obtain ⟨name, call, locks, -⟩ := handleRequest_waits handled
      cases locks

theorem wakeUp_call (waiter : Waiter) (now : Int) (fs : FileSystem codec) :
    (wakeUp waiter now fs).Post
      (fun progress _ => match progress with
        | .done fd => if waiter.call = .open then fd ≠ none else fd = none
        | .waiting => True)
      (fun _ _ => True) (fun _ => True) := by
  obtain ⟨pid, name, generation, call⟩ := waiter
  simp only [wakeUp, post_bind, post_get]
  cases fs.file name with
  | none => trivial
  | some inode =>
      rw [post_ite]
      refine ⟨fun _ => trivial, fun _ => ?_⟩
      rw [post_ite]
      refine ⟨fun _ => trivial, fun _ => ?_⟩
      simp only [post_bind, post_modify]
      cases grantLock name pid now
          { fs with blocked := fs.blocked.erase { pid, name, generation, call } } with
      | error code fs₁ => trivial
      | fault why => trivial
      | ok value fs₁ =>
          cases call with
          | lock => exact rfl
          | «open» =>
              change ((openDescriptor name pid now >>=
                fun fd => pure (Progress.done (some fd))) fs₁).Post _ _ _
              rw [post_bind]
              cases openDescriptor name pid now fs₁ with
              | ok fd fs₂ =>
                  intro waits
                  cases waits
              | error code fs₂ => trivial
              | fault why => trivial

theorem waited_effect {now later : Int} {request : Request} {fs₂ : FileSystem codec}
    {waiter : Waiter} {answer : Answer}
    (handled : handleRequest pid now request fs = .ok .waiting fs₁)
    (last : fs₁.blocked.getLast? = some waiter) (others : Others pid fs₁ fs₂)
    (woken : handleWakeUp waiter later fs₂ = .ok (.done answer) fs') :
    Effect pid fs fs' request answer := by
  obtain ⟨rfl, unmoved, kinds⟩ := waiting_request handled last
  have blocked : waiter ∈ fs₂.blocked := others.blocked (List.mem_of_getLast? last)
  have unmoved : Unmoved waiter.pid fs fs₂ := unmoved.trans others.unmoved
  have performs := wakeUp_performs blocked later
  simp only [handleWakeUp, bind_run, attempt] at woken
  cases outcome : wakeUp waiter later fs₂ with
  | fault why =>
      rw [outcome] at woken
      cases woken
  | error code fs₃ =>
      rw [outcome] at woken
      cases woken
      trivial
  | ok progress fs₃ =>
      have returns := wakeUp_call waiter later fs₂
      rw [outcome] at woken performs returns
      obtain ⟨performs, -⟩ := performs
      cases progress with
      | waiting => cases woken
      | done descriptor =>
          rcases kinds with ⟨payload, rfl, call, named⟩ | ⟨payload, rfl, call⟩
          · rw [call] at returns
            cases descriptor with
            | none => exact absurd rfl returns
            | some fd =>
                cases woken
                have performs : fs₂.Performs ([.unblock waiter, .grant waiter.name waiter.pid,
                    .settle waiter.name] ++ [.attach fd waiter.name waiter.pid]) fs' := performs
                refine Effect.after unmoved ⟨?_, .of_performs performs (by simp [Action.movesSlots])⟩
                rw [← named]
                exact attach_range performs
          · rw [call] at returns
            cases descriptor with
            | some fd => cases returns
            | none =>
                cases woken
                exact unmoved.trans (.of_performs performs (by simp [Action.movesSlots]))

theorem Serves.effect {request : Request} {answer : Answer}
    (serves : Serves pid request fs answer fs') : Effect pid fs fs' request answer := by
  induction serves with
  | answered handled => exact handleRequest_effect handled
  | parked handled subscribes _ ih => exact ih.after (parked_unmoved handled subscribes)
  | waited handled last others woken => exact waited_effect handled last others woken
  | others others _ ih => exact ih.after others.unmoved

end FileStorage
