import FileStorage.Server.Calls
import FileStorage.Simfs.Faithful

/-! # The conduct of a client

A careful client reads only through the descriptor that it has opened last, and writes only
through that of a file that it has just created, once, and what is right for the file. What
it has open follows from its requests and the descriptors it was answered with. The
requests of a careful client are answered with bytes that are right.
-/

namespace FileStorage

open Program FileSystem

/-- What is right for which file. -/
abbrev Contents := Filename → List UInt8 → Prop

/-- Requests, each with the descriptor it was answered with, if any. -/
abbrev Talk := List (Request × Option Int)

namespace Request

/-- What a careful client may ask for with the descriptor it has. -/
def Permitted (Right : Contents) (held : Option Handle) : Request → Prop
  | READ payload => ∃ h ∈ held, h.fd = payload.number
  | WRITE payload => ∃ h ∈ held, h.fd = payload.number ∧ h.fresh = true ∧
      ∀ bytes ∈ payload.bytes, Right h.name bytes
  | _ => True

instance decidablePermitted {Right : Contents} [∀ name bytes, Decidable (Right name bytes)]
    (held : Option Handle) : (request : Request) → Decidable (request.Permitted Right held)
  | READ payload => inferInstanceAs (Decidable (∃ h ∈ held, h.fd = payload.number))
  | WRITE payload => inferInstanceAs (Decidable (∃ h ∈ held, h.fd = payload.number ∧
      h.fresh = true ∧ ∀ bytes ∈ payload.bytes, Right h.name bytes))
  | OPEN _ | READ_N _ | CLOSE _ | LOCK _ | UNLOCK _ | REMOVE _ => .isTrue trivial

/-- The descriptor that the client has when the request was answered. -/
def next (held : Option Handle) (descriptor : Option Int) : Request → Option Handle
  | OPEN payload => descriptor.map fun fd => {
      name := Filename.ofString payload.string, fd
      fresh := (toUnsigned32 payload.number).testBit 0 }
  | WRITE _ | CLOSE _ => none
  | _ => held

end Request

namespace Talk

def held (talk : Talk) : Option Handle :=
  talk.foldl (fun held entry => entry.1.next held entry.2) none

@[simp] theorem held_nil : held [] = none := rfl

@[simp] theorem held_append (talk : Talk) (request : Request) (descriptor : Option Int) :
    held (talk ++ [(request, descriptor)]) = request.next talk.held descriptor := by
  simp [held]

def Careful (Right : Contents) (talk : Talk) : Prop :=
  ∀ before request descriptor after, talk = before ++ (request, descriptor) :: after →
    request.Permitted Right (held before)

theorem careful_nil {Right : Contents} : Careful Right [] := by
  intro before request descriptor after is
  cases (List.append_eq_nil_iff.mp is.symm).2

theorem Careful.append {Right : Contents} {talk : Talk} (careful : talk.Careful Right)
    {request : Request} (permitted : request.Permitted Right talk.held) (descriptor : Option Int) :
    Careful Right (talk ++ [(request, descriptor)]) := by
  intro before other descriptor' after is
  rcases List.eq_nil_or_concat after with rfl | ⟨rest, last, rfl⟩
  · obtain ⟨rfl, same⟩ := List.append_inj' is rfl
    cases same
    exact permitted
  · rw [List.concat_eq_append, ← List.cons_append, ← List.append_assoc] at is
    obtain ⟨rfl, -⟩ := List.append_inj' is rfl
    exact careful before other descriptor' rest rfl

end Talk

namespace Answer

def descriptor : Answer → Option Int
  | OK_FD fd => some fd
  | _ => none

/-- What is sent back for a request is right: the bytes that were asked for, and the files
    that had to make room. -/
def Rightful (Right : Contents) (held : Option Handle) (request : Request) : Answer → Prop
  | OK_FILE bytes => (∃ payload, request = .READ payload) ∧ ∃ h ∈ held, Right h.name bytes
  | OK_FILE_LIST files => (∃ payload, request = .WRITE payload) →
      ∀ file ∈ files, Right file.name file.bytes
  | _ => True

end Answer

namespace Request

/-- What the client has after an answer. One that is told that the file is busy will be
    answered again. -/
def after (held : Option Handle) (request : Request) (answer : Answer) : Option Handle :=
  if answer = .ERROR .EBUSY then held else request.next held answer.descriptor

/-- The thread that waits on behalf of an open gets a descriptor of its file, which it has
    not created. -/
def Suits (request : Request) (waiter : Waiter) : Prop :=
  ∀ payload, request = .OPEN payload → waiter.name = Filename.ofString payload.string ∧
    (toUnsigned32 payload.number).testBit 0 = false

end Request

variable {codec : Codec} {Right : Contents} {fs fs' : FileSystem codec} {pid : Pid} {now : Int}
  {held : Option Handle} {request : Request}

/-! ## Calls that decode nothing -/

theorem Event.plain_decodes_nothing {event : Event} (plain : event.plain = true)
    (possible : event.Possible fs) : (event.call fs).fault? ≠ some .decodeFreed := by
  suffices post : (event.call fs).Post (fun _ _ => True) (fun _ _ => True)
      (fun why => why ≠ .decodeFreed) from fun freed => post.of_fault freed rfl
  cases event with
  | «open» name flags pid now =>
      simp only [Event.call, post_bind]
      refine (fileSystemOpen_performs fs name flags pid now).mono ?_ (fun _ _ _ => trivial)
        (fun _ never => never.elim)
      rintro (_ | _) fs' - <;> trivial
  | close fd pid now =>
      simp only [Event.call, post_bind]
      exact (fileSystemClose_performs fs fd pid now).mono (fun _ _ _ => trivial)
        (fun _ _ _ => trivial) (fun _ never => never.elim)
  | remove name pid =>
      simp only [Event.call, post_bind]
      exact (fileSystemRemove_performs fs name pid).mono (fun _ _ _ => trivial)
        (fun _ _ _ => trivial) (fun _ other => other)
  | lock fd pid now =>
      simp only [Event.call, post_bind]
      refine (fileSystemLock_performs fs fd pid now).mono ?_ (fun _ _ _ => trivial)
        (fun _ never => never.elim)
      rintro (_ | _) fs' - <;> trivial
  | unlock fd pid now =>
      simp only [Event.call, post_bind]
      exact (fileSystemUnlock_performs fs fd pid now).mono (fun _ _ _ => trivial)
        (fun _ _ _ => trivial) (fun _ never => never.elim)
  | removeSession pid now =>
      simp only [Event.call, post_bind]
      refine (fileSystemRemoveSession_performs fs pid now).mono (fun _ _ _ => trivial)
        (fun _ _ _ => trivial) (fun why null freed => ?_)
      cases null.symm.trans freed
  | wake waiter now =>
      simp only [Event.call, post_bind]
      refine (wakeUp_performs possible now).mono ?_ (fun _ _ _ => trivial)
        (fun why gone freed => ?_)
      · rintro ((_ | _) | _) fs' - <;> trivial
      · cases gone.symm.trans freed
  | read | write => cases plain

theorem fileSystemClose_neverBusy (fd : Int) (pid : Pid) (now : Int) :
    NeverBusy (fileSystemClose fd pid now : Call codec Unit) := by
  have removes : ∀ t : FileDescriptorTable, t.remove (toUnsigned32 fd) pid ≠ .error .EBUSY := by
    intro t busy
    unfold FileDescriptorTable.remove at busy
    split at busy
    · cases busy
    · split at busy <;> cases busy
  have releases : ∀ inode : Inode, inode.decreaseRefs pid now ≠ .error .EBUSY := by
    intro inode busy
    unfold Inode.decreaseRefs at busy
    split at busy
    · cases busy
    · split at busy <;> cases busy
  have changes : ∀ name, NeverBusy (changeFile name (fun inode => inode.decreaseRefs pid now) :
      Call codec Unit) := by
    refine fun name => .bind .get fun fs => ?_
    cases fs.file name with
    | none => exact .fault _
    | some inode => exact .bind (ofExcept_avoids (releases inode)) fun _ => .modify _
  refine .bind (.bind .get fun fs => ofExcept_avoids (get_neverBusy _ _ pid)) fun copy => ?_
  refine .bind .get fun fs => .bind (ofExcept_avoids (removes _)) fun table => ?_
  refine .bind (.modify _) fun _ => .bind (.failIf (by decide)) fun _ => .bind .get fun fs => ?_
  exact .ite (changes _) (.pure _)

/-! ## Handling a request -/

theorem handled_of_event {Q : FileSystem codec → Prop} {F : Fault → Prop} {event : Event}
    (is : request.event pid now = some event)
    (post : (event.call fs).Post (fun _ => Q) (fun _ => Q) F) :
    (handleRequest pid now request fs).Post (fun _ => Q) (fun _ _ => False) F := by
  have handles := handleRequest_handles is fs
  cases outcome : event.call fs with
  | ok reply fs' =>
      rw [outcome] at handles post
      cases reply with
      | waiting =>
          rw [show handleRequest pid now request fs = _ from handles]
          exact post
      | descriptor fd | data bytes | success =>
          obtain ⟨answer, -, ends⟩ := handles
          rw [ends]
          exact post
  | error code fs' =>
      rw [outcome] at handles post
      rw [show handleRequest pid now request fs = _ from handles]
      exact post
  | fault why =>
      rw [outcome] at handles post
      rw [show handleRequest pid now request fs = _ from handles]
      exact post

theorem Faithful.post (truthful : codec.Truthful) (faithful : Faithful Right fs.view)
    {event : Event} (possible : event.Possible fs) (plain : event.plain = true) :
    (event.call fs).Post (fun _ fs' => Faithful Right fs'.view)
      (fun _ fs' => Faithful Right fs'.view) (fun why => why ≠ .decodeFreed) := by
  have nothing := Event.plain_decodes_nothing plain possible
  cases outcome : event.call fs with
  | ok reply fs' => exact faithful.step truthful possible plain (congrArg Outcome.state? outcome)
  | error code fs' => exact faithful.step truthful possible plain (congrArg Outcome.state? outcome)
  | fault why =>
      rintro rfl
      exact nothing (congrArg Outcome.fault? outcome)

theorem handleRequest_faithful (truthful : codec.Truthful) (faithful : Faithful Right fs.view)
    (holds : ∀ h ∈ held, h.Held pid fs.view) (permitted : request.Permitted Right held)
    (now : Int) :
    (handleRequest pid now request fs).Post (fun _ fs' => Faithful Right fs'.view)
      (fun _ _ => False) (fun why => why ≠ .decodeFreed) := by
  cases request with
  | READ_N payload => exact faithful
  | READ payload =>
      obtain ⟨h, has, same⟩ := permitted
      simp only [handleRequest, post_bind, post_attempt, ← same]
      exact (faithful.read truthful (holds h has) now).mono (fun _ _ right => right.2)
        (fun _ _ kept => kept) (fun _ other => other)
  | WRITE payload =>
      obtain ⟨h, has, same, fresh, rightful⟩ := permitted
      have writes := faithful.write truthful (holds h has) fresh rightful now
      rw [same] at writes
      simp only [handleRequest, handleWrite]
      split
      · rename_i done
        rw [done] at writes
        exact writes
      · rename_i failed
        rw [failed] at writes
        exact writes
      · rename_i faults
        rw [faults] at writes
        exact writes
  | _ => exact handled_of_event rfl (faithful.post truthful trivial rfl)

theorem handlePlain_rightful (call : Call codec Unit) (fs : FileSystem codec) :
    (handlePlain call fs).Post
      (fun progress _ => ∀ answer, progress = .done answer → answer.Rightful Right held request)
      (fun _ _ => True) (fun _ => True) := by
  simp only [handlePlain, bind_run, attempt]
  cases call fs with
  | ok _ fs' | error code fs' =>
      rintro _ ⟨⟩
      trivial
  | fault why => trivial

theorem handleRequest_rightful (truthful : codec.Truthful) (faithful : Faithful Right fs.view)
    (holds : ∀ h ∈ held, h.Held pid fs.view) (permitted : request.Permitted Right held)
    (now : Int) :
    (handleRequest pid now request fs).Post
      (fun progress _ => ∀ answer, progress = .done answer → answer.Rightful Right held request)
      (fun _ _ => True) (fun _ => True) := by
  cases request with
  | OPEN payload =>
      simp only [handleRequest, bind_run, attempt]
      cases fileSystemOpen (Filename.ofString payload.string) (toUnsigned32 payload.number) pid now
        fs with
      | ok progress fs' =>
          cases progress <;> rintro _ ⟨⟩
          trivial
      | error code fs' =>
          rintro _ ⟨⟩
          trivial
      | fault why => trivial
  | LOCK payload =>
      simp only [handleRequest, bind_run, attempt]
      cases fileSystemLock payload.number pid now fs with
      | ok progress fs' =>
          cases progress <;> rintro _ ⟨⟩
          trivial
      | error code fs' =>
          rintro _ ⟨⟩
          trivial
      | fault why => trivial
  | READ_N payload =>
      rintro _ ⟨⟩
      unfold listFiles
      split
      · trivial
      · rintro ⟨_, ⟨⟩⟩
  | READ payload =>
      obtain ⟨h, has, same⟩ := permitted
      simp only [handleRequest, post_bind, post_attempt, ← same]
      refine (faithful.read truthful (holds h has) now).mono ?_ ?_ (fun _ _ => trivial)
      · rintro bytes fs' ⟨right, -⟩ _ ⟨⟩
        exact ⟨⟨payload, rfl⟩, h, has, right⟩
      · rintro code fs' - _ ⟨⟩
        trivial
  | WRITE payload =>
      have evicts := fileSystemWrite_evicts truthful faithful payload.number payload.bytes pid now
      simp only [handleRequest, handleWrite]
      split
      · rename_i done
        rw [done] at evicts
        rintro _ ⟨⟩
        split
        · trivial
        · exact fun _ => evicts
      · rintro _ ⟨⟩
        trivial
      · trivial
  | UNLOCK payload | CLOSE payload | REMOVE payload => exact handlePlain_rightful _ fs

theorem post_of_left {ε φ σ α : Type} {I : σ → Prop} {outcome : Outcome ε φ σ α}
    (left : ∀ s, outcome.state? = some s → I s) :
    outcome.Post (fun _ => I) (fun _ => I) (fun _ => True) := by
  cases outcome with
  | ok a s | error e s => exact left s rfl
  | fault f => trivial

theorem handleRequest_keeps_held (holds : ∀ h ∈ held, h.Held pid fs.view) {event : Event}
    (is : request.event pid now = some event) (possible : event.Possible fs)
    (careful : ¬ event.Careless) :
    (handleRequest pid now request fs).Post (fun _ fs' => ∀ h ∈ held, h.Held pid fs'.view)
      (fun _ _ => False) (fun _ => True) :=
  handled_of_event is <| post_of_left fun _ result h has =>
    (holds h has).step possible (fun _ => careful) result

/-- The client has what it had before, if the answer changes nothing about it. -/
theorem Request.held_after {P : Handle → Prop} {answer : Answer}
    (same : request.next held answer.descriptor = held) (holds : ∀ h ∈ held, P h) :
    ∀ h ∈ request.after held answer, P h := by
  rw [Request.after, same, ite_self]
  exact holds

theorem Request.none_after {P : Handle → Prop} {answer : Answer} (free : answer ≠ .ERROR .EBUSY)
    (gone : request.next held answer.descriptor = none) : ∀ h ∈ request.after held answer, P h := by
  rw [Request.after, if_neg free, gone]
  exact fun _ never => by cases never

theorem handleRequest_opens (fs : FileSystem codec) (pid : Pid) (now : Int) (payload : MessageSn) :
    (handleRequest pid now (.OPEN payload) fs).Post
      (fun progress fs' => ∀ fd : Nat, progress = .done (.OK_FD fd) →
        Handle.Held ⟨Filename.ofString payload.string, fd,
          (toUnsigned32 payload.number).testBit 0⟩ pid fs'.view)
      (fun _ _ => True) (fun _ => True) := by
  simp only [handleRequest, post_bind, post_attempt]
  refine (fileSystemOpen_held fs (Filename.ofString payload.string) (toUnsigned32 payload.number)
    pid now).mono ?_ ?_ (fun _ _ => trivial)
  · rintro (fd | _) fs' opened _ ⟨⟩
    exact opened.2
  · rintro code fs' - _ ⟨⟩

/-- A careful client keeps its descriptor, or gets another one. -/
theorem handleRequest_held (own : OwnCopies fs.view) (holds : ∀ h ∈ held, h.Held pid fs.view)
    (request : Request) (now : Int) :
    (handleRequest pid now request fs).Post
      (fun progress fs' => match progress with
        | .done answer => ∀ h ∈ request.after held answer, h.Held pid fs'.view
        | .waiting => ∀ h ∈ held, h.Held pid fs'.view)
      (fun _ _ => False) (fun _ => True) := by
  have plainly : ∀ event, request.event pid now = some event → event.Possible fs →
      ¬ event.Careless → (∀ answer : Answer, request.next held answer.descriptor = held) →
      (handleRequest pid now request fs).Post
        (fun progress fs' => match progress with
          | .done answer => ∀ h ∈ request.after held answer, h.Held pid fs'.view
          | .waiting => ∀ h ∈ held, h.Held pid fs'.view)
        (fun _ _ => False) (fun _ => True) := by
    intro event is possible careful same
    refine (handleRequest_keeps_held holds is possible careful).mono ?_ (fun _ _ never => never)
      (fun _ _ => trivial)
    rintro (answer | _) fs' kept
    · exact Request.held_after (same answer) kept
    · exact kept
  cases request with
  | OPEN payload =>
      have kept : (handleRequest pid now (.OPEN payload) fs).Post
          (fun _ fs' => ∀ h ∈ held, h.Held pid fs'.view) (fun _ _ => False) (fun _ => True) :=
        handleRequest_keeps_held holds rfl trivial id
      refine (kept.and (handleRequest_opens fs pid now payload)).mono ?_ (fun _ _ never => never.1)
        (fun _ _ => trivial)
      rintro (answer | _) fs' ⟨kept, opened⟩
      · intro h has
        unfold Request.after at has
        split at has
        · exact kept h has
        · cases answer with
          | OK_FD fd =>
              obtain rfl := Option.some.inj has
              exact opened fd rfl
          | _ => cases has
      · exact kept
  | READ_N payload => exact Request.held_after rfl holds
  | WRITE payload =>
      have free := fileSystemWrite_neverBusy { fileSystem := fs, evictedList := [] } payload.number
        payload.bytes pid now (own.ownCopy _ _)
      simp only [handleRequest, handleWrite]
      split
      · refine Request.none_after (fun busy => ?_) rfl
        split at busy <;> cases busy
      · rename_i failed
        rw [failed] at free
        exact Request.none_after (fun busy => free (Answer.ERROR.inj busy)) rfl
      · trivial
  | CLOSE payload =>
      have never : NeverBusy (fileSystemClose payload.number pid now : Call codec Unit) :=
        fileSystemClose_neverBusy payload.number pid now
      have free := never fs
      simp only [handleRequest, handlePlain, bind_run, attempt]
      cases outcome : fileSystemClose payload.number pid now fs with
      | ok _ fs' => exact Request.none_after (fun busy => by cases busy) rfl
      | error code fs' =>
          rw [outcome] at free
          exact Request.none_after (fun busy => free (Answer.ERROR.inj busy)) rfl
      | fault why => trivial
  | READ payload | LOCK payload | UNLOCK payload | REMOVE payload =>
      exact plainly _ rfl trivial id fun _ => rfl

/-! ## Waking up -/

/-- The thread that waits on behalf of an open has created no file. -/
theorem handleRequest_suits {waiter : Waiter}
    (handled : handleRequest pid now request fs = .ok .waiting fs')
    (last : fs'.blocked.getLast? = some waiter) : request.Suits waiter := by
  rintro payload rfl
  obtain ⟨name, call, target, waits⟩ := handleRequest_waits handled
  obtain ⟨inode, -, rfl⟩ := Server.Waits.blocked waits last
  have opened := fileSystemOpen_held fs (Filename.ofString payload.string)
    (toUnsigned32 payload.number) pid now
  constructor
  · rw [lockTarget] at target
    split at target
    · exact (Option.some.inj target).symm
    · cases target
  · simp only [handleRequest, bind_run, attempt] at handled
    cases outcome : fileSystemOpen (Filename.ofString payload.string)
        (toUnsigned32 payload.number) pid now fs with
    | ok progress fs₁ =>
        rw [outcome] at handled opened
        cases progress with
        | done fd => cases handled
        | waiting => exact opened
    | error code fs₁ =>
        rw [outcome] at handled
        cases handled
    | fault why =>
        rw [outcome] at handled
        cases handled

theorem handleWakeUp_keeps {Q : FileSystem codec → Prop} {F : Fault → Prop} {waiter : Waiter}
    (post : ((Event.wake waiter now).call fs).Post (fun _ => Q) (fun _ => Q) F) :
    (handleWakeUp waiter now fs).Post (fun _ => Q) (fun _ _ => False) F := by
  simp only [Event.call, post_bind] at post
  simp only [handleWakeUp, post_bind, post_attempt]
  refine post.mono ?_ (fun _ _ kept => kept) (fun _ faults => faults)
  rintro ((_ | fd) | _) fs' kept <;> exact kept

theorem handleWakeUp_faithful (truthful : codec.Truthful) (faithful : Faithful Right fs.view)
    {waiter : Waiter} (waits : waiter ∈ fs.blocked) (now : Int) :
    (handleWakeUp waiter now fs).Post (fun _ fs' => Faithful Right fs'.view) (fun _ _ => False)
      (fun why => why ≠ .decodeFreed) :=
  handleWakeUp_keeps (faithful.post truthful waits rfl)

theorem handleWakeUp_answers (Right : Contents) (held : Option Handle) (request : Request)
    {waiter : Waiter} (waits : waiter ∈ fs.blocked) (now : Int) :
    (handleWakeUp waiter now fs).Post
      (fun progress fs' => ∀ answer, progress = .done answer →
        answer.Rightful Right held request ∧ ∀ fd ∈ answer.descriptor,
          Handle.Held ⟨waiter.name, fd, false⟩ waiter.pid fs'.view)
      (fun _ _ => False) (fun _ => True) := by
  simp only [handleWakeUp, post_bind, post_attempt]
  refine (wakeUp_held waits now).mono ?_ ?_ (fun _ _ => trivial)
  · rintro ((_ | fd) | _) fs' opened _ ⟨⟩
    · exact ⟨trivial, fun _ never => by cases never⟩
    · refine ⟨trivial, fun _ is => ?_⟩
      obtain rfl := Option.some.inj is
      exact (opened fd rfl).2
  · rintro code fs' - _ ⟨⟩
    exact ⟨trivial, fun _ never => by cases never⟩

theorem handleWakeUp_held (Right : Contents) {waiter : Waiter} (waits : waiter ∈ fs.blocked)
    (own : waiter.pid = pid) (suits : request.Suits waiter)
    (holds : ∀ h ∈ held, h.Held pid fs.view) (now : Int) :
    (handleWakeUp waiter now fs).Post
      (fun progress fs' => ∀ answer, progress = .done answer →
        answer.Rightful Right held request ∧ ∀ h ∈ request.after held answer, h.Held pid fs'.view)
      (fun _ _ => False) (fun _ => True) := by
  have possible : (Event.wake waiter now).Possible fs := waits
  have kept : (handleWakeUp waiter now fs).Post (fun _ fs' => ∀ h ∈ held, h.Held pid fs'.view)
      (fun _ _ => False) (fun _ => True) :=
    handleWakeUp_keeps <| post_of_left fun fs' result h has =>
      (holds h has).step possible (fun _ => id) result
  have answers := handleWakeUp_answers Right held request waits now
  refine (kept.and answers).mono ?_ (fun _ _ never => never.1) (fun _ _ => trivial)
  rintro progress fs' ⟨kept, answers⟩ answer is
  refine ⟨(answers answer is).1, fun h has => ?_⟩
  unfold Request.after at has
  split at has
  · exact kept h has
  · cases request with
    | OPEN payload =>
        obtain ⟨fd, is', rfl⟩ := Option.map_eq_some_iff.mp has
        have opened := (answers answer is).2 fd is'
        rw [(suits payload rfl).1, own] at opened
        rwa [(suits payload rfl).2]
    | WRITE payload | CLOSE payload => cases has
    | _ => exact kept h has

end FileStorage
