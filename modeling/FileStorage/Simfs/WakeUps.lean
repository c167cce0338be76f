import FileStorage.Simfs.PendingLocks
import FileStorage.Simfs.Frames

/-! # Wake-ups

A thread that waits for a file is woken up when references to the file are given
back: `gnl_simfs_inode_decrease_refs` signals the condition variable of the inode,
which lets one of the threads that wait on it run again. `Watched` adds to the file
system the threads that are signalled and have not run yet. A thread may also wake
up without a signal.
-/

namespace FileStorage

open Program FileSystem

variable {codec : Codec}

/-! ## Signals -/

namespace Inode

/-- The test at the end of `gnl_simfs_inode_decrease_refs`, after a pid has given
    back a reference. -/
def signals (inode : Inode) (pid : Pid) : Bool :=
  inode.referenceCount = 0 || inode.referenceList.any fun other => other ≠ pid

/-- How many signals a number of calls of `gnl_simfs_inode_decrease_refs` send, the
    last of which may fail. -/
def decreaseSignals (pid : Pid) (now : Int) : (times : Nat) → Inode → Nat
  | 0, _ => 0
  | times + 1, inode =>
      match inode.decreaseRefs pid now with
      | .error _ => 0
      | .ok decreased =>
          (if decreased.signals pid then 1 else 0) + decreaseSignals pid now times decreased

end Inode

/-- The condition variable in the inode of a file. -/
structure Condition where
  name : Filename
  generation : Nat
  deriving DecidableEq

def Waiter.condition (waiter : Waiter) : Condition := ⟨waiter.name, waiter.generation⟩

namespace FileSystem

/-- The signals sent while a pid gives back references to one file. -/
def fileSignals (fs : FileSystem codec) (pid : Pid) (now : Int) (times : Nat) (name : Filename) :
    List Condition :=
  match fs.file name with
  | none => []
  | some inode => List.replicate (inode.decreaseSignals pid now times) ⟨name, inode.generation⟩

def leaveSignals (pid : Pid) (now : Int) : List Filename → FileSystem codec → List Condition
  | [], _ => []
  | name :: names, fs =>
      fs.fileSignals pid now (fs.fileDescriptorTable.1.pidInodeSize name pid) name ++
        match leaveFile pid now name fs with
        | .ok _ fs => leaveSignals pid now names fs
        | .error _ _ | .fault _ => []

end FileSystem

def Event.signals (fs : FileSystem codec) : Event → List Condition
  | .close fd pid now =>
      match fs.slot (toUnsigned32 fd) with
      | none => []
      | some entry =>
          if entry.owner = pid then fs.fileSignals pid now 1 entry.inode.name else []
  | .removeSession pid now => leaveSignals pid now fs.fileTable.presenceList fs
  | _ => []

/-- `pthread_cond_signal`: of the threads that still wait on the condition variable
    one is signalled, if there is any. -/
def Signal (blocked : List Waiter) (condition : Condition) (before after : List Waiter) : Prop :=
  (∃ waiter ∈ blocked, waiter.condition = condition ∧ waiter ∉ before ∧ after = waiter :: before) ∨
    (∀ waiter ∈ blocked, waiter.condition = condition → waiter ∈ before) ∧ after = before

/-- Signals one after the other. -/
def Signals (blocked : List Waiter) : List Condition → List Waiter → List Waiter → Prop
  | [], before, after => after = before
  | condition :: conditions, before, after =>
      ∃ between, Signal blocked condition before between ∧ Signals blocked conditions between after

section Signals

variable {blocked before after : List Waiter} {condition : Condition} {conditions : List Condition}
  {waiter : Waiter}

theorem Signal.subset (signal : Signal blocked condition before after) : before ⊆ after := by
  rcases signal with ⟨other, -, -, -, rfl⟩ | ⟨-, rfl⟩
  · exact List.subset_cons_self other before
  · exact List.Subset.refl _

theorem Signal.exists (blocked : List Waiter) (condition : Condition) (before : List Waiter) :
    ∃ after, Signal blocked condition before after := by
  by_cases all : ∀ waiter ∈ blocked, waiter.condition = condition → waiter ∈ before
  · exact ⟨before, .inr ⟨all, rfl⟩⟩
  · push Not at all
    obtain ⟨waiter, waits, is, new⟩ := all
    exact ⟨waiter :: before, .inl ⟨waiter, waits, is, new, rfl⟩⟩

/-- The only thread that waits on a condition variable is the one that is signalled. -/
theorem Signal.reaches (signal : Signal blocked condition before after) (waits : waiter ∈ blocked)
    (is : waiter.condition = condition)
    (only : ∀ other ∈ blocked, other.condition = condition → other = waiter) : waiter ∈ after := by
  rcases signal with ⟨other, member, same, -, rfl⟩ | ⟨all, rfl⟩
  · rw [only other member same]
    exact List.mem_cons_self
  · exact all waiter waits is

theorem Signals.subset (signals : Signals blocked conditions before after) : before ⊆ after := by
  induction conditions generalizing before with
  | nil =>
      obtain rfl := signals
      exact List.Subset.refl _
  | cons condition conditions ih =>
      obtain ⟨between, first, rest⟩ := signals
      exact List.Subset.trans first.subset (ih rest)

theorem Signals.exists (blocked : List Waiter) (conditions : List Condition) (before : List Waiter) :
    ∃ after, Signals blocked conditions before after := by
  induction conditions generalizing before with
  | nil => exact ⟨before, rfl⟩
  | cons condition conditions ih =>
      obtain ⟨between, first⟩ := Signal.exists blocked condition before
      obtain ⟨after, rest⟩ := ih between
      exact ⟨after, between, first, rest⟩

theorem Signals.reaches (signals : Signals blocked conditions before after)
    (waits : waiter ∈ blocked) (sent : waiter.condition ∈ conditions)
    (only : ∀ other ∈ blocked, other.condition = waiter.condition → other = waiter) :
    waiter ∈ after := by
  induction conditions generalizing before with
  | nil => cases sent
  | cons condition conditions ih =>
      obtain ⟨between, first, rest⟩ := signals
      rcases List.mem_cons.mp sent with same | later
      · exact rest.subset (first.reaches waits same (same ▸ only))
      · exact ih rest later

end Signals

/-! ## Watched runs -/

/-- The file system and the threads that are signalled and have not run yet. -/
structure Watched (codec : Codec) where
  fileSystem : FileSystem codec
  signalled : List Waiter

namespace Watched

def unseen (signalled : List Waiter) : Event → List Waiter
  | .wake waiter _ => signalled.filter (· ≠ waiter)
  | _ => signalled

def Step (guard : FileSystem codec → Event → Prop) (s s' : Watched codec) : Prop :=
  ∃ event : Event, event.Possible s.fileSystem ∧ guard s.fileSystem event ∧
    (event.call s.fileSystem).state? = some s'.fileSystem ∧
    Signals s.fileSystem.blocked (event.signals s.fileSystem) (unseen s.signalled event) s'.signalled

def Reachable (guard : FileSystem codec → Event → Prop) (s : Watched codec) : Prop :=
  ∃ memoryLimit filesLimit policy,
    Relation.ReflTransGen (Step guard) ⟨.init memoryLimit filesLimit policy, []⟩ s

variable {guard : FileSystem codec → Event → Prop}

/-- Every run can be watched. -/
theorem Reachable.of_run {fs : FileSystem codec} (reached : FileStorage.Reachable guard fs) :
    ∃ s : Watched codec, Reachable guard s ∧ s.fileSystem = fs := by
  obtain ⟨memoryLimit, filesLimit, policy, run⟩ := reached
  induction run with
  | refl => exact ⟨_, ⟨memoryLimit, filesLimit, policy, .refl⟩, rfl⟩
  | @tail fs fs' _ next ih =>
      obtain ⟨s, ⟨memoryLimit, filesLimit, policy, run⟩, rfl⟩ := ih
      obtain ⟨event, possible, allowed, result⟩ := next
      obtain ⟨after, signals⟩ := Signals.exists s.fileSystem.blocked (event.signals s.fileSystem)
        (unseen s.signalled event)
      exact ⟨⟨fs', after⟩, ⟨memoryLimit, filesLimit, policy,
        run.tail ⟨event, possible, allowed, result, signals⟩⟩, rfl⟩

end Watched

/-! ## References that are given back -/

/-- The file has the same references as before, or its condition variable has been
    signalled. -/
def Told (inode : Inode) (name : Filename) (sent : List Condition) (fs : FileSystem codec) : Prop :=
  (∃ after, fs.file name = some after ∧ after.generation = inode.generation ∧
    after.referenceList = inode.referenceList) ∨ ⟨name, inode.generation⟩ ∈ sent

namespace FileSystem

variable {fs fs' : FileSystem codec} {name : Filename} {inode : Inode} {pid : Pid} {now : Int}

theorem decreaseSignals_pos {decreased : Inode} (decrease : inode.decreaseRefs pid now = .ok decreased)
    (shared : ∃ other ∈ inode.referenceList, other ≠ pid) (times : Nat) :
    0 < inode.decreaseSignals pid now (times + 1) := by
  obtain ⟨other, member, different⟩ := shared
  have signals : decreased.signals pid = true := by
    unfold Inode.decreaseRefs at decrease
    split at decrease
    · cases decrease
    · split at decrease
      · cases decrease
      · obtain rfl := Except.ok.inj decrease
        have stays : other ∈ inode.referenceList.erase pid :=
          (List.mem_erase_of_ne different).mpr member
        simp only [Inode.signals, Bool.or_eq_true, List.any_eq_true]
        exact .inr ⟨other, stays, decide_eq_true different⟩
  simp only [Inode.decreaseSignals, decrease, if_pos signals]
  omega

theorem mem_fileSignals (present : fs.file name = some inode) {times : Nat}
    (some_ : 0 < inode.decreaseSignals pid now times) :
    ⟨name, inode.generation⟩ ∈ fs.fileSignals pid now times name := by
  simp only [fileSignals, present]
  exact List.mem_replicate.mpr ⟨some_.ne', rfl⟩

theorem decreaseRefsTimes_told (present : fs.file name = some inode)
    (shared : ∃ other ∈ inode.referenceList, other ≠ pid) (times : Nat) :
    (decreaseRefsTimes name pid now times fs).Post
      (fun _ fs' => 0 < inode.decreaseSignals pid now times ∨ fs' = fs)
      (fun _ fs' => 0 < inode.decreaseSignals pid now times ∨ fs' = fs)
      (fun _ => True) := by
  cases times with
  | zero => exact .inr rfl
  | succ times =>
      simp only [decreaseRefsTimes, post_bind]
      refine post_changeFile present (fun decreased decrease => ?_) (fun _ _ => .inr rfl)
      have sent := decreaseSignals_pos decrease shared times
      cases decreaseRefsTimes name pid now times (fs.updateFile name fun _ => decreased) with
      | ok done fs₁ => exact .inl sent
      | error code fs₁ => exact .inl sent
      | fault why => trivial

theorem fileUnlock_references {unlocked : Inode} (unlock : inode.fileUnlock pid now = .ok unlocked) :
    unlocked.generation = inode.generation ∧ unlocked.referenceList = inode.referenceList := by
  unfold Inode.fileUnlock at unlock
  split at unlock
  · obtain rfl := Except.ok.inj unlock
    exact ⟨rfl, rfl⟩
  · split at unlock
    · cases unlock
    · obtain rfl := Except.ok.inj unlock
      exact ⟨rfl, rfl⟩

theorem keeps_otherFile {other : Filename} (different : name ≠ other)
    (f : Inode → Except Errno Inode) :
    Keeps (fun fs => fs.file name = some inode) (changeFile other f : Call codec Unit) := by
  intro fs kept
  cases present : fs.file other with
  | none => simp only [changeFile, post_bind, post_get, present, post_fault]
  | some found =>
      refine post_changeFile present (fun changed _ => ?_) (fun _ _ => kept)
      simpa [different] using kept

theorem leaveFile_told (present : fs.file name = some inode)
    (shared : ∃ other ∈ inode.referenceList, other ≠ pid) (left : Filename) :
    (leaveFile pid now left fs).Post
      (fun _ => Told inode name
        (fs.fileSignals pid now (fs.fileDescriptorTable.1.pidInodeSize left pid) left))
      (fun _ => Told inode name
        (fs.fileSignals pid now (fs.fileDescriptorTable.1.pidInodeSize left pid) left))
      (fun _ => True) := by
  by_cases this : name = left
  · subst this
    simp only [leaveFile, post_bind]
    have same : Told inode name
        (fs.fileSignals pid now (fs.fileDescriptorTable.1.pidInodeSize name pid) name) fs :=
      .inl ⟨inode, present, rfl, rfl⟩
    refine post_rtsGetInode (fun _ _ _ => ?_) (fun _ => same)
    simp only [post_get]
    refine (decreaseRefsTimes_told present shared _).mono ?_ ?_ (fun _ _ => trivial)
    · rintro - fs₁ (sent | rfl)
      · rw [← post_bind]
        exact .of_forall (fun _ => Or.inr (mem_fileSignals present sent)) _
      · refine post_rtsGetInode (fun found _ stored => ?_) (fun _ => same)
        rw [post_ite]
        refine ⟨fun _ => ?_, fun _ => same⟩
        refine post_changeFile present (fun unlocked unlock => ?_) (fun _ _ => same)
        have kept := fileUnlock_references unlock
        exact .inl ⟨{ unlocked with name }, by simp [present], kept⟩
    · rintro - fs₁ (sent | rfl)
      · exact .inr (mem_fileSignals present sent)
      · exact same
  · have keeps : Keeps (fun fs => fs.file name = some inode)
        (leaveFile pid now left : Call codec Unit) := by
      have decreases : ∀ times, Keeps (fun fs => fs.file name = some inode)
          (decreaseRefsTimes left pid now times : Call codec Unit) := by
        intro times
        induction times with
        | zero => exact .pure ()
        | succ times ih => exact .bind (keeps_otherFile this _) fun _ => ih
      exact .bind (keeps_rtsGetInode left) fun _ => .bind .get fun _ => .bind (decreases _) fun _ =>
        .bind (keeps_rtsGetInode left) fun _ => .ite (keeps_otherFile this _) (.pure _)
    exact (keeps fs present).mono (fun _ _ kept => .inl ⟨inode, kept, rfl, rfl⟩)
      (fun _ _ kept => .inl ⟨inode, kept, rfl, rfl⟩) (fun _ _ => trivial)

theorem leaveFiles_told (present : fs.file name = some inode)
    (shared : ∃ other ∈ inode.referenceList, other ≠ pid) (names : List Filename) :
    (leaveFiles pid now names fs).Post (fun _ => Told inode name (leaveSignals pid now names fs))
      (fun _ => Told inode name (leaveSignals pid now names fs)) (fun _ => True) := by
  induction names generalizing fs inode with
  | nil => exact .inl ⟨inode, present, rfl, rfl⟩
  | cons left names ih =>
      have first := @leaveFile_told _ fs name inode pid now present shared left
      simp only [leaveFiles, leaveSignals, post_bind]
      cases outcome : leaveFile pid now left fs with
      | ok done fs₁ =>
          rw [outcome] at first
          rcases first with ⟨after, present₁, generation, references⟩ | sent
          · refine (ih present₁ (references ▸ shared)).mono ?_ ?_ (fun _ h => h)
            all_goals
              rintro - fs' (⟨final, present', same, list⟩ | sent)
              · exact .inl ⟨final, present', same.trans generation, list.trans references⟩
              · exact .inr (List.mem_append_right _ (generation ▸ sent))
          · exact .of_forall (fun _ => .inr (List.mem_append_left _ sent)) _
      | error code fs₁ =>
          rw [outcome] at first
          exact first.imp_right fun sent => List.mem_append_left _ sent
      | fault why => trivial

theorem fileSystemRemoveSession_told (present : fs.file name = some inode)
    (shared : ∃ other ∈ inode.referenceList, other ≠ pid) :
    (fileSystemRemoveSession pid now fs).Post
      (fun _ => Told inode name (leaveSignals pid now fs.fileTable.presenceList fs))
      (fun _ => Told inode name (leaveSignals pid now fs.fileTable.presenceList fs))
      (fun _ => True) := by
  simp only [fileSystemRemoveSession, post_bind, post_get, post_failIf]
  refine ⟨fun _ => .inl ⟨inode, present, rfl, rfl⟩, fun _ => ?_⟩
  refine (leaveFiles_told present shared _).mono ?_ (fun _ _ told => told) (fun _ h => h)
  exact fun _ fs₁ told => told

theorem fileSystemClose_told {fd : Int} (present : fs.file name = some inode)
    (shared : ∃ other ∈ inode.referenceList, other ≠ pid) :
    (fileSystemClose fd pid now fs).Post
      (fun _ => Told inode name ((Event.close fd pid now).signals fs))
      (fun _ => Told inode name ((Event.close fd pid now).signals fs))
      (fun _ => True) := by
  have same : Told inode name ((Event.close fd pid now).signals fs) fs :=
    .inl ⟨inode, present, rfl, rfl⟩
  simp only [fileSystemClose, post_bind]
  refine post_rtsGetInodeByFd (fun copy live => ?_) (fun _ => same)
  simp only [post_get]
  refine post_ofExcept (fun table _ => ?_) (fun _ _ => same)
  simp only [post_modify, post_failIf]
  refine ⟨fun _ => same, fun _ => ?_⟩
  rw [post_ite]
  refine ⟨fun _ => ?_, fun _ => same⟩
  by_cases this : name = copy.name
  · subst this
    refine post_changeFile (show _ = some inode from present) (fun decreased decrease => .inr ?_)
      (fun _ _ => same)
    have sent := mem_fileSignals present (decreaseSignals_pos decrease shared 0)
    simpa [Event.signals, live] using sent
  · have kept : ∀ fs' : FileSystem codec, fs'.file name = some inode →
        Told inode name ((Event.close fd pid now).signals fs) fs' :=
      fun _ kept => .inl ⟨inode, kept, rfl, rfl⟩
    refine (keeps_otherFile this (fun inode => inode.decreaseRefs pid now) _ ?_).mono
      (fun _ => kept) (fun _ => kept) (fun _ h => h)
    exact present

end FileSystem

def Action.givesBack : Action codec → Bool
  | .close _ | .release .. | .leave _ => true
  | _ => false

namespace View

variable {v v' : View codec} {waiter : Waiter} {a : Action codec} {acts : List (Action codec)}

theorem Awaits.shared_apply (awaits : v.Awaits waiter) (shared : v.Shared waiter)
    (bears : Bears waiter v a) (keeps : a.givesBack = false) : (v.apply a).Shared waiter := by
  obtain ⟨f, found, other, member, different⟩ := shared
  obtain ⟨f', stored, -⟩ := Option.map_eq_some_iff.mp (awaits.apply bears).state
  have references : f'.referenceList = f.referenceList := by
    cases a with
    | create name =>
        have away : waiter.name ≠ name := Ne.symm bears
        simp only [View.apply, Function.update_of_ne away, found] at stored
        rw [Option.some.inj stored]
    | attach fd name pid =>
        obtain ⟨before, was, rfl⟩ := file_of_changeFile stored
        rw [if_neg (Ne.symm bears), Option.some.inj (was.symm.trans found)]
    | close fd | release name pid | leave pid => cases keeps
    | _ =>
        obtain ⟨before, was, -, same, -⟩ := file_of_apply rfl stored
        rw [(same rfl).1, Option.some.inj (was.symm.trans found)]
  exact ⟨f', stored, other, references ▸ member, different⟩

theorem Awaits.shared_trace (awaits : v.Awaits waiter) (shared : v.Shared waiter)
    (trace : (viewSystem codec).Trace v acts v')
    (bears : (viewSystem codec).Meets (Bears waiter) v acts)
    (keeps : ∀ a ∈ acts, a.givesBack = false) : v'.Shared waiter := by
  induction trace with
  | nil v => exact shared
  | cons _ _ ih =>
      obtain ⟨first, rest⟩ := List.forall_mem_cons.mp keeps
      exact ih (awaits.apply bears.1) (awaits.shared_apply shared bears.1 first) bears.2 rest

end View

namespace Event

variable {fs fs' : FileSystem codec} {event : Event} {waiter : Waiter}

/-- As long as a thread waits and is not signalled, the other pids that it waits for
    keep their references. -/
theorem shared_call (awaits : fs.view.Awaits waiter) (shared : fs.view.Shared waiter)
    (possible : event.Possible fs) (result : (event.call fs).state? = some fs')
    (oneCall : event.OneCall fs) (asks : event.Requests fs waiter.name = true → 0 < asInt event.pid)
    (spares : ¬ event.Destroys fs waiter.name) (sleeps : ∀ now, event ≠ .wake waiter now) :
    fs'.view.Shared waiter ∨ waiter.condition ∈ event.signals fs := by
  obtain ⟨acts, does, performs, bears⟩ :=
    bears_call awaits possible result oneCall asks spares sleeps
  obtain ⟨f, found, other, member, different⟩ := id shared
  obtain ⟨inode, present, rfl⟩ := Option.map_eq_some_iff.mp found
  have generation : inode.generation = waiter.generation := by
    obtain ⟨_, is, same, -⟩ := awaits.inode
    rw [← same, Option.some.inj (present.symm.trans is)]
  have refers : waiter.pid ∈ inode.referenceList := awaits.refers _ (view_file present)
  have told : ∀ {sent}, Told inode waiter.name sent fs' →
      fs'.view.Shared waiter ∨ waiter.condition ∈ sent := by
    rintro sent (⟨after, stored, -, list⟩ | signal)
    · have member : other ∈ after.referenceList := by
        rw [list]
        exact member
      exact .inl ⟨_, view_file stored, other, member, different⟩
    · exact .inr (by rwa [Waiter.condition, ← generation])
  have keeps : (∀ a ∈ acts, a.givesBack = false) →
      fs'.view.Shared waiter ∨ waiter.condition ∈ event.signals fs :=
    fun keeps => .inl (awaits.shared_trace shared performs bears keeps)
  cases event with
  | close fd pid now =>
      have another : ∃ other ∈ inode.referenceList, other ≠ pid :=
        ⟨_, refers, oneCall waiter awaits.waits⟩
      exact told ((post_of_actions (fun _ => ⟨_, rfl⟩)
        (fileSystemClose_told present another)).of_state result)
  | removeSession pid now =>
      have another : ∃ other ∈ inode.referenceList, other ≠ pid :=
        ⟨_, refers, oneCall waiter awaits.waits⟩
      exact told ((post_of_actions (fun _ => ⟨_, rfl⟩)
        (fileSystemRemoveSession_told present another)).of_state result)
  | _ =>
      refine keeps fun a member => ?_
      rcases does with rfl | does
      · cases member
      · cases does.mayDo a member <;> rfl

end Event

/-! ## Pending locks are served -/

def Undisturbed (name : Filename) (fs : FileSystem codec) (event : Event) : Prop :=
  event.OneCall fs ∧ ((∃ waiter ∈ fs.blocked, waiter.name = name) → ¬ event.Destroys fs name)

def SoundRequests (name : Filename) (fs : FileSystem codec) (event : Event) : Prop :=
  Undisturbed name fs event ∧ (event.Requests fs name = true → 0 < asInt event.pid)

instance (fs : FileSystem codec) : (event : Event) → Decidable (event.OneCall fs)
  | .wake _ _ => inferInstanceAs (Decidable True)
  | .open .. | .write .. | .read .. | .close .. | .remove .. | .lock .. | .unlock ..
  | .removeSession .. => inferInstanceAs (Decidable (∀ waiter ∈ fs.blocked, waiter.pid ≠ _))

instance (name : Filename) (fs : FileSystem codec) (event : Event) :
    Decidable (Undisturbed name fs event) :=
  inferInstanceAs (Decidable (event.OneCall fs ∧
    ((∃ waiter ∈ fs.blocked, waiter.name = name) → ¬ event.Destroys fs name)))

instance (name : Filename) (fs : FileSystem codec) (event : Event) :
    Decidable (SoundRequests name fs event) :=
  inferInstanceAs (Decidable (_ ∧ (event.Requests fs name = true → 0 < asInt event.pid)))

namespace Watched

variable {s s' : Watched codec} {name : Filename} {waiter : Waiter}

/-- A thread that waits is signalled, or another pid refers to its file. -/
def Hopeful (s : Watched codec) (waiter : Waiter) : Prop :=
  s.fileSystem.view.Awaits waiter ∧ (waiter ∈ s.signalled ∨ s.fileSystem.view.Shared waiter)

/-- Nobody waits for the file, or one thread that will be told. -/
def Served (name : Filename) (s : Watched codec) : Prop :=
  s.fileSystem.view.Settled name ∨ ∃ waiter, waiter.name = name ∧ s.Hopeful waiter

/-- After every step the thread waits on or has the lock, and until then only its pid
    gets descriptors. -/
theorem Hopeful.step (hopeful : s.Hopeful waiter) (step : Step (SoundRequests waiter.name) s s') :
    View.NewSlotsOf waiter.pid s.fileSystem.view s'.fileSystem.view waiter.name ∧
      (s'.Hopeful waiter ∨ s'.fileSystem.view.Settled waiter.name ∧
        s'.fileSystem.view.lockState waiter.name = some ⟨waiter.generation, waiter.pid, 0⟩) := by
  obtain ⟨awaits, told⟩ := hopeful
  obtain ⟨event, possible, ⟨⟨oneCall, spares⟩, asks⟩, result, signals⟩ := step
  by_cases wakes : ∃ now, event = .wake waiter now
  · obtain ⟨now, rfl⟩ := wakes
    rcases Event.wake_call awaits result with ⟨same, f, found, -, -, shared⟩ | ⟨settled, locked, slots⟩
    · rw [same]
      exact ⟨fun fd s live _ _ => ⟨s, live, rfl⟩, .inl ⟨same ▸ awaits, .inr (same ▸ ⟨f, found, shared⟩)⟩⟩
    · exact ⟨slots, .inr ⟨settled, locked⟩⟩
  · have sleeps : ∀ now, event ≠ .wake waiter now := fun now is => wakes ⟨now, is⟩
    have spares := spares ⟨waiter, awaits.waits, rfl⟩
    obtain ⟨acts, -, performs, bears⟩ :=
      Event.bears_call awaits possible result oneCall asks spares sleeps
    obtain ⟨awaits', slots⟩ := awaits.trace performs bears
    refine ⟨slots, .inl ⟨awaits', ?_⟩⟩
    rcases told with signalled | shared
    · refine .inl (signals.subset ?_)
      cases event with
      | wake woken now =>
          have other : waiter ≠ woken := fun same => sleeps now (same ▸ rfl)
          exact List.mem_filter.mpr ⟨signalled, decide_eq_true other⟩
      | _ => exact signalled
    · rcases Event.shared_call awaits shared possible result oneCall asks spares sleeps with
        shared | sent
      · exact .inr shared
      · refine .inl (signals.reaches awaits.waits sent fun other waits same => ?_)
        exact awaits.eq_of_waits waits (congrArg Condition.name same)

theorem Served.step (served : s.Served name) (step : Step (SoundRequests name) s s') :
    s'.Served name := by
  rcases served with settled | ⟨waiter, rfl, hopeful⟩
  · obtain ⟨event, possible, ⟨-, asks⟩, result, -⟩ := step
    rcases Event.settled_call settled possible result asks with settled | ⟨waiter, rfl, awaits, shared⟩
    · exact .inl settled
    · exact .inr ⟨waiter, rfl, awaits, .inr shared⟩
  · rcases (hopeful.step step).2 with hopeful | ⟨settled, -⟩
    · exact .inr ⟨waiter, rfl, hopeful⟩
    · exact .inl settled

theorem served_of_reachable (reached : Reachable (SoundRequests name) s) : s.Served name := by
  obtain ⟨memoryLimit, filesLimit, policy, run⟩ := reached
  induction run with
  | refl =>
      refine .inl ⟨rfl, fun state is => ?_⟩
      have none_ : (FileSystem.init memoryLimit filesLimit policy : FileSystem codec).view =
        .initial := init_view memoryLimit filesLimit policy
      rw [none_] at is
      cases is
  | tail _ step ih => exact ih.step step

/-- A step gives no other pid than the one that waits a descriptor or the lock of the
    file; after it the pid has the lock, or its request is still pending. -/
structure Bars (name : Filename) (waiter : Waiter) (s s' : Watched codec) : Prop where
  descriptors : ∀ fd entry, s'.fileSystem.slot fd = some entry → entry.inode.name = name →
    entry.owner ≠ waiter.pid →
    ∃ before, s.fileSystem.slot fd = some before ∧ before.owner = entry.owner ∧
      before.inode.name = name ∧ before.inode.generation = entry.inode.generation
  lock : ∃ inode, s'.fileSystem.file name = some inode ∧ inode.generation = waiter.generation ∧
    (inode.locked = waiter.pid ∨
      inode.locked = 0 ∧ 0 < inode.pendingLocks ∧ waiter ∈ s'.fileSystem.blocked)

/-- At most one thread waits for the file. If it is not signalled, another pid refers
    to the file. A pending lock bars all other pids from the file in every step. -/
structure Fair (guard : FileSystem codec → Event → Prop) (name : Filename) (s : Watched codec) :
    Prop where
  alone : (s.fileSystem.blocked.filter (·.name = name)).length ≤ 1
  shared : ∀ waiter ∈ s.fileSystem.blocked, waiter.name = name → waiter ∉ s.signalled →
    ∃ inode, s.fileSystem.file name = some inode ∧ inode.generation = waiter.generation ∧
      ∃ other ∈ inode.referenceList, other ≠ waiter.pid
  barred : ∀ inode, s.fileSystem.file name = some inode → 0 < inode.pendingLocks →
    inode.locked = 0 ∧ ∃ waiter ∈ s.fileSystem.blocked, waiter.name = name ∧
      ∀ s', Step guard s s' → Bars name waiter s s'

theorem Hopeful.bars (hopeful : s.Hopeful waiter) (step : Step (SoundRequests waiter.name) s s') :
    Bars waiter.name waiter s s' := by
  obtain ⟨slots, after⟩ := hopeful.step step
  refine ⟨fun fd entry live named other => ?_, ?_⟩
  · obtain ⟨before, found, key⟩ := slots fd _ (view_slot live) named other
    obtain ⟨owner, sameName, generation⟩ := SlotView.key_eq.mp key
    obtain ⟨entry', live', rfl⟩ := Option.map_eq_some_iff.mp found
    exact ⟨entry', live', owner.symm, sameName.symm.trans named, generation.symm⟩
  · rcases after with ⟨awaits, -⟩ | ⟨-, locked⟩
    · obtain ⟨inode, present, generation, free, pending⟩ := awaits.inode
      exact ⟨inode, present, generation,
        .inr ⟨free, Nat.pos_iff_ne_zero.mpr pending, awaits.waits⟩⟩
    · obtain ⟨inode, present, is⟩ := Event.lockState_of_file locked
      obtain ⟨generation, own, -⟩ := LockState.mk.inj is
      exact ⟨inode, present, generation, .inl own⟩

/-- In the runs in which only pids that are positive as an `int` ask for the lock of a
    file, no wake-up for it is lost and nobody gets ahead of a pending lock. -/
theorem pending_lock_fair (reached : Reachable (SoundRequests name) s) :
    Fair (SoundRequests name) name s := by
  rcases served_of_reachable reached with settled | ⟨waiter, rfl, hopeful⟩
  · have nobody : s.fileSystem.blocked.filter (·.name = name) = [] := settled.nobody
    refine ⟨by simp [nobody], fun waiter waits named => ?_, fun inode present pending => ?_⟩
    · rw [List.filter_eq_nil_iff] at nobody
      exact absurd (decide_eq_true named) (nobody waiter waits)
    · exact absurd (settled.inode present).1 pending.ne'
  · obtain ⟨awaits, told⟩ := id hopeful
    have only : s.fileSystem.blocked.filter (·.name = waiter.name) = [waiter] := awaits.only
    obtain ⟨inode, present, generation, free, -⟩ := awaits.inode
    refine ⟨by simp [only], fun other waits named unsignalled => ?_, fun found stored _ => ?_⟩
    · obtain rfl := awaits.eq_of_waits waits named
      obtain ⟨f, found, shared⟩ := told.resolve_left unsignalled
      obtain rfl := Option.some.inj ((view_file present).symm.trans found)
      exact ⟨inode, present, generation, shared⟩
    · obtain rfl := Option.some.inj (present.symm.trans stored)
      exact ⟨free, waiter, awaits.waits, rfl, fun s' step => hopeful.bars step⟩

theorem pending_lock_fair_two : ∃ s : Watched huffmanCodec,
    Reachable (SoundRequests [102]) s ∧ lockWaiter ∈ s.fileSystem.blocked ∧
      Fair (SoundRequests [102]) [102] s := by
  obtain ⟨fs, reached, waits⟩ := FileStorage.Reachable.of_runs
    (SoundRequests [102] : FileSystem huffmanCodec → Event → Prop) 1 4 .fifo
    (fun fs : FileSystem huffmanCodec => lockWaiter ∈ fs.blocked)
    [.open [102] 1 1 0, .open [102] 0 2 1, .lock 1 2 2] (by decide +kernel)
  obtain ⟨s, watched, rfl⟩ := Reachable.of_run reached
  exact ⟨s, watched, of_decide_eq_true waits, pending_lock_fair watched⟩

/-- The pid 0 opens a file with its lock, although the lock is pending: an unlocked
    file counts as locked by pid 0. -/
theorem pending_lock_unfair : ∃ s : Watched huffmanCodec,
    Reachable (Undisturbed [102]) s ∧ ¬ Fair (Undisturbed [102]) [102] s := by
  obtain ⟨fs, reached, ends⟩ := FileStorage.Reachable.of_runs
    (Undisturbed [102] : FileSystem huffmanCodec → Event → Prop) 1 4 .fifo
    (fun fs : FileSystem huffmanCodec => fs.blocked = [lockWaiter] ∧
      (fs.file [102]).any (fun inode => 0 < inode.pendingLocks) = true ∧ fs.slot 2 = none ∧
      ((Event.open [102] 2 0 3).call fs).state?.any (fun fs' => (fs'.slot 2).any fun entry =>
        entry.owner = 0 ∧ entry.inode.name = [102]) = true)
    [.open [102] 1 1 0, .open [102] 0 2 1, .lock 1 2 2] (by decide +kernel)
  obtain ⟨blocked, pending, free, opens⟩ := of_decide_eq_true ends
  obtain ⟨inode, present, counted⟩ := (Option.any_eq_true _ _).mp pending
  obtain ⟨fs', result, opened⟩ := (Option.any_eq_true _ _).mp opens
  obtain ⟨entry, live, is⟩ := (Option.any_eq_true _ _).mp opened
  obtain ⟨owner, named⟩ := of_decide_eq_true is
  obtain ⟨s, watched, rfl⟩ := Reachable.of_run reached
  refine ⟨s, watched, fun fair => ?_⟩
  obtain ⟨-, waiter, waits, -, bars⟩ := fair.barred inode present (of_decide_eq_true counted)
  rw [blocked, List.mem_singleton] at waits
  have step : Step (Undisturbed [102]) s ⟨fs', s.signalled⟩ := by
    refine ⟨.open [102] 2 0 3, trivial, ⟨?_, fun _ => nofun⟩, result, rfl⟩
    intro other waits
    rw [blocked, List.mem_singleton] at waits
    subst waits
    decide
  obtain ⟨before, found, -⟩ := (bars _ step).descriptors 2 entry live named
    (by rw [owner, waits]; decide)
  cases free.symm.trans found

end Watched

end FileStorage
