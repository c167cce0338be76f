import FileStorage.Simfs.Run

/-! # What most calls leave alone

Locks, references, descriptors and waiting threads change without any change to
what the files hold, how many there are and what has been counted. `Quiet` is this
frame; all calls that neither create, write, read nor remove a file stay within it.
-/

namespace FileStorage

open Program FileSystem

variable {codec : Codec}

/-- What stays of an inode when its locks, references and times change. -/
structure Charge where
  generation : Nat
  btime : Int
  size : Nat
  directPtr : DirectPtr

def Inode.charge (inode : Inode) : Charge :=
  ⟨inode.generation, inode.btime, inode.size, inode.directPtr⟩

theorem FileTable.count_update (t : FileTable) (name : Filename) (f : Inode → Inode) :
    (t.update name f).count = t.count := by
  unfold update
  split
  · rfl
  · rename_i inode present
    cases added : t.put name (f inode) with
    | none => rfl
    | some u =>
        unfold put at added
        split at added
        · cases added
        · obtain rfl := Option.some.inj added
          rfl

theorem FileTable.create_count {t t' : FileTable} {name : Filename} {generation : Nat} {now : Int}
    (created : t.create name generation now = .ok t') : t'.count = t.count + 1 := by
  unfold create at created
  split at created
  · cases created
  · split at created
    · cases created
    · rename_i added
      obtain rfl := Except.ok.inj created
      unfold put at added
      split at added
      · cases added
      · obtain rfl := Option.some.inj added
        rfl

namespace FileSystem

/-- The second state has the files, contents, counters and limits of the first one. -/
structure Quiet (fs fs' : FileSystem codec) : Prop where
  files : ∀ name, (fs'.file name).map Inode.charge = (fs.file name).map Inode.charge
  presenceList : fs'.fileTable.presenceList = fs.fileTable.presenceList
  count : fs'.fileTable.count = fs.fileTable.count
  size : fs'.fileTable.size = fs.fileTable.size
  memory : fs'.memory = fs.memory
  monitor : fs'.monitor = fs.monitor
  created : fs'.created = fs.created
  filesLimit : fs'.filesLimit = fs.filesLimit
  memoryLimit : fs'.memoryLimit = fs.memoryLimit
  replacementPolicy : fs'.replacementPolicy = fs.replacementPolicy

variable {fs fs' fs'' : FileSystem codec} {name : Filename}

namespace Quiet

theorem refl (fs : FileSystem codec) : Quiet fs fs :=
  ⟨fun _ => rfl, rfl, rfl, rfl, rfl, rfl, rfl, rfl, rfl, rfl⟩

theorem trans (first : Quiet fs fs') (second : Quiet fs' fs'') : Quiet fs fs'' where
  files name := (second.files name).trans (first.files name)
  presenceList := second.presenceList.trans first.presenceList
  count := second.count.trans first.count
  size := second.size.trans first.size
  memory := second.memory.trans first.memory
  monitor := second.monitor.trans first.monitor
  created := second.created.trans first.created
  filesLimit := second.filesLimit.trans first.filesLimit
  memoryLimit := second.memoryLimit.trans first.memoryLimit
  replacementPolicy := second.replacementPolicy.trans first.replacementPolicy

/-- A file of the second state was there with the same charge. -/
theorem file_of (quiet : Quiet fs fs') {inode' : Inode} (present : fs'.file name = some inode') :
    ∃ inode, fs.file name = some inode ∧ inode'.charge = inode.charge := by
  have same := quiet.files name
  rw [present, Option.map_some, eq_comm, Option.map_eq_some_iff] at same
  obtain ⟨inode, found, is⟩ := same
  exact ⟨inode, found, is.symm⟩

theorem symm (quiet : Quiet fs fs') : Quiet fs' fs where
  files name := (quiet.files name).symm
  presenceList := quiet.presenceList.symm
  count := quiet.count.symm
  size := quiet.size.symm
  memory := quiet.memory.symm
  monitor := quiet.monitor.symm
  created := quiet.created.symm
  filesLimit := quiet.filesLimit.symm
  memoryLimit := quiet.memoryLimit.symm
  replacementPolicy := quiet.replacementPolicy.symm

theorem updateFile {f : Inode → Inode}
    (keeps : ∀ inode, fs.file name = some inode → (f inode).charge = inode.charge) :
    Quiet fs (fs.updateFile name f) where
  files := by
    intro other
    rw [file_updateFile]
    split
    · rename_i same
      subst same
      cases present : fs.file other with
      | none => rfl
      | some inode => exact congrArg some (keeps inode present)
    · rfl
  presenceList := (FileTable.update_counters _ _ _).1
  count := FileTable.count_update _ _ _
  size := (FileTable.update_counters _ _ _).2
  memory := rfl
  monitor := rfl
  created := rfl
  filesLimit := rfl
  memoryLimit := rfl
  replacementPolicy := rfl

end Quiet

/-! ## Locks and references -/

/-- Only the lock, the references and the time of the last change may differ. -/
structure Managed (now : Int) (inode changed : Inode) : Prop where
  ctime : changed.ctime = inode.ctime ∨ changed.ctime = now
  rest : { changed with
    ctime := inode.ctime
    locked := inode.locked
    referenceCount := inode.referenceCount
    referenceList := inode.referenceList
    pendingLocks := inode.pendingLocks } = inode

theorem Managed.charge {now : Int} {inode changed : Inode} (managed : Managed now inode changed) :
    changed.charge = inode.charge := by
  rw [← managed.rest]
  rfl

theorem Managed.times {now : Int} {inode changed : Inode} (managed : Managed now inode changed) :
    changed.atime = inode.atime ∧ changed.mtime = inode.mtime := by
  rw [← managed.rest]
  exact ⟨rfl, rfl⟩

def Manages (now : Int) (f : Inode → Except Errno Inode) : Prop :=
  ∀ inode changed, f inode = .ok changed → Managed now inode changed

theorem manages_fileLock (pid : Pid) (now : Int) :
    Manages now fun inode => inode.fileLock pid now := by
  intro inode changed is
  simp only [Inode.fileLock] at is
  split at is
  · cases is
    exact ⟨.inl rfl, rfl⟩
  · split at is <;> cases is
    exact ⟨.inr rfl, rfl⟩

theorem manages_fileUnlock (pid : Pid) (now : Int) :
    Manages now fun inode => inode.fileUnlock pid now := by
  intro inode changed is
  simp only [Inode.fileUnlock] at is
  split at is
  · cases is
    exact ⟨.inl rfl, rfl⟩
  · split at is <;> cases is
    exact ⟨.inr rfl, rfl⟩

theorem manages_decreasePendingLocks (now : Int) :
    Manages now fun inode => inode.decreasePendingLocks now := by
  intro inode changed is
  simp only [Inode.decreasePendingLocks] at is
  split at is <;> cases is
  exact ⟨.inr rfl, rfl⟩

theorem manages_decreaseRefs (pid : Pid) (now : Int) :
    Manages now fun inode => inode.decreaseRefs pid now := by
  intro inode changed is
  simp only [Inode.decreaseRefs] at is
  split at is
  · cases is
  · split at is <;> cases is
    exact ⟨.inr rfl, rfl⟩

theorem manages_increasePendingLocks (now : Int) :
    Manages now fun inode => .ok (inode.increasePendingLocks now) := by
  rintro inode _ ⟨⟩
  exact ⟨.inr rfl, rfl⟩

theorem manages_increaseRefs (pid : Pid) (now : Int) :
    Manages now fun inode => .ok (inode.increaseRefs pid now) := by
  rintro inode _ ⟨⟩
  exact ⟨.inr rfl, rfl⟩

/-- A descriptor that is not one of the first state has a fresh copy of a file. -/
def Draws (now : Int) (fs fs' : FileSystem codec) : Prop :=
  ∀ fd entry, fs'.slot fd = some entry → fs.slot fd = some entry ∨
    ∃ name inode, fs.file name = some inode ∧ entry.inode = inode.copy now

/-- `I` outlives all that the calls do to locks, references, descriptors and waiting
    threads at the time `now`. -/
structure Withstands (now : Int) (I : FileSystem codec → Prop) : Prop where
  inode : ∀ {fs : FileSystem codec} {name inode changed}, I fs → fs.file name = some inode →
    Managed now inode changed → I (fs.updateFile name fun _ => changed)
  descriptors : ∀ {fs : FileSystem codec} {table}, I fs →
    Draws now fs { fs with fileDescriptorTable := table } →
      I { fs with fileDescriptorTable := table }
  blocked : ∀ {fs : FileSystem codec} {waiters}, I fs → I { fs with blocked := waiters }

/-! ## Calls that look at the state -/

section Keeps

variable {I : FileSystem codec → Prop}

theorem keeps_ofExcept {α : Type} (x : Except Errno α) : Keeps I (ofExcept x : Call codec α) := by
  cases x with
  | ok a => exact .pure a
  | error code => exact .throw code

theorem keeps_fileTableSize : Keeps I (fileTableSize : Call codec Int) :=
  .bind .get fun _ => .bind (.failIf _ _) fun _ => .pure _

theorem keeps_rtsGetInode (name : Filename) : Keeps I (rtsGetInode name : Call codec Inode) :=
  .bind (.failIf _ _) fun _ => .bind .get fun _ => .orFail _ _

theorem keeps_rtsGetInodeByFd (fd : Int) (pid : Pid) :
    Keeps I (rtsGetInodeByFd fd pid : Call codec Inode) :=
  .bind .get fun _ => keeps_ofExcept _

theorem keeps_rtsCreateInode {name : Filename} {now : Int}
    (create : ∀ fs table, I fs → fs.fileTable.create name fs.created now = .ok table →
      I { fs with fileTable := table, created := fs.created + 1 })
    (count : ∀ fs : FileSystem codec, I fs → I { fs with monitor := fs.monitor.fileAdded }) :
    Keeps I (rtsCreateInode name now : Call codec Unit) := by
  intro fs kept
  simp only [rtsCreateInode, fileTableSize, post_bind, post_failIf, post_get, post_pure,
    post_modify]
  refine ⟨fun _ => kept, fun _ => ⟨fun _ => kept, fun _ => ⟨fun _ => kept, fun _ =>
    ⟨fun _ => kept, fun _ => ⟨fun _ => kept, fun _ => ?_⟩⟩⟩⟩⟩
  refine post_ofExcept (fun table created => ?_) (fun _ _ => kept)
  have made := create fs table kept created
  exact ⟨fun _ => made, fun _ => count _ made⟩

end Keeps

/-! ## Calls that handle locks and descriptors -/

namespace Withstands

variable {now : Int} {I : FileSystem codec → Prop}

theorem changeFile (withstands : Withstands now I) {f : Inode → Except Errno Inode}
    (manages : Manages now f) (name : Filename) :
    Keeps I (changeFile name f : Call codec Unit) := by
  intro fs kept
  cases present : fs.file name with
  | none => simp only [FileSystem.changeFile, post_bind, post_get, present, post_fault]
  | some inode =>
      refine post_changeFile present (fun changed is => ?_) (fun _ _ => kept)
      exact withstands.inode kept present (manages inode changed is)

theorem grantLock (withstands : Withstands now I) (name : Filename) (pid : Pid) :
    Keeps I (grantLock name pid now : Call codec Unit) :=
  .bind (withstands.changeFile (manages_fileLock pid now) name) fun _ =>
    withstands.changeFile (manages_decreasePendingLocks now) name

theorem rtsLockInode (withstands : Withstands now I) (name : Filename) (pid : Pid) (call : WaitingCall) :
    Keeps I (rtsLockInode name pid call now : Call codec (Progress Unit)) :=
  .bind (keeps_rtsGetInode name) fun _ => .bind (.failIf _ _) fun _ =>
    .bind (withstands.changeFile (manages_increasePendingLocks now) name) fun _ =>
      .bind (.failIf _ _) fun _ => .bind (.failIf _ _) fun _ =>
        .ite (.bind (.modify fun _ => withstands.blocked) fun _ => .pure _)
          (.bind (withstands.grantLock name pid) fun _ => .pure _)

theorem openDescriptor (withstands : Withstands now I) (name : Filename) (pid : Pid) :
    Keeps I (openDescriptor name pid now : Call codec Nat) := by
  intro fs kept
  simp only [FileSystem.openDescriptor, post_bind, post_get, post_orFail]
  refine ⟨fun _ => kept, fun inode present => ?_⟩
  refine post_ofExcept (fun put added => ?_) (fun _ _ => kept)
  obtain ⟨fd, table⟩ := put
  have refers : Keeps I (FileSystem.changeFile name fun inode => .ok (inode.increaseRefs pid now)) :=
    withstands.changeFile (manages_increaseRefs pid now) name
  refine refers _ (withstands.descriptors kept ?_)
  intro other entry live
  split at live
  · change table.slot other = some entry at live
    rw [(FileDescriptorTable.put_spec added).2.2] at live
    split at live
    · cases live
      exact .inr ⟨name, inode, present, rfl⟩
    · exact .inl live
  · exact .inl live

theorem openExisting (withstands : Withstands now I) (name : Filename) (flags : Nat) (pid : Pid) :
    Keeps I (openExisting name flags pid now : Call codec (Progress Nat)) := by
  have attach : Keeps I (do
      let fd ← FileSystem.openDescriptor name pid now
      pure (.done fd) : Call codec (Progress Nat)) :=
    .bind (withstands.openDescriptor name pid) fun _ => .pure _
  refine .bind (keeps_rtsGetInode name) fun _ => .bind (.failIf _ _) fun _ =>
    .bind (.failIf _ _) fun _ => .ite (.ite attach ?_) (.bind (.failIf _ _) fun _ => attach)
  refine .bind (withstands.rtsLockInode name pid .open) fun progress => ?_
  cases progress with
  | waiting => exact .pure _
  | done => exact attach

theorem fileSystemOpen (withstands : Withstands now I) {name : Filename}
    (creates : Keeps I (rtsCreateInode name now : Call codec Unit)) (flags : Nat) (pid : Pid) :
    Keeps I (fileSystemOpen name flags pid now : Call codec (Progress Nat)) := by
  rw [fileSystemOpen_eq]
  refine .bind ?_ fun _ => withstands.openExisting name flags pid
  exact .bind (.failIf _ _) fun _ => .bind .get fun _ => .bind (.failIf _ _) fun _ =>
    .ite (.bind (.failIf _ _) fun _ => creates) (.failIf _ _)

theorem fileSystemClose (withstands : Withstands now I) (fd : Int) (pid : Pid) :
    Keeps I (fileSystemClose fd pid now : Call codec Unit) := by
  refine .bind (keeps_rtsGetInodeByFd fd pid) fun copy fs kept => ?_
  rw [post_bind, post_get, post_bind]
  refine post_ofExcept (fun table removed => ?_) (fun _ _ => kept)
  have leaves : Keeps I (do
      failIf (copy.name = []) .EINVAL
      let fs ← get
      if fs.file copy.name ≠ none then
        FileSystem.changeFile copy.name fun inode => inode.decreaseRefs pid now : Call codec Unit) :=
    .bind (.failIf _ _) fun _ => .bind .get fun _ =>
      .ite (withstands.changeFile (manages_decreaseRefs pid now) copy.name) (.pure _)
  refine leaves _ (withstands.descriptors kept fun other entry live => .inl ?_)
  split at live
  · exact FileDescriptorTable.slot_of_remove removed live
  · exact live

theorem fileSystemLock (withstands : Withstands now I) (fd : Int) (pid : Pid) :
    Keeps I (fileSystemLock fd pid now : Call codec (Progress Unit)) :=
  .bind (keeps_rtsGetInodeByFd fd pid) fun copy => .bind (keeps_rtsGetInode copy.name) fun _ =>
    .bind (.failIf _ _) fun _ => .ite (.bind (.failIf _ _) fun _ => .pure _)
      (withstands.rtsLockInode copy.name pid .lock)

theorem fileSystemUnlock (withstands : Withstands now I) (fd : Int) (pid : Pid) :
    Keeps I (fileSystemUnlock fd pid now : Call codec Unit) :=
  .bind (keeps_rtsGetInodeByFd fd pid) fun copy => .bind (keeps_rtsGetInode copy.name) fun _ =>
    .bind (.failIf _ _) fun _ => .bind (.failIf _ _) fun _ => .bind (.failIf _ _) fun _ =>
      withstands.changeFile (manages_fileUnlock pid now) copy.name

theorem decreaseRefsTimes (withstands : Withstands now I) (name : Filename) (pid : Pid) (times : Nat) :
    Keeps I (decreaseRefsTimes name pid now times : Call codec Unit) := by
  induction times with
  | zero => exact .pure ()
  | succ times ih =>
      exact .bind (withstands.changeFile (manages_decreaseRefs pid now) name) fun _ => ih

theorem leaveFile (withstands : Withstands now I) (pid : Pid) (name : Filename) :
    Keeps I (leaveFile pid now name : Call codec Unit) :=
  .bind (keeps_rtsGetInode name) fun _ => .bind .get fun _ =>
    .bind (withstands.decreaseRefsTimes name pid _) fun _ => .bind (keeps_rtsGetInode name) fun _ =>
      .ite (withstands.changeFile (manages_fileUnlock pid now) name) (.pure _)

theorem leaveFiles (withstands : Withstands now I) (pid : Pid) (names : List Filename) :
    Keeps I (leaveFiles pid now names : Call codec Unit) := by
  induction names with
  | nil => exact .pure ()
  | cons name names ih => exact .bind (withstands.leaveFile pid name) fun _ => ih

theorem fileSystemRemoveSession (withstands : Withstands now I) (pid : Pid) :
    Keeps I (fileSystemRemoveSession pid now : Call codec Unit) := by
  refine .bind .get fun _ => .bind (.failIf _ _) fun _ => .bind (withstands.leaveFiles pid _) fun _ =>
    .modify fun fs kept => withstands.descriptors kept fun fd entry live => .inl ?_
  have filtered := (fs.fileDescriptorTable.1.removePid_spec pid).2 fd
  exact (Option.filter_eq_some_iff.mp (filtered.symm.trans live)).1

theorem wakeUp (withstands : Withstands now I) (waiter : Waiter) :
    Keeps I (wakeUp waiter now : Call codec (Progress (Option Nat))) := by
  refine .bind .get fun fs => ?_
  cases fs.file waiter.name with
  | none => exact .fault _
  | some inode =>
      refine .ite (.fault _) (.ite (.pure _) ?_)
      refine .bind (.modify fun _ => withstands.blocked) fun _ =>
        .bind (withstands.grantLock waiter.name waiter.pid) fun _ => ?_
      cases waiter.call with
      | lock => exact .pure _
      | «open» => exact .bind (withstands.openDescriptor waiter.name waiter.pid) fun _ => .pure _

end Withstands

theorem Quiet.withstands (origin : FileSystem codec) (now : Int) : Withstands now (Quiet origin) where
  inode := by
    intro fs name inode changed quiet present managed
    refine quiet.trans (.updateFile fun other found => ?_)
    obtain rfl := Option.some.inj (present.symm.trans found)
    exact managed.charge
  descriptors quiet _ := quiet.trans ⟨fun _ => rfl, rfl, rfl, rfl, rfl, rfl, rfl, rfl, rfl, rfl⟩
  blocked quiet := quiet.trans ⟨fun _ => rfl, rfl, rfl, rfl, rfl, rfl, rfl, rfl, rfl, rfl⟩

/-! ## New files -/

def withFile (fs : FileSystem codec) (table : FileTable) : FileSystem codec :=
  { fs with fileTable := table, created := fs.created + 1, monitor := fs.monitor.fileAdded }

theorem rtsCreateInode_exact (fs : FileSystem codec) (name : Filename) (now : Int) :
    (rtsCreateInode name now fs).Post
      (fun _ fs' => ∃ table, fs.fileTable.create name fs.created now = .ok table ∧
        fs.fileTable.count ≠ fs.filesLimit ∧ fs' = fs.withFile table)
      (fun _ fs' => fs' = fs ∨ fs.fileTable.count = -2) (fun _ => False) := by
  simp only [rtsCreateInode, fileTableSize, post_bind, post_failIf, post_get, post_pure,
    post_modify]
  refine ⟨fun _ => .inl trivial, fun _ => ⟨fun _ => .inl trivial, fun _ => ⟨fun _ => .inl trivial,
    fun below => ⟨fun _ => .inl trivial, fun _ => ⟨fun _ => .inl trivial, fun _ => ?_⟩⟩⟩⟩⟩
  refine post_ofExcept (fun table created => ?_) (fun _ _ => .inl rfl)
  have count := FileTable.create_count created
  refine ⟨fun error => .inr (by omega), fun _ => ⟨table, created, below, rfl⟩⟩

end FileSystem

/-! ## The steps -/

namespace Event

variable {fs fs' : FileSystem codec} {event : Event}

def quiet : Event → Bool
  | .open .. | .write .. | .read .. | .remove .. => false
  | _ => true

/-- The time of a step; the removal of a file has none. -/
def time : Event → Option Int
  | .open _ _ _ now | .write _ _ _ now | .read _ _ now | .close _ _ now | .lock _ _ now
  | .unlock _ _ now | .removeSession _ now | .wake _ now => some now
  | .remove .. => none

/-- What is withstood outlives the quiet steps. -/
theorem withstands_call {now : Int} {I : FileSystem codec → Prop} (withstands : Withstands now I)
    (is : event.quiet = true) (timed : event.time = some now) (kept : I fs)
    (result : (event.call fs).state? = some fs') : I fs' := by
  refine Outcome.Post.of_state (F := fun _ => True) ?_ result
  cases event with
  | «open» | write | read | remove => cases is
  | close fd pid =>
      cases timed
      exact post_of_actions (fun _ => ⟨_, rfl⟩) (withstands.fileSystemClose fd pid fs kept)
  | lock fd pid =>
      cases timed
      exact post_of_actions (by rintro (_ | _) <;> exact ⟨_, rfl⟩)
        (withstands.fileSystemLock fd pid fs kept)
  | unlock fd pid =>
      cases timed
      exact post_of_actions (fun _ => ⟨_, rfl⟩) (withstands.fileSystemUnlock fd pid fs kept)
  | removeSession pid =>
      cases timed
      exact post_of_actions (fun _ => ⟨_, rfl⟩) (withstands.fileSystemRemoveSession pid fs kept)
  | wake waiter =>
      cases timed
      exact post_of_actions (by rintro ((_ | _) | _) <;> exact ⟨_, rfl⟩)
        (withstands.wakeUp waiter fs kept)

theorem time_of_quiet (is : event.quiet = true) : ∃ now, event.time = some now := by
  cases event with
  | «open» | write | read | remove => cases is
  | _ => exact ⟨_, rfl⟩

theorem quiet_call (is : event.quiet = true) (result : (event.call fs).state? = some fs') :
    Quiet fs fs' := by
  obtain ⟨now, timed⟩ := time_of_quiet is
  exact withstands_call (Quiet.withstands fs now) is timed (.refl fs) result

theorem open_call {name : Filename} {flags : Nat} {pid : Pid} {now : Int}
    (result : ((Event.open name flags pid now).call fs).state? = some fs') :
    Quiet fs fs' ∨ fs.fileTable.count = -2 ∨
      ∃ table, fs.fileTable.create name fs.created now = .ok table ∧
        fs.fileTable.count ≠ fs.filesLimit ∧ Quiet (fs.withFile table) fs' := by
  refine Outcome.Post.of_state (I := fun fs' => Quiet fs fs' ∨ fs.fileTable.count = -2 ∨
    ∃ table, fs.fileTable.create name fs.created now = .ok table ∧
      fs.fileTable.count ≠ fs.filesLimit ∧ Quiet (fs.withFile table) fs') (F := fun _ => True) ?_
    result
  refine post_of_actions (by rintro (_ | _) <;> exact ⟨_, rfl⟩) ?_
  have same : Quiet fs fs := .refl fs
  rw [fileSystemOpen_eq]
  simp only [openInode, post_bind, post_failIf, post_get]
  refine ⟨fun _ => .inl same, fun _ => ⟨fun _ => .inl same, fun _ => ?_⟩⟩
  rw [post_ite]
  refine ⟨fun _ => ?_, fun _ => ?_⟩
  · rw [post_bind, post_failIf]
    refine ⟨fun _ => .inl same, fun _ => ?_⟩
    refine (rtsCreateInode_exact fs name now).mono ?_ ?_ (fun _ h => h.elim)
    · rintro - fs₁ ⟨table, created, below, rfl⟩
      refine ((Quiet.withstands _ now).openExisting name flags pid _ (.refl _)).mono ?_ ?_
        (fun _ _ => trivial)
      · exact fun _ fs' quiet => .inr (.inr ⟨table, created, below, quiet⟩)
      · exact fun _ fs' quiet => .inr (.inr ⟨table, created, below, quiet⟩)
    · rintro - fs₁ (rfl | error)
      · exact .inl same
      · exact .inr (.inl error)
  · rw [post_failIf]
    refine ⟨fun _ => .inl same, fun _ => ?_⟩
    exact ((Quiet.withstands fs now).openExisting name flags pid fs same).mono (fun _ _ quiet => .inl quiet)
      (fun _ _ quiet => .inl quiet) (fun _ _ => trivial)

end Event

end FileStorage
