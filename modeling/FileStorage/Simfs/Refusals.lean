import FileStorage.Simfs.LockStates

/-! # Opens and locks that are refused

Exactly when an open or a lock finds its file busy or has to wait for it.
-/

namespace FileStorage

open Program

variable {codec : Codec}

namespace FileSystem

def heldByOther (inode : Inode) (pid : Pid) : Bool :=
  0 < inode.isFileLocked ∧ inode.isFileLocked ≠ asInt pid

/-- A lock of the file that nobody has or requests has to wait for its readers. -/
def mustAwait (inode : Inode) (pid : Pid) : Bool :=
  !inode.hasPendingLocks && mustWait inode pid

/-- An open of this file is answered with EBUSY, or it waits. -/
def refusesOpen (inode : Inode) (flags : Nat) (pid : Pid) : Bool :=
  inode.isFileLocked ≠ -1 ∧ (heldByOther inode pid = true ∨
    if flags.testBit 1 then inode.isFileLocked ≠ asInt pid ∧ mustAwait inode pid = true
    else inode.hasPendingLocks = true)

/-- A lock of this file is answered with EBUSY, or it waits. -/
def refusesLock (inode : Inode) (pid : Pid) : Bool :=
  inode.isFileLocked ≠ -1 ∧
    (heldByOther inode pid = true ∨ inode.isFileLocked ≤ 0 ∧ mustAwait inode pid = true)

def openRefused (fs : FileSystem codec) (name : Filename) (flags : Nat) (pid : Pid) : Bool :=
  fs.fileDescriptorTable.1.size ≠ maxOpenFiles && !flags.testBit 0 &&
    (fs.file name).any (refusesOpen · flags pid)

def lockRefused (fs : FileSystem codec) (fd : Int) (pid : Pid) : Bool :=
  (fs.slot (toUnsigned32 fd)).any fun entry =>
    entry.owner = pid ∧ (fs.file entry.inode.name).any (refusesLock · pid)

/-- A call that either waits or fails with EBUSY, or does neither. -/
def Refuses {α : Type} (refused : Prop) (outcome : Outcome Errno Fault (FileSystem codec) (Progress α)) :
    Prop :=
  outcome.Post (fun progress _ => progress = .waiting ↔ refused)
    (fun code _ => code = .EBUSY ↔ refused) (fun _ => False)

variable {fs : FileSystem codec} {name : Filename} {pid : Pid} {now : Int} {inode : Inode}

theorem get_neverBusy (t : FileDescriptorTable) (fd : Nat) (pid : Pid) :
    t.get fd pid ≠ .error .EBUSY := by
  unfold FileDescriptorTable.get
  split
  · nofun
  · split <;> nofun

theorem openDescriptor_errors (fs : FileSystem codec) (name : Filename) (pid : Pid) (now : Int)
    (present : fs.file name = some inode) :
    (openDescriptor name pid now fs).Post (fun _ _ => True) (fun code _ => code ≠ .EBUSY)
      (fun _ => False) := by
  simp only [openDescriptor, post_bind, post_get, present, post_orFail, reduceCtorEq, false_implies,
    Option.some.injEq, forall_eq', true_and]
  refine post_ofExcept (fun added put => ?_) (fun code failed => ?_)
  · simp only [post_modify]
    exact post_changeFile (show _ = some inode from present) (fun _ _ => trivial)
      fun _ failed => by cases failed
  · unfold FileDescriptorTable.put at failed
    split at failed <;> cases failed
    decide

theorem openDescriptor_refuses {refused : Prop} (not : ¬ refused)
    (present : fs.file name = some inode) :
    Refuses refused ((openDescriptor name pid now >>= fun fd => pure (.done fd)) fs) := by
  unfold Refuses
  rw [post_bind]
  refine (openDescriptor_errors fs name pid now present).mono (fun fd fs' _ => ?_)
    (fun code fs' other => ?_) (fun _ h => h)
  · exact ⟨nofun, fun refused => absurd refused not⟩
  · exact ⟨fun busy => absurd busy other, fun refused => absurd refused not⟩

theorem grantLock_errors (present : fs.file name = some inode) :
    (grantLock name pid now fs).Post (fun _ fs' => ∃ inode, fs'.file name = some inode)
      (fun code _ => code ≠ .EBUSY) (fun _ => False) := by
  simp only [grantLock, post_bind]
  refine post_changeFile present (fun locked lock => ?_) (fun code failed => ?_)
  · have present' : (fs.updateFile name fun _ => locked).file name = some { locked with name } := by
      simp [present]
    refine post_changeFile present' (fun settled settle => ?_) (fun code failed => ?_)
    · simp [present]
    · unfold Inode.decreasePendingLocks at failed
      split at failed <;> cases failed
      nofun
  · unfold Inode.fileLock at failed
    split at failed
    · cases failed
    · split at failed <;> cases failed
      nofun

theorem rtsLockInode_refuses (present : fs.file name = some inode) (readable : inode.isFileLocked ≠ -1)
    (unlocked : inode.isFileLocked ≤ 0) (call : WaitingCall) :
    (rtsLockInode name pid call now fs).Post
      (fun progress fs' => (progress = .waiting ↔ mustAwait inode pid = true) ∧
        ∃ inode, fs'.file name = some inode)
      (fun code _ => code ≠ .EBUSY ∧ ¬ mustAwait inode pid = true) (fun _ => False) := by
  simp only [rtsLockInode, post_bind, rtsGetInode, post_failIf, post_get, present, post_orFail]
  refine ⟨fun empty => ?_, fun _ => ⟨fun absent => absurd absent (Option.some_ne_none _), ?_⟩⟩
  · subst empty
    cases present
  rintro other ⟨⟩
  refine ⟨fun pending => ⟨by decide, by simp [mustAwait, pending]⟩, fun free => ?_⟩
  have free : inode.hasPendingLocks = false := Bool.eq_false_iff.mpr free
  refine post_changeFile present (fun changed increase => ?_) (fun _ failed => by cases failed)
  obtain rfl := Except.ok.inj increase
  refine ⟨fun wrong => absurd wrong readable, fun _ => ⟨fun locked => absurd locked
    (not_lt.mpr unlocked), fun _ => ?_⟩⟩
  by_cases wait : mustWait inode pid = true
  · rw [if_pos wait]
    simp only [post_bind, post_modify, post_pure]
    refine ⟨by simp [mustAwait, free, wait], ?_⟩
    have kept : (fs.updateFile name fun _ => inode.increasePendingLocks now).file name =
        some { inode.increasePendingLocks now with name } := by simp [present]
    exact ⟨_, kept⟩
  · rw [if_neg wait, post_bind]
    have kept : (fs.updateFile name fun _ => inode.increasePendingLocks now).file name =
        some { inode.increasePendingLocks now with name } := by simp [present]
    refine (grantLock_errors kept).mono (fun _ fs' there => ?_) (fun code _ other => ?_) (fun _ h => h)
    · exact ⟨by simp [mustAwait, wait], there⟩
    · exact ⟨other, by simp [mustAwait, wait]⟩

theorem openExisting_refuses (present : fs.file name = some inode) (flags : Nat) :
    Refuses (refusesOpen inode flags pid = true) (openExisting name flags pid now fs) := by
  unfold Refuses
  simp only [openExisting, post_bind, rtsGetInode, post_failIf, post_get, present, post_orFail]
  refine ⟨fun empty => ?_, fun _ => ⟨fun absent => absurd absent (Option.some_ne_none _), ?_⟩⟩
  · subst empty
    cases present
  rintro other ⟨⟩
  refine ⟨fun wrong => ⟨fun busy => (by cases busy), by simp [refusesOpen, wrong]⟩,
    fun readable => ⟨fun held => ?_, fun access => ?_⟩⟩
  · simp [refusesOpen, readable, heldByOther, held]
  have other : heldByOther inode pid = false := by simpa [heldByOther] using access
  by_cases lock : flags.testBit 1 = true
  · rw [if_pos lock]
    by_cases own : inode.isFileLocked = asInt pid
    · rw [if_pos own]
      exact openDescriptor_refuses (by simp [refusesOpen, other, lock, own]) present
    · have unlocked : inode.isFileLocked ≤ 0 := not_lt.mp fun locked => access ⟨locked, own⟩
      have iff : refusesOpen inode flags pid = true ↔ mustAwait inode pid = true := by
        simp [refusesOpen, readable, other, lock, own]
      rw [if_neg own, post_bind, iff]
      refine (rtsLockInode_refuses present readable unlocked .open).mono ?_ ?_ (fun _ h => h)
      · rintro (_ | _) fs₁ ⟨waits, inode', present'⟩
        · exact openDescriptor_refuses (fun must => by cases waits.mpr must) present'
        · exact ⟨fun _ => waits.mp rfl, fun _ => rfl⟩
      · rintro code fs₁ ⟨notBusy, not⟩
        exact ⟨fun busy => absurd busy notBusy, fun must => absurd must not⟩
  · rw [if_neg lock, post_bind, post_failIf]
    have iff : refusesOpen inode flags pid = true ↔ inode.hasPendingLocks = true := by
      simp [refusesOpen, readable, other, lock]
    rw [iff]
    refine ⟨fun pending => ⟨fun _ => pending, fun _ => rfl⟩, fun free => ?_⟩
    exact openDescriptor_refuses free present

theorem rtsCreateInode_refuses (fs : FileSystem codec) (name : Filename) (flags : Nat) (pid : Pid)
    (now : Int) :
    (rtsCreateInode name now fs).Post
      (fun _ fs' => ∃ inode, fs'.file name = some inode ∧ refusesOpen inode flags pid = false)
      (fun code _ => code ≠ .EBUSY) (fun _ => False) := by
  simp only [rtsCreateInode, post_bind, post_get, post_failIf, fileTableSize, post_pure]
  have other : ∀ {code : Errno} {p : Prop}, code ≠ .EBUSY → p → code ≠ .EBUSY :=
    fun other _ => other
  refine ⟨other (by decide), fun _ => ⟨other (by decide), fun _ => ⟨other (by decide), fun _ =>
    ⟨other (by decide), fun _ => ⟨other (by decide), fun _ => ?_⟩⟩⟩⟩⟩
  refine post_ofExcept (fun fileTable created => ?_) (fun code failed => ?_)
  · simp only [post_modify]
    refine ⟨other (by decide), fun _ => ⟨.init name fs.created now, ?_, ?_⟩⟩
    · simp [file, FileTable.create_spec created]
    · simp [refusesOpen, Inode.init, heldByOther, Inode.isFileLocked, mustAwait, mustWait,
        Inode.hasRefs, Inode.hasPendingLocks]
  · unfold FileTable.create at failed
    split at failed
    · cases failed
      decide
    · split at failed <;> cases failed
      decide

theorem fileSystemOpen_refuses (fs : FileSystem codec) (name : Filename) (flags : Nat) (pid : Pid)
    (now : Int) :
    Refuses (fs.openRefused name flags pid = true) (fileSystemOpen name flags pid now fs) := by
  have mayNot : ∀ {code : Errno}, ¬ fs.openRefused name flags pid = true → code ≠ .EBUSY →
      (code = .EBUSY ↔ fs.openRefused name flags pid = true) :=
    fun not other => ⟨fun busy => absurd busy other, fun refused => absurd refused not⟩
  unfold Refuses
  rw [fileSystemOpen_eq]
  simp only [post_bind, openInode, post_failIf, post_get]
  refine ⟨fun empty => mayNot ?_ (by decide), fun _ => ⟨fun full => mayNot ?_ (by decide),
    fun room => ?_⟩⟩
  · simp [openRefused, empty, file_nil]
  · simp [openRefused, full]
  by_cases create : flags.testBit 0 = true
  · have not : ¬ fs.openRefused name flags pid = true := by simp [openRefused, create]
    rw [if_pos create]
    simp only [post_bind, post_failIf]
    refine ⟨fun _ => mayNot not (by decide), fun _ => ?_⟩
    refine (rtsCreateInode_refuses fs name flags pid now).mono ?_
      (fun _ _ other => mayNot not other) (fun _ h => h)
    rintro - fs₁ ⟨inode, present, free⟩
    have iff : fs.openRefused name flags pid = true ↔ refusesOpen inode flags pid = true := by
      rw [free]
      exact ⟨fun refused => absurd refused not, fun wrong => by cases wrong⟩
    rw [iff]
    exact openExisting_refuses present flags
  · rw [if_neg create]
    simp only [post_failIf]
    refine ⟨fun absent => mayNot ?_ (by decide), fun there => ?_⟩
    · simp [openRefused, absent]
    obtain ⟨inode, present⟩ := Option.ne_none_iff_exists'.mp there
    have iff : fs.openRefused name flags pid = true ↔ refusesOpen inode flags pid = true := by
      simp [openRefused, room, create, present]
    rw [iff]
    exact openExisting_refuses present flags

theorem fileSystemLock_refuses (fs : FileSystem codec) (fd : Int) (pid : Pid) (now : Int) :
    Refuses (fs.lockRefused fd pid = true) (fileSystemLock fd pid now fs) := by
  unfold Refuses
  simp only [fileSystemLock, rtsGetInodeByFd, post_bind, post_get]
  have mayNot : ∀ {code : Errno}, ¬ fs.lockRefused fd pid = true → code ≠ .EBUSY →
      (code = .EBUSY ↔ fs.lockRefused fd pid = true) :=
    fun not other => ⟨fun busy => absurd busy other, fun refused => absurd refused not⟩
  refine post_ofExcept (fun copy found => ?_) (fun code failed => ?_)
  · have live : fs.slot (toUnsigned32 fd) = some { owner := pid, inode := copy } :=
      FileDescriptorTable.get_eq_ok.mp found
    simp only [rtsGetInode, post_bind, post_failIf, post_get, post_orFail]
    refine ⟨fun empty => mayNot ?_ nofun, fun _ => ⟨fun absent => mayNot ?_ nofun, ?_⟩⟩
    · simp [lockRefused, live, empty, file_nil]
    · simp [lockRefused, live, absent]
    intro inode present
    have iff : fs.lockRefused fd pid = true ↔ refusesLock inode pid = true := by
      simp [lockRefused, live, present]
    simp only [iff]
    refine ⟨fun wrong => ?_, fun readable => ?_⟩
    · simp [refusesLock, wrong]
    by_cases locked : 0 < inode.isFileLocked
    · rw [if_pos locked, post_bind, post_failIf]
      refine ⟨fun other => ?_, fun own => ?_⟩
      · simp [refusesLock, readable, heldByOther, locked, other]
      · have not : ¬ refusesLock inode pid = true := by
          simp [refusesLock, heldByOther, not_not.mp own, not_not.mp own ▸ locked]
        exact ⟨nofun, fun refused => absurd refused not⟩
    · rw [if_neg locked]
      have unlocked := not_lt.mp locked
      have iff : refusesLock inode pid = true ↔ mustAwait inode pid = true := by
        simp [refusesLock, readable, heldByOther, locked, unlocked]
      simp only [iff]
      refine (rtsLockInode_refuses present readable unlocked .lock).mono ?_ ?_ (fun _ h => h)
      · exact fun _ _ waits => waits.1
      · rintro code fs₁ ⟨notBusy, not⟩
        exact ⟨fun busy => absurd busy notBusy, fun must => absurd must not⟩
  · have not : ¬ fs.lockRefused fd pid = true := by
      intro refused
      obtain ⟨⟨owner, copy⟩, live, rest⟩ := (Option.any_eq_true _ _).mp refused
      obtain ⟨rfl, -⟩ := of_decide_eq_true rest
      have found := FileDescriptorTable.get_eq_ok.mpr live
      rw [found] at failed
      cases failed
    exact mayNot not fun busy => get_neverBusy _ _ pid (busy ▸ failed)

/-! ## Reads and writes -/

abbrev NeverBusy {σ α : Type} (p : Program Errno Fault σ α) : Prop := Avoids Errno.EBUSY p

/-- The codes that reading, writing and flushing an inode fail with. -/
def inodeErrors : List Errno := [.EINVAL, .EPERM, .ENOMEM, .ENOENT, .bubbled]

theorem ne_of_foreign {code own : Errno} (foreign : code ∉ inodeErrors)
    (member : own ∈ inodeErrors) : own ≠ code := by
  rintro rfl
  exact foreign member

theorem ofExcept_avoids {α : Type} {code : Errno} {x : Except Errno α} (other : x ≠ .error code) :
    Avoids code (ofExcept x : Call codec α) := by
  cases x with
  | ok a => exact .pure a
  | error found => exact .throw fun same => other (same ▸ rfl)

theorem onFile_avoids {α : Type} {code : Errno} {name : Filename}
    {p : Program Errno Fault (InodeState codec) α} (avoids : Avoids code p) :
    Avoids code (onFile name p) := by
  refine .bind .get fun fs => ?_
  split
  · exact .fault _
  · exact .zoom avoids

theorem onSlot_avoids {α : Type} {code : Errno} {fd : Nat}
    {p : Program Errno Fault (InodeState codec) α} (avoids : Avoids code p) :
    Avoids code (onSlot fd p) := by
  refine .bind .get fun fs => ?_
  split
  · exact .fault _
  · exact .zoom avoids

section Foreign

variable {code : Errno} (foreign : code ∉ inodeErrors)
include foreign

theorem compress_avoids : Avoids code (InodeState.compress : Program _ _ (InodeState codec) _) := by
  refine .bind .get fun s => ?_
  split
  · exact .throw (ne_of_foreign foreign (by decide))
  · exact .fault _
  · split
    · exact .throw (ne_of_foreign foreign (by decide))
    · exact .modify _

theorem decompress_avoids :
    Avoids code (InodeState.decompress : Program _ _ (InodeState codec) _) := by
  refine .bind .get fun s => ?_
  split
  · exact .throw (ne_of_foreign foreign (by decide))
  · exact .fault _
  · split
    · exact .fault _
    · exact .modify _

theorem read_avoids (now : Int) :
    Avoids code (InodeState.read now : Program _ _ (InodeState codec) _) :=
  .bind (decompress_avoids foreign) fun _ => .bind .get fun _ => .bind (.modify _) fun _ =>
    .bind (compress_avoids foreign) fun _ => .pure _

theorem fflush_avoids (now : Int) :
    Avoids code (InodeState.fflush now : Program _ _ (InodeState codec) _) := by
  have append : Avoids code (InodeState.appendBuffer now : Program _ _ (InodeState codec) _) :=
    .bind .get fun _ => .bind (.failIf (ne_of_foreign foreign (by decide))) fun _ =>
      .bind (.modify _) fun _ => compress_avoids foreign
  exact .bind .get fun _ => .ite (.bind (decompress_avoids foreign) fun _ => append) append

theorem write_avoids (copy : Inode) (buf : Option (List UInt8)) (now : Int) :
    Avoids code (ofExcept (copy.write buf now) : Call codec Inode) := by
  unfold Inode.write
  split
  · exact .throw (ne_of_foreign foreign (by decide))
  · split
    · exact .throw (ne_of_foreign foreign (by decide))
    · split
      · exact .throw (ne_of_foreign foreign (by decide))
      · exact .pure _

theorem fileTableSize_avoids : Avoids code (fileTableSize : Call codec Int) :=
  .bind .get fun _ => .bind (.failIf (ne_of_foreign foreign (by decide))) fun _ => .pure _

theorem rtsFflushInode_avoids (fd : Nat) (now : Int) :
    Avoids code (rtsFflushInode fd now : Call codec Unit) := by
  have found : ∀ fs : FileSystem codec, Avoids code (orFail (fs.slot fd) .EINVAL : Call codec _) :=
    fun _ => .orFail (ne_of_foreign foreign (by decide))
  have bytes : ∀ copy, Avoids code (fileTableFflushBytes fd copy now : Call codec Unit) := fun _ =>
    .bind (onSlot_avoids (fflush_avoids foreign now)) fun _ => .bind .get fun fs =>
      .bind (found fs) fun _ => .modify _
  have flush : Avoids code (fileTableFflush fd now : Call codec Unit) := by
    refine .bind .get fun fs => .bind (found fs) fun _ =>
      .bind (.failIf (ne_of_foreign foreign (by decide))) fun _ => ?_
    refine .ite (.bind (bytes _) fun _ => ?_) ?_
    · exact .bind .get fun fs => .bind (found fs) fun _ => .modify _
    · exact .bind .get fun fs => .bind (found fs) fun _ => .modify _
  exact .bind .get fun fs => .bind (found fs) fun _ => .bind flush fun _ => .bind .get fun fs =>
    .bind (found fs) fun _ => .bind (.modify _) fun _ =>
      .bind (fileTableSize_avoids foreign) fun _ => .pure _

end Foreign

theorem rtsReadInode_neverBusy (name : Filename) (now : Int) :
    NeverBusy (rtsReadInode name now : Call codec _) :=
  .bind .get fun _ => .bind (.failIf nofun) fun _ => onFile_avoids (read_avoids (by decide) now)

theorem rtsRemoveInode_neverBusy (name : Filename) :
    NeverBusy (rtsRemoveInode name : Call codec Unit) := by
  have find : NeverBusy (rtsGetInode name : Call codec Inode) :=
    .bind (.failIf nofun) fun _ => .bind .get fun _ => .orFail nofun
  have destroy : ∀ inode, NeverBusy (destroyArtifact inode : Call codec Unit) := by
    intro inode
    refine .bind .get fun _ => ?_
    split
    · exact .pure _
    · exact .fault _
    · split
      · exact .fault _
      · exact .modify _
  have remove : NeverBusy (fileTableRemove name : Call codec Unit) :=
    .bind .get fun _ => .bind (.orFail nofun) fun _ => .bind (destroy _) fun _ =>
      .bind (.orFail nofun) fun _ => .modify _
  have counts : ∀ (monitor : Monitor) bytes, monitor.bytesRemoved bytes ≠ .error .EBUSY := by
    intro monitor bytes
    unfold Monitor.bytesRemoved
    split <;> nofun
  have files : ∀ monitor : Monitor, monitor.fileRemoved ≠ .error .EBUSY := by
    intro monitor
    unfold Monitor.fileRemoved
    split <;> nofun
  exact .bind find fun _ => .bind remove fun _ => .bind .get fun _ =>
    .bind (ofExcept_avoids (counts _ _)) fun _ => .bind (.modify _) fun _ =>
      .bind (ofExcept_avoids (files _)) fun _ => .bind (.modify _) fun _ =>
        .bind (fileTableSize_avoids (by decide)) fun _ => .pure _

theorem insertVictim_neverBusy (fs : FileSystem codec) (heap : MinHeap Inode) (name : Filename) :
    insertVictim fs heap name ≠ .error .EBUSY := by
  unfold insertVictim
  split
  · intro busy
    cases busy
  · rename_i inode _
    cases keyed : victimKey fs.replacementPolicy inode with
    | ok key =>
        simp only [Bind.bind, Except.bind]
        split <;> intro busy <;> cases busy
    | error code =>
        have invalid : code = .EINVAL := by
          unfold victimKey at keyed
          split at keyed <;> cases keyed
          rfl
        rw [invalid]
        intro busy
        cases busy

theorem buildVictimHeap_neverBusy (fs : FileSystem codec) (names : List Filename)
    (heap : MinHeap Inode) : names.foldlM (insertVictim fs) heap ≠ .error .EBUSY := by
  induction names generalizing heap with
  | nil => nofun
  | cons name names ih =>
      rw [List.foldlM_cons]
      cases inserted : insertVictim fs heap name with
      | ok heap' => exact ih heap'
      | error code =>
          have other := insertVictim_neverBusy fs heap name
          rw [inserted] at other
          exact other

theorem victim_neverBusy (fs : FileSystem codec) : victim fs ≠ .error .EBUSY := by
  unfold victim
  split
  · intro busy
    cases busy
  · have built := buildVictimHeap_neverBusy fs fs.fileTable.presenceList MinHeap.init
    rw [rtsBuildVictimHeap]
    cases all : fs.fileTable.presenceList.foldlM (insertVictim fs) MinHeap.init with
    | error code =>
        rw [all] at built
        intro failed
        exact built (congrArg Except.error (Except.error.inj failed))
    | ok heap =>
        simp only [Bind.bind, Except.bind]
        split <;> intro busy <;> cases busy

theorem makeRoom_neverBusy (finalCount now : Int) (bound : Nat) :
    NeverBusy (WriteState.makeRoom finalCount now bound : Program _ _ (WriteState codec) _) := by
  have evict : NeverBusy (WriteState.rtsEvict now : Program _ _ (WriteState codec) _) :=
    .bind (.zoom (.modify _)) fun _ => .bind .get fun s =>
      .bind (.zoom (ofExcept_avoids (victim_neverBusy s.fileSystem))) fun inode =>
        .bind (.zoom (rtsReadInode_neverBusy inode.name now)) fun _ => .bind (.modify _) fun _ =>
          .zoom (rtsRemoveInode_neverBusy inode.name)
  induction bound with
  | zero => exact .fault _
  | succ bound ih =>
      refine .bind .get fun s => .ite ?_ (.pure _)
      exact .bind (.failIf nofun) fun _ => .bind (.failIf nofun) fun _ => .bind evict fun _ => ih

/-- The copy at a descriptor is not locked by another pid than its owner. -/
def OwnCopy (v : View codec) (fd : Nat) (pid : Pid) : Prop :=
  ∀ s, v.slot fd = some s → s.owner = pid → ¬ (0 < asInt s.locked ∧ s.locked ≠ pid)

theorem OwnCopy.free {fs : FileSystem codec} {fd : Nat} {pid : Pid} {copy : Inode}
    (own : OwnCopy fs.view fd pid) (live : fs.slot fd = some { owner := pid, inode := copy }) :
    ¬ (0 < copy.isFileLocked ∧ copy.isFileLocked ≠ asInt pid) := by
  rw [Inode.isFileLocked, Ne, asInt_inj]
  exact own _ (view_slot live) rfl

theorem fileSystemRead_neverBusy (fs : FileSystem codec) (fd : Int) (pid : Pid) (now : Int)
    (own : OwnCopy fs.view (toUnsigned32 fd) pid) :
    (fileSystemRead fd pid now fs).Post (fun _ _ => True) (fun code _ => code ≠ .EBUSY)
      (fun _ => True) := by
  simp only [fileSystemRead, rtsGetInodeByFd, post_bind, post_get]
  refine post_ofExcept (fun copy found => ?_)
    (fun code failed busy => get_neverBusy _ _ pid (busy ▸ failed))
  have free := own.free (FileDescriptorTable.get_eq_ok.mp found)
  simp only [post_failIf]
  refine ⟨fun _ => by decide, fun _ => ⟨fun held => absurd held free, fun _ => ?_⟩⟩
  have rest : NeverBusy (rtsReadInode copy.name now >>= fun buf =>
      rtsFflushInode (toUnsigned32 fd) now >>= fun _ => pure buf : Call codec _) :=
    .bind (rtsReadInode_neverBusy copy.name now) fun _ =>
      .bind (rtsFflushInode_avoids (by decide) _ now) fun _ => .pure _
  simpa only [post_bind] using rest fs

theorem fileSystemWrite_neverBusy (s : WriteState codec) (fd : Int) (buf : Option (List UInt8))
    (pid : Pid) (now : Int) (own : OwnCopy s.fileSystem.view (toUnsigned32 fd) pid) :
    (fileSystemWrite fd buf pid now s).Post (fun _ _ => True) (fun code _ => code ≠ .EBUSY)
      (fun _ => True) := by
  simp only [fileSystemWrite, encodeBuffer, WriteState.onFileSystem, post_bind, post_zoom,
    post_orFail]
  refine ⟨fun _ => by decide, fun bytes _ => ?_⟩
  rw [post_ite]
  refine ⟨fun _ => trivial, fun _ => ?_⟩
  simp only [post_orFail, post_get, post_failIf]
  refine ⟨fun _ => by decide, fun artifact _ => ⟨fun _ => by decide, fun _ => ?_⟩⟩
  refine ((makeRoom_performs s _ now _).and (makeRoom_neverBusy _ now _ s)).mono ?_
    (fun _ _ fails => fails.2) (fun _ _ => trivial)
  rintro - s₁ ⟨⟨evs, evictions, evicted⟩, -⟩
  have slots := evictions.slot_eq evicted
  have own₁ : OwnCopy s₁.fileSystem.view (toUnsigned32 fd) pid := by
    intro slot live
    rw [slots] at live
    exact own slot live
  simp only [writeDescriptor, rtsGetInodeByFd, post_bind, post_get]
  refine post_ofExcept (fun copy found => ?_)
    (fun code failed busy => get_neverBusy _ _ pid (busy ▸ failed))
  have free := own₁.free (FileDescriptorTable.get_eq_ok.mp found)
  simp only [post_failIf]
  refine ⟨fun _ => by decide, fun _ => ⟨fun held => absurd held free, fun _ => ?_⟩⟩
  have rest : NeverBusy (ofExcept (copy.write buf now) >>= fun copy =>
      modify (fun fs => fs.updateSlot (toUnsigned32 fd) fun _ => copy) >>= fun _ =>
        rtsFflushInode (toUnsigned32 fd) now : Call codec _) :=
    .bind (write_avoids (by decide) copy buf now) fun _ => .bind (.modify _) fun _ =>
      rtsFflushInode_avoids (by decide) _ now
  simpa only [post_bind] using rest s₁.fileSystem

end FileSystem

open FileSystem

/-- No copy is locked by another pid than its owner. -/
def OwnCopies (v : View codec) : Prop :=
  ∀ fd s, v.slot fd = some s → ¬ (0 < asInt s.locked ∧ s.locked ≠ s.owner)

theorem OwnCopies.ownCopy {v : View codec} (own : OwnCopies v) (fd : Nat) (pid : Pid) :
    OwnCopy v fd pid := by
  rintro s live rfl
  exact own fd s live

theorem OwnCopies.apply {v : View codec} {a : Action codec} (own : OwnCopies v)
    (enabled : v.Enabled a) : OwnCopies (v.apply a) := by
  intro fd s live
  cases a with
  | attach fd' name pid =>
      obtain ⟨-, -, f, found, access⟩ := enabled
      by_cases same : fd = fd'
      · simp only [View.apply, found, same, Function.update_self, Option.map_some,
          Option.some.injEq] at live
        subst live
        exact access
      · simp only [View.apply, Function.update_of_ne same] at live
        exact own fd s live
  | close fd' => exact own fd s (View.slot_of_close live).2
  | store fd' bytes =>
      obtain ⟨t, before, rfl⟩ := View.slot_of_changeSlot live
      split <;> exact own fd t before
  | flush fd' new | tear fd' =>
      simp only [View.apply] at live
      split at live
      · exact own fd s live
      · rename_i t before
        by_cases same : fd = fd'
        · simp only [same, Function.update_self, Option.some.injEq] at live
          subst live
          exact own fd' t before
        · simp only [Function.update_of_ne same] at live
          exact own fd s live
  | forget pid | leave pid => exact own fd s (Option.filter_eq_some_iff.mp live).1
  | _ => exact own fd s live

theorem OwnCopies.call {fs fs' : FileSystem codec} {event : Event} (own : OwnCopies fs.view)
    (possible : event.Possible fs) (result : (event.call fs).state? = some fs') :
    OwnCopies fs'.view := by
  obtain ⟨acts, -, performs⟩ := Step.performed possible result
  clear result
  unfold FileSystem.Performs at performs
  generalize fs.view = v at own performs
  generalize fs'.view = w at performs ⊢
  induction performs with
  | nil => exact own
  | cons enabled _ ih => exact ih (own.apply enabled)

end FileStorage
