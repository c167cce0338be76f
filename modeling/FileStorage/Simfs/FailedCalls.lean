import FileStorage.Simfs.FirstFit
import FileStorage.Simfs.Regular

/-! # Failed calls

A call that is not a write and fails has mostly done nothing yet. `Slips` lists the
states from which one fails after a change: a lock request is counted before the lock
turns out to be held, a descriptor is closed before its reference is missed, a file is
removed before the monitor refuses, and a read that has made its artifact anew ends
with a flush that fails. A call that has waited gives back the state in which it wakes
up, less its own pending lock.
-/

namespace FileStorage

open Program FileSystem

variable {codec : Codec}

def Entry.timeless (entry : Entry) : Entry :=
  { entry with inode := { entry.inode with btime := 0, mtime := 0, atime := 0, ctime := 0 } }

namespace FileSystem

/-- The stored files, the descriptors and the counters of the monitor are as before. -/
structure Untouched (fs fs' : FileSystem codec) : Prop where
  files : ∀ name, fs'.stored name = fs.stored name
  slots : ∀ fd, (fs'.slot fd).map Entry.timeless = (fs.slot fd).map Entry.timeless
  fileCounter : fs'.monitor.fileCounter = fs.monitor.fileCounter
  bytesCounter : fs'.monitor.bytesCounter = fs.monitor.bytesCounter

def withdrawn (fs : FileSystem codec) (name : Filename) : FileSystem codec :=
  fs.updateFile name fun inode => { inode with pendingLocks := inode.pendingLocks - 1 }

/-- A lock request is counted and then finds that the lock is held: its owner is a
    negative number, which is not seen before. -/
def Stalls (fs : FileSystem codec) (name : Filename) (pid : Pid) : Prop :=
  ∃ inode, fs.file name = some inode ∧ inode.pendingLocks = 0 ∧ inode.isFileLocked < -1 ∧
    inode.locked ≠ pid ∧ mustWait inode pid = false

/-- The file is charged with another size than its content compresses to, or its content
    does not come back. -/
def Recharged (inode : Inode) (old new : codec.Artifact) : Prop :=
  codec.decode new ≠ codec.decode old ∨ toUnsigned32 (codec.size new) ≠ toUnsigned32 inode.size

def FlushFails (fs : FileSystem codec) (copy : Inode) : Prop :=
  copy.buffer = [] ∧ Oversized fs ∨ copy.buffer ≠ [] ∧ Unfit fs copy

/-- A flush that fails changes the copy unless it is found too large at once. -/
def Spends (copy : Inode) : Prop :=
  copy.buffer ≠ [] ∧ ¬ (copy.directPtr = .null ∧ 2 ^ 31 ≤ copy.size + copy.buffer.length)

/-- A read finds a content that decodes to nothing, or cannot flush the copy after it
    has read the file. -/
def ReadSlips (fs : FileSystem codec) (fd : Nat) (pid : Pid) (now : Int) : Prop :=
  ∃ copy inode old, fs.slot fd = some { owner := pid, inode := copy } ∧ ¬ ShutOut copy pid ∧
    fs.file copy.name = some inode ∧ Memory.at? fs.memory inode.directPtr = some old ∧
    (codec.decode old = [] ∨ ∃ new, codec.decode old ≠ [] ∧
      codec.encode (codec.decode old) = some new ∧ FlushFails (fs.reread inode new now) copy ∧
      (Recharged inode old new ∨ Spends copy))

/-- The pid has a descriptor of a file that does not count it. -/
def CloseSlips (fs : FileSystem codec) (fd : Nat) (pid : Pid) : Prop :=
  ∃ copy inode, fs.slot fd = some { owner := pid, inode := copy } ∧
    fs.file copy.name = some inode ∧ (inode.referenceCount = 0 ∨ pid ∉ inode.referenceList)

/-- The pid can remove the file, but the counters do not let it go. -/
def RemoveSlips (fs : FileSystem codec) (name : Filename) (pid : Pid) : Prop :=
  ∃ inode, fs.file name = some inode ∧ Removable inode pid ∧ ¬ Dangling fs inode ∧
    ¬ Counted fs inode.size

/-- The waiting thread has not got the lock yet, and cannot take it or has no room for
    a descriptor. -/
def WakeSlips (fs : FileSystem codec) (waiter : Waiter) : Prop :=
  ∃ inode, fs.file waiter.name = some inode ∧ inode.generation = waiter.generation ∧
    mustWait inode waiter.pid = false ∧ inode.locked ≠ waiter.pid ∧
    (inode.locked ≠ 0 ∧ inode.pendingLocks ≠ 0 ∨ inode.locked = 0 ∧ (inode.pendingLocks = 0 ∨
      waiter.call = .open ∧ fs.fileDescriptorTable.1.size = maxOpenFiles))

end FileSystem

namespace Event

/-- The calls that work on one file and do not write. -/
def single : Event → Bool
  | .write .. | .removeSession .. => false
  | _ => true

def before (fs : FileSystem codec) : Event → FileSystem codec
  | .wake waiter _ => fs.withdrawn waiter.name
  | _ => fs

/-- The call fails after a change. -/
def Slips (fs : FileSystem codec) : Event → Prop
  | .open name flags pid _ => flags.testBit 0 = false ∧ flags.testBit 1 = true ∧
      fs.fileDescriptorTable.1.size ≠ maxOpenFiles ∧ Stalls fs name pid
  | .read fd pid now => ReadSlips fs (toUnsigned32 fd) pid now
  | .close fd pid _ => CloseSlips fs (toUnsigned32 fd) pid
  | .remove name pid => RemoveSlips fs name pid
  | .lock fd pid _ => ∃ copy, fs.slot (toUnsigned32 fd) = some { owner := pid, inode := copy } ∧
      Stalls fs copy.name pid
  | .wake waiter _ => WakeSlips fs waiter
  | .write .. | .unlock .. | .removeSession .. => False

end Event

namespace FileSystem

variable {fs fs' : FileSystem codec} {name : Filename} {inode : Inode} {pid : Pid} {now : Int}

/-! ## What is untouched -/

theorem Untouched.refl (fs : FileSystem codec) : Untouched fs fs :=
  ⟨fun _ => rfl, fun _ => rfl, rfl, rfl⟩

theorem stored_eq (present : fs.file name = some inode) : fs.stored name = some {
    content := (Memory.at? fs.memory inode.directPtr).map codec.decode
    size := toUnsigned32 inode.size
    locked := inode.locked
    pendingLocks := inode.pendingLocks
    referenceCount := inode.referenceCount
    referenceList := inode.referenceList } := by
  rw [stored, present, Option.map_some]

theorem not_untouched_of_file {seen seen' : Stored} (before : fs.stored name = some seen)
    (after : fs'.stored name = some seen') (differ : seen' ≠ seen) : ¬ Untouched fs fs' := by
  intro same
  have equal := same.files name
  rw [before, after] at equal
  exact differ (Option.some.inj equal)

theorem not_untouched_of_gone (present : fs.file name = some inode) (gone : fs'.file name = none) :
    ¬ Untouched fs fs' := by
  intro same
  have equal := same.files name
  rw [stored_eq present, stored, gone] at equal
  cases equal

/-! ## Open and lock -/

/-- The file with the name is the given one now, and the others are as before. -/
def Puts (fs : FileSystem codec) (name : Filename) (changed : Inode) (fs' : FileSystem codec) :
    Prop :=
  ∀ other, fs'.file other = if other = name then some changed else fs.file other

theorem Puts.trans {fs₁ : FileSystem codec} {first second : Inode} (before : Puts fs name first fs₁)
    (after : Puts fs₁ name second fs') : Puts fs name second fs' := by
  intro other
  rw [after]
  split
  · rfl
  · rename_i different
    rw [before, if_neg different]

theorem puts_updateFile (present : fs.file name = some inode) (changed : Inode) :
    Puts fs name { changed with name } (fs.updateFile name fun _ => changed) := by
  intro other
  rw [file_updateFile, present, Option.map_some]

/-- The same file after it has been used at `now` and has got some references. -/
structure Used (now : Int) (counted : Nat) (inode changed : Inode) : Prop where
  generation : changed.generation = inode.generation
  btime : changed.btime = inode.btime
  ctime : changed.ctime = now
  references : changed.referenceCount = inode.referenceCount + counted

theorem Used.trans {counted more : Nat} {first second : Inode} (before : Used now counted inode first)
    (after : Used now more first second) : Used now (counted + more) inode second where
  generation := after.generation.trans before.generation
  btime := after.btime.trans before.btime
  ctime := after.ctime
  references := by rw [after.references, before.references, Nat.add_assoc]

theorem openDescriptor_fails (present : fs.file name = some inode) (pid : Pid) (now : Int) :
    (openDescriptor name pid now fs).Post
      (fun _ fs' => fs.fileDescriptorTable.1.size ≠ maxOpenFiles ∧
        ∃ changed, Puts fs name changed fs' ∧ Used now 1 inode changed)
      (fun _ fs' => fs.fileDescriptorTable.1.size = maxOpenFiles ∧ fs' = fs) (fun _ => False) := by
  simp only [openDescriptor, post_bind, post_get, present, post_orFail, reduceCtorEq, false_implies,
    Option.some.injEq, forall_eq', true_and]
  have room := FileDescriptorTable.put_ok_iff fs.fileDescriptorTable.1 inode pid now
  have limit := fs.fileDescriptorTable.2
  refine post_ofExcept (fun added put => ?_) (fun code failed => ?_)
  · have below := room.mp ⟨added, put⟩
    have free : fs.fileDescriptorTable.1.size ≠ maxOpenFiles := by omega
    obtain ⟨fd, table⟩ := added
    simp only [post_modify]
    refine post_changeFile (show _ = some inode from present) (fun changed is => ?_)
      (fun _ failed => by cases failed)
    obtain rfl := Except.ok.inj is
    exact ⟨free, _, puts_updateFile present _, rfl, rfl, rfl, rfl⟩
  · refine ⟨?_, rfl⟩
    have within := fs.fileDescriptorTable.1.size_le_limit
    by_contra free
    obtain ⟨result, added⟩ := room.mpr (by omega)
    cases added.symm.trans failed

/-- The lock is taken and the request settled, or the lock is not to be had, or no request
    is pending. -/
theorem grantLock_fails (present : fs.file name = some inode) (pid : Pid) (now : Int) :
    (grantLock name pid now fs).Post
      (fun _ fs' => (inode.locked = 0 ∨ inode.locked = pid) ∧ inode.pendingLocks ≠ 0 ∧
        fs'.fileDescriptorTable = fs.fileDescriptorTable ∧ fs'.monitor = fs.monitor ∧
        fs'.memory = fs.memory ∧ ∀ other, fs'.file other = if other = name then
          some { inode with locked := pid, pendingLocks := inode.pendingLocks - 1, ctime := now }
          else fs.file other)
      (fun _ fs' => inode.locked ≠ 0 ∧ inode.locked ≠ pid ∧ fs' = fs ∨
        (inode.locked = 0 ∨ inode.locked = pid) ∧ inode.pendingLocks = 0 ∧
          ∃ granted, fs' = fs.updateFile name (fun _ => granted) ∧
            inode.fileLock pid now = .ok granted)
      (fun _ => False) := by
  have named : inode.name = name := fs.fileTable.named name inode present
  simp only [grantLock, post_bind]
  refine post_changeFile present (fun locked lock => ?_) (fun code failed => ?_)
  · obtain ⟨free, ctime, rfl⟩ : (inode.locked = 0 ∨ inode.locked = pid) ∧
        ∃ ctime, { inode with locked := pid, ctime } = locked := by
      unfold Inode.fileLock at lock
      split at lock
      · rename_i own
        cases lock
        exact ⟨.inr own, inode.ctime, by rw [← own]⟩
      · split at lock
        · cases lock
        · rename_i free
          cases lock
          exact ⟨.inl (not_not.mp free), now, rfl⟩
    have present' : (fs.updateFile name fun _ => { inode with locked := pid, ctime }).file name =
        some { inode with locked := pid, ctime } := by
      simp [present, named]
    refine post_changeFile present' (fun settled settle => ?_) (fun code failed => ?_)
    · unfold Inode.decreasePendingLocks at settle
      split at settle
      · cases settle
      · rename_i pending
        cases settle
        refine ⟨free, pending, rfl, rfl, rfl, fun other => ?_⟩
        simp only [file_updateFile, if_true, present, Option.map_some]
        split
        · rw [← named]
        · rfl
    · unfold Inode.decreasePendingLocks at failed
      split at failed
      · rename_i none_
        exact .inr ⟨free, none_, _, rfl, lock⟩
      · cases failed
  · unfold Inode.fileLock at failed
    split at failed
    · cases failed
    · rename_i other
      split at failed
      · rename_i held
        exact .inl ⟨held, other, rfl⟩
      · cases failed

/-- A lock request fails before it is counted, or after that for want of the lock. -/
theorem rtsLockInode_fails (present : fs.file name = some inode)
    (readable : inode.isFileLocked ≠ -1) (unlocked : inode.isFileLocked ≤ 0) (pid : Pid)
    (call : WaitingCall) (now : Int) :
    (rtsLockInode name pid call now fs).Post
      (fun progress fs' => ¬ Stalls fs name pid ∧
        (∃ changed, Puts fs name changed fs' ∧ Used now 0 inode changed) ∧
        (progress ≠ .waiting → fs'.fileDescriptorTable = fs.fileDescriptorTable))
      (fun _ fs' => ¬ Stalls fs name pid ∧ inode.pendingLocks ≠ 0 ∧ fs' = fs ∨
        Stalls fs name pid ∧ ∃ asked, Puts fs name asked fs' ∧ Used now 0 inode asked ∧
          asked.pendingLocks = inode.pendingLocks + 1)
      (fun _ => False) := by
  simp only [rtsLockInode, post_bind, rtsGetInode, post_failIf, post_get, present, post_orFail]
  refine ⟨fun empty => ?_, fun _ => ⟨fun absent => absurd absent (Option.some_ne_none _), ?_⟩⟩
  · subst empty
    rw [file_nil] at present
    cases present
  rintro other ⟨⟩
  have stalls : Stalls fs name pid → inode.pendingLocks = 0 ∧ inode.isFileLocked < -1 ∧
      inode.locked ≠ pid ∧ mustWait inode pid = false := by
    rintro ⟨other, found, stalls⟩
    cases present.symm.trans found
    exact stalls
  refine ⟨fun pending => .inl ⟨fun stalled => ?_, ?_, trivial⟩, fun free => ?_⟩
  · simp [Inode.hasPendingLocks, (stalls stalled).1] at pending
  · simpa [Inode.hasPendingLocks, Nat.pos_iff_ne_zero] using pending
  have none_ : inode.pendingLocks = 0 := by
    simpa [Inode.hasPendingLocks] using free
  refine post_changeFile present (fun changed increase => ?_) (fun _ failed => by cases failed)
  obtain rfl := Except.ok.inj increase
  have asks := puts_updateFile present (inode.increasePendingLocks now)
  have asked : Used now 0 inode { inode.increasePendingLocks now with name } := ⟨rfl, rfl, rfl, rfl⟩
  refine ⟨fun wrong => absurd wrong readable, fun _ => ⟨fun locked => absurd locked
    (not_lt.mpr unlocked), fun _ => ?_⟩⟩
  rw [post_ite]
  refine ⟨fun wait => ?_, fun goes => ?_⟩
  · simp only [post_bind, post_modify, post_pure]
    refine ⟨fun stalled => ?_, ⟨_, asks, asked⟩, fun done => absurd rfl done⟩
    cases wait.symm.trans (stalls stalled).2.2.2
  · have goes : mustWait inode pid = false := Bool.eq_false_iff.mpr goes
    have kept : (fs.updateFile name fun _ => inode.increasePendingLocks now).file name =
        some { inode.increasePendingLocks now with name } := by simp [present]
    rw [post_bind]
    refine (grantLock_fails kept pid now).mono ?_ ?_ (fun _ h => h)
    · rintro - fs' ⟨free, -, table, -, -, files⟩
      refine ⟨fun stalled => ?_, ⟨_, asks.trans files, rfl, rfl, rfl, rfl⟩, fun _ => table⟩
      obtain ⟨-, negative, other, -⟩ := stalls stalled
      rcases free with zero | own
      · have zero : inode.locked = 0 := zero
        rw [Inode.isFileLocked, zero, asInt_zero] at negative
        omega
      · exact other own
    · rintro code fs' (⟨held, other, rfl⟩ | ⟨-, pending, -⟩)
      · have held : inode.locked ≠ 0 := held
        have nonzero : inode.isFileLocked ≠ 0 := fun zero =>
          held (asInt_inj.mp (zero.trans asInt_zero.symm))
        exact .inr ⟨⟨inode, present, none_, by omega, other, goes⟩, _, asks, asked, rfl⟩
      · cases pending

def Progress.counted : Progress Nat → Nat
  | .done _ => 1
  | .waiting => 0

theorem openExisting_fails (present : fs.file name = some inode)
    (room : fs.fileDescriptorTable.1.size ≠ maxOpenFiles) (flags : Nat) (pid : Pid) (now : Int) :
    (openExisting name flags pid now fs).Post
      (fun progress fs' => ¬ (flags.testBit 1 = true ∧ Stalls fs name pid) ∧
        ∃ changed, Puts fs name changed fs' ∧ Used now progress.counted inode changed)
      (fun _ fs' => ¬ (flags.testBit 1 = true ∧ Stalls fs name pid) ∧
          (inode.locked ≠ 0 ∨ inode.pendingLocks ≠ 0) ∧ fs' = fs ∨
        (flags.testBit 1 = true ∧ Stalls fs name pid) ∧ ∃ asked, Puts fs name asked fs' ∧
          Used now 0 inode asked ∧ asked.pendingLocks = inode.pendingLocks + 1)
      (fun _ => False) := by
  have held : inode.isFileLocked ≠ 0 → inode.locked ≠ 0 := by
    rintro nonzero zero
    rw [Inode.isFileLocked, zero, asInt_zero] at nonzero
    exact nonzero rfl
  have stalls : Stalls fs name pid → inode.isFileLocked < -1 ∧ inode.locked ≠ pid := by
    rintro ⟨other, found, -, negative, different, -⟩
    cases present.symm.trans found
    exact ⟨negative, different⟩
  have attach : ∀ (fs₁ : FileSystem codec) inode₁, fs₁.fileDescriptorTable = fs.fileDescriptorTable →
      fs₁.file name = some inode₁ → ¬ (flags.testBit 1 = true ∧ Stalls fs name pid) →
      ∀ E : Errno → FileSystem codec → Prop,
      ((openDescriptor name pid now >>= fun fd => pure (Progress.done fd)) fs₁).Post
        (fun progress fs' => ¬ (flags.testBit 1 = true ∧ Stalls fs name pid) ∧
          ∃ changed, Puts fs₁ name changed fs' ∧ Used now progress.counted inode₁ changed)
        E (fun _ => False) := by
    rintro fs₁ inode₁ table found goes E
    rw [post_bind]
    refine (openDescriptor_fails found pid now).mono ?_ ?_ (fun _ h => h)
    · exact fun _ fs₂ opened => ⟨goes, opened.2⟩
    · rintro - fs₂ ⟨full, -⟩
      rw [table] at full
      exact absurd full room
  simp only [openExisting, post_bind, rtsGetInode, post_failIf, post_get, present, post_orFail]
  refine ⟨fun empty => ?_, fun _ => ⟨fun absent => absurd absent (Option.some_ne_none _), ?_⟩⟩
  · subst empty
    rw [file_nil] at present
    cases present
  rintro other ⟨⟩
  refine ⟨fun wrong => .inl ⟨fun slips => ?_, .inl (held (by omega)), trivial⟩, fun readable =>
    ⟨fun taken => .inl ⟨fun slips => ?_, .inl (held (by omega)), trivial⟩, fun access => ?_⟩⟩
  · have negative := (stalls slips.2).1
    omega
  · have negative := (stalls slips.2).1
    omega
  rw [post_ite]
  refine ⟨fun lock => ?_, fun plain => ?_⟩
  · rw [post_ite]
    refine ⟨fun own => ?_, fun other => ?_⟩
    · refine attach fs inode rfl present (fun slips => ?_) _
      exact (stalls slips.2).2 (asInt_inj.mp own)
    · have unlocked : inode.isFileLocked ≤ 0 := not_lt.mp fun locked => access ⟨locked, other⟩
      rw [post_bind]
      refine (rtsLockInode_fails present readable unlocked pid .open now).mono ?_ ?_ (fun _ h => h)
      · rintro (_ | _) fs₁ ⟨goes, ⟨changed, puts, used⟩, table⟩
        · have found := (puts name).trans (if_pos rfl)
          refine (attach fs₁ changed (table (by simp)) found (fun slips => goes slips.2) _).mono ?_
            (fun _ _ h => h) (fun _ h => h)
          rintro progress fs₂ ⟨safe, opened, opens, more⟩
          have total := used.trans more
          rw [Nat.zero_add] at total
          exact ⟨safe, opened, puts.trans opens, total⟩
        · exact ⟨fun slips => goes slips.2, changed, puts, used⟩
      · rintro - fs₁ (⟨goes, pending, rfl⟩ | ⟨stalled, asked⟩)
        · exact .inl ⟨fun slips => goes slips.2, .inr pending, rfl⟩
        · exact .inr ⟨⟨lock, stalled⟩, asked⟩
  · have goes : ¬ (flags.testBit 1 = true ∧ Stalls fs name pid) := fun slips => plain slips.1
    rw [post_bind, post_failIf]
    refine ⟨fun pending => .inl ⟨goes, .inr ?_, rfl⟩, fun _ => attach fs inode rfl present goes _⟩
    simpa [Inode.hasPendingLocks, Nat.pos_iff_ne_zero] using pending

/-! ## The calls -/

theorem fileSystemOpen_atomic (regular : Regular fs) (name : Filename) (flags : Nat) (pid : Pid)
    (now : Int) :
    (fileSystemOpen name flags pid now fs).Post
      (fun _ _ => ¬ (Event.open name flags pid now).Slips fs)
      (fun _ fs' => ¬ (Event.open name flags pid now).Slips fs ↔ Untouched fs fs')
      (fun _ => ¬ (Event.open name flags pid now).Slips fs) := by
  have nothing : ¬ (Event.open name flags pid now).Slips fs →
      (¬ (Event.open name flags pid now).Slips fs ↔ Untouched fs fs) :=
    fun safe => iff_of_true safe (.refl fs)
  have absent : fs.file name = none → ¬ (Event.open name flags pid now).Slips fs := by
    rintro absent ⟨-, -, -, inode, present, -⟩
    cases absent.symm.trans present
  rw [fileSystemOpen_eq]
  simp only [openInode, post_bind, post_failIf, post_get]
  refine ⟨fun empty => nothing (absent (by rw [empty, file_nil])), fun _ =>
    ⟨fun full => nothing fun slips => slips.2.2.1 full, fun room => ?_⟩⟩
  rw [post_ite]
  refine ⟨fun create => ?_, fun existing => ?_⟩
  · have safe : ¬ (Event.open name flags pid now).Slips fs := fun slips => by
      cases create.symm.trans slips.1
    rw [post_bind, post_failIf]
    refine ⟨fun _ => nothing safe, fun _ => ?_⟩
    refine (rtsCreateInode_exact fs name now).mono ?_ ?_ (fun _ h => h.elim)
    · rintro - fs₁ ⟨table, created, -, rfl⟩
      have present : (fs.withFile table).file name = some (.init name fs.created now) :=
        (FileTable.create_spec created name).trans (if_pos rfl)
      refine (openExisting_fails present room flags pid now).mono (fun _ _ _ => safe) ?_
        (fun _ h => h.elim)
      rintro - fs₂ (⟨-, busy, -⟩ | ⟨⟨-, stalled⟩, -⟩)
      · exact busy.elim (fun held => absurd rfl held) (fun pending => absurd rfl pending)
      · obtain ⟨other, found, -, negative, -⟩ := stalled
        cases present.symm.trans found
        exact absurd negative (show ¬ asInt 0 < -1 by decide)
    · rintro - fs₁ (rfl | wrong)
      · exact nothing safe
      · have listed := regular.listed
        omega
  · rw [post_failIf]
    refine ⟨fun gone => nothing (absent gone), fun stored => ?_⟩
    obtain ⟨inode, present⟩ := Option.ne_none_iff_exists'.mp stored
    have slips : (Event.open name flags pid now).Slips fs ↔
        flags.testBit 1 = true ∧ Stalls fs name pid := by
      have existing : flags.testBit 0 = false := Bool.eq_false_iff.mpr existing
      exact ⟨fun slips => ⟨slips.2.1, slips.2.2.2⟩,
        fun both => ⟨existing, both.1, room, both.2⟩⟩
    rw [slips]
    refine (openExisting_fails present room flags pid now).mono (fun _ _ returned => returned.1) ?_
      (fun _ h => h.elim)
    rintro - fs₁ (⟨safe, -, rfl⟩ | ⟨stalled, asked, puts, -, pending⟩)
    · exact iff_of_true safe (.refl _)
    · refine iff_of_false (not_not.mpr stalled) ?_
      have found := (puts name).trans (if_pos rfl)
      refine not_untouched_of_file (stored_eq present) (stored_eq found) fun same => ?_
      have equal := congrArg Stored.pendingLocks same
      exact Nat.succ_ne_self _ (pending.symm.trans equal)

theorem post_rtsGetInodeByFd_exact {Q : Inode → FileSystem codec → Prop}
    {E : Errno → FileSystem codec → Prop} {F : Fault → Prop} {fd : Int}
    (found : ∀ copy, fs.slot (toUnsigned32 fd) = some { owner := pid, inode := copy } →
      (∀ other, fs.slot (toUnsigned32 fd) = some { owner := pid, inode := other } → other = copy) →
      Q copy fs)
    (failed : ∀ code, (∀ copy, fs.slot (toUnsigned32 fd) ≠ some { owner := pid, inode := copy }) →
      E code fs) : (rtsGetInodeByFd fd pid fs).Post Q E F := by
  simp only [rtsGetInodeByFd, post_bind, post_get]
  refine post_ofExcept (fun copy got => ?_) (fun code fails => failed code fun copy live => ?_)
  · have live := FileDescriptorTable.get_eq_ok.mp got
    refine found copy live fun other found => ?_
    have same := live.symm.trans found
    simp only [Option.some.injEq, Entry.mk.injEq, true_and] at same
    exact same.symm
  · rw [FileDescriptorTable.get_eq_ok.mpr live] at fails
    cases fails

theorem fileSystemLock_atomic (fs : FileSystem codec) (fd : Int) (pid : Pid) (now : Int) :
    (fileSystemLock fd pid now fs).Post
      (fun _ _ => ¬ (Event.lock fd pid now).Slips fs)
      (fun _ fs' => ¬ (Event.lock fd pid now).Slips fs ↔ Untouched fs fs')
      (fun _ => ¬ (Event.lock fd pid now).Slips fs) := by
  have nothing : ¬ (Event.lock fd pid now).Slips fs →
      (¬ (Event.lock fd pid now).Slips fs ↔ Untouched fs fs) :=
    fun safe => iff_of_true safe (.refl fs)
  simp only [fileSystemLock, post_bind]
  refine post_rtsGetInodeByFd_exact (fun copy live unique => ?_) (fun _ none_ => nothing ?_)
  · have slips : (Event.lock fd pid now).Slips fs ↔ Stalls fs copy.name pid := by
      constructor
      · rintro ⟨other, found, stalled⟩
        rwa [unique other found] at stalled
      · exact fun stalled => ⟨copy, live, stalled⟩
    rw [slips] at nothing ⊢
    simp only [rtsGetInode, post_bind, post_failIf, post_get, post_orFail]
    refine ⟨fun empty => nothing ?_, fun _ => ⟨fun absent => nothing ?_, fun inode present => ?_⟩⟩
    · rintro ⟨inode, present, -⟩
      rw [empty, file_nil] at present
      cases present
    · rintro ⟨inode, present, -⟩
      cases absent.symm.trans present
    have negative : Stalls fs copy.name pid → inode.isFileLocked < -1 := by
      rintro ⟨other, found, -, negative, -⟩
      cases present.symm.trans found
      exact negative
    refine ⟨fun wrong => nothing fun stalled => ?_, fun readable => ?_⟩
    · have less := negative stalled
      omega
    rw [post_ite]
    refine ⟨fun locked => ?_, fun unlocked => ?_⟩
    · have safe : ¬ Stalls fs copy.name pid := fun stalled => by
        have less := negative stalled
        omega
      simp only [post_bind, post_failIf, post_pure]
      exact ⟨fun _ => nothing safe, fun _ => safe⟩
    · refine (rtsLockInode_fails present readable (not_lt.mp unlocked) pid .lock now).mono
        (fun _ _ returned => returned.1) ?_ (fun _ h => h.elim)
      rintro - fs₁ (⟨safe, -, rfl⟩ | ⟨stalled, asked, puts, -, pending⟩)
      · exact nothing safe
      · refine iff_of_false (not_not.mpr stalled) ?_
        have found := (puts copy.name).trans (if_pos rfl)
        refine not_untouched_of_file (stored_eq present) (stored_eq found) fun same => ?_
        have equal := congrArg Stored.pendingLocks same
        exact Nat.succ_ne_self _ (pending.symm.trans equal)
  · rintro ⟨copy, live, -⟩
    exact none_ copy live

theorem fileSystemUnlock_atomic (fs : FileSystem codec) (fd : Int) (pid : Pid) (now : Int) :
    (fileSystemUnlock fd pid now fs).Post (fun _ _ => True) (fun _ fs' => Untouched fs fs')
      (fun _ => True) := by
  simp only [fileSystemUnlock, post_bind]
  refine post_rtsGetInodeByFd (fun copy _ => ?_) (fun _ => .refl fs)
  refine post_rtsGetInode (fun inode _ present => ?_) (fun _ => .refl fs)
  simp only [post_failIf]
  refine ⟨fun _ => .refl fs, fun _ => ⟨fun _ => .refl fs, fun _ => ⟨fun _ => .refl fs, fun _ => ?_⟩⟩⟩
  exact post_changeFile present (fun _ _ => trivial) (fun _ _ => .refl fs)

theorem fileSystemClose_atomic (named : Named fs.view) (fd : Int) (pid : Pid) (now : Int) :
    (fileSystemClose fd pid now fs).Post
      (fun _ _ => ¬ CloseSlips fs (toUnsigned32 fd) pid)
      (fun _ fs' => ¬ CloseSlips fs (toUnsigned32 fd) pid ↔ Untouched fs fs')
      (fun _ => ¬ CloseSlips fs (toUnsigned32 fd) pid) := by
  simp only [fileSystemClose, post_bind]
  refine post_rtsGetInodeByFd_exact (fun copy live unique => ?_) (fun _ none_ => ?_)
  · obtain ⟨table, removed, limit, slots⟩ := FileDescriptorTable.remove_spec live
    have limited := limit.trans fs.fileDescriptorTable.2
    rw [post_get]
    refine post_ofExcept (fun result is => ?_) (fun code failed => ?_)
    · obtain rfl := Except.ok.inj (removed.symm.trans is)
      simp only [post_modify, dif_pos limited, post_failIf, post_get]
      refine ⟨fun empty => absurd empty (named.slots _ _ (view_slot live)), fun _ => ?_⟩
      cases present : fs.file copy.name with
      | none =>
          have gone : FileSystem.file { fs with fileDescriptorTable := ⟨table, limited⟩ } copy.name =
              none := present
          rw [if_neg (not_not.mpr gone), post_pure]
          rintro ⟨other, inode, found, stored, -⟩
          rw [unique other found, present] at stored
          cases stored
      | some inode =>
          have stored : FileSystem.file { fs with fileDescriptorTable := ⟨table, limited⟩ } copy.name =
              some inode := present
          rw [if_pos (by simp [stored])]
          have slips : CloseSlips fs (toUnsigned32 fd) pid ↔
              inode.referenceCount = 0 ∨ pid ∉ inode.referenceList := by
            constructor
            · rintro ⟨other, inode', found, stored', why⟩
              rw [unique other found, present] at stored'
              obtain rfl := Option.some.inj stored'
              exact why
            · exact fun why => ⟨copy, inode, live, present, why⟩
          rw [slips]
          refine post_changeFile stored (fun changed decrease => ?_) (fun code failed => ?_)
          · unfold Inode.decreaseRefs at decrease
            split at decrease
            · cases decrease
            · split at decrease
              · cases decrease
              · rename_i some_ member
                exact not_or.mpr ⟨some_, member⟩
          · refine iff_of_false (not_not.mpr ?_) fun same => ?_
            · unfold Inode.decreaseRefs at failed
              split at failed
              · rename_i zero
                exact .inl zero
              · split at failed
                · rename_i stranger
                  exact .inr stranger
                · cases failed
            · have equal := same.slots (toUnsigned32 fd)
              rw [live] at equal
              simp only [slot, slots, if_true, Option.map_none, Option.map_some] at equal
              cases equal
    · cases removed.symm.trans failed
  · refine iff_of_true ?_ (.refl fs)
    rintro ⟨copy, inode, live, -⟩
    exact none_ copy live

theorem fileSystemRemove_atomic (fs : FileSystem codec) (name : Filename) (pid : Pid) :
    (fileSystemRemove name pid fs).Post
      (fun _ _ => ¬ RemoveSlips fs name pid)
      (fun _ fs' => ¬ RemoveSlips fs name pid ↔ Untouched fs fs')
      (fun _ => ¬ RemoveSlips fs name pid) := by
  have size : ∀ inode, fs.file name = some inode → (fs.without inode).fileTable.size =
      toUnsigned64 (fs.fileTable.size - toInt32 inode.size) := by
    intro inode present
    rw [← fs.fileTable.named name inode present] at present
    obtain ⟨table, gone⟩ := FileTable.remove_isSome present
    rw [fileTable_without gone, (FileTable.remove_counters gone present).2]
  refine (fileSystemRemove_removes fs name pid).mono ?_ ?_ ?_
  · rintro - fs' ⟨inode, present, -, removes⟩ ⟨other, found, -, -, uncounted⟩
    obtain rfl := Option.some.inj (present.symm.trans found)
    cases removes with
    | done bytes files sized =>
        rw [Oversized, size inode present] at sized
        exact uncounted ⟨bytes, files, sized⟩
  · rintro - fs' (⟨no, rfl⟩ | ⟨inode, present, removable, sound, removes⟩)
    · refine iff_of_true ?_ (.refl _)
      rintro ⟨inode, present, removable, -⟩
      exact no inode present removable
    · have gone : fs'.file name = none := by
        have present' := present
        rw [← fs.fileTable.named name inode present] at present' ⊢
        rw [removes.file present', if_pos rfl]
      refine iff_of_false (not_not.mpr ⟨inode, present, removable, sound, ?_⟩)
        (not_untouched_of_gone present gone)
      rintro ⟨bytes, files, sized⟩
      cases removes with
      | unknown zero => exact bytes zero
      | uncounted _ zero => exact files zero
      | oversized _ _ oversized =>
          rw [Oversized, size inode present] at oversized
          exact sized oversized
  · rintro - ⟨inode, present, dangling⟩ ⟨other, found, -, sound, -⟩
    obtain rfl := Option.some.inj (present.symm.trans found)
    exact sound dangling

/-! ## Reading -/

theorem Untouched.symm (same : Untouched fs fs') : Untouched fs' fs where
  files name := (same.files name).symm
  slots fd := (same.slots fd).symm
  fileCounter := same.fileCounter.symm
  bytesCounter := same.bytesCounter.symm

theorem Untouched.trans {fs'' : FileSystem codec} (first : Untouched fs fs')
    (second : Untouched fs' fs'') : Untouched fs fs'' where
  files name := (second.files name).trans (first.files name)
  slots fd := (second.slots fd).trans (first.slots fd)
  fileCounter := second.fileCounter.trans first.fileCounter
  bytesCounter := second.bytesCounter.trans first.bytesCounter

theorem Untouched.iff {fs'' : FileSystem codec} (same : Untouched fs' fs'') :
    Untouched fs fs'' ↔ Untouched fs fs' :=
  ⟨fun first => first.trans same.symm, fun first => first.trans same⟩

theorem untouched_putFile (present : fs.file inode.name = some inode) :
    Untouched fs (fs.putFile inode.name { inode, memory := fs.memory }) := by
  refine ⟨fun name => ?_, fun _ => rfl, rfl, rfl⟩
  have file_ : (fs.putFile inode.name { inode, memory := fs.memory }).file name = fs.file name := by
    rw [file_putFile]
    split
    · rename_i same
      rw [same, present, Option.map_some]
    · rfl
  rw [stored, stored, file_]
  rfl

theorem untouched_putSlot {fd : Nat} {copy : Inode}
    (live : fs.slot fd = some { owner := pid, inode := copy }) :
    Untouched fs (fs.putSlot fd { inode := copy, memory := fs.memory }) := by
  refine ⟨fun _ => rfl, fun other => ?_, rfl, rfl⟩
  rw [slot_putSlot]
  split
  · rename_i same
    rw [same, live]
    rfl
  · rfl

theorem untouched_recorded (regular : Regular fs) (copy : Inode) (now : Int) :
    Untouched fs (fs.recorded copy 0 now) := by
  refine ⟨fun name => ?_, fun _ => rfl, rfl, toUnsigned64_of_nat regular.bounded⟩
  rw [stored, stored, file_recorded]
  split
  · rename_i same
    rw [same, Option.map_map]
    rfl
  · rfl

theorem untouched_reread {owner : Nat → Filename} (owned : Owned owner fs.view)
    (present : fs.file inode.name = some inode) {old : codec.Artifact}
    (found : Memory.at? fs.memory inode.directPtr = some old) (new : codec.Artifact) (now : Int) :
    ¬ Recharged inode old new ↔ Untouched fs (fs.reread inode new now) := by
  have after := stored_eq (file_reread present new now)
  have fresh : Memory.at? (fs.reread inode new now).memory (.artifact fs.memory.length) =
      some new := Memory.at?_append_self _ new (Memory.length_free _ _)
  rw [fresh] at after
  have before := stored_eq present
  rw [found] at before
  constructor
  · intro same
    obtain ⟨content, size⟩ := not_or.mp same
    refine ⟨fun name => ?_, fun _ => rfl, rfl, rfl⟩
    by_cases this : name = inode.name
    · rw [this, before, after]
      simp only [Option.map_some, not_not.mp content, not_not.mp size]
    · have file_ : (fs.reread inode new now).file name = fs.file name :=
        (file_putFile fs inode.name _ name).trans (if_neg this)
      rw [stored, stored, file_]
      cases other : fs.file name with
      | none => rfl
      | some stored_ =>
          have placed := owned.files name _ (view_file other)
          have placed' := owned.files inode.name _ (view_file present)
          have memory : Memory.at? (fs.reread inode new now).memory stored_.directPtr =
              Memory.at? fs.memory stored_.directPtr :=
            (Memory.at?_append fun id is => by
              rw [Memory.length_free]
              exact (placed.1 id is).1).trans (Memory.at?_free (placed'.apart placed (Ne.symm this)))
          simp only [Option.map_some, memory]
  · intro same recharged
    have equal := same.files inode.name
    rw [before, after] at equal
    simp only [Option.map_some, Option.some.injEq, Stored.mk.injEq] at equal
    exact recharged.elim (fun content => content equal.1) (fun size => size equal.2.1)

theorem Flushes.fails_iff {fd : Nat} {copy : Inode} (stored : fs.file copy.name ≠ none)
    (empty : copy.directPtr = .null → copy.size = 0) (flushes : Flushes fs fd copy now fs') :
    FlushFails fs copy ↔ Oversized fs' := by
  cases flushes with
  | empty none_ =>
      have size : (fs.recorded copy 0 now).fileTable.size = fs.fileTable.size :=
        (FileTable.update_counters _ _ _).2
      rw [Oversized, size]
      constructor
      · rintro (⟨-, oversized⟩ | ⟨some_, -⟩)
        · exact oversized
        · exact absurd none_ some_
      · exact fun oversized => .inl ⟨none_, oversized⟩
  | @full content new some_ appended small encodes =>
      rw [Oversized, (counts_flushed fs fd copy new now).2.2.1]
      constructor
      · rintro (⟨none_, -⟩ | ⟨-, absent | tooMuch | ⟨content', new', appended', encodes', oversized⟩⟩)
        · exact absurd none_ some_
        · exact absurd absent stored
        · rcases tooMuch with ⟨null, big⟩ | ⟨old, found, big⟩
          · rw [null] at appended
            obtain rfl := Option.some.inj appended
            have zero := empty null
            omega
          · obtain rfl := Option.some.inj ((Memory.appended_of_live found _).symm.trans appended)
            omega
        · obtain rfl := Option.some.inj (appended.symm.trans appended')
          obtain rfl := Option.some.inj (encodes.symm.trans encodes')
          exact oversized
      · exact fun oversized => .inr ⟨some_, .inr (.inr ⟨content, new, appended, encodes, oversized⟩)⟩

theorem Tears.fails {fd : Nat} {copy : Inode} (buffered : copy.buffer ≠ [])
    (tears : Tears fs fd copy fs') : FlushFails fs copy := by
  cases tears with
  | null null big => exact .inr ⟨buffered, .inr (.inl (.inl ⟨null, big⟩))⟩
  | live found big => exact .inr ⟨buffered, .inr (.inl (.inr ⟨_, found, big⟩))⟩

theorem not_flushFails_of_freed {copy : Inode} (stored : fs.file copy.name ≠ none)
    (buffered : copy.buffer ≠ []) (pointed : copy.directPtr ≠ .null)
    (freed : Memory.at? fs.memory copy.directPtr = none) : ¬ FlushFails fs copy := by
  rintro (⟨none_, -⟩ | ⟨-, absent | (⟨null, -⟩ | ⟨old, found, -⟩) | ⟨content, new, appended, -⟩⟩)
  · exact buffered none_
  · exact stored absent
  · exact pointed null
  · cases freed.symm.trans found
  · cases ptr : copy.directPtr with
    | null => exact pointed ptr
    | _ =>
        rw [ptr] at freed appended
        simp only [Memory.appended, freed, Option.map_none, reduceCtorEq] at appended

theorem readSlips_iff {fd : Nat} {copy : Inode} {old new : codec.Artifact}
    (live : fs.slot fd = some { owner := pid, inode := copy }) (allowed : ¬ ShutOut copy pid)
    (present : fs.file copy.name = some inode)
    (found : Memory.at? fs.memory inode.directPtr = some old) (some_ : codec.decode old ≠ [])
    (encodes : codec.encode (codec.decode old) = some new) (now : Int) :
    ReadSlips fs fd pid now ↔ FlushFails (fs.reread inode new now) copy ∧
      (Recharged inode old new ∨ Spends copy) := by
  constructor
  · rintro ⟨copy', inode', old', live', -, present', found', why⟩
    cases live.symm.trans live'
    cases present.symm.trans present'
    cases found.symm.trans found'
    rcases why with nothing | ⟨new', -, encodes', slips⟩
    · exact absurd nothing some_
    · obtain rfl := Option.some.inj (encodes.symm.trans encodes')
      exact slips
  · exact fun slips => ⟨copy, inode, old, live, allowed, present, found,
      .inr ⟨new, some_, encodes, slips⟩⟩

theorem not_untouched_of_slot {fd : Nat} {copy after : Inode}
    (live : fs.slot fd = some { owner := pid, inode := copy })
    (live' : fs'.slot fd = some { owner := pid, inode := after })
    (differ : after.buffer ≠ copy.buffer ∨ after.directPtr ≠ copy.directPtr) : ¬ Untouched fs fs' := by
  intro same
  have equal := same.slots fd
  rw [live, live'] at equal
  simp only [Option.map_some, Entry.timeless, Option.some.injEq, Entry.mk.injEq, Inode.mk.injEq]
    at equal
  rcases differ with buffer | directPtr
  · exact buffer equal.2.2.2.2.2.2.2.2.1
  · exact directPtr equal.2.2.2.2.2.2.2.1

theorem slot_flushed {fd : Nat} {copy : Inode}
    (live : fs.slot fd = some { owner := pid, inode := copy }) (new : codec.Artifact) (now : Int) :
    (fs.flushed fd copy new now).slot fd =
      some { owner := pid, inode := copy.flushed (codec.size new) fs.memory.length now } := by
  rw [slots_flushed, if_pos rfl, live, Option.map_some]

theorem fileSystemRead_atomic (regular : Regular fs) {owner : Nat → Filename}
    (owned : Owned owner fs.view) (fd : Int) (pid : Pid) (now : Int) :
    (fileSystemRead fd pid now fs).Post
      (fun _ _ => ¬ ReadSlips fs (toUnsigned32 fd) pid now)
      (fun _ fs' => ¬ ReadSlips fs (toUnsigned32 fd) pid now ↔ Untouched fs fs')
      (fun _ => ¬ ReadSlips fs (toUnsigned32 fd) pid now) := by
  have empty : ∀ copy, fs.slot (toUnsigned32 fd) = some ⟨pid, copy⟩ →
      copy.directPtr = .null → copy.size = 0 :=
    fun copy live => (owned.slots _ _ (view_slot live)).2
  have unread : ∀ copy inode, fs.slot (toUnsigned32 fd) = some ⟨pid, copy⟩ →
      fs.file copy.name = some inode → Memory.at? fs.memory inode.directPtr = none →
      ¬ ReadSlips fs (toUnsigned32 fd) pid now := by
    rintro copy inode live present none_ ⟨copy', inode', old, live', -, present', found, -⟩
    cases live.symm.trans live'
    cases present.symm.trans present'
    cases none_.symm.trans found
  refine (fileSystemRead_reads fs fd pid now).mono ?_ ?_ ?_
  · rintro - fs' ⟨copy, inode, fs₁, live, allowed, present, reads, flushes, sized⟩
    have stored := reads.stored present
    cases reads with
    | reread found some_ encodes =>
        rw [readSlips_iff live allowed present found some_ encodes,
          flushes.fails_iff stored (empty copy live)]
        exact fun slips => sized slips.1
  · rintro - fs' (⟨no, rfl⟩ | ⟨copy, inode, live, allowed, present, fails⟩)
    · refine iff_of_true ?_ (.refl _)
      rintro ⟨copy, inode, old, live, allowed, present, -⟩
      rcases no copy live with shut | absent
      · exact allowed shut
      · cases absent.symm.trans present
    have found := present
    rw [← fs.fileTable.named copy.name inode present] at found
    rcases fails with reads | ⟨fs₁, reads, fails⟩
    · cases reads with
      | null null =>
          exact iff_of_true (unread copy inode live present (by rw [null]; rfl))
            (untouched_putFile found)
      | @spoiled old at_ nothing =>
          refine iff_of_false (not_not.mpr
            ⟨copy, inode, old, live, allowed, present, at_, .inl nothing⟩) ?_
          have after : (fs.spoiled inode now).file inode.name = some { inode with
              size := 0, directPtr := .null, atime := now, ctime := now } :=
            (file_putFile fs inode.name _ _).trans (by rw [if_pos rfl, found]; rfl)
          refine not_untouched_of_file (stored_eq found) (stored_eq after) fun same => ?_
          have equal := congrArg Stored.content same
          rw [at_] at equal
          cases equal
    · have stored := reads.stored present
      cases reads with
      | @reread old new at_ some_ encodes =>
          have live₁ : (fs.reread inode new now).slot (toUnsigned32 fd) = some ⟨pid, copy⟩ := live
          have same := untouched_reread owned found at_ new now
          have untouched : ∀ fs', Untouched (fs.reread inode new now) fs' →
              FlushFails (fs.reread inode new now) copy → ¬ Spends copy →
              (¬ ReadSlips fs (toUnsigned32 fd) pid now ↔ Untouched fs fs') := by
            intro fs' kept flushFails spares
            rw [readSlips_iff live allowed present at_ some_ encodes, kept.iff, ← same,
              and_iff_right flushFails, or_iff_left spares]
          have spent : ∀ fs' after, Spends copy → FlushFails (fs.reread inode new now) copy →
              fs'.slot (toUnsigned32 fd) = some ⟨pid, after⟩ →
              after.buffer ≠ copy.buffer ∨ after.directPtr ≠ copy.directPtr →
              (¬ ReadSlips fs (toUnsigned32 fd) pid now ↔ Untouched fs fs') := by
            intro fs' after spends flushFails live' differ
            rw [readSlips_iff live allowed present at_ some_ encodes]
            exact iff_of_false (not_not.mpr ⟨flushFails, .inr spends⟩)
              (not_untouched_of_slot live live' differ)
          rcases fails with ⟨flushes, oversized⟩ | ⟨buffered, tears⟩
          · have flushFails := (flushes.fails_iff stored (empty copy live)).mpr oversized
            cases flushes with
            | empty none_ =>
                have regular₁ : Regular (fs.reread inode new now) :=
                  regular.change (.read found (.reread at_ some_ encodes))
                exact untouched _ (untouched_recorded regular₁ copy now) flushFails
                  fun spends => spends.1 none_
            | @full content new' buffered appended small _ =>
                refine spent _ _ ⟨buffered, ?_⟩ flushFails (slot_flushed live₁ new' now)
                  (.inl buffered.symm)
                rintro ⟨null, big⟩
                rw [null] at appended
                obtain rfl := Option.some.inj appended
                have zero := empty copy live null
                omega
          · have flushFails := tears.fails buffered
            cases tears with
            | null null big =>
                exact untouched _ (untouched_putSlot live₁) flushFails
                  fun spends => spends.2 ⟨null, big⟩
            | @live content at' big =>
                refine spent _ _ ⟨buffered, ?_⟩ flushFails
                  ((slot_putSlot _ _ _ _).trans (by rw [if_pos rfl, live₁]; rfl)) (.inr ?_)
                · rintro ⟨null, -⟩
                  rw [null] at at'
                  cases at'
                · cases ptr : copy.directPtr with
                  | null | bytes raw =>
                      rw [ptr] at at'
                      cases at'
                  | artifact id => cases codec.decode content <;> nofun
  · rintro - ⟨copy, inode, live, allowed, present, freed | ⟨fs₁, reads, buffered, pointed, freed⟩⟩
    · exact unread copy inode live present freed
    · have stored := reads.stored present
      cases reads with
      | reread found some_ encodes =>
          rw [readSlips_iff live allowed present found some_ encodes]
          exact fun slips => not_flushFails_of_freed stored buffered pointed freed slips.1

/-! ## Waking up -/

theorem stored_withdrawn (present : fs.file name = some inode) :
    (fs.withdrawn name).stored name = some {
      content := (Memory.at? fs.memory inode.directPtr).map codec.decode
      size := toUnsigned32 inode.size
      locked := inode.locked
      pendingLocks := inode.pendingLocks - 1
      referenceCount := inode.referenceCount
      referenceList := inode.referenceList } := by
  have after : (fs.withdrawn name).file name = some { inode with
      name, pendingLocks := inode.pendingLocks - 1 } :=
    (file_updateFile fs name _ name).trans (by rw [if_pos rfl, present]; rfl)
  exact stored_eq after

theorem stored_withdrawn_of_ne {other : Filename} (different : other ≠ name) :
    (fs.withdrawn name).stored other = fs.stored other := by
  have same : (fs.withdrawn name).file other = fs.file other :=
    (file_updateFile fs name _ other).trans (if_neg different)
  rw [stored, stored, same]
  rfl

theorem untouched_withdrawn (present : fs.file name = some inode) (fs' : FileSystem codec)
    (table : fs'.fileDescriptorTable = fs.fileDescriptorTable) (monitor : fs'.monitor = fs.monitor)
    (memory : fs'.memory = fs.memory) {locked : Pid} {pendingLocks : Nat} {ctime : Int}
    (files : ∀ other, fs'.file other = if other = name then
      some { inode with locked, pendingLocks, ctime } else fs.file other) :
    Untouched (fs.withdrawn name) fs' ↔
      locked = inode.locked ∧ pendingLocks = inode.pendingLocks - 1 := by
  have after := stored_eq ((files name).trans (if_pos rfl))
  rw [memory] at after
  have before := stored_withdrawn present
  constructor
  · intro same
    have equal := same.files name
    rw [before, after] at equal
    simp only [Option.some.injEq, Stored.mk.injEq, true_and, and_true] at equal
    exact equal
  · rintro ⟨rfl, rfl⟩
    refine ⟨fun other => ?_, fun fd => ?_, ?_, ?_⟩
    · by_cases this : other = name
      · rw [this, before, after]
      · rw [stored_withdrawn_of_ne this, stored, stored, files, if_neg this, memory]
    · rw [slot, table]
      rfl
    · rw [monitor]
      rfl
    · rw [monitor]
      rfl

theorem wakeUp_atomic (fs : FileSystem codec) (waiter : Waiter) (now : Int) :
    (wakeUp waiter now fs).Post
      (fun _ _ => ¬ WakeSlips fs waiter)
      (fun _ fs' => ¬ WakeSlips fs waiter ↔ Untouched (fs.withdrawn waiter.name) fs')
      (fun _ => ¬ WakeSlips fs waiter) := by
  rw [wakeUp, post_bind, post_get]
  cases present : fs.file waiter.name with
  | none =>
      rintro ⟨inode, found, -⟩
      cases present.symm.trans found
  | some inode =>
      have slips : WakeSlips fs waiter ↔ inode.generation = waiter.generation ∧
          mustWait inode waiter.pid = false ∧ inode.locked ≠ waiter.pid ∧
          (inode.locked ≠ 0 ∧ inode.pendingLocks ≠ 0 ∨ inode.locked = 0 ∧ (inode.pendingLocks = 0 ∨
            waiter.call = .open ∧ fs.fileDescriptorTable.1.size = maxOpenFiles)) := by
        constructor
        · rintro ⟨inode', found, why⟩
          cases present.symm.trans found
          exact why
        · exact fun why => ⟨inode, present, why⟩
      rw [slips]
      dsimp only
      rw [post_ite]
      refine ⟨fun stale slips => stale slips.1, fun current => ?_⟩
      rw [post_ite]
      refine ⟨fun wait slips => ?_, fun goes => ?_⟩
      · cases wait.symm.trans slips.2.1
      have current := not_not.mp current
      have goes : mustWait inode waiter.pid = false := Bool.eq_false_iff.mpr goes
      rw [and_iff_right current, and_iff_right goes, post_bind, post_modify, post_bind]
      have awake : FileSystem.file { fs with blocked := fs.blocked.erase waiter } waiter.name =
          some inode := present
      refine (grantLock_fails awake waiter.pid now).mono ?_ ?_ (fun _ h => h.elim)
      · rintro - fs₁ ⟨free, pending, table, monitor, memory, files⟩
        cases call : waiter.call with
        | lock =>
            rintro ⟨other, ⟨held, -⟩ | ⟨-, none_ | ⟨⟨⟩, -⟩⟩⟩
            · exact free.elim held other
            · exact pending none_
        | «open» =>
            have found := (files waiter.name).trans (if_pos rfl)
            dsimp only
            rw [post_bind]
            refine (openDescriptor_fails found waiter.pid now).mono ?_ ?_ (fun _ h => h.elim)
            · rintro fd fs₂ ⟨room, -⟩ ⟨other, ⟨held, -⟩ | ⟨-, none_ | ⟨-, full⟩⟩⟩
              · exact free.elim held other
              · exact pending none_
              · rw [table] at room
                exact room full
            · rintro - fs₂ ⟨full, rfl⟩
              rw [table] at full
              rw [untouched_withdrawn present fs₂ table monitor memory files]
              constructor
              · intro safe
                by_contra changed
                have other : inode.locked ≠ waiter.pid := fun own => changed ⟨own.symm, rfl⟩
                exact safe ⟨other, .inr ⟨free.resolve_right other, .inr ⟨rfl, full⟩⟩⟩
              · rintro ⟨own, -⟩ ⟨other, -⟩
                exact other own.symm
      · rintro - fs₁ (⟨held, other, same⟩ | ⟨free, none_, granted, same, lock⟩)
        · have files : ∀ name, fs₁.file name =
              if name = waiter.name then some { inode with
                locked := inode.locked, pendingLocks := inode.pendingLocks, ctime := inode.ctime }
              else fs.file name := by
            intro name
            rw [same]
            split
            · rename_i this
              rw [this]
              exact awake
            · rfl
          obtain ⟨table, monitor, memory⟩ : fs₁.fileDescriptorTable = fs.fileDescriptorTable ∧
              fs₁.monitor = fs.monitor ∧ fs₁.memory = fs.memory := by
            subst same
            exact ⟨rfl, rfl, rfl⟩
          rw [untouched_withdrawn present fs₁ table monitor memory files]
          constructor
          · intro safe
            have none_ : inode.pendingLocks = 0 := by
              by_contra pending
              exact safe ⟨other, .inl ⟨held, pending⟩⟩
            exact ⟨rfl, by omega⟩
          · rintro ⟨-, less⟩ ⟨-, ⟨-, pending⟩ | ⟨zero, -⟩⟩
            · omega
            · exact held zero
        · obtain ⟨ctime, rfl⟩ : ∃ ctime, { inode with locked := waiter.pid, ctime } = granted := by
            unfold Inode.fileLock at lock
            split at lock
            · rename_i own
              cases lock
              exact ⟨inode.ctime, by rw [← own]⟩
            · split at lock
              · cases lock
              · cases lock
                exact ⟨now, rfl⟩
          have named : inode.name = waiter.name := fs.fileTable.named waiter.name inode present
          have files : ∀ name, fs₁.file name =
              if name = waiter.name then some { inode with
                locked := waiter.pid, pendingLocks := inode.pendingLocks, ctime := ctime }
              else fs.file name := by
            intro name
            rw [same, file_updateFile, awake, Option.map_some, ← named]
            rfl
          obtain ⟨table, monitor, memory⟩ : fs₁.fileDescriptorTable = fs.fileDescriptorTable ∧
              fs₁.monitor = fs.monitor ∧ fs₁.memory = fs.memory := by
            subst same
            exact ⟨rfl, rfl, rfl⟩
          rw [untouched_withdrawn present fs₁ table monitor memory files]
          constructor
          · intro safe
            refine ⟨?_, by omega⟩
            by_contra different
            have other : inode.locked ≠ waiter.pid := fun own => different own.symm
            exact safe ⟨other, .inr ⟨free.resolve_right other, .inl none_⟩⟩
          · rintro ⟨own, -⟩ ⟨other, -⟩
            exact other own.symm

end FileSystem

/-- A call on one file that is not a write leaves the files, the descriptors and the
    counters as they are when it fails, exactly if it does not slip. -/
theorem failed_call_untouched_iff {guard : FileSystem codec → Event → Prop} {fs : FileSystem codec}
    (reached : Reachable guard fs) {event : Event} (single : event.single = true) :
    (∀ code fs', event.call fs = .error code fs' → Untouched (event.before fs) fs') ↔
      ¬ event.Slips fs := by
  have regular := Regular.of_reachable reached
  have named := Named.of_reachable reached
  obtain ⟨owner, owned⟩ := owned_of_reachable reached
  apply Outcome.Post.errors_iff
  cases event with
  | «open» name flags pid now =>
      exact Event.post_of_actions (by rintro (_ | _) <;> exact ⟨_, rfl⟩)
        (fileSystemOpen_atomic regular name flags pid now)
  | read fd pid now =>
      exact Event.post_of_actions (fun _ => ⟨_, rfl⟩) (fileSystemRead_atomic regular owned fd pid now)
  | close fd pid now =>
      exact Event.post_of_actions (fun _ => ⟨_, rfl⟩) (fileSystemClose_atomic named fd pid now)
  | remove name pid =>
      exact Event.post_of_actions (fun _ => ⟨_, rfl⟩) (fileSystemRemove_atomic fs name pid)
  | lock fd pid now =>
      exact Event.post_of_actions (by rintro (_ | _) <;> exact ⟨_, rfl⟩)
        (fileSystemLock_atomic fs fd pid now)
  | unlock fd pid now =>
      refine Event.post_of_actions (fun _ => ⟨_, rfl⟩) ?_
      exact (fileSystemUnlock_atomic fs fd pid now).mono (fun _ _ _ => not_false)
        (fun _ _ same => iff_of_true not_false same) (fun _ _ => not_false)
  | wake waiter now =>
      exact Event.post_of_actions (by rintro ((_ | _) | _) <;> exact ⟨_, rfl⟩)
        (wakeUp_atomic fs waiter now)
  | write fd buf pid now | removeSession pid now => cases single

/-- A file is created a second time. -/
theorem failed_call_untouched_again : ∃ fs : FileSystem huffmanCodec, Reachable AnyEvent fs ∧
    ∃ code fs', (Event.open [102] 1 1 1).call fs = .error code fs' ∧ Untouched fs fs' := by
  obtain ⟨fs, reached, checked⟩ := Reachable.of_runs
    (AnyEvent : FileSystem huffmanCodec → Event → Prop) 1 4 .fifo
    (fun fs => match (Event.open [102] 1 1 1).call fs with
      | .error _ _ => true
      | _ => false)
    [.open [102] 1 1 0] (by decide +kernel)
  refine ⟨fs, reached, ?_⟩
  split at checked
  · rename_i code fs' failed
    have safe : ¬ (Event.open [102] 1 1 1).Slips fs := by
      rintro ⟨⟨⟩, -⟩
    exact ⟨code, fs', failed, (failed_call_untouched_iff reached rfl).mpr safe code fs' failed⟩
  · cases checked

/-- An empty file is removed by the owner of its lock: the removal takes it away and then
    fails, since there are no bytes to take off. -/
theorem failed_call_touched : ∃ fs : FileSystem huffmanCodec, Reachable AnyEvent fs ∧
    ∃ code fs', (Event.remove [102] 1).call fs = .error code fs' ∧ ¬ Untouched fs fs' := by
  obtain ⟨fs, reached, checked⟩ := Reachable.of_runs
    (AnyEvent : FileSystem huffmanCodec → Event → Prop) 1 4 .fifo
    (fun fs => match (Event.remove [102] 1).call fs with
      | .error _ fs' => (fs.stored [102]).isSome && (fs'.stored [102]).isNone
      | _ => false)
    [.open [102] 3 1 0] (by decide +kernel)
  refine ⟨fs, reached, ?_⟩
  split at checked
  · rename_i code fs' failed
    obtain ⟨there, gone⟩ := Bool.and_eq_true_iff.mp checked
    refine ⟨code, fs', failed, fun same => ?_⟩
    rw [← same.files, Option.isNone_iff_eq_none.mp gone] at there
    cases there
  · cases checked

end FileStorage
