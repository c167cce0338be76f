import FileStorage.Simfs.FailedWrite
import FileStorage.Simfs.Frames

/-! # Reading, flushing and removing

The states in which a read of a stored file, a flush of the copy at a descriptor and
the removal of a file can end, whichever way they return.
-/

namespace FileStorage

open Program

variable {codec : Codec}

/-- The copy of a descriptor after its buffer is flushed. -/
def Inode.flushed (copy : Inode) (size id : Nat) (now : Int) : Inode :=
  { copy with size, directPtr := .artifact id, buffer := [], mtime := now, ctime := now }

def Inode.appended (copy : Inode) (bytes : List UInt8) (now : Int) : Inode :=
  { copy with buffer := copy.buffer ++ bytes, ctime := now }

def Monitor.without (m : Monitor) (size : Nat) : Monitor :=
  { m with bytesCounter := toUnsigned64 (m.bytesCounter - toUnsigned64 (toInt32 size)) }

def Monitor.oneLess (m : Monitor) : Monitor := { m with fileCounter := m.fileCounter - 1 }

namespace Monitor

variable {m m' : Monitor} {size : Nat} {code : Errno}

@[simp] theorem without_fileCounter (m : Monitor) (size : Nat) :
    (m.without size).fileCounter = m.fileCounter := by
  cases m
  rfl

@[simp] theorem without_peaks (m : Monitor) (size : Nat) :
    (m.without size).filePeak = m.filePeak ∧ (m.without size).bytesPeak = m.bytesPeak := by
  cases m
  exact ⟨rfl, rfl⟩

theorem bytesRemoved_eq_ok (is : m.bytesRemoved (toUnsigned64 (toInt32 size)) = .ok m') :
    m.bytesCounter ≠ 0 ∧ m' = m.without size := by
  unfold bytesRemoved at is
  split at is
  · cases is
  · rename_i some_
    exact ⟨some_, (Except.ok.inj is).symm⟩

theorem bytesRemoved_eq_error (is : m.bytesRemoved (toUnsigned64 (toInt32 size)) = .error code) :
    m.bytesCounter = 0 ∧ code = .EPERM := by
  unfold bytesRemoved at is
  split at is
  · rename_i none_
    exact ⟨none_, (Except.error.inj is).symm⟩
  · cases is

theorem fileRemoved_eq_ok (is : m.fileRemoved = .ok m') :
    m.fileCounter ≠ 0 ∧ m' = m.oneLess := by
  unfold fileRemoved at is
  split at is
  · cases is
  · rename_i some_
    exact ⟨some_, (Except.ok.inj is).symm⟩

theorem fileRemoved_eq_error (is : m.fileRemoved = .error code) :
    m.fileCounter = 0 ∧ code = .EPERM := by
  unfold fileRemoved at is
  split at is
  · rename_i none_
    exact ⟨none_, (Except.error.inj is).symm⟩
  · cases is

end Monitor

namespace FileSystem

def started (fs : FileSystem codec) : FileSystem codec :=
  { fs with monitor := fs.monitor.evictionStarted }

/-- The end of a flush: the times of the copy go to the file, the bytes to the monitor. -/
def recorded (fs : FileSystem codec) (copy : Inode) (bytesAdded : Nat) (now : Int) :
    FileSystem codec :=
  { fs.updateFile copy.name (fun inode => { inode with
      atime := copy.atime, mtime := copy.mtime, ctime := now }) with
    monitor := fs.monitor.bytesAdded bytesAdded }

/-- The state after the buffer of a copy is flushed into its file, where `new` is the
    artifact made of the content and the buffer. -/
def flushed (fs : FileSystem codec) (fd : Nat) (copy : Inode) (new : codec.Artifact) (now : Int) :
    FileSystem codec :=
  let after := copy.flushed (codec.size new) fs.memory.length now
  let stored := fs.putSlot fd {
    inode := after, memory := Memory.free fs.memory copy.directPtr ++ [some new] }
  (stored.takeOver after (toInt32 (codec.size new - toInt32 copy.size))).recorded after
    (toUnsigned32 (codec.size new - toInt32 copy.size)) now

/-- The flush of a copy is done. -/
inductive Flushes (fs : FileSystem codec) (fd : Nat) (copy : Inode) (now : Int) :
    FileSystem codec → Prop where
  | empty : copy.buffer = [] → Flushes fs fd copy now (fs.recorded copy 0 now)
  | full {content new} : copy.buffer ≠ [] →
      Memory.appended fs.memory copy.directPtr copy.buffer = some content →
      content.length < 2 ^ 31 → codec.encode content = some new →
      Flushes fs fd copy now (fs.flushed fd copy new now)

/-- The copy has too much to be flushed; it may have been decompressed. -/
inductive Tears (fs : FileSystem codec) (fd : Nat) (copy : Inode) : FileSystem codec → Prop where
  | null : copy.directPtr = .null → 2 ^ 31 ≤ copy.size + copy.buffer.length →
      Tears fs fd copy (fs.putSlot fd { inode := copy, memory := fs.memory })
  | live {old} : Memory.at? fs.memory copy.directPtr = some old →
      2 ^ 31 ≤ (codec.decode old ++ copy.buffer).length →
      Tears fs fd copy (fs.putSlot fd {
        inode := { copy with
          size := (codec.decode old).length, directPtr := .ofBytes (codec.decode old) }
        memory := Memory.free fs.memory copy.directPtr })

/-- The state after a content that decodes to nothing is read. -/
def spoiled (fs : FileSystem codec) (inode : Inode) (now : Int) : FileSystem codec :=
  fs.putFile inode.name {
    inode := { inode with size := 0, directPtr := .null, atime := now, ctime := now }
    memory := Memory.free fs.memory inode.directPtr }

/-- A read of a stored file leads to the state, with or without an error. -/
inductive Reads (fs : FileSystem codec) (inode : Inode) (now : Int) :
    (done : Bool) → FileSystem codec → Prop where
  | null : inode.directPtr = .null →
      Reads fs inode now false (fs.putFile inode.name { inode, memory := fs.memory })
  | spoiled {old} : Memory.at? fs.memory inode.directPtr = some old → codec.decode old = [] →
      Reads fs inode now false (fs.spoiled inode now)
  | reread {old new} : Memory.at? fs.memory inode.directPtr = some old → codec.decode old ≠ [] →
      codec.encode (codec.decode old) = some new → Reads fs inode now true (fs.reread inode new now)

def without (fs : FileSystem codec) (inode : Inode) : FileSystem codec :=
  { fs with
    fileTable := (fs.fileTable.remove inode.name).getD fs.fileTable
    memory := Memory.free fs.memory inode.directPtr }

/-- The state after the file is taken off the counters of the monitor as well. -/
def dropped (fs : FileSystem codec) (inode : Inode) : FileSystem codec :=
  { fs.without inode with monitor := (fs.monitor.without inode.size).oneLess }

inductive Removes (fs : FileSystem codec) (inode : Inode) : (done : Bool) → FileSystem codec → Prop
    where
  | unknown : fs.monitor.bytesCounter = 0 → Removes fs inode false (fs.without inode)
  | uncounted : fs.monitor.bytesCounter ≠ 0 → fs.monitor.fileCounter = 0 →
      Removes fs inode false { fs.without inode with monitor := fs.monitor.without inode.size }
  | oversized : fs.monitor.bytesCounter ≠ 0 → fs.monitor.fileCounter ≠ 0 →
      Oversized (fs.without inode) → Removes fs inode false (fs.dropped inode)
  | done : fs.monitor.bytesCounter ≠ 0 → fs.monitor.fileCounter ≠ 0 →
      ¬ Oversized (fs.without inode) → Removes fs inode true (fs.dropped inode)

variable {fs fs' : FileSystem codec} {fd : Nat} {now : Int}

/-! ## Reading -/

theorem rtsReadInode_reads {inode : Inode} (present : fs.file inode.name = some inode) (now : Int) :
    (rtsReadInode inode.name now fs).Post (fun _ fs' => Reads fs inode now true fs')
      (fun _ fs' => Reads fs inode now false fs')
      (fun _ => inode.directPtr ≠ .null ∧ Memory.at? fs.memory inode.directPtr = none) := by
  simp only [rtsReadInode, post_bind, post_get, post_failIf]
  refine ⟨fun absent => ?_, fun _ => ?_⟩
  · rw [present] at absent
    cases absent
  apply post_onFile present
  apply InodeState.post_read
  · exact fun null => .null null
  · intro data raw
    exact ⟨fun null => (by cases raw.symm.trans null), by rw [raw]; rfl⟩
  · intro id ptr freed
    exact ⟨fun null => (by cases ptr.symm.trans null), freed⟩
  · exact fun old found nothing => .spoiled found nothing
  · exact fun old new found some_ encodes => .reread found some_ encodes

theorem Reads.stored {inode : Inode} {name : Filename} (reads : Reads fs inode now true fs')
    (present : fs.file name = some inode) : fs'.file name ≠ none := by
  obtain rfl : inode.name = name := fs.fileTable.named name inode present
  cases reads
  simp [file_reread present]

/-! ## Flushing -/

theorem toUnsigned32_self (size : Nat) : toUnsigned32 (size - toInt32 size) = 0 := by
  unfold toUnsigned32 toInt32
  rw [Int.bmod_def]
  split <;> omega

theorem rtsFflushInode_flushes {entry : Entry} (live : fs.slot fd = some entry) (now : Int) :
    (rtsFflushInode fd now fs).Post
      (fun _ fs' => fs.file entry.inode.name ≠ none ∧ Flushes fs fd entry.inode now fs' ∧
        ¬ Oversized fs')
      (fun _ fs' => fs.file entry.inode.name = none ∧ fs' = fs ∨
        fs.file entry.inode.name ≠ none ∧ (Flushes fs fd entry.inode now fs' ∧ Oversized fs' ∨
          entry.inode.buffer ≠ [] ∧ Tears fs fd entry.inode fs'))
      (fun _ => entry.inode.buffer ≠ [] ∧ entry.inode.directPtr ≠ .null ∧
        Memory.at? fs.memory entry.inode.directPtr = none) := by
  simp only [rtsFflushInode, fileTableFflush, post_bind, post_get, live, post_orFail, reduceCtorEq,
    false_implies, Option.some.injEq, forall_eq', true_and, post_failIf]
  refine ⟨fun absent => .inl ⟨absent, trivial⟩, fun stored => ?_⟩
  rw [post_ite]
  constructor
  · intro full
    have buffered := List.length_pos_iff.mp full
    simp only [fileTableFflushBytes, post_bind]
    apply post_onSlot live
    apply InodeState.post_fflush buffered
    · intro data raw
      exact ⟨buffered, by rw [raw]; nofun, by rw [raw]; rfl⟩
    · intro id ptr freed
      exact ⟨buffered, by rw [ptr]; nofun, freed⟩
    · exact fun null big => .inr ⟨stored, .inr ⟨buffered, .null null big⟩⟩
    · exact fun old found big => .inr ⟨stored, .inr ⟨buffered, .live found big⟩⟩
    · intro content new appended small encodes _
      have flushes : Flushes fs fd entry.inode now _ := .full buffered appended small encodes
      simp only [post_get, post_orFail, post_modify, slot_putSlot, if_true, live, Option.map_some,
        reduceCtorEq, false_implies, Option.some.injEq, forall_eq', true_and, slot_takeOver,
        slot_updateFile, fileTableSize, post_bind, post_failIf, post_pure]
      exact ⟨fun oversized => .inr ⟨stored, .inl ⟨flushes, oversized⟩⟩,
        fun sized => ⟨stored, flushes, sized⟩⟩
  · intro empty
    have buffered : entry.inode.buffer = [] := by simpa using empty
    have flushes : Flushes fs fd entry.inode now _ := .empty buffered
    simp only [post_get, post_orFail, post_modify, live, reduceCtorEq, false_implies,
      Option.some.injEq, forall_eq', true_and, slot_updateFile, fileTableSize, post_bind,
      post_failIf, post_pure, toUnsigned32_self]
    exact ⟨fun oversized => .inr ⟨stored, .inl ⟨flushes, oversized⟩⟩,
      fun sized => ⟨stored, flushes, sized⟩⟩

theorem file_recorded (fs : FileSystem codec) (copy : Inode) (bytesAdded : Nat) (now : Int)
    (name : Filename) :
    (fs.recorded copy bytesAdded now).file name = if name = copy.name then
      (fs.file copy.name).map fun inode => { inode with
        name := copy.name, atime := copy.atime, mtime := copy.mtime, ctime := now }
      else fs.file name :=
  file_updateFile fs copy.name _ name

theorem file_flushed (fs : FileSystem codec) (fd : Nat) (copy : Inode) (new : codec.Artifact)
    (now : Int) : ∃ added : Int, ∀ name, (fs.flushed fd copy new now).file name =
      if name = copy.name then
        (fs.file copy.name).map fun inode => { inode with
          name := copy.name, directPtr := .artifact fs.memory.length
          size := toUnsigned32 (inode.size + added)
          atime := copy.atime, mtime := now, ctime := now }
      else fs.file name := by
  refine ⟨toInt32 (codec.size new - toInt32 copy.size), fun name => ?_⟩
  rw [FileSystem.flushed]
  generalize toInt32 (codec.size new - toInt32 copy.size) = added
  generalize toUnsigned32 (codec.size new - toInt32 copy.size) = grown
  have same : (copy.flushed (codec.size new) fs.memory.length now).name = copy.name := rfl
  simp only [file_recorded, file_takeOver, file_putSlot, same, if_true]
  split
  · rw [Option.map_map]
    rfl
  · rfl

theorem slots_flushed (fs : FileSystem codec) (fd : Nat) (copy : Inode) (new : codec.Artifact)
    (now : Int) (other : Nat) : (fs.flushed fd copy new now).slot other =
      if other = fd then (fs.slot fd).map fun entry => { entry with
        inode := copy.flushed (codec.size new) fs.memory.length now }
      else fs.slot other := by
  have slot_ : (fs.flushed fd copy new now).slot other = (fs.putSlot fd {
      inode := copy.flushed (codec.size new) fs.memory.length now
      memory := Memory.free fs.memory copy.directPtr ++ [some new] }).slot other := rfl
  rw [slot_, slot_putSlot]

/-! ## Removing -/

theorem fileTable_without {inode : Inode} {table : FileTable}
    (gone : fs.fileTable.remove inode.name = some table) :
    (fs.without inode).fileTable = table := by
  rw [FileSystem.without, gone, Option.getD_some]

theorem file_without {inode : Inode} (present : fs.file inode.name = some inode)
    (name : Filename) :
    (fs.without inode).file name = if name = inode.name then none else fs.file name := by
  obtain ⟨table, gone⟩ := FileTable.remove_isSome present
  rw [file, fileTable_without gone, FileTable.get_remove gone]
  rfl

theorem file_counted (fs : FileSystem codec) (monitor : Monitor) (name : Filename) :
    ({ fs with monitor } : FileSystem codec).file name = fs.file name := rfl

/-- A removal takes its file away, whichever way it returns, and leaves the others. -/
theorem Removes.file {inode : Inode} {done : Bool} (removes : Removes fs inode done fs')
    (present : fs.file inode.name = some inode) (name : Filename) :
    fs'.file name = if name = inode.name then none else fs.file name := by
  have gone := file_without present name
  cases removes with
  | unknown => exact gone
  | uncounted | oversized | done => exact (file_counted _ _ _).trans gone

theorem Removes.same {inode : Inode} {done : Bool} (removes : Removes fs inode done fs') :
    fs'.created = fs.created ∧ ∀ fd, fs'.slot fd = fs.slot fd := by
  cases removes <;> exact ⟨rfl, fun _ => rfl⟩

def uncount (size : Nat) : Call codec Unit := do
  let fs ← Program.get
  let monitor ← ofExcept (fs.monitor.bytesRemoved (toUnsigned64 (toInt32 size)))
  Program.modify fun fs => { fs with monitor }
  let monitor ← ofExcept monitor.fileRemoved
  Program.modify fun fs => { fs with monitor }
  let _ ← fileTableSize
  pure ()

/-- The file leads to an artifact that is no longer there. -/
def Dangling (fs : FileSystem codec) (inode : Inode) : Prop :=
  inode.directPtr ≠ .null ∧ Memory.at? fs.memory inode.directPtr = none

theorem rtsRemoveInode_eq (name : Filename) : (rtsRemoveInode name : Call codec Unit) =
    rtsGetInode name >>= fun inode => fileTableRemove name >>= fun _ => uncount inode.size := rfl

theorem post_uncount {size : Nat} {Q : Unit → FileSystem codec → Prop}
    {E : Errno → FileSystem codec → Prop} {F : Fault → Prop}
    (unknown : fs.monitor.bytesCounter = 0 → E .EPERM fs)
    (uncounted : fs.monitor.bytesCounter ≠ 0 → fs.monitor.fileCounter = 0 →
      E .EPERM { fs with monitor := fs.monitor.without size })
    (oversized : fs.monitor.bytesCounter ≠ 0 → fs.monitor.fileCounter ≠ 0 → Oversized fs →
      E .bubbled { fs with monitor := (fs.monitor.without size).oneLess })
    (done : fs.monitor.bytesCounter ≠ 0 → fs.monitor.fileCounter ≠ 0 → ¬ Oversized fs →
      Q () { fs with monitor := (fs.monitor.without size).oneLess }) :
    (uncount size fs).Post Q E F := by
  rw [uncount, post_bind, post_get, post_bind]
  refine post_ofExcept (fun first is => ?_) (fun code failed => ?_)
  · obtain ⟨bytes, rfl⟩ := Monitor.bytesRemoved_eq_ok is
    rw [post_bind, post_modify, post_bind]
    refine post_ofExcept (fun second is => ?_) (fun code failed => ?_)
    · obtain ⟨files, rfl⟩ := Monitor.fileRemoved_eq_ok is
      rw [Monitor.without_fileCounter] at files
      simp only [post_bind, post_modify, fileTableSize, post_get, post_failIf, post_pure]
      exact ⟨fun wrong => oversized bytes files wrong, fun sized => done bytes files sized⟩
    · obtain ⟨files, rfl⟩ := Monitor.fileRemoved_eq_error failed
      rw [Monitor.without_fileCounter] at files
      exact uncounted bytes files
  · obtain ⟨bytes, rfl⟩ := Monitor.bytesRemoved_eq_error failed
    exact unknown bytes

theorem rtsRemoveInode_removes {inode : Inode} (present : fs.file inode.name = some inode) :
    (rtsRemoveInode inode.name fs).Post (fun _ fs' => Removes fs inode true fs')
      (fun _ fs' => ¬ Dangling fs inode ∧ Removes fs inode false fs')
      (fun _ => Dangling fs inode) := by
  obtain ⟨table, gone⟩ := FileTable.remove_isSome present
  have uncounts : ∀ memory, memory = Memory.free fs.memory inode.directPtr →
      (uncount inode.size { fs with memory, fileTable := table }).Post
        (fun _ fs' => Removes fs inode true fs') (fun _ fs' => Removes fs inode false fs')
        (fun _ => Dangling fs inode) := by
    rintro memory rfl
    have without : { fs with memory := Memory.free fs.memory inode.directPtr, fileTable := table } =
        fs.without inode := by
      simp only [FileSystem.without, gone, Option.getD_some]
    rw [without]
    refine post_uncount ?_ ?_ ?_ ?_
    · exact fun bytes => .unknown bytes
    · exact fun bytes files => .uncounted bytes files
    · exact fun bytes files oversized => .oversized bytes files oversized
    · exact fun bytes files sized => .done bytes files sized
  have nonempty : inode.name ≠ [] := by
    intro empty
    rw [empty, file_nil] at present
    cases present
  simp only [rtsRemoveInode_eq, rtsGetInode, post_bind, post_failIf, post_get, post_orFail, present,
    nonempty, false_implies, not_false_eq_true, true_implies, true_and, reduceCtorEq,
    Option.some.injEq, forall_eq', fileTableRemove, destroyArtifact, gone, post_modify]
  cases ptr : inode.directPtr with
  | null =>
      have counted := uncounts fs.memory (by rw [ptr]; rfl)
      have sound : ¬ Dangling fs inode := fun dangling => dangling.1 ptr
      exact counted.mono (fun _ _ removes => removes) (fun _ _ removes => ⟨sound, removes⟩)
        (fun _ dangling => dangling)
  | bytes raw => exact ⟨by simp [ptr], by rw [ptr]; rfl⟩
  | artifact id =>
      cases found : fs.memory.getD id none with
      | none =>
          simp only [found, post_fault]
          exact ⟨by simp [ptr], by rw [ptr]; exact found⟩
      | some artifact =>
          have counted := uncounts (fs.memory.set id none) (by rw [ptr]; rfl)
          have sound : ¬ Dangling fs inode := by
            rintro ⟨-, freed⟩
            rw [ptr] at freed
            cases found.symm.trans freed
          simp only [found, post_modify]
          exact counted.mono (fun _ _ removes => removes) (fun _ _ removes => ⟨sound, removes⟩)
            (fun _ dangling => dangling)

/-! ## The calls -/

/-- A read of a descriptor: the file is read, and then the copy flushed. -/
theorem fileSystemRead_reads (fs : FileSystem codec) (fd : Int) (pid : Pid) (now : Int) :
    (fileSystemRead fd pid now fs).Post
      (fun _ fs' => ∃ copy inode fs₁, fs.slot (toUnsigned32 fd) = some ⟨pid, copy⟩ ∧
        ¬ ShutOut copy pid ∧ fs.file copy.name = some inode ∧ Reads fs inode now true fs₁ ∧
        Flushes fs₁ (toUnsigned32 fd) copy now fs' ∧ ¬ Oversized fs')
      (fun _ fs' => (∀ copy, fs.slot (toUnsigned32 fd) = some ⟨pid, copy⟩ →
          ShutOut copy pid ∨ fs.file copy.name = none) ∧ fs' = fs ∨
        ∃ copy inode, fs.slot (toUnsigned32 fd) = some ⟨pid, copy⟩ ∧
          ¬ ShutOut copy pid ∧ fs.file copy.name = some inode ∧ (Reads fs inode now false fs' ∨
            ∃ fs₁, Reads fs inode now true fs₁ ∧
              (Flushes fs₁ (toUnsigned32 fd) copy now fs' ∧ Oversized fs' ∨
                copy.buffer ≠ [] ∧ Tears fs₁ (toUnsigned32 fd) copy fs')))
      (fun _ => ∃ copy inode, fs.slot (toUnsigned32 fd) = some ⟨pid, copy⟩ ∧
        ¬ ShutOut copy pid ∧ fs.file copy.name = some inode ∧
          (Memory.at? fs.memory inode.directPtr = none ∨
            ∃ fs₁, Reads fs inode now true fs₁ ∧ copy.buffer ≠ [] ∧ copy.directPtr ≠ .null ∧
              Memory.at? fs₁.memory copy.directPtr = none)) := by
  simp only [fileSystemRead, rtsGetInodeByFd, post_bind, post_get]
  refine post_ofExcept (fun copy got => ?_) (fun code failed => .inl ⟨fun copy live => ?_, rfl⟩)
  · have live : fs.slot (toUnsigned32 fd) = some ⟨pid, copy⟩ :=
      FileDescriptorTable.get_eq_ok.mp got
    have kept : ShutOut copy pid ∨ fs.file copy.name = none →
        ∀ other, fs.slot (toUnsigned32 fd) = some ⟨pid, other⟩ →
          ShutOut other pid ∨ fs.file other.name = none := by
      intro why other found
      cases live.symm.trans found
      exact why
    simp only [post_failIf]
    refine ⟨fun broken => .inl ⟨kept (.inl (.inl broken)), trivial⟩, fun whole =>
      ⟨fun locked => .inl ⟨kept (.inl (.inr locked)), trivial⟩, fun free => ?_⟩⟩
    have allowed : ¬ ShutOut copy pid := fun shut => shut.elim whole free
    cases present : fs.file copy.name with
    | none =>
        simp only [rtsReadInode, post_bind, post_get, post_failIf]
        exact ⟨fun _ => .inl ⟨kept (.inr present), trivial⟩, fun stored => absurd present stored⟩
    | some inode =>
        have found := present
        have named : copy.name = inode.name := (fs.fileTable.named copy.name inode present).symm
        rw [named] at present ⊢
        refine (rtsReadInode_reads present now).mono ?_ ?_ ?_
        · intro bytes fs₁ reads
          have live₁ : fs₁.slot (toUnsigned32 fd) = some ⟨pid, copy⟩ := by
            cases reads
            exact live
          have stored : fs₁.file copy.name ≠ none := reads.stored found
          refine (rtsFflushInode_flushes live₁ now).mono ?_ ?_ ?_
          · rintro - fs' ⟨-, flushes, sized⟩
            exact ⟨copy, inode, fs₁, live, allowed, found, reads, flushes, sized⟩
          · rintro - fs' (⟨absent, -⟩ | ⟨-, fails⟩)
            · exact absurd absent stored
            · exact .inr ⟨copy, inode, live, allowed, found, .inr ⟨fs₁, reads, fails⟩⟩
          · exact fun _ freed => ⟨copy, inode, live, allowed, found, .inr ⟨fs₁, reads, freed⟩⟩
        · exact fun _ fs' reads => .inr ⟨copy, inode, live, allowed, found, .inl reads⟩
        · exact fun _ freed => ⟨copy, inode, live, allowed, found, .inl freed.2⟩
  · rw [FileDescriptorTable.get_eq_ok.mpr live] at failed
    cases failed

theorem writeDescriptor_flushes (fs : FileSystem codec) (fd : Int) (bytes : List UInt8) (pid : Pid)
    (now : Int) :
    (writeDescriptor fd (some bytes) pid now fs).Post
      (fun _ fs' => ∃ copy, fs.slot (toUnsigned32 fd) = some ⟨pid, copy⟩ ∧ ¬ ShutOut copy pid ∧
        bytes ≠ [] ∧ fs.file copy.name ≠ none ∧
        Flushes (fs.updateSlot (toUnsigned32 fd) fun _ => copy.appended bytes now) (toUnsigned32 fd)
          (copy.appended bytes now) now fs' ∧ ¬ Oversized fs')
      (fun _ fs' => fs' = fs ∨ ∃ copy, fs.slot (toUnsigned32 fd) = some ⟨pid, copy⟩ ∧
        ¬ ShutOut copy pid ∧ bytes ≠ [] ∧
        (fs.file copy.name = none ∧
            fs' = fs.updateSlot (toUnsigned32 fd) (fun _ => copy.appended bytes now) ∨
          fs.file copy.name ≠ none ∧
            (Flushes (fs.updateSlot (toUnsigned32 fd) fun _ => copy.appended bytes now)
                (toUnsigned32 fd) (copy.appended bytes now) now fs' ∧ Oversized fs' ∨
              Tears (fs.updateSlot (toUnsigned32 fd) fun _ => copy.appended bytes now)
                (toUnsigned32 fd) (copy.appended bytes now) fs')))
      (fun _ => ∃ copy, fs.slot (toUnsigned32 fd) = some ⟨pid, copy⟩ ∧ copy.directPtr ≠ .null ∧
        Memory.at? fs.memory copy.directPtr = none) := by
  simp only [writeDescriptor, post_bind]
  refine post_rtsGetInodeByFd (fun copy live => ?_) (fun _ => .inl rfl)
  simp only [post_failIf]
  refine ⟨fun _ => .inl trivial, fun whole => ⟨fun _ => .inl trivial, fun free => ?_⟩⟩
  have allowed : ¬ ShutOut copy pid := fun shut => shut.elim whole free
  refine post_ofExcept (fun buffered is => ?_) (fun _ _ => .inl rfl)
  obtain ⟨some_, rfl⟩ : bytes ≠ [] ∧ copy.appended bytes now = buffered := by
    simp only [Inode.write] at is
    split at is
    · cases is
    · rename_i some_
      split at is <;> cases is
      exact ⟨some_, rfl⟩
  rw [post_modify]
  have live' : (fs.updateSlot (toUnsigned32 fd) fun _ => copy.appended bytes now).slot
      (toUnsigned32 fd) = some ⟨pid, copy.appended bytes now⟩ := by simp [live]
  refine (rtsFflushInode_flushes live' now).mono ?_ ?_ ?_
  · rintro - fs' ⟨stored, flushes, sized⟩
    exact ⟨copy, live, allowed, some_, stored, flushes, sized⟩
  · rintro - fs' (⟨absent, rfl⟩ | ⟨stored, ⟨flushes, oversized⟩ | ⟨-, tears⟩⟩)
    · exact .inr ⟨copy, live, allowed, some_, .inl ⟨absent, rfl⟩⟩
    · exact .inr ⟨copy, live, allowed, some_, .inr ⟨stored, .inl ⟨flushes, oversized⟩⟩⟩
    · exact .inr ⟨copy, live, allowed, some_, .inr ⟨stored, .inr tears⟩⟩
  · exact fun _ freed => ⟨copy, live, freed.2⟩

/-- The pid holds the lock of the file and can remove it. -/
def Removable (inode : Inode) (pid : Pid) : Prop :=
  inode.locked = pid ∧ inode.isFileLocked ≠ -1 ∧ inode.isFileLocked ≠ 0

instance (inode : Inode) (pid : Pid) : Decidable (Removable inode pid) :=
  inferInstanceAs (Decidable (_ ∧ _ ∧ _))

/-- A removal takes a file away that its caller has locked, or does nothing. -/
theorem fileSystemRemove_removes (fs : FileSystem codec) (name : Filename) (pid : Pid) :
    (fileSystemRemove name pid fs).Post
      (fun _ fs' => ∃ inode, fs.file name = some inode ∧ Removable inode pid ∧
        Removes fs inode true fs')
      (fun _ fs' => (∀ inode, fs.file name = some inode → ¬ Removable inode pid) ∧ fs' = fs ∨
        ∃ inode, fs.file name = some inode ∧ Removable inode pid ∧ ¬ Dangling fs inode ∧
          Removes fs inode false fs')
      (fun _ => ∃ inode, fs.file name = some inode ∧ Dangling fs inode) := by
  simp only [fileSystemRemove, rtsGetInode, post_bind, post_failIf, post_get, post_orFail]
  have nothing : ∀ inode, name = [] → fs.file name = some inode → ¬ Removable inode pid := by
    rintro inode rfl present
    rw [file_nil] at present
    cases present
  refine ⟨fun empty => .inl ⟨fun inode => nothing inode empty, trivial⟩, fun _ =>
    ⟨fun empty => .inl ⟨fun inode => nothing inode empty, trivial⟩, fun _ => ⟨fun absent => ?_,
      fun inode present => ?_⟩⟩⟩
  · refine .inl ⟨fun inode present => ?_, trivial⟩
    cases absent.symm.trans present
  have kept : ¬ Removable inode pid →
      ∀ other, fs.file name = some other → ¬ Removable other pid := by
    intro why other found
    cases present.symm.trans found
    exact why
  refine ⟨fun error => .inl ⟨kept fun removable => removable.2.1 error, trivial⟩, fun whole =>
    ⟨fun other => .inl ⟨kept fun removable => ?_, trivial⟩, fun own => ?_⟩⟩
  · exact other.elim removable.2.2 fun different => different (asInt_inj.mpr removable.1)
  obtain ⟨held, own⟩ := not_or.mp own
  rw [not_not, Inode.isFileLocked, asInt_inj] at own
  have removable : Removable inode pid := ⟨own, whole, held⟩
  have found := present
  obtain rfl : inode.name = name := fs.fileTable.named name inode present
  refine (rtsRemoveInode_removes present).mono ?_ ?_ ?_
  · exact fun _ fs' removes => ⟨inode, found, removable, removes⟩
  · exact fun _ fs' ⟨sound, removes⟩ => .inr ⟨inode, found, removable, sound, removes⟩
  · exact fun _ dangling => ⟨inode, found, dangling⟩

end FileSystem

namespace WriteState

open FileSystem

/-- An eviction reads its victim and removes it. -/
theorem rtsEvict_evicts (s : WriteState codec) (now : Int) :
    (rtsEvict now s).Post
      (fun _ s' => ∃ inode fs₁ inode₁, s.fileSystem.chosen = some inode ∧
        Reads s.fileSystem.started inode now true fs₁ ∧ fs₁.file inode.name = some inode₁ ∧
        Removes fs₁ inode₁ true s'.fileSystem)
      (fun _ s' => s'.fileSystem = s.fileSystem.started ∨ ∃ inode,
        s.fileSystem.chosen = some inode ∧ (Reads s.fileSystem.started inode now false s'.fileSystem ∨
          ∃ fs₁ inode₁, Reads s.fileSystem.started inode now true fs₁ ∧
            fs₁.file inode.name = some inode₁ ∧ Removes fs₁ inode₁ false s'.fileSystem))
      (fun _ => True) := by
  simp only [rtsEvict, onFileSystem, post_bind, post_zoom, post_modify, post_get]
  refine post_ofExcept (fun selected is => ?_) (fun _ _ => .inl rfl)
  -- the counter is not part of what a victim is selected by
  have is : victim s.fileSystem = .ok selected := is
  have chosen := chosen_eq is
  cases present : s.fileSystem.file selected.name with
  | none =>
      simp only [rtsReadInode, post_bind, post_get, post_failIf]
      exact ⟨fun _ => .inl rfl, fun stored => absurd present stored⟩
  | some inode =>
      rw [present] at chosen
      rw [← s.fileSystem.fileTable.named selected.name inode present]
      have present : s.fileSystem.started.file inode.name = some inode := file_of_chosen chosen
      refine (rtsReadInode_reads present now).mono ?_ ?_ (fun _ _ => trivial)
      · intro bytes fs₁ reads
        obtain ⟨inode₁, found, named⟩ : ∃ inode₁, fs₁.file inode.name = some inode₁ ∧
            inode₁.name = inode.name := by
          cases reads
          exact ⟨_, file_reread present _ now, rfl⟩
        rw [← named] at found
        rw [← named]
        refine (rtsRemoveInode_removes found).mono ?_ ?_ (fun _ _ => trivial)
        · exact fun _ fs₂ removes => ⟨inode, fs₁, inode₁, chosen, reads, named ▸ found, removes⟩
        · exact fun _ fs₂ ⟨_, removes⟩ =>
            .inr ⟨inode, chosen, .inr ⟨fs₁, inode₁, reads, named ▸ found, removes⟩⟩
      · exact fun _ fs₁ reads => .inr ⟨inode, chosen, .inl reads⟩

theorem keeps_rtsEvict {I : FileSystem codec → Prop} {now : Int}
    (start : ∀ fs, I fs → I fs.started)
    (read : ∀ fs inode done fs', I fs → fs.file inode.name = some inode →
      Reads fs inode now done fs' → I fs')
    (remove : ∀ fs inode done fs', I fs → fs.file inode.name = some inode →
      Removes fs inode done fs' → I fs')
    (s : WriteState codec) (holds : I s.fileSystem) :
    (rtsEvict now s).Post (fun _ s' => I s'.fileSystem) (fun _ s' => I s'.fileSystem)
      (fun _ => True) := by
  have started := start _ holds
  have reread : ∀ inode fs₁ done, s.fileSystem.chosen = some inode →
      Reads s.fileSystem.started inode now done fs₁ → I fs₁ :=
    fun inode fs₁ done taken reads => read _ inode done fs₁ started (file_of_chosen taken) reads
  have gone : ∀ inode fs₁ inode₁ done fs₂, s.fileSystem.chosen = some inode →
      Reads s.fileSystem.started inode now true fs₁ → fs₁.file inode.name = some inode₁ →
      Removes fs₁ inode₁ done fs₂ → I fs₂ := by
    intro inode fs₁ inode₁ done fs₂ taken reads found removes
    rw [← fs₁.fileTable.named inode.name inode₁ found] at found
    exact remove fs₁ inode₁ done fs₂ (reread inode fs₁ true taken reads) found removes
  refine (rtsEvict_evicts s now).mono ?_ ?_ (fun _ _ => trivial)
  · rintro - s' ⟨inode, fs₁, inode₁, taken, reads, found, removes⟩
    exact gone inode fs₁ inode₁ true _ taken reads found removes
  · rintro - s' (same | ⟨inode, taken, reads | ⟨fs₁, inode₁, reads, found, removes⟩⟩)
    · rw [same]
      exact started
    · exact reread inode _ false taken reads
    · exact gone inode fs₁ inode₁ false _ taken reads found removes

end WriteState

end FileStorage
