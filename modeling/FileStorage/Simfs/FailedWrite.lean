import FileStorage.Simfs.Run

/-! # Failed writes

A write evicts files until there is room and puts its bytes into the buffer of
the descriptor, and only then finds out whether the descriptor is good and
whether the buffer can be flushed. `Harms` lists the states from which it fails
after such a step; from all others a write that fails has changed nothing.
-/

namespace FileStorage

open Program FileSystem

variable {codec : Codec}

/-- What can be seen of a stored file, its times left out. -/
structure Stored where
  /-- `none` where there is nothing to decode -/
  content : Option (List UInt8)
  size : Nat
  locked : Pid
  pendingLocks : Nat
  referenceCount : Nat
  referenceList : List Pid
  deriving DecidableEq

namespace FileSystem

def stored (fs : FileSystem codec) (name : Filename) : Option Stored :=
  (fs.file name).map fun inode => {
    content := (Memory.at? fs.memory inode.directPtr).map codec.decode
    size := toUnsigned32 inode.size
    locked := inode.locked
    pendingLocks := inode.pendingLocks
    referenceCount := inode.referenceCount
    referenceList := inode.referenceList }

def unflushed (fs : FileSystem codec) (fd : Nat) : Option (List UInt8) :=
  (fs.slot fd).map fun entry => entry.inode.buffer

theorem stored_of_view {fs fs' : FileSystem codec} (same : fs'.view = fs.view) (name : Filename) :
    fs'.stored name = fs.stored name := by
  have memory : fs'.memory = fs.memory := congrArg View.memory same
  have files : (fs'.file name).map FileView.of = (fs.file name).map FileView.of :=
    congrFun (congrArg View.file same) name
  have seen : ∀ gs : FileSystem codec, gs.stored name =
      ((gs.file name).map FileView.of).map fun f => {
        content := (Memory.at? gs.memory f.directPtr).map codec.decode
        size := toUnsigned32 f.size
        locked := f.locked
        pendingLocks := f.pendingLocks
        referenceCount := f.referenceCount
        referenceList := f.referenceList } := by
    intro gs
    rw [Option.map_map]
    rfl
  rw [seen fs', seen fs, files, memory]

theorem unflushed_of_view {fs fs' : FileSystem codec} (same : fs'.view = fs.view) (fd : Nat) :
    fs'.unflushed fd = fs.unflushed fd := by
  have slots : (fs'.slot fd).map SlotView.of = (fs.slot fd).map SlotView.of :=
    congrFun (congrArg View.slot same) fd
  have seen : ∀ gs : FileSystem codec,
      gs.unflushed fd = ((gs.slot fd).map SlotView.of).map SlotView.buffer := by
    intro gs
    rw [Option.map_map]
    rfl
  rw [seen fs', seen fs, slots]

end FileSystem

structure Unchanged (s s' : WriteState codec) : Prop where
  files : ∀ name, s'.fileSystem.stored name = s.fileSystem.stored name
  buffers : ∀ fd, s'.fileSystem.unflushed fd = s.fileSystem.unflushed fd
  evicted : s'.evictedList = s.evictedList

theorem Unchanged.of_view {s s' : WriteState codec}
    (same : s'.fileSystem.view = s.fileSystem.view) (evicted : s'.evictedList = s.evictedList) :
    Unchanged s s' where
  files := stored_of_view same
  buffers := unflushed_of_view same
  evicted := evicted

/-! ## When a write fails too late -/

namespace FileSystem

def chosen (fs : FileSystem codec) : Option Inode :=
  (victim fs).toOption.bind fun inode => fs.file inode.name

def ShutOut (copy : Inode) (pid : Pid) : Prop :=
  copy.isFileLocked = -1 ∨ 0 < copy.isFileLocked ∧ copy.isFileLocked ≠ asInt pid

instance (copy : Inode) (pid : Pid) : Decidable (ShutOut copy pid) :=
  inferInstanceAs (Decidable (_ ∨ _))

/-- The descriptor does not take the bytes: it is not one of the pid, its copy is
    locked by another pid, or there is too much in its buffer. -/
def Refused (fs : FileSystem codec) (fd : Nat) (bytes : List UInt8) (pid : Pid) : Prop :=
  ∀ copy, fs.slot fd = some { owner := pid, inode := copy } →
    ShutOut copy pid ∨ 2 ^ 31 ≤ copy.buffer.length + bytes.length

def TooMuch (fs : FileSystem codec) (copy : Inode) : Prop :=
  copy.directPtr = .null ∧ 2 ^ 31 ≤ copy.size + copy.buffer.length ∨
  ∃ old, Memory.at? fs.memory copy.directPtr = some old ∧
    2 ^ 31 ≤ (codec.decode old ++ copy.buffer).length

/-- A copy with something in its buffer cannot be flushed into its file: the file
    is gone, there is too much to be flushed, or the size of the file table would
    then look like an error. -/
def Unfit (fs : FileSystem codec) (copy : Inode) : Prop :=
  fs.file copy.name = none ∨ TooMuch fs copy ∨ ∃ content new,
    Memory.appended fs.memory copy.directPtr copy.buffer = some content ∧
    codec.encode content = some new ∧
    toInt32 (toUnsigned64
      (fs.fileTable.size + toInt32 (codec.size new - toInt32 copy.size))) = -1

def Stuck (fs : FileSystem codec) (fd : Nat) (bytes : List UInt8) (pid : Pid) : Prop :=
  ∃ copy, fs.slot fd = some { owner := pid, inode := copy } ∧ ¬ ShutOut copy pid ∧
    copy.buffer.length + bytes.length < 2 ^ 31 ∧
    Unfit fs { copy with buffer := copy.buffer ++ bytes }

/-- The write has to evict a file for want of room, and may. -/
def Evicting (fs : FileSystem codec) (count : Int) : Prop :=
  rtsAvailableBytes fs < count ∧ rtsAvailableBytes fs ≠ -1 ∧ fs.replacementPolicy ≠ .none

/-- No eviction is allowed, or there is no file to evict but an empty one. -/
def NoVictim (fs : FileSystem codec) : Prop :=
  rtsAvailableBytes fs = -1 ∨ fs.replacementPolicy = .none ∨
    ∀ inode, fs.chosen = some inode → inode.directPtr = .null

def SpoiltVictim (fs : FileSystem codec) : Prop :=
  ∃ inode old, fs.chosen = some inode ∧ Memory.at? fs.memory inode.directPtr = some old ∧
    codec.decode old = []

/-- The victim can be read; `new` is the artifact made from its content. -/
def Readable (fs : FileSystem codec) (inode : Inode) (new : codec.Artifact) : Prop :=
  ∃ old, fs.chosen = some inode ∧ Memory.at? fs.memory inode.directPtr = some old ∧
    codec.decode old ≠ [] ∧ codec.encode (codec.decode old) = some new

def Counted (fs : FileSystem codec) (size : Nat) : Prop :=
  fs.monitor.bytesCounter ≠ 0 ∧ fs.monitor.fileCounter ≠ 0 ∧
    toInt32 (toUnsigned64 (fs.fileTable.size - toInt32 size)) ≠ -1

def reread (fs : FileSystem codec) (inode : Inode) (new : codec.Artifact) (now : Int) :
    FileSystem codec :=
  fs.putFile inode.name {
    inode := { inode with
      size := codec.size new, directPtr := .artifact fs.memory.length, atime := now, ctime := now }
    memory := Memory.free fs.memory inode.directPtr ++ [some new] }

def removed (fs : FileSystem codec) (inode : Inode) (new : codec.Artifact) (now : Int) :
    FileSystem codec :=
  let read := fs.reread inode new now
  { read with
    fileTable := (read.fileTable.remove inode.name).getD read.fileTable
    memory := Memory.free fs.memory inode.directPtr ++ [none]
    monitor := { fs.monitor with
      bytesCounter := toUnsigned64
        (fs.monitor.bytesCounter - toUnsigned64 (toInt32 (codec.size new)))
      fileCounter := fs.monitor.fileCounter - 1 } }

def evicted (fs : FileSystem codec) (inode : Inode) (new : codec.Artifact) (now : Int) :
    FileSystem codec :=
  { fs with monitor := fs.monitor.evictionStarted }.removed inode new now

/-- A write of bytes that need `count` bytes of room fails too late. `began` says
    that it has evicted a file before it comes to the state. -/
inductive Harms (fd : Nat) (bytes : List UInt8) (pid : Pid) (now count : Int) :
    (began : Bool) → FileSystem codec → Prop where
  | refused {fs} : count ≤ rtsAvailableBytes fs → Refused fs fd bytes pid →
      Harms fd bytes pid now count true fs
  | stuck {began fs} : count ≤ rtsAvailableBytes fs → Stuck fs fd bytes pid →
      Harms fd bytes pid now count began fs
  | noVictim {fs} : rtsAvailableBytes fs < count → NoVictim fs →
      Harms fd bytes pid now count true fs
  | spoilt {began fs} : Evicting fs count → SpoiltVictim fs → Harms fd bytes pid now count began fs
  | uncounted {began fs inode new} : Evicting fs count → Readable fs inode new →
      ¬ Counted fs (codec.size new) → Harms fd bytes pid now count began fs
  | evict {began fs inode new} : Evicting fs count → Readable fs inode new →
      Counted fs (codec.size new) → Harms fd bytes pid now count true (fs.evicted inode new now) →
      Harms fd bytes pid now count began fs

def WriteHarms (fs : FileSystem codec) (fd : Int) (buf : Option (List UInt8)) (pid : Pid)
    (now : Int) : Prop :=
  ∃ bytes artifact, buf = some bytes ∧ bytes.length < 2 ^ 31 ∧ codec.encode bytes = some artifact ∧
    codec.size artifact ≤ fs.memoryLimit ∧
    Harms (toUnsigned32 fd) bytes pid now (codec.size artifact) false fs

variable {fs fs' : FileSystem codec} {name : Filename} {fd : Nat} {bytes : List UInt8} {pid : Pid}
  {now count : Int} {began : Bool} {inode : Inode} {new : codec.Artifact}

/-! ## Flushing -/

theorem file_takeOver (fs : FileSystem codec) (flushed : Inode) (bytesAdded : Int)
    (other : Filename) : (fs.takeOver flushed bytesAdded).file other =
      if other = flushed.name then (fs.file flushed.name).map fun inode => { inode with
        name := flushed.name
        directPtr := flushed.directPtr
        size := toUnsigned32 (inode.size + bytesAdded) }
      else fs.file other :=
  file_updateFile fs flushed.name _ other

theorem size_takeOver (fs : FileSystem codec) (flushed : Inode) (bytesAdded : Int) :
    (fs.takeOver flushed bytesAdded).fileTable.size =
      toUnsigned64 (fs.fileTable.size + bytesAdded) := by
  simp only [takeOver, updateFile, (FileTable.update_counters _ _ _).2]

theorem size_updateFile (fs : FileSystem codec) (name : Filename) (f : Inode → Inode) :
    (fs.updateFile name f).fileTable.size = fs.fileTable.size :=
  (FileTable.update_counters _ _ _).2

theorem stored_counted (fs : FileSystem codec) (monitor : Monitor) (name : Filename) :
    ({ fs with monitor } : FileSystem codec).stored name = fs.stored name := rfl

theorem stored_ne_of_size {size : Nat} (present : fs.file name = some inode)
    (after : (fs'.file name).map Inode.size = some size)
    (sizes : toUnsigned32 size ≠ toUnsigned32 inode.size) : fs'.stored name ≠ fs.stored name := by
  obtain ⟨inode', present', rfl⟩ := Option.map_eq_some_iff.mp after
  intro same
  have same := congrArg (Option.map Stored.size) same
  simp only [stored, present, present', Option.map_some, Option.some.injEq] at same
  exact sizes same

theorem toUnsigned32_add_ne {size : Nat} {table : Nat} {added : Int}
    (sized : toInt32 table ≠ -1) (oversized : toInt32 (toUnsigned64 (table + added)) = -1) :
    toUnsigned32 (toUnsigned32 (size + added)) ≠ toUnsigned32 size := by
  unfold toInt32 toUnsigned64 at *
  unfold toUnsigned32
  rw [Int.bmod_def] at *
  split at sized <;> split at oversized <;> omega

theorem fileTableFflushBytes_exact {entry : Entry} (live : fs.slot fd = some entry)
    (present : fs.file entry.inode.name = some inode) (buffered : entry.inode.buffer ≠ [])
    (now : Int) :
    (fileTableFflushBytes fd entry.inode now fs).Post
      (fun _ fs' => ¬ TooMuch fs entry.inode ∧ ∃ flushed content new,
        Memory.appended fs.memory entry.inode.directPtr entry.inode.buffer = some content ∧
        codec.encode content = some new ∧ fs'.slot fd = some flushed ∧
        fs'.fileTable.size = toUnsigned64
          (fs.fileTable.size + toInt32 (codec.size new - toInt32 entry.inode.size)) ∧
        ∃ stored, fs'.file entry.inode.name = some stored ∧ stored.size = toUnsigned32
          (inode.size + toInt32 (codec.size new - toInt32 entry.inode.size)))
      (fun _ fs' => TooMuch fs entry.inode ∧ fs'.unflushed fd = some entry.inode.buffer)
      (fun _ => entry.inode.directPtr ≠ .null ∧
        Memory.at? fs.memory entry.inode.directPtr = none) := by
  simp only [fileTableFflushBytes, post_bind]
  apply post_onSlot live
  apply InodeState.post_fflush buffered
  · intro data raw
    exact ⟨by rw [raw]; nofun, by rw [raw]; rfl⟩
  · intro id ptr freed
    exact ⟨by rw [ptr]; nofun, freed⟩
  · intro null big
    exact ⟨.inl ⟨null, big⟩, by simp [unflushed, live]⟩
  · intro old found big
    exact ⟨.inr ⟨old, found, big⟩, by simp [unflushed, live]⟩
  · intro content new appended small encodes fits
    simp only [post_get, post_orFail, post_modify, slot_putSlot, if_true, live, Option.map_some,
      reduceCtorEq, false_implies, Option.some.injEq, forall_eq', true_and, slot_takeOver]
    refine ⟨?_, _, content, new, appended, encodes, rfl, ?_, ?_⟩
    · rintro (⟨null, big⟩ | ⟨old, found, big⟩)
      · exact absurd big (not_le.mpr (fits null))
      · obtain rfl := Option.some.inj ((Memory.appended_of_live found _).symm.trans appended)
        exact absurd big (not_le.mpr small)
    · exact size_takeOver _ _ _
    · simp [file_takeOver, present]

/-- A flush fails exactly if the copy does not fit, and leaves the buffer full or
    the size of the file different. -/
theorem rtsFflushInode_exact {entry : Entry} (live : fs.slot fd = some entry)
    (buffered : entry.inode.buffer ≠ []) (sized : toInt32 fs.fileTable.size ≠ -1) (now : Int) :
    (rtsFflushInode fd now fs).Post
      (fun _ _ => ¬ Unfit fs entry.inode)
      (fun _ fs' => Unfit fs entry.inode ∧ (fs'.unflushed fd = some entry.inode.buffer ∨
        ∃ name, fs'.stored name ≠ fs.stored name))
      (fun _ => ¬ Unfit fs entry.inode) := by
  have full : fs.unflushed fd = some entry.inode.buffer := by simp [unflushed, live]
  simp only [rtsFflushInode, fileTableFflush, post_bind, post_get, live, post_orFail, reduceCtorEq,
    false_implies, Option.some.injEq, forall_eq', true_and, post_failIf]
  refine ⟨fun absent => ⟨.inl absent, .inl full⟩, fun stored => ?_⟩
  obtain ⟨inode, present⟩ := Option.ne_none_iff_exists'.mp stored
  rw [if_pos (List.length_pos_iff.mpr buffered), post_bind]
  refine (fileTableFflushBytes_exact live present buffered now).mono ?_ ?_ ?_
  · rintro - fs₁ ⟨fits, flushed, content, new, appended, encodes, found, size, after, present', size'⟩
    simp only [found, post_orFail, post_modify, reduceCtorEq, false_implies, Option.some.injEq,
      forall_eq', true_and, slot_updateFile, fileTableSize, post_bind, post_get, post_failIf,
      post_pure, size_updateFile, size]
    constructor
    · intro oversized
      refine ⟨.inr (.inr ⟨content, new, appended, encodes, oversized⟩), .inr ⟨entry.inode.name, ?_⟩⟩
      rw [stored_counted]
      exact stored_ne_of_size present (by simp [present', size'])
        (toUnsigned32_add_ne sized oversized)
    · rintro allowed (absent | tooMuch | ⟨content', new', appended', encodes', oversized⟩)
      · exact stored absent
      · exact fits tooMuch
      · obtain rfl := Option.some.inj (appended.symm.trans appended')
        obtain rfl := Option.some.inj (encodes.symm.trans encodes')
        exact allowed oversized
  · rintro - fs₁ ⟨tooMuch, unflushed⟩
    exact ⟨.inr (.inl tooMuch), .inl unflushed⟩
  · rintro - ⟨pointed, none_⟩ (absent | (⟨null, -⟩ | ⟨old, found, -⟩) | ⟨content, new, appended, -⟩)
    · exact stored absent
    · exact pointed null
    · cases none_.symm.trans found
    · cases ptr : entry.inode.directPtr with
      | null => exact pointed ptr
      | _ =>
          rw [ptr] at none_ appended
          simp only [Memory.appended, none_, Option.map_none, reduceCtorEq] at appended

theorem Stuck.not_refused (stuck : Stuck fs fd bytes pid) : ¬ Refused fs fd bytes pid := by
  obtain ⟨copy, live, allowed, fits, -⟩ := stuck
  intro refused
  rcases refused copy live with shut | big
  · exact allowed shut
  · exact absurd fits (not_lt.mpr big)

/-- The end of a write fails exactly if the descriptor is refused or stuck, and only
    a descriptor that is stuck has been touched. -/
theorem writeDescriptor_exact (some_ : bytes ≠ []) (sized : toInt32 fs.fileTable.size ≠ -1)
    (fd : Int) (pid : Pid) (now : Int) :
    (writeDescriptor fd (some bytes) pid now fs).Post
      (fun _ _ => ¬ Refused fs (toUnsigned32 fd) bytes pid ∧ ¬ Stuck fs (toUnsigned32 fd) bytes pid)
      (fun _ fs' => Refused fs (toUnsigned32 fd) bytes pid ∧ fs' = fs ∨
        Stuck fs (toUnsigned32 fd) bytes pid ∧
          (fs'.unflushed (toUnsigned32 fd) ≠ fs.unflushed (toUnsigned32 fd) ∨
            ∃ name, fs'.stored name ≠ fs.stored name))
      (fun _ => ¬ Refused fs (toUnsigned32 fd) bytes pid ∧
        ¬ Stuck fs (toUnsigned32 fd) bytes pid) := by
  simp only [writeDescriptor, rtsGetInodeByFd, post_bind, post_get]
  refine post_ofExcept (fun copy got => ?_) (fun _ failed => .inl ⟨fun copy live => ?_, rfl⟩)
  · have live : fs.slot (toUnsigned32 fd) = some { owner := pid, inode := copy } :=
      FileDescriptorTable.get_eq_ok.mp got
    have unique : ∀ other, fs.slot (toUnsigned32 fd) = some { owner := pid, inode := other } →
        copy = other := by
      intro other found
      cases live.symm.trans found
      rfl
    have refused : ShutOut copy pid ∨ 2 ^ 31 ≤ copy.buffer.length + bytes.length →
        Refused fs (toUnsigned32 fd) bytes pid := by
      intro why other found
      obtain rfl := unique other found
      exact why
    simp only [post_failIf]
    refine ⟨fun broken => .inl ⟨refused (.inl (.inl broken)), trivial⟩, fun whole =>
      ⟨fun locked => .inl ⟨refused (.inl (.inr locked)), trivial⟩, fun free => ?_⟩⟩
    have allowed : ¬ ShutOut copy pid := fun shut => shut.elim whole free
    simp only [Inode.write, if_neg some_]
    by_cases big : 2 ^ 31 ≤ copy.buffer.length + bytes.length
    · simp only [if_pos big]
      exact post_ofExcept (fun _ is => by cases is) fun _ _ => .inl ⟨refused (.inr big), rfl⟩
    · simp only [if_neg big]
      refine post_ofExcept (fun buffered is => ?_) (fun _ failed => by cases failed)
      obtain rfl := Except.ok.inj is
      -- from here on the copy holds the bytes
      have taken : ¬ Refused fs (toUnsigned32 fd) bytes pid := fun refused =>
        (refused copy live).elim allowed big
      have stuck : Stuck fs (toUnsigned32 fd) bytes pid ↔
          Unfit fs { copy with buffer := copy.buffer ++ bytes } := by
        constructor
        · rintro ⟨other, found, -, -, unfit⟩
          obtain rfl := unique other found
          exact unfit
        · exact fun unfit => ⟨copy, live, allowed, not_le.mp big, unfit⟩
      rw [stuck]
      simp only [post_modify]
      have live' : (fs.updateSlot (toUnsigned32 fd) fun _ =>
          { copy with buffer := copy.buffer ++ bytes, ctime := now }).slot (toUnsigned32 fd) =
          some { owner := pid, inode :=
            { copy with buffer := copy.buffer ++ bytes, ctime := now } } := by simp [live]
      refine (rtsFflushInode_exact live' (by simp [some_]) sized now).mono ?_ ?_ ?_
      · exact fun _ _ fits => ⟨taken, fits⟩
      · rintro - fs₁ ⟨unfit, full | seen⟩
        · refine .inr ⟨unfit, .inl ?_⟩
          rw [full]
          simp [unflushed, live, some_]
        · exact .inr ⟨unfit, .inr seen⟩
      · exact fun _ fits => ⟨taken, fits⟩
  · rw [FileDescriptorTable.get_eq_ok.mpr live] at failed
    cases failed

/-! ## Evicting -/

theorem chosen_eq {victim_ : Inode} (selected : victim fs = .ok victim_) :
    fs.chosen = fs.file victim_.name := by
  simp [chosen, selected, Except.toOption]

theorem file_of_chosen (taken : fs.chosen = some inode) : fs.file inode.name = some inode := by
  obtain ⟨selected, -, present⟩ := Option.bind_eq_some_iff.mp taken
  rw [fs.fileTable.named selected.name inode present]
  exact present

theorem rtsReadInode_exact (present : fs.file inode.name = some inode) (now : Int) :
    (rtsReadInode inode.name now fs).Post
      (fun _ fs' => ∃ old new, Memory.at? fs.memory inode.directPtr = some old ∧
        codec.decode old ≠ [] ∧ codec.encode (codec.decode old) = some new ∧
        fs' = fs.reread inode new now)
      (fun _ fs' => inode.directPtr = .null ∧ fs'.view = fs.view ∨
        ∃ old, Memory.at? fs.memory inode.directPtr = some old ∧ codec.decode old = [] ∧
          fs'.stored inode.name ≠ fs.stored inode.name)
      (fun _ => inode.directPtr ≠ .null ∧ Memory.at? fs.memory inode.directPtr = none) := by
  simp only [rtsReadInode, post_bind, post_get, post_failIf]
  refine ⟨fun absent => ?_, fun _ => ?_⟩
  · rw [present] at absent
    cases absent
  apply post_onFile present
  apply InodeState.post_read
  · intro null
    exact .inl ⟨null, (view_putFile id present rfl).trans (changeFile_id fs.view inode.name)⟩
  · intro data raw
    exact ⟨fun null => (by cases raw.symm.trans null), by rw [raw]; rfl⟩
  · intro id ptr freed
    exact ⟨fun null => (by cases ptr.symm.trans null), freed⟩
  · intro old found nothing
    refine .inr ⟨old, found, nothing, fun same => ?_⟩
    have found : Memory.at? fs.memory inode.directPtr = some old := found
    have null : ∀ memory : Memory codec, Memory.at? memory .null = none := fun _ => rfl
    have same := congrArg (Option.map Stored.content) same
    simp [stored, present, found, null] at same
  · intro old new found some_ encodes
    exact ⟨old, new, found, some_, encodes, rfl⟩

theorem file_reread (present : fs.file inode.name = some inode) (new : codec.Artifact) (now : Int) :
    (fs.reread inode new now).file inode.name = some { inode with
      size := codec.size new, directPtr := .artifact fs.memory.length, atime := now,
      ctime := now } := by
  simp [reread, present]

theorem memory_reread (fs : FileSystem codec) (inode : Inode) (new : codec.Artifact) (now : Int) :
    (fs.reread inode new now).memory.getD fs.memory.length none = some new ∧
      (fs.reread inode new now).memory.set fs.memory.length none =
        Memory.free fs.memory inode.directPtr ++ [none] := by
  have length := Memory.length_free fs.memory inode.directPtr
  have memory : (fs.reread inode new now).memory =
      Memory.free fs.memory inode.directPtr ++ [some new] := rfl
  rw [memory, ← length]
  exact ⟨by simp, by simp⟩

theorem size_reread (fs : FileSystem codec) (inode : Inode) (new : codec.Artifact) (now : Int) :
    (fs.reread inode new now).fileTable.size = fs.fileTable.size :=
  (FileTable.update_counters _ _ _).2

/-- The removal of a file that has just been read fails exactly if a counter
    does not allow it. -/
theorem rtsRemoveInode_exact (present : fs.file inode.name = some inode) (new : codec.Artifact)
    (now : Int) :
    (rtsRemoveInode inode.name (fs.reread inode new now)).Post
      (fun _ fs' => Counted fs (codec.size new) ∧ fs' = fs.removed inode new now)
      (fun _ _ => ¬ Counted fs (codec.size new))
      (fun _ => False) := by
  have nonempty : inode.name ≠ [] := by
    intro empty
    rw [empty, file_nil] at present
    cases present
  have present' := file_reread present new now
  obtain ⟨table, gone⟩ := FileTable.remove_isSome present'
  have size := (FileTable.remove_counters gone present').2
  rw [size_reread] at size
  simp only [rtsRemoveInode, rtsGetInode, fileTableRemove, destroyArtifact, post_bind, post_failIf,
    post_get, post_orFail, present', nonempty, false_implies, not_false_eq_true, true_implies,
    true_and, reduceCtorEq, Option.some.injEq, forall_eq', memory_reread, post_modify, gone]
  have monitor : (fs.reread inode new now).monitor = fs.monitor := rfl
  simp only [monitor, Monitor.bytesRemoved]
  by_cases bytes : fs.monitor.bytesCounter = 0
  · simp only [if_pos bytes]
    exact post_ofExcept nofun fun _ _ counted => counted.1 bytes
  simp only [if_neg bytes]
  refine post_ofExcept (fun first is => ?_) nofun
  obtain rfl := Except.ok.inj is
  simp only [Monitor.fileRemoved]
  by_cases files : fs.monitor.fileCounter = 0
  · simp only [if_pos files]
    exact post_ofExcept nofun fun _ _ counted => counted.2.1 files
  simp only [if_neg files]
  refine post_ofExcept (fun second is => ?_) nofun
  obtain rfl := Except.ok.inj is
  simp only [fileTableSize, post_bind, post_get, post_failIf, post_pure, size]
  refine ⟨fun oversized counted => counted.2.2 oversized, fun sized => ⟨⟨bytes, files, sized⟩, ?_⟩⟩
  simp only [removed, gone, Option.getD_some]

theorem rtsEvict_exact (s : WriteState codec) (now : Int) :
    (WriteState.rtsEvict now s).Post
      (fun _ s' => ∃ inode new, Readable s.fileSystem inode new ∧
        Counted s.fileSystem (codec.size new) ∧ s'.fileSystem = s.fileSystem.evicted inode new now ∧
        s'.evictedList.length = s.evictedList.length + 1)
      (fun _ s' =>
        (∀ inode, s.fileSystem.chosen = some inode → inode.directPtr = .null) ∧ Unchanged s s' ∨
        SpoiltVictim s.fileSystem ∧ ¬ Unchanged s s' ∧
          s'.evictedList.length = s.evictedList.length ∨
        (∃ inode new, Readable s.fileSystem inode new ∧ ¬ Counted s.fileSystem (codec.size new)) ∧
          s'.evictedList.length = s.evictedList.length + 1)
      (fun _ => ∃ inode, s.fileSystem.chosen = some inode ∧ inode.directPtr ≠ .null ∧
        Memory.at? s.fileSystem.memory inode.directPtr = none) := by
  simp only [WriteState.rtsEvict, WriteState.onFileSystem, post_bind, post_zoom, post_modify,
    post_get]
  -- the counter is not part of what a victim is selected by
  have same : victim { s.fileSystem with monitor := s.fileSystem.monitor.evictionStarted } =
      victim s.fileSystem := rfl
  rw [same]
  refine post_ofExcept (fun selected is => ?_) (fun _ failed => .inl ⟨?_, .of_view rfl rfl⟩)
  · have chosen := chosen_eq is
    cases present : s.fileSystem.file selected.name with
    | none =>
        simp only [rtsReadInode, post_bind, post_get, post_failIf]
        refine ⟨fun _ => .inl ⟨?_, .of_view rfl rfl⟩, fun stored => absurd present stored⟩
        rw [chosen, present]
        intro inode taken
        cases taken
    | some inode =>
        rw [present] at chosen
        rw [← s.fileSystem.fileTable.named selected.name inode present]
        have present : ({ s.fileSystem with monitor := s.fileSystem.monitor.evictionStarted } :
            FileSystem codec).file inode.name = some inode := file_of_chosen chosen
        refine (rtsReadInode_exact present now).mono ?_ ?_ ?_
        · rintro bytes fs₁ ⟨old, new, found, some_, encodes, rfl⟩
          have readable : Readable s.fileSystem inode new := ⟨old, chosen, found, some_, encodes⟩
          refine (rtsRemoveInode_exact present new now).mono ?_ ?_ (fun _ h => h.elim)
          · rintro - fs₂ ⟨counted, rfl⟩
            exact ⟨inode, new, readable, counted, rfl, rfl⟩
          · exact fun _ fs₂ uncounted => .inr (.inr ⟨⟨inode, new, readable, uncounted⟩, rfl⟩)
        · rintro - fs₁ (⟨null, viewed⟩ | ⟨old, found, nothing, seen⟩)
          · refine .inl ⟨?_, .of_view viewed rfl⟩
            rintro other is
            obtain rfl := Option.some.inj (chosen.symm.trans is)
            exact null
          · exact .inr (.inl ⟨⟨inode, old, chosen, found, nothing⟩,
              fun unchanged => seen (unchanged.files inode.name), trivial⟩)
        · rintro - ⟨pointed, none_⟩
          exact ⟨inode, chosen, pointed, none_⟩
  · simp [FileSystem.chosen, failed, Except.toOption]

theorem presenceList_evicted (present : fs.file inode.name = some inode) (new : codec.Artifact)
    (now : Int) : (fs.evicted inode new now).fileTable.presenceList.length + 1 =
      fs.fileTable.presenceList.length := by
  have present : ({ fs with monitor := fs.monitor.evictionStarted } : FileSystem codec).file
    inode.name = some inode := present
  have present' := file_reread present new now
  obtain ⟨table, gone⟩ := FileTable.remove_isSome present'
  have list := (FileTable.remove_counters gone present').1
  have kept : (({ fs with monitor := fs.monitor.evictionStarted } : FileSystem codec).reread inode
      new now).fileTable.presenceList = fs.fileTable.presenceList :=
    (FileTable.update_counters _ _ _).1
  have member : inode.name ∈ fs.fileTable.presenceList :=
    FileTable.mem_presenceList.mpr ⟨inode, present⟩
  simp only [evicted, removed, gone, Option.getD_some, list, kept]
  have some_ := List.length_pos_of_mem member
  rw [List.length_erase_of_mem member]
  omega

/-! ## Which states a write harms -/

theorem Readable.unique {inode' : Inode} {new' : codec.Artifact} (first : Readable fs inode new)
    (second : Readable fs inode' new') : inode' = inode ∧ new' = new := by
  obtain ⟨old, taken, found, -, encodes⟩ := first
  obtain ⟨old', taken', found', -, encodes'⟩ := second
  cases taken.symm.trans taken'
  cases found.symm.trans found'
  cases encodes.symm.trans encodes'
  exact ⟨rfl, rfl⟩

theorem Readable.not_spoilt (readable : Readable fs inode new) : ¬ SpoiltVictim fs := by
  obtain ⟨old, taken, found, some_, -⟩ := readable
  rintro ⟨inode', old', taken', found', nothing⟩
  cases taken.symm.trans taken'
  cases found.symm.trans found'
  exact some_ nothing

theorem not_readable_of (none_ : ∀ inode, fs.chosen = some inode →
    Memory.at? fs.memory inode.directPtr = none) :
    ¬ SpoiltVictim fs ∧ ∀ inode new, ¬ Readable fs inode new := by
  constructor
  · rintro ⟨inode, old, taken, found, -⟩
    cases (none_ inode taken).symm.trans found
  · rintro inode new ⟨old, taken, found, -⟩
    cases (none_ inode taken).symm.trans found

theorem harms_of_room (room : count ≤ rtsAvailableBytes fs) :
    Harms fd bytes pid now count began fs ↔
      began = true ∧ Refused fs fd bytes pid ∨ Stuck fs fd bytes pid := by
  constructor
  · rintro (⟨-, refused⟩ | ⟨-, stuck⟩ | ⟨roomless, -⟩ | ⟨evicting, -⟩ | ⟨evicting, -⟩ | ⟨evicting, -⟩)
    · exact .inl ⟨rfl, refused⟩
    · exact .inr stuck
    · exact absurd room (not_le.mpr roomless)
    all_goals exact absurd room (not_le.mpr evicting.1)
  · rintro (⟨rfl, refused⟩ | stuck)
    · exact .refused room refused
    · exact .stuck room stuck

theorem harms_of_noVictim (roomless : rtsAvailableBytes fs < count) (noVictim : NoVictim fs) :
    Harms fd bytes pid now count began fs ↔ began = true := by
  have not_evicting : Evicting fs count → ¬ SpoiltVictim fs ∧ ∀ inode new, ¬ Readable fs inode new := by
    rintro ⟨-, available, policy⟩
    refine not_readable_of fun inode taken => ?_
    rcases noVictim with minus | none_ | null
    · exact absurd minus available
    · exact absurd none_ policy
    · rw [null inode taken]
      rfl
  constructor
  · rintro (⟨room, -⟩ | ⟨room, -⟩ | - | ⟨evicting, spoilt⟩ | ⟨evicting, readable, -⟩ |
      ⟨evicting, readable, -⟩)
    · exact absurd room (not_le.mpr roomless)
    · exact absurd room (not_le.mpr roomless)
    · rfl
    · exact absurd spoilt (not_evicting evicting).1
    all_goals exact absurd readable ((not_evicting evicting).2 _ _)
  · rintro rfl
    exact .noVictim roomless noVictim

theorem not_harms_of_freed (evicting : Evicting fs count) (taken : fs.chosen = some inode)
    (pointed : inode.directPtr ≠ .null) (freed : Memory.at? fs.memory inode.directPtr = none) :
    ¬ Harms fd bytes pid now count began fs := by
  have none_ := not_readable_of fun other (is : fs.chosen = some other) => by
    obtain rfl := Option.some.inj (taken.symm.trans is)
    exact freed
  rintro (⟨room, -⟩ | ⟨room, -⟩ | ⟨-, minus | policy | null⟩ | ⟨-, spoilt⟩ | ⟨-, readable, -⟩ |
    ⟨-, readable, -⟩)
  · exact absurd room (not_le.mpr evicting.1)
  · exact absurd room (not_le.mpr evicting.1)
  · exact evicting.2.1 minus
  · exact evicting.2.2 policy
  · exact pointed (null inode taken)
  · exact none_.1 spoilt
  all_goals exact none_.2 _ _ readable

theorem harms_of_evicted (evicting : Evicting fs count) (readable : Readable fs inode new)
    (counted : Counted fs (codec.size new)) :
    Harms fd bytes pid now count began fs ↔
      Harms fd bytes pid now count true (fs.evicted inode new now) := by
  constructor
  · rintro (⟨room, -⟩ | ⟨room, -⟩ | ⟨-, noVictim⟩ | ⟨-, spoilt⟩ | ⟨-, other, uncounted⟩ |
      ⟨-, other, -, harms⟩)
    · exact absurd room (not_le.mpr evicting.1)
    · exact absurd room (not_le.mpr evicting.1)
    · obtain ⟨old, taken, found, -⟩ := readable
      rcases noVictim with minus | policy | null
      · exact absurd minus evicting.2.1
      · exact absurd policy evicting.2.2
      · rw [null inode taken] at found
        cases found
    · exact absurd spoilt readable.not_spoilt
    · obtain ⟨rfl, rfl⟩ := readable.unique other
      exact absurd counted uncounted
    · obtain ⟨rfl, rfl⟩ := readable.unique other
      exact harms
  · exact .evict evicting readable counted

/-- The loop and the end of a write: they fail in the states that they harm after
    an eviction, and without one after a change. -/
theorem makeRoom_exact (some_ : bytes ≠ []) (counts : 0 ≤ count) (fd : Int) (pid : Pid) (now : Int)
    (bound : Nat) (began : Bool) (s : WriteState codec)
    (bounded : s.fileSystem.fileTable.presenceList.length < bound) :
    ((WriteState.makeRoom count now bound >>= fun _ =>
      WriteState.onFileSystem (writeDescriptor fd (some bytes) pid now)) s).Post
      (fun _ _ => ¬ Harms (toUnsigned32 fd) bytes pid now count began s.fileSystem)
      (fun _ s' => (Harms (toUnsigned32 fd) bytes pid now count began s.fileSystem ↔
        began = true ∨ ¬ Unchanged s s') ∧ s.evictedList.length ≤ s'.evictedList.length)
      (fun _ => ¬ Harms (toUnsigned32 fd) bytes pid now count began s.fileSystem) := by
  induction bound generalizing began s with
  | zero => cases bounded
  | succ bound ih =>
      simp only [WriteState.makeRoom, post_bind, post_get]
      by_cases roomless : rtsAvailableBytes s.fileSystem < count
      · rw [if_pos roomless]
        simp only [post_bind, post_failIf]
        -- the loop gives up before it touches anything
        have givesUp : NoVictim s.fileSystem → ∀ s', Unchanged s s' →
            (Harms (toUnsigned32 fd) bytes pid now count began s.fileSystem ↔
              began = true ∨ ¬ Unchanged s s') ∧ s.evictedList.length ≤ s'.evictedList.length := by
          intro noVictim s' unchanged
          rw [harms_of_noVictim roomless noVictim, or_iff_left (not_not.mpr unchanged),
            unchanged.evicted]
          exact ⟨Iff.rfl, Nat.le_refl _⟩
        have same : Unchanged s s := .of_view rfl rfl
        refine ⟨fun minus => givesUp (.inl minus) s same, fun available =>
          ⟨fun policy => givesUp (.inr (.inl policy)) s same, fun policy => ?_⟩⟩
        have evicting : Evicting s.fileSystem count := ⟨roomless, available, policy⟩
        refine (rtsEvict_exact s now).mono ?_ ?_ ?_
        · rintro - s₁ ⟨inode, new, readable, counted, after, longer⟩
          rw [harms_of_evicted evicting readable counted, ← after, ← post_bind]
          have shorter := presenceList_evicted (file_of_chosen readable.choose_spec.1) new now
          rw [← after] at shorter
          refine (ih true s₁ (by omega)).mono (fun _ _ safe => safe) ?_ (fun _ safe => safe)
          rintro - s₂ ⟨harms, grows⟩
          have changed : ¬ Unchanged s s₂ := by
            intro unchanged
            rw [unchanged.evicted] at grows
            omega
          exact ⟨iff_of_true (harms.mpr (.inl rfl)) (.inr changed), by omega⟩
        · rintro - s₁ (⟨null, unchanged⟩ | ⟨spoilt, changed, same⟩ |
            ⟨⟨inode, new, readable, uncounted⟩, longer⟩)
          · exact givesUp (.inr (.inr null)) s₁ unchanged
          · exact ⟨iff_of_true (.spoilt evicting spoilt) (.inr changed), same.ge⟩
          · have changed : ¬ Unchanged s s₁ := by
              intro unchanged
              rw [unchanged.evicted] at longer
              omega
            exact ⟨iff_of_true (.uncounted evicting readable uncounted) (.inr changed), by omega⟩
        · rintro - ⟨inode, taken, pointed, freed⟩
          exact not_harms_of_freed evicting taken pointed freed
      · rw [if_neg roomless]
        simp only [post_pure, WriteState.onFileSystem, post_zoom]
        have room := not_lt.mp roomless
        rw [harms_of_room room]
        have sized : toInt32 s.fileSystem.fileTable.size ≠ -1 := by
          intro oversized
          simp only [rtsAvailableBytes, oversized, if_true] at room
          omega
        refine (writeDescriptor_exact some_ sized fd pid now).mono ?_ ?_ ?_
        · rintro - fs₁ ⟨taken, fits⟩ (⟨-, refused⟩ | stuck)
          · exact taken refused
          · exact fits stuck
        · rintro - fs₁ (⟨refused, rfl⟩ | ⟨stuck, seen⟩)
          · have same : Unchanged s { s with fileSystem := s.fileSystem } := .of_view rfl rfl
            rw [or_iff_left fun stuck => Stuck.not_refused stuck refused, and_iff_left refused,
              or_iff_left (not_not.mpr same)]
            exact ⟨Iff.rfl, Nat.le_refl _⟩
          · refine ⟨iff_of_true (.inr stuck) (.inr fun unchanged => ?_), Nat.le_refl _⟩
            rcases seen with buffer | ⟨name, file⟩
            · exact buffer (unchanged.buffers _)
            · exact file (unchanged.files name)
        · rintro - ⟨taken, fits⟩ (⟨-, refused⟩ | stuck)
          · exact taken refused
          · exact fits stuck

/-- A write fails after a change exactly from the states it harms. -/
theorem fileSystemWrite_exact (s : WriteState codec) (fd : Int) (buf : Option (List UInt8))
    (pid : Pid) (now : Int) :
    (fileSystemWrite fd buf pid now s).Post
      (fun _ _ => ¬ WriteHarms s.fileSystem fd buf pid now)
      (fun _ s' => ¬ WriteHarms s.fileSystem fd buf pid now ↔ Unchanged s s')
      (fun _ => ¬ WriteHarms s.fileSystem fd buf pid now) := by
  have same : Unchanged s s := .of_view rfl rfl
  have nothing : ¬ WriteHarms s.fileSystem fd buf pid now →
      (¬ WriteHarms s.fileSystem fd buf pid now ↔ Unchanged s s) := fun safe =>
    iff_of_true safe same
  simp only [fileSystemWrite, encodeBuffer, WriteState.onFileSystem, post_bind, post_zoom,
    post_orFail]
  refine ⟨?_, ?_⟩
  · rintro rfl
    exact nothing (by rintro ⟨bytes, artifact, given, -⟩; cases given)
  rintro bytes rfl
  rw [post_ite]
  refine ⟨fun big => ?_, fun small => ?_⟩
  · rintro ⟨_, artifact, ⟨⟩, small, -⟩
    exact absurd small (not_lt.mpr big)
  simp only [post_orFail, post_get, post_failIf]
  refine ⟨fun fails => nothing ?_, fun artifact encodes => ⟨fun big => nothing ?_, fun fits => ?_⟩⟩
  · rintro ⟨_, artifact, ⟨⟩, -, encodes, -⟩
    cases fails.symm.trans encodes
  · rintro ⟨_, other, ⟨⟩, -, encodes', fits, -⟩
    cases encodes.symm.trans encodes'
    exact absurd fits (not_le.mpr big)
  have some_ : bytes ≠ [] := by
    rintro rfl
    cases codec.encode_nil.symm.trans encodes
  have harms : WriteHarms s.fileSystem fd (some bytes) pid now ↔
      Harms (toUnsigned32 fd) bytes pid now (codec.size artifact) false s.fileSystem := by
    constructor
    · rintro ⟨_, other, ⟨⟩, -, encodes', -, harms⟩
      cases encodes.symm.trans encodes'
      exact harms
    · exact fun harms => ⟨bytes, artifact, rfl, not_le.mp small, encodes, not_lt.mp fits, harms⟩
  rw [harms]
  have writes : (_ : Outcome _ _ _ _).Post _ (fun _ s' => _ ↔ Unchanged s s') _ :=
    (makeRoom_exact some_ (Int.natCast_nonneg (codec.size artifact)) fd pid now _ false s
      (Nat.lt_succ_self _)).mono (fun _ _ safe => safe)
      (fun _ s' failed => (not_congr failed.1).trans (by simp)) (fun _ safe => safe)
  rw [post_bind] at writes
  simpa only [WriteState.onFileSystem, post_zoom] using writes

end FileSystem

/-- A write that fails leaves the stored files, the unflushed bytes and the list of
    evicted files as they are exactly if it does not fail too late. -/
theorem failed_write_unchanged_iff (s : WriteState codec) (fd : Int) (buf : Option (List UInt8))
    (pid : Pid) (now : Int) :
    (∀ code s', fileSystemWrite fd buf pid now s = .error code s' → Unchanged s s') ↔
      ¬ WriteHarms s.fileSystem fd buf pid now := by
  exact (fileSystemWrite_exact s fd buf pid now).errors_iff

/-- A write through a descriptor whose file has been removed fails with its bytes
    left in the buffer. -/
theorem failed_write_buffered : ∃ fs : FileSystem huffmanCodec, Reachable AnyEvent fs ∧
    ∃ code s', fileSystemWrite 0 (some [99, 100]) 1 3 { fileSystem := fs, evictedList := [] } =
      .error code s' ∧ ¬ Unchanged { fileSystem := fs, evictedList := [] } s' := by
  obtain ⟨fs, reached, checked⟩ := Reachable.of_runs
    (AnyEvent : FileSystem huffmanCodec → Event → Prop) 1 4 .fifo
    (fun fs => match fileSystemWrite 0 (some [99, 100]) 1 3
        { fileSystem := fs, evictedList := [] } with
      | .error _ s' => decide (s'.fileSystem.unflushed 0 ≠ fs.unflushed 0)
      | _ => false)
    [.open [102] 3 1 0, .write 0 (some [97, 98]) 1 1, .remove [102] 1] (by decide +kernel)
  refine ⟨fs, reached, ?_⟩
  split at checked
  · rename_i code s' failed
    exact ⟨code, s', failed, fun unchanged => of_decide_eq_true checked (unchanged.buffers 0)⟩
  · cases checked

end FileStorage
