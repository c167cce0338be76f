import FileStorage.Simfs.FileCounts
import FileStorage.Simfs.Contents

/-! # The statistics

The monitor counts the files and the bytes beside the file table and remembers the
largest numbers it has seen. It refuses to take bytes off when it has none, adds
the difference of a flush as an unsigned number and does not look for a peak when
bytes are taken off. As long as no step runs into one of these three, its counters are
those of the file table and its peaks the largest values these have had.
-/

namespace FileStorage

open Program FileSystem

variable {codec : Codec}

namespace FileSystem

variable {fs fs' : FileSystem codec} {inode : Inode} {now : Int}

/-- The counters of the monitor are those of the file table and below its peaks. -/
structure Monitored (fs : FileSystem codec) : Prop where
  listed : fs.fileTable.count = fs.fileTable.presenceList.length
  files : fs.monitor.fileCounter = fs.fileTable.count
  bytes : fs.monitor.bytesCounter = fs.fileTable.size
  bounded : fs.fileTable.size < 2 ^ 64
  filesBelow : fs.fileTable.count ≤ fs.monitor.filePeak
  bytesBelow : fs.fileTable.size ≤ fs.monitor.bytesPeak

/-- The monitor is right, and its peaks are the larger of what they were and of the
    counters now. -/
structure Follows (before : Monitor) (fs : FileSystem codec) : Prop extends Monitored fs where
  filePeak : fs.monitor.filePeak = max before.filePeak fs.fileTable.count
  bytesPeak : fs.monitor.bytesPeak = max before.bytesPeak fs.fileTable.size

structure SameCounts (fs fs' : FileSystem codec) : Prop where
  presenceList : fs'.fileTable.presenceList = fs.fileTable.presenceList
  count : fs'.fileTable.count = fs.fileTable.count
  size : fs'.fileTable.size = fs.fileTable.size
  monitor : fs'.monitor = fs.monitor

theorem Quiet.sameCounts (quiet : Quiet fs fs') : SameCounts fs fs' :=
  ⟨quiet.presenceList, quiet.count, quiet.size, quiet.monitor⟩

theorem sameCounts_putFile (name : Filename) (s : InodeState codec) :
    SameCounts fs (fs.putFile name s) :=
  ⟨(FileTable.update_counters _ _ _).1, FileTable.count_update _ _ _,
    (FileTable.update_counters _ _ _).2, rfl⟩

theorem Reads.sameCounts {done : Bool} (reads : Reads fs inode now done fs') :
    SameCounts fs fs' := by
  cases reads <;> exact sameCounts_putFile _ _

theorem Tears.sameCounts {fd : Nat} {copy : Inode} (tears : Tears fs fd copy fs') :
    SameCounts fs fs' := by
  cases tears <;> exact ⟨rfl, rfl, rfl, rfl⟩

namespace Monitored

theorem init (memoryLimit filesLimit : UInt32) (policy : ReplacementPolicy) :
    Monitored (FileSystem.init memoryLimit filesLimit policy : FileSystem codec) :=
  ⟨rfl, rfl, rfl, Nat.two_pow_pos 64, le_refl _, le_refl _⟩

theorem congr (monitored : Monitored fs) (same : SameCounts fs fs') : Monitored fs' where
  listed := by rw [same.count, same.presenceList, monitored.listed]
  files := by rw [same.monitor, same.count, monitored.files]
  bytes := by rw [same.monitor, same.size, monitored.bytes]
  bounded := same.size ▸ monitored.bounded
  filesBelow := by
    rw [same.count, same.monitor]
    exact monitored.filesBelow
  bytesBelow := by
    rw [same.size, same.monitor]
    exact monitored.bytesBelow

theorem follows (monitored : Monitored fs) {before : Monitor}
    (filePeak : fs.monitor.filePeak = before.filePeak)
    (bytesPeak : fs.monitor.bytesPeak = before.bytesPeak) : Follows before fs where
  toMonitored := monitored
  filePeak := by
    have below := monitored.filesBelow
    omega
  bytesPeak := by
    have below := monitored.bytesBelow
    omega

theorem follows_same (monitored : Monitored fs) (same : SameCounts fs fs') :
    Follows fs.monitor fs' :=
  (monitored.congr same).follows (by rw [same.monitor]) (by rw [same.monitor])

/-! ## New and removed files -/

theorem withFile (monitored : Monitored fs) {name : Filename} {table : FileTable}
    (created : fs.fileTable.create name fs.created now = .ok table) :
    Follows fs.monitor (fs.withFile table) := by
  obtain ⟨list, size⟩ := FileTable.create_counters created
  have count := FileTable.create_count created
  have listed := monitored.listed
  have files := monitored.files
  have filesBelow := monitored.filesBelow
  have length : table.presenceList.length = fs.fileTable.presenceList.length + 1 := by
    rw [list, List.length_append, List.length_singleton]
  have peak : fs.monitor.fileAdded.filePeak = max fs.monitor.filePeak table.count := by
    simp only [Monitor.fileAdded]
    split <;> omega
  refine ⟨⟨?_, ?_, ?_, ?_, ?_, ?_⟩, peak, ?_⟩
  · change table.count = table.presenceList.length
    omega
  · change fs.monitor.fileCounter + 1 = table.count
    omega
  · exact monitored.bytes.trans size.symm
  · exact size ▸ monitored.bounded
  · change table.count ≤ fs.monitor.fileAdded.filePeak
    omega
  · exact size.le.trans monitored.bytesBelow
  · have below := monitored.bytesBelow
    change fs.monitor.bytesPeak = max fs.monitor.bytesPeak table.size
    omega

end Monitored

/-- The file table has bytes and enough of them to take these off. -/
def Covers (fs : FileSystem codec) (size : Nat) : Prop :=
  fs.fileTable.size ≠ 0 ∧ 0 ≤ toInt32 size ∧ toInt32 size ≤ fs.fileTable.size

instance (fs : FileSystem codec) (size : Nat) : Decidable (Covers fs size) :=
  inferInstanceAs (Decidable (_ ∧ _ ∧ _))

theorem taken_off {total : Nat} {part : Int} (low : 0 ≤ part) (le : part ≤ total)
    (bounded : total < 2 ^ 64) :
    toUnsigned64 (total - part) ≤ total ∧
      toUnsigned64 (total - toUnsigned64 part) = toUnsigned64 (total - part) := by
  unfold toUnsigned64
  omega

theorem monitor_dropped (fs : FileSystem codec) (inode : Inode) :
    (fs.dropped inode).monitor.fileCounter = fs.monitor.fileCounter - 1 ∧
      (fs.dropped inode).monitor.bytesCounter =
        toUnsigned64 (fs.monitor.bytesCounter - toUnsigned64 (toInt32 inode.size)) ∧
      (fs.dropped inode).monitor.filePeak = fs.monitor.filePeak ∧
      (fs.dropped inode).monitor.bytesPeak = fs.monitor.bytesPeak := by
  rw [FileSystem.dropped]
  generalize fs.monitor = monitor
  cases monitor
  exact ⟨rfl, rfl, rfl, rfl⟩

theorem Monitored.removes (monitored : Monitored fs) (present : fs.file inode.name = some inode)
    (covers : Covers fs inode.size) {done : Bool} (removes : Removes fs inode done fs') :
    Monitored fs' ∧ fs'.monitor.filePeak = fs.monitor.filePeak ∧
      fs'.monitor.bytesPeak = fs.monitor.bytesPeak := by
  obtain ⟨table, gone⟩ := FileTable.remove_isSome present
  obtain ⟨list, size⟩ := FileTable.remove_counters gone present
  have count := FileTable.remove_count gone
  have member := FileTable.mem_presenceList.mpr ⟨inode, present⟩
  have some_ := List.length_pos_of_mem member
  have length := List.length_erase_of_mem member
  have listed := monitored.listed
  have files := monitored.files
  have filesBelow := monitored.filesBelow
  have bytesBelow := monitored.bytesBelow
  obtain ⟨nonzero, low, le⟩ := covers
  obtain ⟨less, same⟩ := taken_off low le monitored.bounded
  have without : (fs.without inode).fileTable = table := fileTable_without gone
  have dropped : Monitored (fs.dropped inode) ∧
      (fs.dropped inode).monitor.filePeak = fs.monitor.filePeak ∧
      (fs.dropped inode).monitor.bytesPeak = fs.monitor.bytesPeak := by
    have table' : (fs.dropped inode).fileTable = table := without
    obtain ⟨counter, bytes, filePeak, bytesPeak⟩ := monitor_dropped fs inode
    refine ⟨⟨?_, ?_, ?_, ?_, ?_, ?_⟩, filePeak, bytesPeak⟩
    · rw [table', count, list, length]
      omega
    · rw [table', counter]
      omega
    · rw [table', bytes, size, monitored.bytes, same]
    · rw [table', size]
      exact less.trans_lt monitored.bounded
    · rw [table', filePeak]
      omega
    · rw [table', bytesPeak, size]
      omega
  cases removes with
  | unknown zero => exact absurd (monitored.bytes.symm.trans zero) nonzero
  | uncounted _ zero => omega
  | oversized | done => exact dropped

/-! ## Flushes -/

theorem Monitored.bytesAdded (monitored : Monitored fs) {added : Nat}
    (presenceList : fs'.fileTable.presenceList = fs.fileTable.presenceList)
    (count : fs'.fileTable.count = fs.fileTable.count)
    (size : fs'.fileTable.size = toUnsigned64 (fs.fileTable.size + added))
    (monitor : fs'.monitor = fs.monitor.bytesAdded added) : Follows fs.monitor fs' := by
  have counter : (fs.monitor.bytesAdded added).bytesCounter = fs'.fileTable.size := by
    rw [size, ← monitored.bytes]
    rfl
  have peak : (fs.monitor.bytesAdded added).bytesPeak =
      max fs.monitor.bytesPeak fs'.fileTable.size := by
    rw [← counter]
    simp only [Monitor.bytesAdded]
    split <;> omega
  have filePeak : (fs.monitor.bytesAdded added).filePeak = fs.monitor.filePeak := rfl
  have files := monitored.files
  have filesBelow := monitored.filesBelow
  refine ⟨⟨?_, ?_, ?_, ?_, ?_, ?_⟩, ?_, ?_⟩
  · rw [count, presenceList, monitored.listed]
  · rw [monitor, count]
    exact files
  · rw [monitor, counter]
  · rw [size]
    unfold toUnsigned64
    omega
  · rw [monitor, count, filePeak]
    exact filesBelow
  · rw [monitor, peak]
    exact le_max_right _ _
  · rw [monitor, count, filePeak]
    omega
  · rw [monitor, peak]

theorem toUnsigned32_of_toInt32 {x : Int} (low : 0 ≤ toInt32 x) : (toUnsigned32 x : Int) = toInt32 x := by
  unfold toUnsigned32 toInt32 at *
  rw [Int.bmod_def] at *
  split at low <;> split <;> omega

/-- A flush of the copy at the descriptor, with bytes added to its buffer, does not make
    what the copy is charged with smaller. -/
def Grows (fs : FileSystem codec) (fd : Nat) (pid : Pid) (bytes : List UInt8) : Prop :=
  ∀ copy, fs.slot fd = some { owner := pid, inode := copy } → ¬ ShutOut copy pid →
    fs.file copy.name ≠ none → copy.buffer ++ bytes ≠ [] →
    ∀ content ∈ Memory.appended fs.memory copy.directPtr (copy.buffer ++ bytes),
      content.length < 2 ^ 31 → ∀ new ∈ codec.encode content,
        0 ≤ toInt32 (codec.size new - toInt32 copy.size)

instance (fs : FileSystem codec) (fd : Nat) (pid : Pid) (bytes : List UInt8) :
    Decidable (Grows fs fd pid bytes) :=
  decidableOfSlot fs fd pid _

theorem monitor_recorded (fs : FileSystem codec) (copy : Inode) (added : Nat) (now : Int) :
    (fs.recorded copy added now).monitor = fs.monitor.bytesAdded added := rfl

theorem counts_takeOver (fs : FileSystem codec) (copy : Inode) (added : Int) :
    (fs.takeOver copy added).fileTable.presenceList = fs.fileTable.presenceList ∧
      (fs.takeOver copy added).fileTable.count = fs.fileTable.count :=
  ⟨(FileTable.update_counters _ _ _).1, FileTable.count_update _ _ _⟩

theorem counts_flushed (fs : FileSystem codec) (fd : Nat) (copy : Inode) (new : codec.Artifact)
    (now : Int) :
    (fs.flushed fd copy new now).fileTable.presenceList = fs.fileTable.presenceList ∧
      (fs.flushed fd copy new now).fileTable.count = fs.fileTable.count ∧
      (fs.flushed fd copy new now).fileTable.size =
        toUnsigned64 (fs.fileTable.size + toInt32 (codec.size new - toInt32 copy.size)) ∧
      (fs.flushed fd copy new now).monitor =
        fs.monitor.bytesAdded (toUnsigned32 (codec.size new - toInt32 copy.size)) := by
  rw [FileSystem.flushed]
  generalize toUnsigned32 (codec.size new - toInt32 copy.size) = added
  generalize toInt32 (codec.size new - toInt32 copy.size) = difference
  refine ⟨?_, ?_, ?_, ?_⟩
  · exact (FileTable.update_counters _ _ _).1.trans (counts_takeOver _ _ _).1
  · exact (FileTable.count_update _ _ _).trans (counts_takeOver _ _ _).2
  · exact (FileTable.update_counters _ _ _).2.trans (size_takeOver _ _ _)
  · exact monitor_recorded _ _ _ _

theorem Monitored.flushes (monitored : Monitored fs) {fd : Nat} {copy : Inode}
    (grows : ∀ content new, Memory.appended fs.memory copy.directPtr copy.buffer = some content →
      copy.buffer ≠ [] → content.length < 2 ^ 31 → codec.encode content = some new →
      0 ≤ toInt32 (codec.size new - toInt32 copy.size))
    (flushes : Flushes fs fd copy now fs') : Follows fs.monitor fs' := by
  cases flushes with
  | empty =>
      refine monitored.bytesAdded (FileTable.update_counters _ _ _).1
        (FileTable.count_update _ _ _) ?_ (monitor_recorded fs copy 0 now)
      exact (FileTable.update_counters _ _ _).2.trans
        (toUnsigned64_of_nat monitored.bounded).symm
  | @full content new buffered appended small encodes =>
      have positive := grows content new appended buffered small encodes
      obtain ⟨list, count, size, monitor⟩ := counts_flushed fs fd copy new now
      refine monitored.bytesAdded list count ?_ monitor
      rw [size, toUnsigned32_of_toInt32 positive]

/-! ## The steps -/

/-- The victim of an eviction is compressed anew when it is read and then taken off with
    its new size. -/
def EvictsCovered (fs : FileSystem codec) : Prop :=
  ∀ inode ∈ fs.chosen, ∀ old ∈ Memory.at? fs.memory inode.directPtr, codec.decode old ≠ [] →
    ∀ new ∈ codec.encode (codec.decode old), Covers fs (codec.size new)

instance (fs : FileSystem codec) : Decidable (EvictsCovered fs) := by
  unfold EvictsCovered
  infer_instance

/-- The step takes only files off the file table that it covers, and flushes only copies
    that do not get smaller. -/
def CountsRight (fs : FileSystem codec) : Event → Prop
  | .write fd buf pid now => (∀ gs ∈ fs.evictions buf now, EvictsCovered gs) ∧
      ∀ gs ∈ fs.roomFor buf now, ∀ bytes ∈ buf, Grows gs (toUnsigned32 fd) pid bytes
  | .read fd pid _ => Grows fs (toUnsigned32 fd) pid []
  | .remove name pid => ∀ inode ∈ fs.file name, Removable inode pid → Covers fs inode.size
  | _ => True

instance (fs : FileSystem codec) : (event : Event) → Decidable (CountsRight fs event)
  | .write _ _ _ _ => inferInstanceAs (Decidable (_ ∧ _))
  | .read fd pid _ => inferInstanceAs (Decidable (Grows fs (toUnsigned32 fd) pid []))
  | .remove name _ => inferInstanceAs (Decidable (∀ inode ∈ fs.file name, _))
  | .open .. | .close .. | .lock .. | .unlock .. | .removeSession .. | .wake .. =>
      inferInstanceAs (Decidable True)

/-- The monitor is right and its peaks are those of before. -/
def Settled (before : Monitor) (fs : FileSystem codec) : Prop :=
  Monitored fs ∧ fs.monitor.filePeak = before.filePeak ∧ fs.monitor.bytesPeak = before.bytesPeak

theorem Settled.evict {before : Monitor} (s : WriteState codec)
    (settled : Settled before s.fileSystem) (covered : EvictsCovered s.fileSystem) :
    (WriteState.rtsEvict now s).Post (fun _ s' => Settled before s'.fileSystem)
      (fun _ s' => Settled before s'.fileSystem) (fun _ => True) := by
  obtain ⟨monitored, filePeak, bytesPeak⟩ := settled
  have started : Settled before s.fileSystem.started := ⟨⟨monitored.listed, monitored.files,
    monitored.bytes, monitored.bounded, monitored.filesBelow, monitored.bytesBelow⟩, filePeak,
    bytesPeak⟩
  have read : ∀ inode fs₁ done, Reads s.fileSystem.started inode now done fs₁ →
      Settled before fs₁ := by
    intro inode fs₁ done reads
    have same := reads.sameCounts
    refine ⟨started.1.congr same, ?_, ?_⟩
    · rw [same.monitor]
      exact filePeak
    · rw [same.monitor]
      exact bytesPeak
  have remove : ∀ inode fs₁ inode₁ done fs₂, s.fileSystem.chosen = some inode →
      Reads s.fileSystem.started inode now true fs₁ → fs₁.file inode.name = some inode₁ →
      Removes fs₁ inode₁ done fs₂ → Settled before fs₂ := by
    intro inode fs₁ inode₁ done fs₂ taken reads found removes
    obtain ⟨monitored₁, filePeak₁, bytesPeak₁⟩ := read inode fs₁ true reads
    have size := reads.sameCounts.size
    have present : s.fileSystem.started.file inode.name = some inode := file_of_chosen taken
    have covers : Covers fs₁ inode₁.size := by
      cases reads with
      | @reread old new live some_ encodes =>
          have covers := covered inode taken old live some_ new encodes
          rw [file_reread present] at found
          obtain rfl := Option.some.inj found
          rw [Covers, size]
          exact covers
    have named := fs₁.fileTable.named inode.name inode₁ found
    rw [← named] at found
    obtain ⟨monitored₂, filePeak₂, bytesPeak₂⟩ := monitored₁.removes found covers removes
    exact ⟨monitored₂, filePeak₂.trans filePeak₁, bytesPeak₂.trans bytesPeak₁⟩
  refine (WriteState.rtsEvict_evicts s now).mono ?_ ?_ (fun _ _ => trivial)
  · rintro - s' ⟨inode, fs₁, inode₁, taken, reads, found, removes⟩
    exact remove inode fs₁ inode₁ true _ taken reads found removes
  · rintro - s' (same | ⟨inode, taken, reads | ⟨fs₁, inode₁, reads, found, removes⟩⟩)
    · rw [same]
      exact started
    · exact read inode _ false reads
    · exact remove inode fs₁ inode₁ false _ taken reads found removes

theorem Monitored.writeDescriptor (monitored : Monitored fs) {fd : Int} {pid : Pid}
    {bytes : List UInt8} (grows : Grows fs (toUnsigned32 fd) pid bytes) (now : Int) :
    (writeDescriptor fd (some bytes) pid now fs).Post (fun _ fs' => Follows fs.monitor fs')
      (fun _ fs' => Follows fs.monitor fs') (fun _ => True) := by
  have buffered : ∀ copy : Inode,
      SameCounts fs (fs.updateSlot (toUnsigned32 fd) fun _ => copy) := fun _ => ⟨rfl, rfl, rfl, rfl⟩
  have flush : ∀ copy fs', fs.slot (toUnsigned32 fd) = some ⟨pid, copy⟩ → ¬ ShutOut copy pid →
      bytes ≠ [] → fs.file copy.name ≠ none →
      Flushes (fs.updateSlot (toUnsigned32 fd) fun _ => copy.appended bytes now) (toUnsigned32 fd)
        (copy.appended bytes now) now fs' → Follows fs.monitor fs' := by
    intro copy fs' live allowed some_ stored flushes
    refine (monitored.congr (buffered (copy.appended bytes now))).flushes ?_ flushes
    intro content new appended nonempty small encodes
    exact grows copy live allowed stored nonempty content appended small new encodes
  refine (writeDescriptor_flushes fs fd bytes pid now).mono ?_ ?_ (fun _ _ => trivial)
  · rintro - fs' ⟨copy, live, allowed, some_, stored, flushes, -⟩
    exact flush copy fs' live allowed some_ stored flushes
  · rintro - fs' (rfl | ⟨copy, live, allowed, some_, ⟨-, rfl⟩ | ⟨stored, ⟨flushes, -⟩ | tears⟩⟩)
    · exact monitored.follows rfl rfl
    · exact monitored.follows_same (buffered _)
    · exact flush copy fs' live allowed some_ stored flushes
    · exact (monitored.congr (buffered _)).follows_same tears.sameCounts

/-- What a pointer leads to after a file is read, it has led to before. -/
theorem appended_of_reread {copy : Inode} {new : codec.Artifact} {content : List UInt8}
    (inside : ∀ id, copy.directPtr = .artifact id → id < fs.memory.length)
    (appended : Memory.appended (fs.reread inode new now).memory copy.directPtr copy.buffer =
      some content) :
    Memory.appended fs.memory copy.directPtr copy.buffer = some content := by
  have shorter : Memory.at? (fs.reread inode new now).memory copy.directPtr =
      Memory.at? (Memory.free fs.memory inode.directPtr) copy.directPtr :=
    Memory.at?_append fun id is => by
      rw [Memory.length_free]
      exact inside id is
  have before := (Memory.shrinks_free fs.memory inode.directPtr).2 copy.directPtr
  cases ptr : copy.directPtr with
  | null =>
      rw [ptr] at appended
      exact appended
  | bytes raw =>
      rw [ptr] at appended
      cases appended
  | artifact id =>
      rw [ptr] at appended before shorter
      cases found : Memory.at? (fs.reread inode new now).memory (.artifact id) with
      | none =>
          rw [Memory.appended_of_freed found] at appended
          cases appended
      | some old =>
          rw [Memory.appended_of_live found] at appended
          rw [Memory.appended_of_live (before old (shorter ▸ found))]
          exact appended

theorem Monitored.fileSystemRead (monitored : Monitored fs) {owner : Nat → Filename}
    (owned : Owned owner fs.view) {fd : Int} {pid : Pid}
    (grows : Grows fs (toUnsigned32 fd) pid []) (now : Int) :
    (fileSystemRead fd pid now fs).Post (fun _ fs' => Follows fs.monitor fs')
      (fun _ fs' => Follows fs.monitor fs') (fun _ => True) := by
  have flush : ∀ copy inode fs₁ fs', fs.slot (toUnsigned32 fd) = some ⟨pid, copy⟩ →
      ¬ ShutOut copy pid → fs.file copy.name = some inode → Reads fs inode now true fs₁ →
      Flushes fs₁ (toUnsigned32 fd) copy now fs' → Follows fs.monitor fs' := by
    intro copy inode fs₁ fs' live allowed present reads flushes
    have same := reads.sameCounts
    rw [← same.monitor]
    refine (monitored.congr same).flushes ?_ flushes
    intro content new appended nonempty small encodes
    have placed := owned.slots (toUnsigned32 fd) _ (view_slot live)
    have before : Memory.appended fs.memory copy.directPtr copy.buffer = some content := by
      cases reads
      exact appended_of_reread (fun id is => (placed.1 id is).1) appended
    have stored : fs.file copy.name ≠ none := by
      rw [present]
      nofun
    refine grows copy live allowed stored ?_ content ?_ small new encodes
    · rwa [List.append_nil]
    · rwa [List.append_nil]
  refine (fileSystemRead_reads fs fd pid now).mono ?_ ?_ (fun _ _ => trivial)
  · rintro - fs' ⟨copy, inode, fs₁, live, allowed, present, reads, flushes, -⟩
    exact flush copy inode fs₁ fs' live allowed present reads flushes
  · rintro - fs' (⟨-, rfl⟩ | ⟨copy, inode, live, allowed, present, reads | ⟨fs₁, reads, fails⟩⟩)
    · exact monitored.follows rfl rfl
    · exact monitored.follows_same reads.sameCounts
    · rcases fails with ⟨flushes, -⟩ | ⟨-, tears⟩
      · exact flush copy inode fs₁ fs' live allowed present reads flushes
      · have same := reads.sameCounts
        rw [← same.monitor]
        exact (monitored.congr same).follows_same tears.sameCounts

theorem Monitored.step (monitored : Monitored fs) {owner : Nat → Filename}
    (owned : Owned owner fs.view) {event : Event} (right : CountsRight fs event)
    (result : (event.call fs).state? = some fs') : Follows fs.monitor fs' := by
  by_cases quiet : event.quiet = true
  · exact monitored.follows_same (Event.quiet_call quiet result).sameCounts
  · cases event with
    | «open» name flags pid now =>
        rcases Event.open_call result with same | wrong | ⟨table, created, -, same⟩
        · exact monitored.follows_same same.sameCounts
        · have listed := monitored.listed
          omega
        · have follows := monitored.withFile created
          have counts := same.sameCounts
          refine ⟨follows.toMonitored.congr counts, ?_, ?_⟩
          · rw [counts.monitor, counts.count, follows.filePeak]
          · rw [counts.monitor, counts.size, follows.bytesPeak]
    | write fd buf pid now =>
        refine Outcome.Post.of_state (F := fun _ => True) ?_ result
        refine write_call (I := Settled fs.monitor) (G := EvictsCovered) Settled.evict right.1
          ⟨monitored, rfl, rfl⟩ (fun _ settled => settled.1.follows settled.2.1 settled.2.2) ?_
        rintro gs bytes rfl room ⟨monitored, filePeak, bytesPeak⟩
        have grows := right.2 gs room bytes rfl
        refine (monitored.writeDescriptor grows now).mono ?_ ?_ (fun _ _ => trivial)
        · exact fun _ _ follows => ⟨follows.toMonitored, filePeak ▸ follows.filePeak,
            bytesPeak ▸ follows.bytesPeak⟩
        · exact fun _ _ follows => ⟨follows.toMonitored, filePeak ▸ follows.filePeak,
            bytesPeak ▸ follows.bytesPeak⟩
    | read fd pid now =>
        refine Outcome.Post.of_state (F := fun _ => True) ?_ result
        exact Event.post_of_actions (fun _ => ⟨_, rfl⟩) (monitored.fileSystemRead owned right now)
    | remove name pid =>
        have removed : ∀ inode done fs', fs.file name = some inode → Removable inode pid →
            Removes fs inode done fs' → Follows fs.monitor fs' := by
          intro inode done fs' present removable removes
          have covers := right inode present removable
          rw [← fs.fileTable.named name inode present] at present
          obtain ⟨monitored', filePeak, bytesPeak⟩ := monitored.removes present covers removes
          exact monitored'.follows filePeak bytesPeak
        refine Outcome.Post.of_state (F := fun _ => True) ?_ result
        refine Event.post_of_actions (fun _ => ⟨_, rfl⟩) ?_
        refine (fileSystemRemove_removes fs name pid).mono ?_ ?_ (fun _ _ => trivial)
        · rintro - fs' ⟨inode, present, removable, removes⟩
          exact removed inode true fs' present removable removes
        · rintro - fs' (⟨-, rfl⟩ | ⟨inode, present, removable, -, removes⟩)
          · exact monitored.follows rfl rfl
          · exact removed inode false fs' present removable removes
    | close fd pid now | lock fd pid now | unlock fd pid now | removeSession pid now
    | wake waiter now => exact absurd rfl quiet

end FileSystem

/-- A run, with the largest number of files and of bytes that the file table has had in
    one of its states. -/
inductive PeakRun (guard : FileSystem codec → Event → Prop) (start : FileSystem codec) :
    Int → Nat → FileSystem codec → Prop where
  | refl : PeakRun guard start start.fileTable.count start.fileTable.size start
  | tail {files bytes fs fs'} : PeakRun guard start files bytes fs → Step guard fs fs' →
      PeakRun guard start (max files fs'.fileTable.count) (max bytes fs'.fileTable.size) fs'

namespace PeakRun

variable {guard : FileSystem codec → Event → Prop} {start fs : FileSystem codec}

theorem steps {files : Int} {bytes : Nat} (run : PeakRun guard start files bytes fs) :
    Relation.ReflTransGen (Step guard) start fs := by
  induction run with
  | refl => exact .refl
  | tail _ next ih => exact ih.tail next

/-- Every run has its peaks. -/
theorem of_steps (run : Relation.ReflTransGen (Step guard) start fs) :
    ∃ files bytes, PeakRun guard start files bytes fs := by
  induction run with
  | refl => exact ⟨_, _, .refl⟩
  | tail _ next ih =>
      obtain ⟨files, bytes, run⟩ := ih
      exact ⟨_, _, run.tail next⟩

end PeakRun

/-- Along steps that count right, the counters of the monitor are those of the file table,
    and its peaks the largest values that these have had. -/
theorem monitor_matches {memoryLimit filesLimit : UInt32} {policy : ReplacementPolicy}
    {files : Int} {bytes : Nat} {fs : FileSystem codec}
    (run : PeakRun CountsRight (.init memoryLimit filesLimit policy) files bytes fs) :
    fs.monitor.fileCounter = fs.fileTable.count ∧ fs.monitor.bytesCounter = fs.fileTable.size ∧
      fs.monitor.filePeak = files ∧ fs.monitor.bytesPeak = bytes := by
  have sound : Monitored fs ∧ fs.monitor.filePeak = files ∧ fs.monitor.bytesPeak = bytes := by
    induction run with
    | refl => exact ⟨.init memoryLimit filesLimit policy, rfl, rfl⟩
    | tail before next ih =>
        obtain ⟨monitored, rfl, rfl⟩ := ih
        obtain ⟨owner, owned⟩ := owned_of_reachable
          ⟨memoryLimit, filesLimit, policy, before.steps⟩
        obtain ⟨event, -, right, result⟩ := next
        have follows := monitored.step owned right result
        exact ⟨follows.toMonitored, follows.filePeak, follows.bytesPeak⟩
  exact ⟨sound.1.files, sound.1.bytes, sound.2⟩

/-- Two files are written, and the second one is removed. -/
theorem monitor_matches_two : ∃ fs : FileSystem huffmanCodec,
    PeakRun CountsRight (.init 1 4 .fifo) 2 2 fs ∧ fs.monitor.fileCounter = fs.fileTable.count ∧
      fs.fileTable.count = 1 ∧ fs.monitor.bytesCounter = fs.fileTable.size ∧
      fs.fileTable.size = 1 := by
  have ran : (runs CountsRight
      [.open [102] 1 1 0, .open [103] 3 1 1, .write 0 (some [97, 98]) 1 2,
        .write 1 (some [97, 98, 99]) 1 3, .read 0 1 4, .remove [103] 1]
      (.init 1 4 .fifo : FileSystem huffmanCodec)).any (fun fs => fs.monitor.filePeak = 2 ∧
        fs.monitor.bytesPeak = 2 ∧ fs.fileTable.count = 1 ∧ fs.fileTable.size = 1) = true := by
    decide +kernel
  obtain ⟨fs, result, checked⟩ := (Option.any_eq_true _ _).mp ran
  obtain ⟨filePeak, bytesPeak, count, size⟩ := of_decide_eq_true checked
  obtain ⟨files, bytes, run⟩ := PeakRun.of_steps (runs_steps result)
  obtain ⟨counter, total, rfl, rfl⟩ := monitor_matches run
  rw [filePeak, bytesPeak] at run
  exact ⟨fs, run, counter, count, total, size⟩

/-- An empty file is created and removed: the removal takes it out of the table and
    then fails, since there are no bytes to take off. -/
theorem monitor_differs : ∃ (files : Int) (bytes : Nat) (fs : FileSystem huffmanCodec),
    PeakRun (AnyEvent : FileSystem huffmanCodec → Event → Prop) (.init 1 4 .fifo) files bytes fs ∧
      fs.monitor.fileCounter ≠ fs.fileTable.count := by
  have ran : (runs (AnyEvent : FileSystem huffmanCodec → Event → Prop)
      [.open [102] 3 1 0, .remove [102] 1] (.init 1 4 .fifo)).any
        (fun fs => fs.monitor.fileCounter ≠ fs.fileTable.count) = true := by
    decide +kernel
  obtain ⟨fs, result, checked⟩ := (Option.any_eq_true _ _).mp ran
  obtain ⟨files, bytes, run⟩ := PeakRun.of_steps (runs_steps result)
  exact ⟨files, bytes, fs, run, of_decide_eq_true checked⟩

end FileStorage
