import FileStorage.Simfs.MemoryLimit
import FileStorage.Simfs.Evictions
import FileStorage.Simfs.Outcomes
import Mathlib.Algebra.Order.BigOperators.Group.List
import Mathlib.Algebra.Order.Ring.Nat
import Mathlib.Algebra.Group.Action.Defs

/-! # The counters of the file table

The file table keeps a list of its names, their number and the sum of their sizes
beside the tree. A flush adds the same difference to the size of the file and to the
size of the table; a read sets the size of the file to what its content compresses to
and leaves the table alone. The two sizes agree as long as a file is read only when
it is charged with just that.
-/

namespace FileStorage

open Program FileSystem

variable {codec : Codec}

namespace FileTable

def generationOf (t : FileTable) (name : Filename) : Nat := (t.get name).elim 0 Inode.generation

def CreationOrder (t : FileTable) : Prop :=
  t.presenceList.Pairwise fun first second => t.generationOf first < t.generationOf second

end FileTable

namespace FileSystem

variable {fs fs' : FileSystem codec} {name : Filename} {inode : Inode} {now : Int}

def Light (fs : FileSystem codec) : Prop :=
  ∀ name inode, fs.file name = some inode → inode.size < 2 ^ 31

/-- The list, the number and the size of the file table are those of its files. -/
structure Tallied (fs : FileSystem codec) : Prop where
  count : fs.fileTable.count = fs.fileTable.presenceList.length
  limited : fs.fileTable.count ≤ fs.filesLimit
  small : fs.filesLimit < 2 ^ 31
  size : fs.fileTable.size = fs.fileTable.charged
  ordered : fs.fileTable.CreationOrder
  born : ∀ name inode, fs.file name = some inode → inode.generation < fs.created

theorem sizeOf_eq {t t' : FileTable} (same : (t'.get name).map Inode.size = (t.get name).map Inode.size) :
    t'.sizeOf name = t.sizeOf name := by
  unfold FileTable.sizeOf
  cases found : t.get name <;> cases found' : t'.get name <;> simp_all

theorem generationOf_eq {t t' : FileTable}
    (same : (t'.get name).map Inode.generation = (t.get name).map Inode.generation) :
    t'.generationOf name = t.generationOf name := by
  unfold FileTable.generationOf
  cases found : t.get name <;> cases found' : t'.get name <;> simp_all

namespace Tallied

theorem init (memoryLimit filesLimit : UInt32) (policy : ReplacementPolicy)
    (bounded : filesLimit.toNat < 2 ^ 31) :
    Tallied (FileSystem.init memoryLimit filesLimit policy : FileSystem codec) where
  count := rfl
  limited := by
    change (0 : Int) ≤ toInt32 filesLimit.toNat
    rw [toInt32_of_small bounded]
    omega
  small := (toInt32_range _).2
  size := rfl
  ordered := List.Pairwise.nil
  born := by
    intro name inode present
    cases name <;> cases present

theorem congr (tallied : Tallied fs)
    (files : ∀ name, (fs'.file name).map Inode.size = (fs.file name).map Inode.size ∧
      (fs'.file name).map Inode.generation = (fs.file name).map Inode.generation)
    (presenceList : fs'.fileTable.presenceList = fs.fileTable.presenceList)
    (count : fs'.fileTable.count = fs.fileTable.count)
    (size : fs'.fileTable.size = fs.fileTable.size) (limit : fs'.filesLimit = fs.filesLimit)
    (created : fs'.created = fs.created) : Tallied fs' where
  count := by rw [count, presenceList, tallied.count]
  limited := by
    rw [count, limit]
    exact tallied.limited
  small := limit ▸ tallied.small
  size := by
    have sizes : fs'.fileTable.sizeOf = fs.fileTable.sizeOf :=
      funext fun name => sizeOf_eq (files name).1
    rw [size, tallied.size, FileTable.charged, FileTable.charged, presenceList, sizes]
  ordered := by
    have generations : fs'.fileTable.generationOf = fs.fileTable.generationOf :=
      funext fun name => generationOf_eq (files name).2
    rw [FileTable.CreationOrder, presenceList, generations]
    exact tallied.ordered
  born := by
    intro name inode present
    have same := (files name).2
    rw [present, Option.map_some, eq_comm, Option.map_eq_some_iff] at same
    obtain ⟨old, found, is⟩ := same
    rw [← is, created]
    exact tallied.born name old found

theorem of_quiet (tallied : Tallied fs) (quiet : Quiet fs fs') : Tallied fs' := by
  refine tallied.congr (fun name => ?_) quiet.presenceList quiet.count quiet.size quiet.filesLimit
    quiet.created
  have sizes := congrArg (Option.map Charge.size) (quiet.files name)
  have generations := congrArg (Option.map Charge.generation) (quiet.files name)
  rw [Option.map_map, Option.map_map] at sizes generations
  exact ⟨sizes, generations⟩

theorem size_lt (tallied : Tallied fs) (light : Light fs) : fs.fileTable.size < 2 ^ 62 := by
  have each : ∀ size ∈ fs.fileTable.presenceList.map fs.fileTable.sizeOf, size ≤ 2 ^ 31 - 1 := by
    intro size member
    obtain ⟨name, listed, rfl⟩ := List.mem_map.mp member
    obtain ⟨inode, present⟩ := FileTable.mem_presenceList.mp listed
    have small := light name inode present
    rw [FileTable.sizeOf, present, Option.elim_some]
    omega
  have bound := List.sum_le_card_nsmul _ _ each
  rw [List.length_map, smul_eq_mul] at bound
  have count := tallied.count
  have limited := tallied.limited
  have small := tallied.small
  have few : fs.fileTable.presenceList.length ≤ 2 ^ 31 := by omega
  rw [tallied.size, FileTable.charged]
  calc _ ≤ fs.fileTable.presenceList.length * (2 ^ 31 - 1) := bound
    _ ≤ 2 ^ 31 * (2 ^ 31 - 1) := Nat.mul_le_mul_right _ few
    _ < 2 ^ 62 := by decide

end Tallied

theorem Light.of_quiet (light : Light fs) (quiet : Quiet fs fs') : Light fs' := by
  intro name inode present
  obtain ⟨old, found, same⟩ := quiet.file_of present
  have size : inode.size = old.size := congrArg Charge.size same
  rw [size]
  exact light name old found

/-! ## New and removed files -/

theorem creationOrder_create {t t' : FileTable} {generation : Nat}
    (ordered : t.CreationOrder)
    (born : ∀ name inode, t.get name = some inode → inode.generation < generation)
    (created : t.create name generation now = .ok t') : t'.CreationOrder := by
  have list := (FileTable.create_counters created).1
  have added := FileTable.create_spec created
  have last : t'.generationOf name = generation := by
    rw [FileTable.generationOf, added, if_pos rfl]
    rfl
  have others : ∀ other ∈ t.presenceList, t'.generationOf other = t.generationOf other := by
    intro other member
    refine generationOf_eq ?_
    rw [added, if_neg]
    rintro rfl
    have nodup := t'.nodup
    rw [list, List.nodup_append] at nodup
    exact nodup.2.2 other member other List.mem_cons_self rfl
  rw [FileTable.CreationOrder, list, List.pairwise_append]
  refine ⟨?_, List.pairwise_singleton _ _, ?_⟩
  · refine ordered.imp_of_mem fun {first second} isFirst isSecond less => ?_
    rwa [others first isFirst, others second isSecond]
  · intro other member newest isNewest
    rw [List.mem_singleton] at isNewest
    obtain ⟨inode, present⟩ := FileTable.mem_presenceList.mp member
    rw [isNewest, last, others other member, FileTable.generationOf, present, Option.elim_some]
    exact born other inode present

theorem Tallied.withFile (tallied : Tallied fs) {table : FileTable}
    (created : fs.fileTable.create name fs.created now = .ok table)
    (below : fs.fileTable.count ≠ fs.filesLimit) : Tallied (fs.withFile table) := by
  obtain ⟨list, size⟩ := FileTable.create_counters created
  have count := FileTable.create_count created
  have added := FileTable.create_spec created
  have limited := tallied.limited
  refine ⟨?_, ?_, tallied.small, ?_, ?_, ?_⟩
  · change table.count = table.presenceList.length
    rw [count, list, tallied.count, List.length_append, List.length_singleton]
    omega
  · change table.count ≤ fs.filesLimit
    omega
  · change table.size = table.charged
    rw [size, FileTable.charged_create created, tallied.size]
  · exact creationOrder_create tallied.ordered tallied.born created
  · intro other inode present
    change table.get other = some inode at present
    change inode.generation < fs.created + 1
    rw [added] at present
    split at present
    · cases present
      exact Nat.lt_succ_self _
    · exact (tallied.born other inode present).trans (Nat.lt_succ_self _)

theorem FileTable.remove_count {t t' : FileTable} (removed : t.remove name = some t') :
    t'.count = t.count - 1 := by
  unfold FileTable.remove at removed
  split at removed
  · obtain rfl := Option.some.inj removed
    rfl
  · cases removed

theorem Tallied.without (tallied : Tallied fs) (light : Light fs)
    (present : fs.file inode.name = some inode) : Tallied (fs.without inode) := by
  obtain ⟨table, gone⟩ := FileTable.remove_isSome present
  have result := fileTable_without gone
  obtain ⟨list, size⟩ := FileTable.remove_counters gone present
  have count := FileTable.remove_count gone
  have others := FileTable.get_remove gone
  have charged := FileTable.charged_remove gone present
  have total := tallied.size
  have large := tallied.size_lt light
  have member := FileTable.mem_presenceList.mpr ⟨inode, present⟩
  have some_ := List.length_pos_of_mem member
  have counted := tallied.count
  have limited := tallied.limited
  refine ⟨?_, ?_, tallied.small, ?_, ?_, ?_⟩
  · rw [result, count, list, List.length_erase_of_mem member]
    omega
  · rw [result, count]
    change _ ≤ fs.filesLimit
    omega
  · rw [result, size, toInt32_of_small (light inode.name inode present)]
    have le : inode.size ≤ fs.fileTable.size := by omega
    rw [← Int.ofNat_sub le, toUnsigned64_of_nat (by omega)]
    omega
  · rw [result, FileTable.CreationOrder, list]
    refine (tallied.ordered.sublist List.erase_sublist).imp_of_mem
      fun {first second} isFirst isSecond less => ?_
    have same : ∀ other ∈ fs.fileTable.presenceList.erase inode.name,
        table.generationOf other = fs.fileTable.generationOf other := by
      intro other stays
      refine generationOf_eq ?_
      rw [others, if_neg (fs.fileTable.nodup.mem_erase_iff.mp stays).1]
    rwa [same first isFirst, same second isSecond]
  · intro other stored found
    rw [file, result, others] at found
    split at found
    · cases found
    · exact tallied.born other stored found

theorem Light.without (light : Light fs) (present : fs.file inode.name = some inode) :
    Light (fs.without inode) := by
  obtain ⟨table, gone⟩ := FileTable.remove_isSome present
  intro other stored found
  rw [file, fileTable_without gone, FileTable.get_remove gone] at found
  split at found
  · cases found
  · exact light other stored found

theorem Tallied.with_monitor (tallied : Tallied fs) (monitor : Monitor) :
    Tallied { fs with monitor } :=
  tallied.congr (fun _ => ⟨rfl, rfl⟩) rfl rfl rfl rfl rfl

theorem Light.with_monitor (light : Light fs) (monitor : Monitor) : Light { fs with monitor } :=
  light

theorem Tallied.removes (tallied : Tallied fs) (light : Light fs)
    (present : fs.file inode.name = some inode) {done : Bool} (removes : Removes fs inode done fs') :
    Tallied fs' ∧ Light fs' := by
  have tallied' := tallied.without light present
  have light' := light.without present
  cases removes with
  | unknown => exact ⟨tallied', light'⟩
  | uncounted | oversized | done => exact ⟨tallied'.with_monitor _, light'.with_monitor _⟩

/-! ## Reads and flushes -/

/-- The file is charged with what its content compresses to, so that a read of it
    does not change its size. -/
def Exact (fs : FileSystem codec) (inode : Inode) : Prop :=
  ∀ old ∈ Memory.at? fs.memory inode.directPtr,
    inode.size = (codec.encode (codec.decode old)).elim 0 codec.size

instance (fs : FileSystem codec) (inode : Inode) : Decidable (Exact fs inode) := by
  unfold Exact
  infer_instance

/-- The sizes and the numbers of the files are as before. -/
theorem Tallied.of_sizes (tallied : Tallied fs) (light : Light fs)
    (files : ∀ name, (fs'.file name).map Inode.size = (fs.file name).map Inode.size ∧
      (fs'.file name).map Inode.generation = (fs.file name).map Inode.generation)
    (presenceList : fs'.fileTable.presenceList = fs.fileTable.presenceList)
    (count : fs'.fileTable.count = fs.fileTable.count)
    (size : fs'.fileTable.size = fs.fileTable.size) (limit : fs'.filesLimit = fs.filesLimit)
    (created : fs'.created = fs.created) : Tallied fs' ∧ Light fs' := by
  refine ⟨tallied.congr files presenceList count size limit created, fun name inode present => ?_⟩
  have same := (files name).1
  rw [present, Option.map_some, eq_comm, Option.map_eq_some_iff] at same
  obtain ⟨old, found, is⟩ := same
  rw [← is]
  exact light name old found

theorem Tallied.putFile (tallied : Tallied fs) (light : Light fs)
    (present : fs.file name = some inode) {s : InodeState codec} (size : s.inode.size = inode.size)
    (generation : s.inode.generation = inode.generation) :
    Tallied (fs.putFile name s) ∧ Light (fs.putFile name s) := by
  refine tallied.of_sizes light (fun other => ?_) (FileTable.update_counters _ _ _).1
    (FileTable.count_update _ _ _) (FileTable.update_counters _ _ _).2 rfl rfl
  rw [file_putFile]
  split
  · rename_i same
    subst same
    rw [present]
    exact ⟨congrArg some size, congrArg some generation⟩
  · exact ⟨rfl, rfl⟩

theorem Tallied.reads (tallied : Tallied fs) (light : Light fs)
    (present : fs.file inode.name = some inode) (exact_ : Exact fs inode) {done : Bool}
    (reads : Reads fs inode now done fs') : Tallied fs' ∧ Light fs' := by
  cases reads with
  | null => exact tallied.putFile light present rfl rfl
  | spoiled found nothing =>
      refine tallied.putFile light present ?_ rfl
      have size := exact_ _ found
      rw [nothing, codec.encode_nil] at size
      exact size.symm
  | reread found some_ encodes =>
      refine tallied.putFile light present ?_ rfl
      have size := exact_ _ found
      rw [encodes] at size
      exact size.symm

/-- The difference that a flush adds does not wrap around where the file stays below
    2^31 bytes. -/
theorem grown_sizes {size total : Nat} {added : Int} (low : -2 ^ 31 ≤ added) (high : added < 2 ^ 31)
    (small : size < 2 ^ 31) (le : size ≤ total) (large : total < 2 ^ 62)
    (after : toUnsigned32 (size + added) < 2 ^ 31) :
    toUnsigned64 (total + added) + size = total + toUnsigned32 (size + added) := by
  unfold toUnsigned32 at after ⊢
  unfold toUnsigned64
  omega

theorem Tallied.takeOver (tallied : Tallied fs) (light : Light fs) {flushed : Inode} {added : Int}
    (low : -2 ^ 31 ≤ added) (high : added < 2 ^ 31) (stored : fs.file flushed.name ≠ none)
    (after : Light (fs.takeOver flushed added)) : Tallied (fs.takeOver flushed added) := by
  obtain ⟨inode, present⟩ := Option.ne_none_iff_exists'.mp stored
  have grown := after flushed.name _ (by rw [file_takeOver, if_pos rfl, present]; rfl)
  have le := FileTable.size_le_charged present
  have total := tallied.size
  have sum := grown_sizes low high (light _ inode present) (le.trans total.ge)
    (tallied.size_lt light) grown
  have charged : (fs.takeOver flushed added).fileTable.charged + inode.size =
      fs.fileTable.charged + toUnsigned32 (inode.size + added) :=
    FileTable.charged_update present _
  have generations : ∀ name, ((fs.takeOver flushed added).file name).map Inode.generation =
      (fs.file name).map Inode.generation := by
    intro name
    rw [file_takeOver]
    split
    · rename_i same
      rw [same, present]
      rfl
    · rfl
  have list : (fs.takeOver flushed added).fileTable.presenceList = fs.fileTable.presenceList :=
    (FileTable.update_counters _ _ _).1
  have count : (fs.takeOver flushed added).fileTable.count = fs.fileTable.count :=
    FileTable.count_update _ _ _
  refine ⟨?_, ?_, tallied.small, ?_, ?_, ?_⟩
  · rw [count, list, tallied.count]
  · rw [count]
    exact tallied.limited
  · rw [size_takeOver]
    omega
  · have same : (fs.takeOver flushed added).fileTable.generationOf = fs.fileTable.generationOf :=
      funext fun name => generationOf_eq (generations name)
    rw [FileTable.CreationOrder, list, same]
    exact tallied.ordered
  · intro name inode found
    have same := generations name
    rw [found, Option.map_some, eq_comm, Option.map_eq_some_iff] at same
    obtain ⟨old, before, is⟩ := same
    rw [← is]
    exact tallied.born name old before

theorem Tallied.recorded (tallied : Tallied fs) (copy : Inode) (added : Nat) (now : Int) :
    Tallied (fs.recorded copy added now) := by
  have quiet : Quiet fs (fs.updateFile copy.name fun inode => { inode with
      atime := copy.atime, mtime := copy.mtime, ctime := now }) := .updateFile fun _ _ => rfl
  exact (tallied.of_quiet quiet).with_monitor _

theorem Light.of_recorded {copy : Inode} {added : Nat} (light : Light (fs.recorded copy added now)) :
    Light fs := by
  have quiet : Quiet fs (fs.updateFile copy.name fun inode => { inode with
      atime := copy.atime, mtime := copy.mtime, ctime := now }) := .updateFile fun _ _ => rfl
  have light : Light (fs.updateFile copy.name fun inode => { inode with
      atime := copy.atime, mtime := copy.mtime, ctime := now }) := light
  exact light.of_quiet quiet.symm

theorem Tallied.flushes (tallied : Tallied fs) (light : Light fs) {fd : Nat} {copy : Inode}
    (stored : fs.file copy.name ≠ none) (flushes : Flushes fs fd copy now fs') (after : Light fs') :
    Tallied fs' := by
  cases flushes with
  | empty => exact tallied.recorded _ _ _
  | full buffered appended small encodes =>
      refine Tallied.recorded (Tallied.takeOver ?_ ?_ (toInt32_range _).1 (toInt32_range _).2 ?_
        after.of_recorded) _ _ _
      · exact tallied.congr (fun _ => ⟨rfl, rfl⟩) rfl rfl rfl rfl rfl
      · exact light
      · exact stored

theorem Tallied.tears (tallied : Tallied fs) {fd : Nat} {copy : Inode}
    (tears : Tears fs fd copy fs') : Tallied fs' := by
  cases tears <;> exact tallied.congr (fun _ => ⟨rfl, rfl⟩) rfl rfl rfl rfl rfl

/-! ## The steps -/

/-- Every file that the step reads, for its caller or for an eviction, is charged with
    what its content compresses to. -/
def ReadsExactly (fs : FileSystem codec) : Event → Prop
  | .write _ buf _ now => ∀ gs ∈ fs.evictions buf now, ∀ inode ∈ gs.chosen, Exact gs inode
  | .read fd pid _ => ∀ copy, fs.slot (toUnsigned32 fd) = some { owner := pid, inode := copy } →
      ¬ ShutOut copy pid → ∀ inode ∈ fs.file copy.name, Exact fs inode
  | _ => True

instance (fs : FileSystem codec) : (event : Event) → Decidable (ReadsExactly fs event)
  | .write _ buf _ now => inferInstanceAs (Decidable (∀ gs ∈ fs.evictions buf now, _))
  | .read fd pid _ => decidableOfSlot fs (toUnsigned32 fd) pid _
  | .open .. | .close .. | .remove .. | .lock .. | .unlock .. | .removeSession .. | .wake .. =>
      inferInstanceAs (Decidable True)

theorem Tallied.evict (s : WriteState codec)
    (sound : Tallied s.fileSystem ∧ Light s.fileSystem)
    (exact_ : ∀ inode ∈ s.fileSystem.chosen, Exact s.fileSystem inode) :
    (WriteState.rtsEvict now s).Post
      (fun _ s' => Tallied s'.fileSystem ∧ Light s'.fileSystem)
      (fun _ s' => Tallied s'.fileSystem ∧ Light s'.fileSystem) (fun _ => True) := by
  obtain ⟨tallied, light⟩ := sound
  have tallied' : Tallied s.fileSystem.started := tallied.with_monitor _
  have light' : Light s.fileSystem.started := light
  have read : ∀ inode fs₁ done, s.fileSystem.chosen = some inode →
      Reads s.fileSystem.started inode now done fs₁ → Tallied fs₁ ∧ Light fs₁ :=
    fun inode fs₁ done taken reads =>
      tallied'.reads light' (file_of_chosen taken) (exact_ inode taken) reads
  have remove : ∀ inode fs₁ inode₁ done fs₂, s.fileSystem.chosen = some inode →
      Reads s.fileSystem.started inode now true fs₁ → fs₁.file inode.name = some inode₁ →
      Removes fs₁ inode₁ done fs₂ → Tallied fs₂ ∧ Light fs₂ := by
    intro inode fs₁ inode₁ done fs₂ taken reads found removes
    obtain ⟨tallied₁, light₁⟩ := read inode fs₁ true taken reads
    have named := fs₁.fileTable.named inode.name inode₁ found
    rw [← named] at found
    exact tallied₁.removes light₁ found removes
  refine (WriteState.rtsEvict_evicts s now).mono ?_ ?_ (fun _ _ => trivial)
  · rintro - s' ⟨inode, fs₁, inode₁, taken, reads, found, removes⟩
    exact remove inode fs₁ inode₁ true _ taken reads found removes
  · rintro - s' (same | ⟨inode, taken, reads | ⟨fs₁, inode₁, reads, found, removes⟩⟩)
    · rw [same]
      exact ⟨tallied', light'⟩
    · exact read inode _ false taken reads
    · exact remove inode fs₁ inode₁ false _ taken reads found removes

theorem Tallied.writeDescriptor (tallied : Tallied fs) (light : Light fs) (fd : Int)
    (bytes : List UInt8) (pid : Pid) (now : Int) :
    (writeDescriptor fd (some bytes) pid now fs).Post
      (fun _ fs' => Light fs' → Tallied fs') (fun _ fs' => Light fs' → Tallied fs')
      (fun _ => True) := by
  have stored : ∀ copy : Inode, Tallied (fs.updateSlot (toUnsigned32 fd) fun _ => copy) :=
    fun copy => tallied.congr (fun _ => ⟨rfl, rfl⟩) rfl rfl rfl rfl rfl
  refine (writeDescriptor_flushes fs fd bytes pid now).mono ?_ ?_ (fun _ _ => trivial)
  · rintro - fs' ⟨copy, -, -, -, present, flushes, -⟩ after
    refine (stored _).flushes light ?_ flushes after
    exact present
  · rintro - fs' (rfl | ⟨copy, -, -, -, ⟨-, rfl⟩ | ⟨present, ⟨flushes, -⟩ | tears⟩⟩) after
    · exact tallied
    · exact stored _
    · refine (stored _).flushes light ?_ flushes after
      exact present
    · exact (stored _).tears tears

theorem Tallied.fileSystemRead (tallied : Tallied fs) (light : Light fs) {fd : Int} {pid : Pid}
    (exactly : ReadsExactly fs (.read fd pid now)) :
    (fileSystemRead fd pid now fs).Post
      (fun _ fs' => Light fs' → Tallied fs') (fun _ fs' => Light fs' → Tallied fs')
      (fun _ => True) := by
  have read : ∀ copy inode fs₁ done, fs.slot (toUnsigned32 fd) = some ⟨pid, copy⟩ →
      ¬ ShutOut copy pid → fs.file copy.name = some inode → Reads fs inode now done fs₁ →
      Tallied fs₁ ∧ Light fs₁ := by
    intro copy inode fs₁ done live allowed present reads
    have exact_ := exactly copy live allowed inode present
    rw [← fs.fileTable.named copy.name inode present] at present
    exact tallied.reads light present exact_ reads
  refine (fileSystemRead_reads fs fd pid now).mono ?_ ?_ (fun _ _ => trivial)
  · rintro - fs' ⟨copy, inode, fs₁, live, allowed, present, reads, flushes, -⟩ after
    obtain ⟨tallied₁, light₁⟩ := read copy inode fs₁ true live allowed present reads
    exact tallied₁.flushes light₁ (reads.stored present) flushes after
  · rintro - fs' (⟨-, rfl⟩ | ⟨copy, inode, live, allowed, present, reads | ⟨fs₁, reads, fails⟩⟩) after
    · exact tallied
    · exact (read copy inode fs' false live allowed present reads).1
    · obtain ⟨tallied₁, light₁⟩ := read copy inode fs₁ true live allowed present reads
      rcases fails with ⟨flushes, -⟩ | ⟨-, tears⟩
      · exact tallied₁.flushes light₁ (reads.stored present) flushes after
      · exact tallied₁.tears tears

theorem Tallied.step (tallied : Tallied fs) (light : Light fs) {event : Event}
    (exactly : ReadsExactly fs event) (result : (event.call fs).state? = some fs')
    (after : Light fs') : Tallied fs' := by
  by_cases quiet : event.quiet = true
  · exact tallied.of_quiet (Event.quiet_call quiet result)
  · cases event with
    | «open» name flags pid now =>
        rcases Event.open_call result with same | wrong | ⟨table, created, below, same⟩
        · exact tallied.of_quiet same
        · have count := tallied.count
          omega
        · exact (tallied.withFile created below).of_quiet same
    | write fd buf pid now =>
        refine Outcome.Post.of_state (I := fun fs' => Light fs' → Tallied fs')
          (F := fun _ => True) ?_ result after
        refine write_call (I := fun fs => Tallied fs ∧ Light fs)
          (G := fun gs => ∀ inode ∈ gs.chosen, Exact gs inode) Tallied.evict exactly
          ⟨tallied, light⟩ (fun _ sound _ => sound.1) ?_
        rintro gs bytes rfl - ⟨tallied, light⟩
        exact tallied.writeDescriptor light fd bytes pid now
    | read fd pid now =>
        refine Outcome.Post.of_state (I := fun fs' => Light fs' → Tallied fs')
          (F := fun _ => True) ?_ result after
        exact Event.post_of_actions (fun _ => ⟨_, rfl⟩) (tallied.fileSystemRead light exactly)
    | remove name pid =>
        refine Outcome.Post.of_state (I := Tallied) (F := fun _ => True) ?_ result
        refine Event.post_of_actions (fun _ => ⟨_, rfl⟩) ?_
        refine (fileSystemRemove_removes fs name pid).mono ?_ ?_ (fun _ _ => trivial)
        · rintro - fs' ⟨inode, present, -, removes⟩
          rw [← fs.fileTable.named name inode present] at present
          exact (tallied.removes light present removes).1
        · rintro - fs' (⟨-, rfl⟩ | ⟨inode, present, -, -, removes⟩)
          · exact tallied
          · rw [← fs.fileTable.named name inode present] at present
            exact (tallied.removes light present removes).1
    | close fd pid now | lock fd pid now | unlock fd pid now | removeSession pid now
    | wake waiter now => exact absurd rfl quiet

end FileSystem

instance (fs : FileSystem codec) : Decidable (Light fs) :=
  decidable_of_iff (∀ name ∈ fs.fileTable.presenceList, ∀ inode ∈ fs.file name,
    inode.size < 2 ^ 31)
    ⟨fun all name inode present => all name (FileTable.mem_presenceList.mpr ⟨inode, present⟩)
      inode present, fun light name _ inode present => light name inode present⟩

/-- The steps from a state without a file of 2^31 bytes. -/
def LightEvent (fs : FileSystem codec) (_ : Event) : Prop := Light fs

def ExactEvent (fs : FileSystem codec) (event : Event) : Prop := Light fs ∧ ReadsExactly fs event

instance (fs : FileSystem codec) (event : Event) : Decidable (LightEvent fs event) :=
  inferInstanceAs (Decidable (Light fs))

instance (fs : FileSystem codec) (event : Event) : Decidable (ExactEvent fs event) :=
  inferInstanceAs (Decidable (_ ∧ _))

/-- Along steps that read exactly, with no file of 2^31 bytes, the list, the number and
    the size of the file table are those of the stored files. -/
theorem file_table_agrees (memoryLimit : UInt32) {filesLimit : UInt32}
    (bounded : filesLimit.toNat < 2 ^ 31) (policy : ReplacementPolicy) {fs : FileSystem codec}
    (run : Relation.ReflTransGen (Step ExactEvent) (.init memoryLimit filesLimit policy) fs)
    (light : Light fs) :
    fs.fileTable.presenceList.Nodup ∧
      (∀ name, name ∈ fs.fileTable.presenceList ↔
        ∃ inode, fs.fileTable.table.get name = some inode) ∧
      fs.fileTable.CreationOrder ∧
      fs.fileTable.count = fs.fileTable.presenceList.length ∧
      fs.fileTable.count ≤ fs.filesLimit ∧
      fs.fileTable.size = (fs.fileTable.presenceList.map fs.fileTable.sizeOf).sum := by
  have tallied : Tallied fs := by
    induction run with
    | refl => exact .init memoryLimit filesLimit policy bounded
    | tail _ next ih =>
        obtain ⟨event, -, ⟨before, exactly⟩, result⟩ := next
        exact (ih before).step before exactly result light
  exact ⟨fs.fileTable.nodup, fun _ => FileTable.mem_presenceList, tallied.ordered, tallied.count,
    tallied.limited, tallied.size⟩

/-- Two files are created and written, one of them is read, and a third one comes and
    goes. -/
theorem file_table_agrees_two : ∃ fs : FileSystem huffmanCodec,
    Relation.ReflTransGen (Step ExactEvent) (.init 1 4 .fifo) fs ∧ Light fs ∧
      fs.fileTable.presenceList = [[102], [103]] ∧ fs.fileTable.count = 2 ∧
      fs.fileTable.size = fs.fileTable.sizeOf [102] + fs.fileTable.sizeOf [103] := by
  have ran : (runs ExactEvent
      [.open [102] 1 1 0, .open [104] 3 1 1, .open [103] 1 1 2, .write 0 (some [97, 98]) 1 3,
        .write 2 (some [97, 98, 99]) 1 4, .read 0 1 5, .remove [104] 1]
      (.init 1 4 .fifo : FileSystem huffmanCodec)).any
        (fun fs => Light fs ∧ fs.fileTable.presenceList = [[102], [103]]) = true := by
    decide +kernel
  obtain ⟨fs, result, checked⟩ := (Option.any_eq_true _ _).mp ran
  obtain ⟨light, list⟩ := of_decide_eq_true checked
  have run := runs_steps result
  obtain ⟨-, -, -, count, -, size⟩ := file_table_agrees 1 (by decide) .fifo run light
  refine ⟨fs, run, light, list, ?_, ?_⟩
  · rw [count, list]
    rfl
  · rw [size, list]
    rfl

/-- A file is written through two descriptors, each with a copy of its own, and charged
    for both writes; a read then charges it for the last one only. -/
theorem file_table_disagrees : ∃ fs : FileSystem huffmanCodec,
    Relation.ReflTransGen (Step LightEvent) (.init 1 4 .fifo) fs ∧ Light fs ∧
      ¬ fs.fileTable.size = (fs.fileTable.presenceList.map fs.fileTable.sizeOf).sum := by
  have ran : (runs LightEvent
      [.open [102] 1 1 0, .open [102] 0 1 1, .write 0 (some [97, 98]) 1 2,
        .write 1 (some [99, 100]) 1 3, .read 1 1 4]
      (.init 1 4 .fifo : FileSystem huffmanCodec)).any (fun fs => Light fs ∧
        ¬ fs.fileTable.size = (fs.fileTable.presenceList.map fs.fileTable.sizeOf).sum) = true := by
    decide +kernel
  obtain ⟨fs, result, checked⟩ := (Option.any_eq_true _ _).mp ran
  obtain ⟨light, differs⟩ := of_decide_eq_true checked
  exact ⟨fs, runs_steps result, light, differs⟩

end FileStorage
