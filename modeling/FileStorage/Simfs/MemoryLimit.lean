import FileStorage.Simfs.FailedWrite
import FileStorage.Simfs.Frames

/-! # The memory limit

A write makes room for the compressed size of its own bytes. What the file table
is charged with is the growth of the recompressed content, measured against the
size that the copy of the descriptor remembers. `Economical` says when the first
covers the second; along such writes the sizes of the stored files never add up to
more than the size of the file table, and that never to more than the limit.
-/

namespace FileStorage

open Program FileSystem

/-- Compressing again what an artifact decodes to takes no more room than it. -/
def Codec.Steady (codec : Codec) : Prop :=
  ∀ bytes old new, codec.encode bytes = some old → codec.encode (codec.decode old) = some new →
    codec.size new ≤ codec.size old

theorem huffmanCodec_steady : huffmanCodec.Steady := by
  intro bytes old new encodes again
  change HuffmanTree.encoded bytes = some old at encodes
  change HuffmanTree.encoded old.bytes = some new at again
  have decoded : old.bytes = bytes ∨ old.bytes = [] := by
    unfold HuffmanTree.encoded at encodes
    split at encodes
    · split at encodes
      · cases encodes
      · obtain rfl := Option.some.inj encodes
        exact ite_eq_or_eq _ _ _
    · cases encodes
  rcases decoded with same | nothing
  · rw [same] at again
    obtain rfl := Option.some.inj (encodes.symm.trans again)
    exact Nat.le_refl _
  · rw [nothing] at again
    cases again

/-! ## The sum of the sizes -/

namespace FileTable

variable {t t' : FileTable} {name : Filename} {inode : Inode}

def sizeOf (t : FileTable) (name : Filename) : Nat := (t.get name).elim 0 Inode.size

def charged (t : FileTable) : Nat := (t.presenceList.map t.sizeOf).sum

theorem charged_eq (present : t.get name = some inode) :
    t.charged = inode.size + ((t.presenceList.erase name).map t.sizeOf).sum := by
  have size : t.sizeOf name = inode.size := by rw [sizeOf, present, Option.elim_some]
  have moved := List.perm_cons_erase (mem_presenceList.mpr ⟨inode, present⟩)
  rw [charged, (moved.map t.sizeOf).sum_eq, List.map_cons, List.sum_cons, size]

theorem size_le_charged (present : t.get name = some inode) : inode.size ≤ t.charged := by
  rw [charged_eq present]
  exact Nat.le_add_right _ _

theorem sum_others (others : ∀ other, other ≠ name → t'.get other = t.get other) :
    ((t.presenceList.erase name).map t'.sizeOf).sum =
      ((t.presenceList.erase name).map t.sizeOf).sum := by
  refine congrArg List.sum (List.map_congr_left fun other member => ?_)
  rw [sizeOf, sizeOf, others other (t.nodup.mem_erase_iff.mp member).1]

theorem charged_update (present : t.get name = some inode) (f : Inode → Inode) :
    (t.update name f).charged + inode.size = t.charged + (f inode).size := by
  obtain ⟨stored, after, size⟩ : ∃ stored, (t.update name f).get name = some stored ∧
      stored.size = (f inode).size := by
    refine ⟨{ f inode with name }, ?_, rfl⟩
    rw [get_update, if_pos rfl, present, Option.map_some]
  rw [charged_eq after, charged_eq present, (update_counters t name f).1,
    sum_others fun other different => by rw [get_update, if_neg different], size]
  omega

theorem create_counters {generation : Nat} {now : Int}
    (created : t.create name generation now = .ok t') :
    t'.presenceList = t.presenceList ++ [name] ∧ t'.size = t.size := by
  unfold create at created
  split at created
  · cases created
  · rename_i absent
    have fresh : name ∉ t.presenceList := by
      rw [mem_presenceList, absent]
      nofun
    split at created
    · cases created
    · rename_i added
      obtain rfl := Except.ok.inj created
      unfold put at added
      split at added
      · cases added
      · obtain rfl := Option.some.inj added
        exact ⟨if_neg fresh, rfl⟩

theorem charged_create {generation : Nat} {now : Int}
    (created : t.create name generation now = .ok t') : t'.charged = t.charged := by
  have list := (create_counters created).1
  have after : t'.get name = some (.init name generation now) := by
    rw [create_spec created, if_pos rfl]
  have fresh : name ∉ t.presenceList := by
    intro member
    have nodup := t'.nodup
    rw [list, List.nodup_append] at nodup
    exact nodup.2.2 name member name List.mem_cons_self rfl
  have erased : t'.presenceList.erase name = t.presenceList := by
    rw [list, List.erase_append_right _ fresh]
    simp
  rw [charged_eq after, erased, charged]
  have same : ∀ other ∈ t.presenceList, t'.sizeOf other = t.sizeOf other := by
    intro other member
    have different : other ≠ name := by
      rintro rfl
      exact fresh member
    rw [sizeOf, sizeOf, create_spec created, if_neg different]
  rw [List.map_congr_left same]
  exact Nat.zero_add _

theorem charged_remove (removed : t.remove name = some t') (present : t.get name = some inode) :
    t'.charged + inode.size = t.charged := by
  rw [charged_eq present, charged, (remove_counters removed present).1,
    sum_others fun other different => by rw [get_remove removed, if_neg different]]
  omega

end FileTable

variable {codec : Codec}

/-- A memory in which nothing is alive that was not alive before. -/
def Memory.Shrinks (before after : Memory codec) : Prop :=
  before.length ≤ after.length ∧ ∀ ptr artifact, Memory.at? after ptr = some artifact →
    Memory.at? before ptr = some artifact

theorem Memory.shrinks_free (memory : Memory codec) (ptr : DirectPtr) :
    Memory.Shrinks memory (Memory.free memory ptr) :=
  ⟨(Memory.length_free memory ptr).ge, fun _ _ found => Memory.at?_of_free found⟩

theorem Memory.shrinks_append_none (memory : Memory codec) :
    Memory.Shrinks memory (memory ++ [none]) := by
  refine ⟨by simp, fun ptr artifact found => ?_⟩
  rwa [Memory.at?_append_none] at found

theorem Memory.Shrinks.trans {first second third : Memory codec}
    (left : Memory.Shrinks first second) (right : Memory.Shrinks second third) :
    Memory.Shrinks first third :=
  ⟨left.1.trans right.1, fun ptr artifact found => left.2 ptr artifact (right.2 ptr artifact found)⟩

namespace FileSystem

variable {fs fs' : FileSystem codec} {name : Filename} {fd : Nat} {inode : Inode}

theorem toUnsigned64_sub {total part : Nat} (small : total < 2 ^ 31) (le : part ≤ total) :
    toUnsigned64 (total - toInt32 part) = total - part := by
  rw [toInt32_of_small (by omega), ← Int.ofNat_sub le, toUnsigned64_of_nat (by omega)]

/-- The stored files fit into the file table and the file table into the limit. No
    file is charged with less than its artifact takes. -/
structure Within (fs : FileSystem codec) : Prop where
  small : fs.memoryLimit < 2 ^ 31
  fits : fs.fileTable.size ≤ fs.memoryLimit
  charged : fs.fileTable.charged ≤ fs.fileTable.size
  known : ∀ name inode id, fs.file name = some inode → inode.directPtr = .artifact id →
    id < fs.memory.length
  sized : ∀ name inode artifact, fs.file name = some inode →
    Memory.at? fs.memory inode.directPtr = some artifact → codec.size artifact ≤ inode.size
  made : ∀ ptr artifact, Memory.at? fs.memory ptr = some artifact →
    ∃ bytes, codec.encode bytes = some artifact

namespace Within

theorem init (filesLimit : UInt32) (policy : ReplacementPolicy) {capacity : UInt32}
    (small : capacity.toNat < 2048) :
    Within (FileSystem.init capacity filesLimit policy : FileSystem codec) where
  small := by
    change capacity.toNat * 1048576 < 2 ^ 31
    omega
  fits := Nat.zero_le _
  charged := Nat.le_refl 0
  known := by
    intro name inode id present
    cases name <;> cases present
  sized := by
    intro name inode artifact present
    cases name <;> cases present
  made := by
    intro ptr artifact found
    cases ptr <;> cases found

theorem of_shrinks (within : Within fs) (table : fs'.fileTable = fs.fileTable)
    (memory : Memory.Shrinks fs.memory fs'.memory) (limit : fs'.memoryLimit = fs.memoryLimit) :
    Within fs' where
  small := limit ▸ within.small
  fits := by
    rw [table, limit]
    exact within.fits
  charged := by
    rw [table]
    exact within.charged
  known := by
    intro name inode id present points
    rw [file, table] at present
    exact (within.known name inode id present points).trans_le memory.1
  sized := by
    intro name inode artifact present found
    rw [file, table] at present
    exact within.sized name inode artifact present (memory.2 _ artifact found)
  made := fun ptr artifact found => within.made ptr artifact (memory.2 ptr artifact found)

theorem of_same (within : Within fs) (table : fs'.fileTable = fs.fileTable)
    (memory : fs'.memory = fs.memory) (limit : fs'.memoryLimit = fs.memoryLimit) : Within fs' :=
  within.of_shrinks table (memory ▸ ⟨Nat.le_refl _, fun _ _ found => found⟩) limit

theorem size_le (within : Within fs) (present : fs.file name = some inode) :
    inode.size ≤ fs.fileTable.size :=
  (FileTable.size_le_charged present).trans within.charged

theorem size_lt (within : Within fs) : fs.fileTable.size < 2 ^ 31 :=
  within.fits.trans_lt within.small

theorem updateFile (within : Within fs) {f : Inode → Inode}
    (keeps : ∀ inode, fs.file name = some inode →
      (f inode).directPtr = inode.directPtr ∧ (f inode).size = inode.size ∨
      (f inode).directPtr = .null ∧ (f inode).size = 0) : Within (fs.updateFile name f) := by
  cases present : fs.file name with
  | none =>
      have same : fs.updateFile name f = fs := by
        have absent : fs.fileTable.get name = none := present
        simp only [FileSystem.updateFile, FileTable.update, absent]
      exact same.symm ▸ within
  | some inode =>
      have kept := keeps inode present
      have size := size_updateFile fs name f
      have charged := FileTable.charged_update present f
      refine ⟨within.small, size ▸ within.fits, ?_, ?_, ?_, within.made⟩
      · rw [size]
        change (fs.fileTable.update name f).charged ≤ fs.fileTable.size
        have before := within.charged
        rcases kept with ⟨-, same⟩ | ⟨-, nothing⟩ <;> omega
      · intro other inode' id present' points
        rw [file_updateFile, present] at present'
        split at present'
        · obtain rfl := Option.some.inj present'
          rcases kept with ⟨ptr, -⟩ | ⟨ptr, -⟩
          · exact within.known name inode id present (ptr.symm.trans points)
          · cases ptr.symm.trans points
        · exact within.known other inode' id present' points
      · intro other inode' artifact present' found
        rw [file_updateFile, present] at present'
        split at present'
        · obtain rfl := Option.some.inj present'
          rcases kept with ⟨ptr, size⟩ | ⟨ptr, -⟩
          · exact size ▸ within.sized name inode artifact present (ptr ▸ found)
          · have null : Memory.at? fs.memory (f inode).directPtr = some artifact := found
            rw [ptr] at null
            cases null
        · exact within.sized other inode' artifact present' found

theorem replaced (within : Within fs) (name : Filename) {ptr : DirectPtr} {content : List UInt8}
    {new : codec.Artifact} (memory : fs'.memory = Memory.free fs.memory ptr ++ [some new])
    (encodes : codec.encode content = some new) (limit : fs'.memoryLimit = fs.memoryLimit)
    (others : ∀ other, other ≠ name → fs'.file other = fs.file other)
    (stored : ∀ inode, fs'.file name = some inode →
      inode.directPtr = .artifact fs.memory.length ∧ codec.size new ≤ inode.size)
    (fits : fs'.fileTable.size ≤ fs.memoryLimit)
    (charged : fs'.fileTable.charged ≤ fs'.fileTable.size) : Within fs' := by
  have length : fs'.memory.length = fs.memory.length + 1 := by
    rw [memory, List.length_append, Memory.length_free, List.length_singleton]
  have found_new : Memory.at? fs'.memory (.artifact fs.memory.length) = some new := by
    rw [memory]
    exact Memory.at?_append_self _ new (Memory.length_free fs.memory ptr)
  have found_old : ∀ id artifact, id < fs.memory.length →
      Memory.at? fs'.memory (.artifact id) = some artifact →
      Memory.at? fs.memory (.artifact id) = some artifact := by
    intro id artifact inside found
    rw [memory, Memory.at?_append] at found
    · exact (Memory.shrinks_free fs.memory ptr).2 _ _ found
    · rintro _ ⟨⟩
      rwa [Memory.length_free]
  refine ⟨limit ▸ within.small, limit ▸ fits, charged, ?_, ?_, ?_⟩
  · intro other inode id present points
    by_cases same : other = name
    · subst same
      obtain ⟨ptr', -⟩ := stored inode present
      cases ptr'.symm.trans points
      omega
    · rw [others other same] at present
      have inside := within.known other inode id present points
      omega
  · intro other inode artifact present found
    by_cases same : other = name
    · subst same
      obtain ⟨ptr', size⟩ := stored inode present
      rw [ptr', found_new] at found
      obtain rfl := Option.some.inj found
      exact size
    · rw [others other same] at present
      cases points : inode.directPtr with
      | null | bytes raw =>
          rw [points] at found
          cases found
      | artifact id =>
          rw [points] at found
          refine within.sized other inode artifact present ?_
          rw [points]
          exact found_old id artifact (within.known other inode id present points) found
  · intro ptr' artifact found
    cases ptr' with
    | null | bytes raw => cases found
    | artifact id =>
        by_cases inside : id < fs.memory.length
        · exact within.made _ artifact (found_old id artifact inside found)
        · have last : id = fs.memory.length := by
            by_contra beyond
            have outside : fs'.memory.length ≤ id := by omega
            rw [Memory.at?, List.getD_eq_default _ _ outside] at found
            cases found
          rw [last, found_new] at found
          obtain rfl := Option.some.inj found
          exact ⟨content, encodes⟩

theorem putFile (within : Within fs) (present : fs.file name = some inode)
    {s : InodeState codec} {ptr : DirectPtr} {content : List UInt8} {new : codec.Artifact}
    (memory : s.memory = Memory.free fs.memory ptr ++ [some new])
    (encodes : codec.encode content = some new)
    (points : s.inode.directPtr = .artifact fs.memory.length) (size : s.inode.size = codec.size new)
    (smaller : codec.size new ≤ inode.size) : Within (fs.putFile name s) := by
  have same : (fs.putFile name s).fileTable.size = fs.fileTable.size := size_updateFile fs name _
  refine within.replaced name memory encodes rfl ?_ ?_ (same.le.trans within.fits) ?_
  · intro other different
    rw [file_putFile, if_neg different]
  · intro stored after
    rw [file_putFile, if_pos rfl, present] at after
    cases after
    exact ⟨points, size.ge⟩
  · rw [same]
    have charged : (fs.putFile name s).fileTable.charged + inode.size =
        fs.fileTable.charged + s.inode.size := FileTable.charged_update present _
    have before := within.charged
    omega

theorem removed (within : Within fs) {table : FileTable}
    (gone : fs.fileTable.remove name = some table) (present : fs.file name = some inode) :
    Within { fs with fileTable := table } := by
  have size := (FileTable.remove_counters gone present).2
  rw [toUnsigned64_sub within.size_lt (within.size_le present)] at size
  have charged := FileTable.charged_remove gone present
  have others : ∀ other stored, table.get other = some stored → fs.file other = some stored := by
    intro other stored found
    rw [FileTable.get_remove gone] at found
    split at found
    · cases found
    · exact found
  refine ⟨within.small, ?_, ?_, ?_, ?_, within.made⟩
  · exact (size.le.trans (Nat.sub_le _ _)).trans within.fits
  · have before := within.charged
    change table.charged ≤ table.size
    omega
  · intro other stored id found points
    exact within.known other stored id (others other stored found) points
  · intro other stored artifact found
    exact within.sized other stored artifact (others other stored found)

end Within

/-! ## What the calls do to the sizes -/

theorem Within.withstands (now : Int) : Withstands now (Within : FileSystem codec → Prop) where
  inode := by
    intro fs name inode changed within present managed
    refine within.updateFile fun other found => .inl ?_
    obtain rfl := Option.some.inj (present.symm.trans found)
    rw [← managed.rest]
    exact ⟨rfl, rfl⟩
  descriptors within _ := within.of_same rfl rfl rfl
  blocked within := within.of_same rfl rfl rfl

abbrev KeepsWithin {α : Type} (p : Call codec α) : Prop := Keeps Within p

namespace KeepsWithin

theorem modify {f : FileSystem codec → FileSystem codec}
    (same : ∀ fs, (f fs).fileTable = fs.fileTable ∧ (f fs).memory = fs.memory ∧
      (f fs).memoryLimit = fs.memoryLimit) : KeepsWithin (Program.modify f : Call codec Unit) :=
  Keeps.modify fun fs within => within.of_same (same fs).1 (same fs).2.1 (same fs).2.2

theorem rtsCreateInode (name : Filename) (now : Int) :
    KeepsWithin (rtsCreateInode name now : Call codec Unit) := by
  refine keeps_rtsCreateInode (fun fs table within created => ?_)
    (fun _ within => within.of_same rfl rfl rfl)
  have counters := FileTable.create_counters created
  have added : ∀ other, table.get other = if other = name then
      some (Inode.init name fs.created now) else fs.file other := FileTable.create_spec created
  refine ⟨within.small, counters.2.le.trans within.fits, ?_, ?_, ?_, within.made⟩
  · rw [FileTable.charged_create created, counters.2]
    exact within.charged
  · intro other inode id present points
    rw [file, added] at present
    split at present
    · cases present
      cases points
    · exact within.known other inode id present points
  · intro other inode artifact present found
    rw [file, added] at present
    split at present
    · cases present
      cases found
    · exact within.sized other inode artifact present found

theorem rtsReadInode (steady : codec.Steady) (name : Filename) (now : Int) :
    KeepsWithin (rtsReadInode name now : Call codec (List UInt8)) := by
  intro fs within
  simp only [FileSystem.rtsReadInode, post_bind, post_get, post_failIf]
  refine ⟨fun _ => within, fun stored => ?_⟩
  obtain ⟨inode, present⟩ := Option.ne_none_iff_exists'.mp stored
  apply post_onFile present
  apply InodeState.post_read
  · intro null
    refine (within.updateFile fun other found => .inl ?_).of_same rfl rfl rfl
    obtain rfl := Option.some.inj (present.symm.trans found)
    exact ⟨rfl, rfl⟩
  · exact fun _ _ => trivial
  · exact fun _ _ _ => trivial
  · intro old found nothing
    refine Within.of_shrinks (within.updateFile fun _ _ => .inr ⟨?_, ?_⟩) rfl
      (Memory.shrinks_free fs.memory inode.directPtr) rfl
    · rfl
    · rfl
  · intro old new found some_ encodes
    obtain ⟨bytes, made⟩ := within.made _ old found
    have smaller : codec.size new ≤ inode.size :=
      (steady bytes old new made encodes).trans (within.sized name inode old present found)
    exact within.putFile present rfl encodes rfl rfl smaller

theorem fileTableRemove (name : Filename) :
    KeepsWithin (fileTableRemove name : Call codec Unit) := by
  intro fs within
  simp only [FileSystem.fileTableRemove, post_bind, post_get, post_orFail]
  refine ⟨fun _ => within, fun inode present => ?_⟩
  -- what follows the destruction of the artifact
  have rest : ∀ fs₁ : FileSystem codec, Within fs₁ → fs₁.fileTable = fs.fileTable →
      ((fs.fileTable.remove name = none → Within fs₁) ∧
        ∀ table, fs.fileTable.remove name = some table →
          Within { fs₁ with fileTable := table }) := by
    intro fs₁ within₁ same
    refine ⟨fun _ => within₁, fun table removed => ?_⟩
    rw [← same] at removed
    exact within₁.removed removed (by rw [file, same]; exact present)
  simp only [destroyArtifact, post_bind, post_get, post_modify]
  cases inode.directPtr with
  | null => exact rest fs within rfl
  | bytes raw => trivial
  | artifact id =>
      cases found : fs.memory.getD id none with
      | none => simp only [found, post_fault]
      | some artifact =>
          simp only [found, post_modify]
          exact rest { fs with memory := fs.memory.set id none }
            (within.of_shrinks rfl (Memory.shrinks_free fs.memory (.artifact id)) rfl) rfl

theorem rtsRemoveInode (name : Filename) : KeepsWithin (rtsRemoveInode name : Call codec Unit) :=
  .bind (keeps_rtsGetInode name) fun _ => .bind (fileTableRemove name) fun _ => .bind .get fun _ =>
    .bind (keeps_ofExcept _) fun _ => .bind (modify fun _ => ⟨rfl, rfl, rfl⟩) fun _ =>
      .bind (keeps_ofExcept _) fun _ => .bind (modify fun _ => ⟨rfl, rfl, rfl⟩) fun _ =>
        .bind keeps_fileTableSize fun _ => .pure _

theorem fileSystemRemove (name : Filename) (pid : Pid) :
    KeepsWithin (fileSystemRemove name pid : Call codec Unit) :=
  .bind (.failIf _ _) fun _ => .bind (keeps_rtsGetInode name) fun _ => .bind (.failIf _ _) fun _ =>
    .bind (.failIf _ _) fun _ => rtsRemoveInode name

end KeepsWithin

/-! ## Flushing -/

/-- To flush a buffer through a copy charges the file with no more than `room`, and
    with no less than the copy remembers. -/
def Affordable (fs : FileSystem codec) (copy : Inode) (buffer : List UInt8) (room : Nat) : Prop :=
  ∀ inode ∈ fs.file copy.name,
    ∀ new ∈ (Memory.appended fs.memory copy.directPtr buffer).bind codec.encode,
      copy.size ≤ inode.size ∧ codec.size new ≤ copy.size + room

instance (fs : FileSystem codec) (copy : Inode) (buffer : List UInt8) (room : Nat) :
    Decidable (Affordable fs copy buffer room) := by
  unfold Affordable
  infer_instance

theorem flushed_sizes {table size old new room limit : Nat} (small : limit < 2 ^ 31)
    (fits : table + room ≤ limit) (charged : size ≤ table) (remembered : old ≤ size)
    (affordable : new ≤ old + room) :
    toUnsigned64 (table + toInt32 (new - toInt32 old)) = table + new - old ∧
      toUnsigned32 (size + toInt32 (new - toInt32 old)) = size + new - old := by
  rw [toInt32_of_small (show old < 2 ^ 31 by omega), toInt32_of_range (by omega) (by omega)]
  unfold toUnsigned64 toUnsigned32
  omega

theorem Within.takeOver (within : Within fs) {flushed : Inode} {bytesAdded : Int}
    (present : fs.file flushed.name = some inode) {ptr : DirectPtr} {content : List UInt8}
    {new : codec.Artifact} {old : Nat} (table : fs'.fileTable = fs.fileTable)
    (memory : fs'.memory = Memory.free fs.memory ptr ++ [some new])
    (limit : fs'.memoryLimit = fs.memoryLimit) (encodes : codec.encode content = some new)
    (points : flushed.directPtr = .artifact fs.memory.length) (remembered : old ≤ inode.size)
    (fits : fs.fileTable.size + codec.size new - old ≤ fs.memoryLimit)
    (tableSize : toUnsigned64 (fs.fileTable.size + bytesAdded) =
      fs.fileTable.size + codec.size new - old)
    (fileSize : toUnsigned32 (inode.size + bytesAdded) = inode.size + codec.size new - old) :
    Within (fs'.takeOver flushed bytesAdded) := by
  have charged := within.charged
  have le := within.size_le present
  have present' : fs'.fileTable.get flushed.name = some inode := table ▸ present
  have after : (fs'.takeOver flushed bytesAdded).fileTable.size =
      fs.fileTable.size + codec.size new - old := by
    rw [size_takeOver, table, tableSize]
  refine within.replaced flushed.name memory encodes limit ?_ ?_ (after.le.trans fits) ?_
  · intro other different
    rw [file_takeOver, if_neg different, file, table]
    rfl
  · intro stored found
    rw [file_takeOver, if_pos rfl, file, present'] at found
    cases found
    refine ⟨points, ?_⟩
    change codec.size new ≤ toUnsigned32 (inode.size + bytesAdded)
    omega
  · rw [after]
    have sum : (fs'.takeOver flushed bytesAdded).fileTable.charged + inode.size =
        fs'.fileTable.charged + toUnsigned32 (inode.size + bytesAdded) :=
      FileTable.charged_update present' _
    rw [table, fileSize] at sum
    omega

theorem Within.flushBytes (within : Within fs) {entry : Entry} (live : fs.slot fd = some entry)
    (present : fs.file entry.inode.name = some inode) (buffered : entry.inode.buffer ≠ [])
    {room : Nat} (affordable : Affordable fs entry.inode entry.inode.buffer room)
    (free : fs.fileTable.size + room ≤ fs.memoryLimit) (now : Int) :
    (fileTableFflushBytes fd entry.inode now fs).Post (fun _ => Within) (fun _ => Within)
      (fun _ => True) := by
  simp only [fileTableFflushBytes, post_bind]
  apply post_onSlot live
  apply InodeState.post_fflush buffered
  · exact fun _ _ => trivial
  · exact fun _ _ _ => trivial
  · exact fun _ _ => within.of_same rfl rfl rfl
  · exact fun _ _ _ => within.of_shrinks rfl (Memory.shrinks_free fs.memory _) rfl
  · intro content new appended small encodes fits
    simp only [post_get, post_orFail, post_modify, slot_putSlot, if_true, live, Option.map_some,
      reduceCtorEq, false_implies, Option.some.injEq, forall_eq', true_and]
    obtain ⟨remembered, grows⟩ := affordable inode present new
      (Option.bind_eq_some_iff.mpr ⟨content, appended, encodes⟩)
    have le := within.size_le present
    obtain ⟨tableSize, fileSize⟩ := flushed_sizes within.small free le remembered grows
    refine within.takeOver ?_ rfl rfl rfl encodes ?_ remembered ?_ tableSize fileSize
    · exact present
    · rfl
    · omega

/-- A flush that can be afforded, or has nothing to do. -/
theorem Within.fileTableFflush (within : Within fs) {entry : Entry}
    (live : fs.slot fd = some entry) (room : Nat) (affordable : entry.inode.buffer ≠ [] →
      Affordable fs entry.inode entry.inode.buffer room)
    (free : fs.fileTable.size + room ≤ fs.memoryLimit) (now : Int) :
    (fileTableFflush fd now fs).Post (fun _ => Within) (fun _ => Within) (fun _ => True) := by
  have times : KeepsWithin (do
      let fs ← get
      let copied ← orFail (fs.slot fd) .EINVAL
      modify fun fs => fs.updateFile entry.inode.name fun inode => { inode with
        atime := copied.inode.atime, mtime := copied.inode.mtime, ctime := now } :
        Call codec Unit) :=
    .bind .get fun _ => .bind (.orFail _ _) fun _ =>
      Keeps.modify fun _ within => within.updateFile fun _ _ => .inl ⟨rfl, rfl⟩
  rw [FileSystem.fileTableFflush, post_bind, post_get, live, post_bind, post_orFail]
  refine ⟨fun absent => absurd absent (Option.some_ne_none _), ?_⟩
  rintro _ ⟨⟩
  rw [post_bind, post_failIf]
  refine ⟨fun _ => within, fun stored => ?_⟩
  obtain ⟨inode, present⟩ := Option.ne_none_iff_exists'.mp stored
  rw [post_ite]
  constructor
  · intro full
    have buffered := List.length_pos_iff.mp full
    rw [post_bind]
    exact (within.flushBytes live present buffered (affordable buffered) free now).mono
      (fun _ fs₁ within₁ => times fs₁ within₁) (fun _ _ within₁ => within₁) (fun _ _ => trivial)
  · exact fun _ => times fs within

theorem Within.rtsFflushInode (within : Within fs) {entry : Entry} (live : fs.slot fd = some entry)
    (room : Nat) (affordable : entry.inode.buffer ≠ [] →
      Affordable fs entry.inode entry.inode.buffer room)
    (free : fs.fileTable.size + room ≤ fs.memoryLimit) (now : Int) :
    (rtsFflushInode fd now fs).Post (fun _ => Within) (fun _ => Within) (fun _ => True) := by
  rw [FileSystem.rtsFflushInode, post_bind, post_get, live, post_bind, post_orFail]
  refine ⟨fun absent => absurd absent (Option.some_ne_none _), ?_⟩
  rintro _ ⟨⟩
  rw [post_bind]
  refine (within.fileTableFflush live room affordable free now).mono (fun _ fs₁ within₁ => ?_)
    (fun _ _ within₁ => within₁) (fun _ _ => trivial)
  have counts : KeepsWithin (do
      let fs ← get
      let flushed ← orFail (fs.slot fd) .EINVAL
      let bytesAdded := toUnsigned32 (flushed.inode.size - toInt32 entry.inode.size)
      modify fun fs => { fs with monitor := fs.monitor.bytesAdded bytesAdded }
      let _ ← fileTableSize
      pure () : Call codec Unit) :=
    .bind .get fun _ => .bind (.orFail _ _) fun _ =>
      .bind (KeepsWithin.modify fun _ => ⟨rfl, rfl, rfl⟩) fun _ =>
        .bind keeps_fileTableSize fun _ => .pure ()
  exact counts fs₁ within₁

/-! ## Making room -/

/-- Files may be gone and artifacts freed; the other files and the descriptors are
    as they were. -/
structure Shrunk (fs fs' : FileSystem codec) : Prop where
  slots : ∀ fd, fs'.slot fd = fs.slot fd
  files : ∀ name inode, fs'.file name = some inode → fs.file name = some inode
  memory : Memory.Shrinks fs.memory fs'.memory
  limit : fs'.memoryLimit = fs.memoryLimit
  size : fs'.fileTable.size ≤ fs.fileTable.size

theorem Shrunk.refl (fs : FileSystem codec) : Shrunk fs fs :=
  ⟨fun _ => rfl, fun _ _ present => present, ⟨Nat.le_refl _, fun _ _ found => found⟩, rfl,
    Nat.le_refl _⟩

theorem Shrunk.trans {fs'' : FileSystem codec} (first : Shrunk fs fs') (second : Shrunk fs' fs'') :
    Shrunk fs fs'' where
  slots := fun fd => (second.slots fd).trans (first.slots fd)
  files := fun name inode present => first.files name inode (second.files name inode present)
  memory := first.memory.trans second.memory
  limit := second.limit.trans first.limit
  size := second.size.trans first.size

theorem Affordable.of_shrunk {copy : Inode} {buffer : List UInt8} {room : Nat}
    (affordable : Affordable fs copy buffer room) (shrunk : Shrunk fs fs') :
    Affordable fs' copy buffer room := by
  intro inode present new made
  refine affordable inode (shrunk.files copy.name inode present) new ?_
  obtain ⟨content, appended, encodes⟩ := Option.bind_eq_some_iff.mp made
  refine Option.bind_eq_some_iff.mpr ⟨content, ?_, encodes⟩
  cases points : copy.directPtr with
  | null =>
      rw [points] at appended
      exact appended
  | bytes raw =>
      rw [points] at appended
      cases appended
  | artifact id =>
      rw [points] at appended
      obtain ⟨old, found, rfl⟩ := Option.map_eq_some_iff.mp appended
      exact Memory.appended_of_live (shrunk.memory.2 _ old found) buffer

theorem shrunk_evicted (steady : codec.Steady) (within : Within fs) {new : codec.Artifact}
    (readable : Readable fs inode new) (now : Int) : Shrunk fs (fs.evicted inode new now) := by
  obtain ⟨old, taken, found, some_, encodes⟩ := readable
  have present := file_of_chosen taken
  have started : ({ fs with monitor := fs.monitor.evictionStarted } : FileSystem codec).file
    inode.name = some inode := present
  have present' := file_reread started new now
  obtain ⟨table, gone⟩ := FileTable.remove_isSome present'
  have result : (fs.evicted inode new now).fileTable = table := by
    simp only [evicted, removed, gone, Option.getD_some]
  refine ⟨fun _ => rfl, ?_, ?_, rfl, ?_⟩
  · intro other stored after
    rw [file, result, FileTable.get_remove gone] at after
    split at after
    · cases after
    · rename_i different
      exact ((file_putFile _ inode.name _ other).trans (if_neg different)).symm.trans after
  · exact (Memory.shrinks_free fs.memory inode.directPtr).trans (Memory.shrinks_append_none _)
  · obtain ⟨bytes, made⟩ := within.made _ old found
    have smaller : codec.size new ≤ fs.fileTable.size :=
      (steady bytes old new made encodes).trans
        ((within.sized _ inode old present found).trans (within.size_le present))
    have size := (FileTable.remove_counters gone present').2
    rw [size_reread, toUnsigned64_sub within.size_lt smaller] at size
    rw [result, size]
    exact Nat.sub_le _ _

end FileSystem

namespace WriteState

open FileSystem

theorem keeps_onFileSystem {α : Type} {p : Call codec α} (keeps : KeepsWithin p) :
    Keeps (fun s : WriteState codec => Within s.fileSystem) (onFileSystem p) := by
  intro s within
  rw [onFileSystem, post_zoom]
  exact keeps s.fileSystem within

theorem within_rtsEvict (steady : codec.Steady) (now : Int) :
    Keeps (fun s : WriteState codec => Within s.fileSystem) (rtsEvict now) :=
  .bind (keeps_onFileSystem (KeepsWithin.modify fun _ => ⟨rfl, rfl, rfl⟩)) fun _ =>
    .bind .get fun _ => .bind (keeps_onFileSystem (keeps_ofExcept _)) fun inode =>
      .bind (keeps_onFileSystem (KeepsWithin.rtsReadInode steady inode.name now)) fun _ =>
        .bind (Keeps.modify fun _ within => within) fun _ =>
          keeps_onFileSystem (KeepsWithin.rtsRemoveInode inode.name)

theorem within_available {fs : FileSystem codec} (within : Within fs) {count : Nat}
    (room : ¬ rtsAvailableBytes fs < count) : fs.fileTable.size + count ≤ fs.memoryLimit := by
  have fits := within.fits
  have small := within.small
  rw [rtsAvailableBytes, toInt32_of_small within.size_lt, if_neg (by omega),
    toInt32_of_range (by omega) (by omega)] at room
  omega

theorem makeRoom_within (steady : codec.Steady) (count : Nat) (now : Int) (bound : Nat)
    (s : WriteState codec) (within : Within s.fileSystem) :
    (makeRoom count now bound s).Post
      (fun _ s' => Within s'.fileSystem ∧ Shrunk s.fileSystem s'.fileSystem ∧
        s'.fileSystem.fileTable.size + count ≤ s'.fileSystem.memoryLimit)
      (fun _ s' => Within s'.fileSystem) (fun _ => True) := by
  induction bound generalizing s with
  | zero => trivial
  | succ bound ih =>
      rw [makeRoom, post_bind, post_get, post_ite]
      refine ⟨fun _ => ?_, fun room => ⟨within, .refl _, within_available within room⟩⟩
      simp only [post_bind, post_failIf]
      refine ⟨fun _ => within, fun _ => ⟨fun _ => within, fun _ => ?_⟩⟩
      refine ((within_rtsEvict steady now s within).and (rtsEvict_exact s now)).mono ?_
        (fun _ _ kept => kept.1) (fun _ _ => trivial)
      rintro - s₁ ⟨within₁, inode, new, readable, -, after, -⟩
      have shrunk : Shrunk s.fileSystem s₁.fileSystem :=
        after ▸ shrunk_evicted steady within readable now
      refine (ih s₁ within₁).mono ?_ (fun _ _ kept => kept) (fun _ _ => trivial)
      rintro - s₂ ⟨within₂, shrunk₂, room⟩
      exact ⟨within₂, shrunk.trans shrunk₂, room⟩

end WriteState

namespace FileSystem

variable {fs fs' : FileSystem codec}

theorem Within.writeDescriptor (within : Within fs) {fd : Int} {bytes : List UInt8} {pid : Pid}
    (room : Nat) (affordable : ∀ copy,
      fs.slot (toUnsigned32 fd) = some { owner := pid, inode := copy } →
      Affordable fs copy (copy.buffer ++ bytes) room)
    (free : fs.fileTable.size + room ≤ fs.memoryLimit) (now : Int) :
    (writeDescriptor fd (some bytes) pid now fs).Post (fun _ => Within) (fun _ => Within)
      (fun _ => True) := by
  simp only [FileSystem.writeDescriptor, rtsGetInodeByFd, post_bind, post_get]
  refine post_ofExcept (fun copy got => ?_) (fun _ _ => within)
  have live : fs.slot (toUnsigned32 fd) = some { owner := pid, inode := copy } :=
    FileDescriptorTable.get_eq_ok.mp got
  simp only [post_failIf]
  refine ⟨fun _ => within, fun _ => ⟨fun _ => within, fun _ => ?_⟩⟩
  refine post_ofExcept (fun buffered is => ?_) (fun _ _ => within)
  obtain rfl : { copy with buffer := copy.buffer ++ bytes, ctime := now } = buffered := by
    simp only [Inode.write] at is
    split at is
    · cases is
    · split at is <;> cases is
      rfl
  rw [post_modify]
  have stored : (fs.updateSlot (toUnsigned32 fd) fun _ =>
      { copy with buffer := copy.buffer ++ bytes, ctime := now }).slot (toUnsigned32 fd) =
      some { owner := pid, inode := { copy with buffer := copy.buffer ++ bytes, ctime := now } } := by
    simp [live]
  have within' : Within (fs.updateSlot (toUnsigned32 fd) fun _ =>
      { copy with buffer := copy.buffer ++ bytes, ctime := now }) := within.of_same rfl rfl rfl
  exact within'.rtsFflushInode stored room (fun _ => affordable copy live) free now

/-- The steps that charge no more than there is room for. A write must not add more
    than the compressed size of its bytes or than what was left before, its copy must
    not remember a larger file than there is, and nothing may be left in the buffer
    of a copy when it is read through. -/
def Economical (fs : FileSystem codec) : Event → Prop
  | .write fd buf pid _ => ∀ copy,
      fs.slot (toUnsigned32 fd) = some { owner := pid, inode := copy } →
      ∀ bytes ∈ buf, ∀ added ∈ codec.encode bytes, Affordable fs copy (copy.buffer ++ bytes)
        (max (codec.size added) (fs.memoryLimit - fs.fileTable.size))
  | .read fd pid _ => ∀ copy,
      fs.slot (toUnsigned32 fd) = some { owner := pid, inode := copy } → copy.buffer = []
  | _ => True

instance (fs : FileSystem codec) : (event : Event) → Decidable (Economical fs event)
  | .write fd _ pid _ => decidableOfSlot fs (toUnsigned32 fd) pid _
  | .read fd pid _ => decidableOfSlot fs (toUnsigned32 fd) pid _
  | .open .. | .close .. | .remove .. | .lock .. | .unlock .. | .removeSession .. | .wake .. =>
      inferInstanceAs (Decidable True)

theorem Within.write (steady : codec.Steady) (within : Within fs) {fd : Int}
    {buf : Option (List UInt8)} {pid : Pid} {now : Int}
    (economical : Economical fs (.write fd buf pid now)) :
    (fileSystemWrite fd buf pid now { fileSystem := fs, evictedList := [] }).Post
      (fun _ s => Within s.fileSystem) (fun _ s => Within s.fileSystem) (fun _ => True) := by
  simp only [fileSystemWrite, encodeBuffer, WriteState.onFileSystem, post_bind, post_zoom,
    post_orFail]
  refine ⟨fun _ => within, ?_⟩
  rintro bytes rfl
  rw [post_ite]
  refine ⟨fun _ => trivial, fun _ => ?_⟩
  simp only [post_orFail, post_get, post_failIf]
  refine ⟨fun _ => within, fun added encodes => ⟨fun _ => within, fun _ => ?_⟩⟩
  refine (WriteState.makeRoom_within steady (codec.size added) now _ _ within).mono ?_
    (fun _ _ kept => kept) (fun _ _ => trivial)
  rintro - s ⟨within', shrunk, room⟩
  refine within'.writeDescriptor (max (codec.size added) (fs.memoryLimit - fs.fileTable.size))
    (fun copy live => ?_) ?_ now
  · rw [shrunk.slots] at live
    exact (economical copy live bytes rfl added encodes).of_shrunk shrunk
  · have fits := within.fits
    have size := shrunk.size
    have limit := shrunk.limit
    rw [limit] at room ⊢
    change s.fileSystem.fileTable.size ≤ fs.fileTable.size at size
    change s.fileSystem.fileTable.size + _ ≤ fs.memoryLimit at room
    change s.fileSystem.fileTable.size + _ ≤ fs.memoryLimit
    omega

theorem Within.read (steady : codec.Steady) (within : Within fs) {fd : Int} {pid : Pid} {now : Int}
    (economical : Economical fs (.read fd pid now)) :
    (fileSystemRead fd pid now fs).Post (fun _ => Within) (fun _ => Within) (fun _ => True) := by
  simp only [fileSystemRead, rtsGetInodeByFd, post_bind, post_get]
  refine post_ofExcept (fun copy got => ?_) (fun _ _ => within)
  have live : fs.slot (toUnsigned32 fd) = some { owner := pid, inode := copy } :=
    FileDescriptorTable.get_eq_ok.mp got
  simp only [post_failIf]
  refine ⟨fun _ => within, fun _ => ⟨fun _ => within, fun _ => ?_⟩⟩
  refine ((KeepsWithin.rtsReadInode steady copy.name now fs within).and
    (rtsReadInode_keeps_slots fs copy.name now (toUnsigned32 fd))).mono ?_
    (fun _ _ kept => kept.1) (fun _ _ => trivial)
  rintro bytes fs₁ ⟨within₁, slots⟩
  have live₁ := slots.trans live
  exact (within₁.rtsFflushInode live₁ 0 (fun full => absurd (economical copy live) full)
    within₁.fits now).mono (fun _ _ kept => kept) (fun _ _ kept => kept) (fun _ _ => trivial)

/-- Every economical step stays within the limit. -/
theorem Within.step (steady : codec.Steady) (within : Within fs) {event : Event}
    (economical : Economical fs event) (result : (event.call fs).state? = some fs') :
    Within fs' := by
  have withstood (quiet : event.quiet = true) : Within fs' := by
    obtain ⟨now, time⟩ := Event.time_of_quiet quiet
    exact Event.withstands_call (Within.withstands now) quiet time within result
  have returned (post : (event.call fs).Post (fun _ => Within) (fun _ => Within)
      (fun _ => True)) : Within fs' := post.of_state result
  cases event with
  | «open» name flags pid now =>
      exact returned (Event.post_of_actions (by rintro (_ | _) <;> exact ⟨_, rfl⟩)
        ((Within.withstands now).fileSystemOpen (KeepsWithin.rtsCreateInode name now) flags pid fs
          within))
  | write fd buf pid now =>
      refine returned ?_
      have writes := within.write steady economical
      change (Event.writeCall fd buf pid now fs).Post _ _ _
      unfold Event.writeCall
      split
      · rename_i done
        rw [done] at writes
        exact writes
      · rename_i failed
        rw [failed] at writes
        exact writes
      · trivial
  | read fd pid now =>
      exact returned (Event.post_of_actions (fun _ => ⟨_, rfl⟩) (within.read steady economical))
  | remove name pid =>
      exact returned (Event.post_of_actions (fun _ => ⟨_, rfl⟩)
        (KeepsWithin.fileSystemRemove name pid fs within))
  | close | lock | unlock | removeSession | wake => exact withstood rfl

end FileSystem

/-- Along economical steps the file table never exceeds the limit. -/
theorem size_le_memoryLimit {capacity : UInt32} (small : capacity.toNat < 2048)
    (filesLimit : UInt32) (policy : ReplacementPolicy) {fs : FileSystem huffmanCodec}
    (run : Relation.ReflTransGen (Step Economical) (.init capacity filesLimit policy) fs) :
    fs.fileTable.size ≤ fs.memoryLimit := by
  have within : Within fs := by
    induction run with
    | refl => exact .init filesLimit policy small
    | tail _ next ih =>
        obtain ⟨event, -, economical, result⟩ := next
        exact ih.step huffmanCodec_steady economical result
  exact within.fits

/-- A file is written twice through one descriptor and read. -/
def economicalEvents : List Event :=
  [.open [102] 1 1 0, .write 0 (some [97, 98]) 1 1, .write 0 (some [99, 100]) 1 2, .read 0 1 3]

theorem size_le_memoryLimit_reread : ∃ fs : FileSystem huffmanCodec,
    Relation.ReflTransGen (Step Economical) (.init 1 4 .fifo) fs ∧ fs.fileTable.size = 1 ∧
      fs.fileTable.size ≤ fs.memoryLimit := by
  have ran : (runs Economical economicalEvents
      (.init 1 4 .fifo : FileSystem huffmanCodec)).any (fun fs => fs.fileTable.size = 1) = true := by
    decide +kernel
  obtain ⟨fs, result, size⟩ := (Option.any_eq_true _ _).mp ran
  have run := runs_steps result
  exact ⟨fs, run, of_decide_eq_true size, size_le_memoryLimit (by decide) 4 .fifo run⟩

/-- A copy of a removed file is flushed into the new file of that name, which then
    counts for more than the file table was charged with. Its removal takes the size
    of the file table below zero. -/
theorem size_exceeds_memoryLimit : ∃ fs : FileSystem huffmanCodec,
    Relation.ReflTransGen (Step AnyEvent) (.init 1 4 .fifo) fs ∧
      ¬ fs.fileTable.size ≤ fs.memoryLimit := by
  have ran : (runs AnyEvent
      [.open [102] 1 1 0, .open [102] 0 1 1, .write 0 (some [97, 98]) 1 2,
        .write 1 (some [99, 100]) 1 3, .lock 0 1 4, .remove [102] 1, .open [102] 1 1 5,
        .write 0 (some [101, 102]) 1 6, .read 0 1 7, .lock 0 1 8, .remove [102] 1]
      (.init 1 4 .fifo : FileSystem huffmanCodec)).any
        (fun fs => ¬ fs.fileTable.size ≤ fs.memoryLimit) = true := by
    decide +kernel
  obtain ⟨fs, result, exceeds⟩ := (Option.any_eq_true _ _).mp ran
  exact ⟨fs, runs_steps result, of_decide_eq_true exceeds⟩

end FileStorage
