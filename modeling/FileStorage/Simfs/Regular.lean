import FileStorage.Simfs.Changes
import FileStorage.Simfs.Monitoring

/-! # What holds in every run

The number of files is that of the listed names, the bytes that the monitor counts fit
into their type, and neither a file nor a descriptor is without a name.
-/

namespace FileStorage

open Program FileSystem

variable {codec : Codec}

namespace FileSystem

variable {fs fs' : FileSystem codec} {inode : Inode}

/-- The number of files is that of the names, and the bytes fit into their type. -/
structure Regular (fs : FileSystem codec) : Prop where
  listed : fs.fileTable.count = fs.fileTable.presenceList.length
  bounded : fs.monitor.bytesCounter < 2 ^ 64

theorem toUnsigned64_lt (x : Int) : toUnsigned64 x < 2 ^ 64 := by
  unfold toUnsigned64
  omega

namespace Regular

theorem of_counts (regular : Regular fs) (same : SameCounts fs fs') : Regular fs' where
  listed := by rw [same.count, same.presenceList, regular.listed]
  bounded := same.monitor ▸ regular.bounded

theorem without (regular : Regular fs) (present : fs.file inode.name = some inode) :
    (fs.without inode).fileTable.count = (fs.without inode).fileTable.presenceList.length := by
  obtain ⟨table, gone⟩ := FileTable.remove_isSome present
  have member := FileTable.mem_presenceList.mpr ⟨inode, present⟩
  have some_ := List.length_pos_of_mem member
  have listed := regular.listed
  rw [fileTable_without gone, FileTable.remove_count gone, (FileTable.remove_counters gone present).1,
    List.length_erase_of_mem member]
  omega

theorem change (regular : Regular fs) (change : Change fs fs') : Regular fs' := by
  cases change with
  | quiet same => exact regular.of_counts same.sameCounts
  | @create name now table created =>
      refine ⟨?_, regular.bounded⟩
      have count := FileTable.create_count created
      have list := (FileTable.create_counters created).1
      have listed := regular.listed
      change table.count = table.presenceList.length
      rw [count, list, listed, List.length_append, List.length_singleton]
      omega
  | miscounted wrong =>
      have listed := regular.listed
      omega
  | start => exact ⟨regular.listed, regular.bounded⟩
  | read _ reads => exact regular.of_counts reads.sameCounts
  | remove present removes =>
      have listed := regular.without present
      cases removes with
      | unknown => exact ⟨listed, regular.bounded⟩
      | uncounted => exact ⟨listed, toUnsigned64_lt _⟩
      | oversized | done =>
          refine ⟨listed, ?_⟩
          rw [(monitor_dropped _ _).2.1]
          exact toUnsigned64_lt _
  | buffer fd copy => exact ⟨regular.listed, regular.bounded⟩
  | flush _ flushes =>
      cases flushes with
      | empty =>
          refine ⟨?_, ?_⟩
          · exact (FileTable.count_update _ _ _).trans (regular.listed.trans
              (congrArg (fun names => (names.length : Int)) (FileTable.update_counters _ _ _).1.symm))
          · rw [monitor_recorded]
            exact toUnsigned64_lt _
      | full =>
          obtain ⟨list, count, -, monitor⟩ := counts_flushed fs _ _ _ _
          refine ⟨by rw [list, count, regular.listed], ?_⟩
          rw [monitor]
          exact toUnsigned64_lt _
  | tear tears => exact regular.of_counts tears.sameCounts

theorem of_reachable {guard : FileSystem codec → Event → Prop} (reached : Reachable guard fs) :
    Regular fs :=
  Reachable.change_invariant (fun _ _ _ => ⟨rfl, Nat.two_pow_pos 64⟩)
    (fun _ _ regular next => regular.change next) reached

end Regular

structure Named (v : View codec) : Prop where
  files : v.file [] = none
  slots : ∀ fd s, v.slot fd = some s → s.name ≠ []

namespace Named

variable {v : View codec}

theorem changeFile (named : Named v) (other : Filename) (f : FileView → FileView) :
    (v.changeFile other f).file [] = none := by
  by_cases same : other = []
  · subst same
    simp [View.changeFile, named.files]
  · simp only [View.changeFile, Function.update_of_ne (Ne.symm same), named.files]

theorem changeSlot (named : Named v) (fd : Nat) {f : SlotView → SlotView}
    (keeps : ∀ s, (f s).name = s.name) :
    ∀ other s, (v.changeSlot fd f).slot other = some s → s.name ≠ [] := by
  intro other s live
  simp only [View.changeSlot, Function.update_apply] at live
  split at live
  · obtain ⟨old, found, rfl⟩ := Option.map_eq_some_iff.mp live
    rw [keeps]
    exact named.slots fd old found
  · exact named.slots other s live

theorem filtered (named : Named v) {keep : SlotView → Bool} :
    ∀ fd s, (v.slot fd).filter keep = some s → s.name ≠ [] := by
  intro fd s live
  exact named.slots fd s (Option.filter_eq_some_iff.mp live).1

theorem apply (named : Named v) {a : Action codec} (enabled : v.Enabled a) : Named (v.apply a) := by
  cases a with
  | create name =>
      refine ⟨?_, named.slots⟩
      simp only [View.apply, Function.update_of_ne (Ne.symm enabled.1), named.files]
  | request name | grant name pid | settle name | release name pid | unlock name pid
  | spoil name | reread name new => exact ⟨named.changeFile name _, named.slots⟩
  | attach opened name pid =>
      refine ⟨named.changeFile name _, fun fd s live => ?_⟩
      obtain ⟨-, -, f, stored, -⟩ := enabled
      simp only [View.apply, Function.update_apply, stored, Option.map_some] at live
      split at live
      · obtain rfl := Option.some.inj live
        rintro rfl
        cases named.files.symm.trans stored
      · exact named.slots fd s live
  | close closed =>
      obtain ⟨s, live⟩ := Option.ne_none_iff_exists'.mp enabled
      simp only [View.apply, live]
      refine ⟨named.changeFile s.name _, fun fd s' found => ?_⟩
      simp only [Function.update_apply] at found
      split at found
      · cases found
      · exact named.slots fd s' found
  | vanish name =>
      refine ⟨?_, named.slots⟩
      by_cases same : name = []
      · simp [View.apply, same]
      · simp only [View.apply, Function.update_of_ne (Ne.symm same), named.files]
  | store fd bytes => exact ⟨named.files, named.changeSlot fd fun _ => rfl⟩
  | flush flushed new =>
      cases live : v.slot flushed with
      | none =>
          simp only [View.apply, live]
          exact named
      | some s =>
          simp only [View.apply, live]
          refine ⟨?_, fun fd s' found => ?_⟩
          · simp only [Function.update_of_ne (Ne.symm (named.slots flushed s live)), named.files]
          · simp only [Function.update_apply] at found
            split at found
            · obtain rfl := Option.some.inj found
              exact named.slots flushed s live
            · exact named.slots fd s' found
  | tear torn =>
      cases live : v.slot torn with
      | none =>
          simp only [View.apply, live]
          exact named
      | some s =>
          simp only [View.apply, live]
          refine ⟨named.files, fun fd s' found => ?_⟩
          simp only [Function.update_apply] at found
          split at found
          · obtain rfl := Option.some.inj found
            exact named.slots torn s live
          · exact named.slots fd s' found
  | forget pid => exact ⟨named.files, named.filtered⟩
  | leave pid =>
      refine ⟨?_, named.filtered⟩
      simp only [View.apply, named.files, Option.map_none]
  | block waiter | unblock waiter => exact ⟨named.files, named.slots⟩

theorem of_reachable {guard : FileSystem codec → Event → Prop} (reached : Reachable guard fs) :
    Named fs.view :=
  Reachable.view_invariant Named (fun _ _ => True) ⟨rfl, nofun⟩
    (fun _ _ _ _ _ _ _ _ => .of_forall fun _ _ _ => trivial)
    (fun _ _ named enabled _ => named.apply enabled) reached

end Named

end FileSystem

end FileStorage
