import FileStorage.Simfs.References
import Mathlib.Data.Nat.Count

/-! # The end of a session

The end of a session gives back as many references to each file as the pid has
descriptors with its name, so it is complete just if the two numbers agree. They
do in all runs where names are retired, where it is one change of the view.
-/

namespace FileStorage

open FileSystem Program

variable {codec : Codec}

/-! ## Counting descriptors -/

theorem countP_eq_count {α : Type} (slots : List (Option α)) (p : α → Bool) {bound : Nat}
    (fits : slots.length ≤ bound) :
    slots.countP (fun slot => slot.any p) =
      Nat.count (fun fd => (slots.getD fd none).any p = true) bound := by
  induction slots generalizing bound with
  | nil => simp [Nat.count_false]
  | cons slot slots ih =>
      obtain _ | bound := bound
      · simp at fits
      · rw [Nat.count_succ', List.countP_cons]
        simp only [List.getD_cons_zero, List.getD_cons_succ]
        rw [ih (Nat.le_of_succ_le_succ fits)]

theorem card_held (fs : FileSystem codec) (name : Filename) (pid : Pid) :
    (fs.view.held name pid).card = fs.fileDescriptorTable.1.table.countP fun slot =>
      slot.any fun entry => entry.owner = pid ∧ entry.inode.name = name := by
  have fits := fs.fileDescriptorTable.1.bounded
  rw [fs.fileDescriptorTable.2] at fits
  rw [countP_eq_count _ _ fits, Nat.count_eq_card_filter_range, View.held]
  refine congrArg Finset.card (Finset.filter_congr fun fd _ => ?_)
  simp only [view, slot, FileDescriptorTable.slot, Option.any_map]
  rfl

/-- The number of descriptors the end of a session counts. -/
theorem pidInodeSize_eq (fs : FileSystem codec) (name : Filename) (pid : Pid) :
    fs.fileDescriptorTable.1.pidInodeSize name pid = (fs.view.held name pid).card := by
  rw [card_held, FileDescriptorTable.pidInodeSize]
  split
  · rename_i empty
    refine (List.countP_eq_zero.mpr fun slot member found => ?_).symm
    obtain ⟨entry, rfl, -⟩ := (Option.any_eq_true _ _).mp found
    obtain ⟨fd, live⟩ := List.mem_iff_getElem?.mp member
    exact absurd empty (FileDescriptorTable.size_pos (FileDescriptorTable.slot_eq_some.mpr live)).ne'
  · rfl

def FileView.leftBy (f : FileView) (pid : Pid) (times : Nat) : FileView := { f with
  locked := if f.locked = pid then 0 else f.locked
  referenceList := (fun list => List.erase list pid)^[times] f.referenceList
  referenceCount := f.referenceCount - times }

theorem count_iterate_erase (list : List Pid) (pid : Pid) (times : Nat) :
    ((fun list => List.erase list pid)^[times] list).count pid = list.count pid - times := by
  induction times generalizing list with
  | zero => rfl
  | succ times ih =>
      rw [Function.iterate_succ_apply, ih, List.count_erase_self]
      omega

theorem filter_iterate_erase (list : List Pid) (pid : Pid) (times : Nat) :
    ((fun list => List.erase list pid)^[times] list).filter (· ≠ pid) =
      list.filter (· ≠ pid) := by
  induction times generalizing list with
  | zero => rfl
  | succ times ih =>
      rw [Function.iterate_succ_apply, ih, ← List.erase_filter]
      exact List.erase_of_not_mem (by simp)

/-- A file is left once all references are given back. -/
theorem FileView.leftBy_count (f : FileView) (pid : Pid) :
    f.leftBy pid (f.referenceList.count pid) = f.left pid := by
  have all : (fun list => List.erase list pid)^[f.referenceList.count pid] f.referenceList =
      f.referenceList.filter (· ≠ pid) := by
    rw [← filter_iterate_erase f.referenceList pid (f.referenceList.count pid)]
    refine (List.filter_eq_self.mpr fun other member => ?_).symm
    have gone : ((fun list => List.erase list pid)^[f.referenceList.count pid]
        f.referenceList).count pid = 0 := by rw [count_iterate_erase, Nat.sub_self]
    rw [List.count_eq_zero] at gone
    exact decide_eq_true fun this => gone (this ▸ member)
  rw [leftBy, left, all]

/-- The files of the given names are left, each as often as the pid has
    descriptors with its name. -/
structure LeftFiles (fs : FileSystem codec) (pid : Pid) (names : List Filename)
    (fs' : FileSystem codec) : Prop where
  table : fs'.fileDescriptorTable = fs.fileDescriptorTable
  view : fs'.view = { fs.view with
    file := fun name => (fs.view.file name).map fun f =>
      if name ∈ names then f.leftBy pid (fs.view.held name pid).card else f }

/-- There are descriptors without a reference. -/
def Unreferenced (v : View codec) (pid : Pid) (name : Filename) : Prop :=
  ∃ f, v.file name = some f ∧ f.referenceList.count pid < (v.held name pid).card

variable {fs : FileSystem codec} {name : Filename}

theorem decreaseRefsTimes_spec {inode : Inode} (present : fs.file name = some inode)
    (counted : inode.referenceCount = inode.referenceList.length) (pid : Pid) (now : Int)
    (times : Nat) :
    (decreaseRefsTimes name pid now times fs).Post
      (fun _ fs' => times ≤ inode.referenceList.count pid ∧
        fs'.fileDescriptorTable = fs.fileDescriptorTable ∧
        fs'.view = fs.view.changeFile name fun f => { f with
          referenceList := (fun list => List.erase list pid)^[times] f.referenceList
          referenceCount := f.referenceCount - times })
      (fun _ _ => inode.referenceList.count pid < times) (fun _ => False) := by
  induction times generalizing fs inode with
  | zero => exact ⟨Nat.zero_le _, rfl, (changeFile_id fs.view name).symm⟩
  | succ times ih =>
      simp only [decreaseRefsTimes, post_bind]
      have positive : pid ∈ inode.referenceList → inode.referenceCount ≠ 0 := fun member =>
        counted ▸ (List.length_pos_of_mem member).ne'
      refine post_changeFile present (fun changed decrease => ?_) (fun _ failed => ?_)
      · unfold Inode.decreaseRefs at decrease
        split at decrease
        · cases decrease
        · split at decrease
          · cases decrease
          · rename_i member
            obtain rfl := Except.ok.inj decrease
            have member : pid ∈ inode.referenceList := not_not.mp member
            have count := List.count_pos_iff.mpr member
            have present' : (fs.updateFile name fun _ => { inode with
                referenceList := inode.referenceList.erase pid
                referenceCount := inode.referenceCount - 1, ctime := now }).file name =
                some { inode with
                  referenceList := inode.referenceList.erase pid
                  referenceCount := inode.referenceCount - 1, ctime := now } := by
              simpa [present] using (fs.fileTable.named name inode present).symm
            refine (ih present' (by simp [counted, List.length_erase_of_mem member])).mono ?_ ?_
              (fun _ h => h)
            · rintro - fs' ⟨enough, table, view⟩
              simp only [List.count_erase_self] at enough
              refine ⟨by omega, table, ?_⟩
              rw [view, view_updateFile (g := fun f => { f with
                referenceList := f.referenceList.erase pid
                referenceCount := f.referenceCount - 1 }) fun other found => ?_]
              · simp only [View.changeFile, Function.update_idem, Function.update_self, Option.map_map]
                congr 3
                funext f
                simp [Nat.sub_sub, Nat.add_comm 1]
              · obtain rfl := Option.some.inj (present.symm.trans found)
                rfl
            · intro _ _ few
              simp only [List.count_erase_self] at few
              omega
      · unfold Inode.decreaseRefs at failed
        split at failed
        · rename_i zero
          rw [List.count_eq_zero.mpr fun member => positive member zero]
          exact Nat.succ_pos times
        · split at failed
          · rename_i away
            rw [List.count_eq_zero.mpr away]
            exact Nat.succ_pos times
          · cases failed

theorem fileUnlock_own {inode : Inode} {pid : Pid} (own : inode.locked = pid) (now : Int) :
    ∃ unlocked, inode.fileUnlock pid now = .ok unlocked ∧
      FileView.of unlocked = { FileView.of inode with locked := 0 } := by
  unfold Inode.fileUnlock
  split
  · rename_i free
    exact ⟨inode, rfl, by simp [FileView.of, free]⟩
  · exact ⟨_, if_neg (not_not.mpr own), rfl⟩

theorem leaveFile_spec {inode : Inode} (present : fs.file name = some inode)
    (counted : inode.referenceCount = inode.referenceList.length) (pid : Pid) (now : Int) :
    (leaveFile pid now name fs).Post
      (fun _ fs' => ¬ Unreferenced fs.view pid name ∧ LeftFiles fs pid [name] fs')
      (fun _ _ => Unreferenced fs.view pid name) (fun _ => False) := by
  simp only [leaveFile, post_bind]
  have nonempty : name ≠ [] := by
    rintro rfl
    cases present
  have found : ∀ {fs₁ : FileSystem codec} {inode₁ : Inode} {R : Inode → FileSystem codec → Prop}
      {E : Errno → FileSystem codec → Prop} {F : Fault → Prop}, fs₁.file name = some inode₁ →
      R inode₁ fs₁ → (rtsGetInode name fs₁).Post R E F := by
    intro fs₁ inode₁ R E F is holds
    simpa [rtsGetInode, nonempty, is] using holds
  refine found present ?_
  simp only [post_get, pidInodeSize_eq]
  refine (decreaseRefsTimes_spec present counted pid now _).mono ?_ ?_ (fun _ h => h)
  · rintro - fs₁ ⟨enough, table, viewed⟩
    have referenced : ¬ Unreferenced fs.view pid name := by
      rintro ⟨f, is, few⟩
      obtain rfl := Option.some.inj ((view_file present).symm.trans is)
      exact absurd enough (Nat.not_le.mpr few)
    -- what is left to do to the view, in one piece
    have left : ∀ fs₂ : FileSystem codec, fs₂.fileDescriptorTable = fs₁.fileDescriptorTable →
        fs₂.view = fs₁.view.changeFile name (fun f => { f with
          locked := if f.locked = pid then 0 else f.locked }) →
        LeftFiles fs pid [name] fs₂ := by
      intro fs₂ table' viewed'
      refine ⟨table'.trans table, ?_⟩
      rw [viewed', viewed]
      refine View.ext (funext fun other => ?_) rfl rfl rfl rfl
      by_cases this : other = name
      · simp [View.changeFile, this, FileView.leftBy, Function.comp_def]
      · simp [View.changeFile, this]
    obtain ⟨inode₁, present₁, locked₁⟩ : ∃ inode₁, fs₁.file name = some inode₁ ∧
        inode₁.locked = inode.locked := by
      have file := congrFun (congrArg View.file viewed) name
      rw [View.changeFile_self, view_file present] at file
      obtain ⟨inode₁, is, same⟩ := Option.map_eq_some_iff.mp file
      exact ⟨inode₁, is, congrArg FileView.locked same⟩
    have only : ∀ other, fs₁.file name = some other → inode₁ = other := fun other is =>
      Option.some.inj (present₁.symm.trans is)
    refine found present₁ ?_
    by_cases own : inode₁.isFileLocked = asInt pid
    · rw [if_pos own]
      rw [Inode.isFileLocked, asInt_inj] at own
      obtain ⟨unlocked, unlocks, same⟩ := fileUnlock_own own now
      refine post_changeFile present₁ (fun changed unlock => ⟨referenced, left _ rfl ?_⟩) ?_
      · refine view_updateFile fun other is => ?_
        obtain rfl := only other is
        obtain rfl := Except.ok.inj (unlocks.symm.trans unlock)
        rw [same, if_pos (show (FileView.of inode₁).locked = pid from own)]
      · intro _ failed
        cases unlocks.symm.trans failed
    · rw [if_neg own]
      rw [Inode.isFileLocked, asInt_inj] at own
      refine ⟨referenced, left _ rfl ?_⟩
      refine (changeFile_id fs₁.view name).symm.trans ?_
      refine View.ext (funext fun other => ?_) rfl rfl rfl rfl
      by_cases this : other = name
      · subst this
        rw [View.changeFile_self, View.changeFile_self, view_file present₁, Option.map_some,
          Option.map_some, if_neg (show (FileView.of inode₁).locked ≠ pid from own)]
        rfl
      · simp [View.changeFile, this]
  · exact fun _ _ few => ⟨_, view_file present, few⟩

theorem LeftFiles.cons {fs₁ fs₂ : FileSystem codec} {pid : Pid} {names : List Filename}
    (first : LeftFiles fs pid [name] fs₁) (rest : LeftFiles fs₁ pid names fs₂)
    (new : name ∉ names) : LeftFiles fs pid (name :: names) fs₂ := by
  refine ⟨rest.table.trans first.table, ?_⟩
  have held : ∀ other, fs₁.view.held other pid = fs.view.held other pid := fun other =>
    View.held_congr (by simp [first.view]) other pid
  rw [rest.view]
  simp only [held]
  rw [first.view]
  refine View.ext (funext fun other => ?_) rfl rfl rfl rfl
  simp only [Option.map_map]
  congr 1
  funext f
  by_cases this : other = name
  · subst this
    simp [new]
  · simp [this]

theorem leaveFiles_spec (pid : Pid) (now : Int) (names : List Filename) (distinct : names.Nodup)
    (stored : ∀ name ∈ names, ∃ f, fs.view.file name = some f ∧
      f.referenceCount = f.referenceList.length) :
    (leaveFiles pid now names fs).Post
      (fun _ fs' => (∀ name ∈ names, ¬ Unreferenced fs.view pid name) ∧ LeftFiles fs pid names fs')
      (fun _ _ => ∃ name ∈ names, Unreferenced fs.view pid name) (fun _ => False) := by
  induction names generalizing fs with
  | nil =>
      refine ⟨nofun, rfl, ?_⟩
      refine View.ext (funext fun other => ?_) rfl rfl rfl rfl
      simp
  | cons name names ih =>
      obtain ⟨new, distinct⟩ := List.nodup_cons.mp distinct
      obtain ⟨f, found, counted⟩ := stored name List.mem_cons_self
      obtain ⟨inode, present, rfl⟩ := Option.map_eq_some_iff.mp found
      simp only [leaveFiles, post_bind]
      refine (leaveFile_spec present counted pid now).mono ?_ ?_ (fun _ h => h)
      · rintro - fs₁ ⟨referenced, left⟩
        -- the files that are still to be left have not changed
        have same : ∀ other ∈ names, fs₁.view.file other = fs.view.file other := by
          intro other member
          have different : other ≠ name := fun this => new (this ▸ member)
          rw [left.view]
          simp [different]
        have sameUnreferenced : ∀ other ∈ names,
            (Unreferenced fs₁.view pid other ↔ Unreferenced fs.view pid other) := by
          intro other member
          unfold Unreferenced
          rw [same other member, View.held_congr (v := fs.view) (by simp [left.view])]
        refine (ih distinct fun other member => ?_).mono ?_ ?_ (fun _ h => h)
        · rw [same other member]
          exact stored other (List.mem_cons_of_mem name member)
        · rintro - fs₂ ⟨rest, lefts⟩
          refine ⟨fun other member => ?_, left.cons lefts new⟩
          rcases List.mem_cons.mp member with rfl | member
          · exact referenced
          · exact fun bad => rest other member ((sameUnreferenced other member).mpr bad)
        · rintro - fs₂ ⟨other, member, bad⟩
          exact ⟨other, List.mem_cons_of_mem name member, (sameUnreferenced other member).mp bad⟩
      · exact fun _ _ bad => ⟨name, List.mem_cons_self, bad⟩

theorem fileSystemRemoveSession_spec (counted : Counted fs.view) (pid : Pid) (now : Int) :
    (fileSystemRemoveSession pid now fs).Post
      (fun _ fs' => fs.fileTable.presenceList ≠ [] ∧ (∀ name, ¬ Unreferenced fs.view pid name) ∧
        (∀ fd, fs'.slot fd = (fs.slot fd).filter fun entry => entry.owner ≠ pid) ∧
        fs'.view = View.apply { fs.view with
          file := fun name => (fs.view.file name).map fun f =>
            f.leftBy pid (fs.view.held name pid).card } (.forget pid))
      (fun _ fs' => fs.fileTable.presenceList = [] ∧ fs' = fs ∨
        ∃ name, Unreferenced fs.view pid name)
      (fun _ => False) := by
  simp only [fileSystemRemoveSession, post_bind, post_get, post_failIf]
  refine ⟨fun empty => .inl ⟨empty, trivial⟩, fun some_ => ?_⟩
  refine (leaveFiles_spec pid now _ fs.fileTable.nodup fun name member => ?_).mono ?_ ?_
    (fun _ h => h)
  · obtain ⟨inode, present⟩ := FileTable.mem_presenceList.mp member
    exact ⟨_, view_file present, counted name _ (view_file present)⟩
  · rintro - fs₁ ⟨referenced, left⟩
    simp only [post_modify]
    refine ⟨some_, fun name bad => ?_, fun fd => ?_, ?_⟩
    · obtain ⟨f, found, few⟩ := bad
      obtain ⟨inode, present, rfl⟩ := Option.map_eq_some_iff.mp found
      exact referenced name (FileTable.mem_presenceList.mpr ⟨inode, present⟩)
        ⟨_, found, few⟩
    · have same : fs₁.slot fd = fs.slot fd := by
        unfold slot
        rw [left.table]
      rw [← same]
      exact (fs₁.fileDescriptorTable.1.removePid_spec pid).2 fd
    · rw [(removePid_performs fs₁ pid).view_single, left.view]
      refine View.ext (funext fun name => ?_) rfl rfl rfl rfl
      simp only [View.apply]
      cases found : fs.view.file name with
      | none => rfl
      | some f =>
          obtain ⟨inode, present, -⟩ := Option.map_eq_some_iff.mp found
          simp [FileTable.mem_presenceList.mpr ⟨inode, present⟩]
  · rintro - _ ⟨name, -, bad⟩
    exact .inr ⟨name, bad⟩

theorem counted_of_reachable {guard : FileSystem codec → Event → Prop} (reached : Reachable guard fs) :
    Counted fs.view :=
  Reachable.view_invariant Counted (fun _ _ => True) nofun
    (fun _ _ _ _ _ _ _ _ => .of_forall fun _ _ _ => trivial)
    (fun _ _ counted enabled _ => counted.apply enabled) reached

/-- All traces of a pid are gone, and only they. -/
structure SessionRemoved (fs : FileSystem codec) (pid : Pid) (fs' : FileSystem codec) : Prop where
  descriptors : ∀ fd entry, fs'.slot fd = some entry → entry.owner ≠ pid
  locks : pid ≠ 0 → ∀ name inode, fs'.file name = some inode → inode.locked ≠ pid
  references : ∀ name inode, fs'.file name = some inode → pid ∉ inode.referenceList
  otherDescriptors : ∀ fd entry, entry.owner ≠ pid →
    (fs'.slot fd = some entry ↔ fs.slot fd = some entry)
  files : ∀ name, fs'.file name = none ↔ fs.file name = none
  contents : ∀ name inode inode', fs.file name = some inode → fs'.file name = some inode' →
    inode'.generation = inode.generation ∧ inode'.directPtr = inode.directPtr ∧
    inode'.size = inode.size ∧ inode'.pendingLocks = inode.pendingLocks
  memory : fs'.memory = fs.memory
  otherLocks : ∀ name inode inode', fs.file name = some inode → fs'.file name = some inode' →
    inode.locked ≠ pid → inode'.locked = inode.locked
  otherReferences : ∀ name inode inode', fs.file name = some inode → fs'.file name = some inode' →
    inode'.referenceList.filter (· ≠ pid) = inode.referenceList.filter (· ≠ pid)

theorem view_file_eq {fs' : FileSystem codec} {inode' : Inode} {g : Filename → FileView → FileView}
    (viewed : ∀ name, fs'.view.file name = (fs.view.file name).map (g name))
    (stored : fs'.file name = some inode') :
    ∃ inode, fs.file name = some inode ∧ FileView.of inode' = g name (FileView.of inode) := by
  have file := viewed name
  rw [view_file stored] at file
  obtain ⟨f, found, same⟩ := Option.map_eq_some_iff.mp file.symm
  obtain ⟨inode, present, rfl⟩ := Option.map_eq_some_iff.mp found
  exact ⟨inode, present, same.symm⟩

theorem SessionRemoved.of_view {fs' : FileSystem codec} {pid : Pid}
    (slots : ∀ fd, fs'.slot fd = (fs.slot fd).filter fun entry => entry.owner ≠ pid)
    (viewed : fs'.view = fs.view.apply (.leave pid)) : SessionRemoved fs pid fs' := by
  have files : ∀ name, fs'.view.file name = (fs.view.file name).map (·.left pid) :=
    fun name => congrFun (congrArg View.file viewed) name
  have related : ∀ name inode inode', fs.file name = some inode → fs'.file name = some inode' →
      FileView.of inode' = (FileView.of inode).left pid := by
    intro name inode inode' stored stored'
    obtain ⟨other, present, same⟩ := view_file_eq files stored'
    obtain rfl := Option.some.inj (stored.symm.trans present)
    exact same
  refine ⟨fun fd entry live => ?_, fun positive name inode' stored => ?_, fun name inode' stored => ?_,
    fun fd entry other => ?_, fun name => ?_, fun name inode inode' stored stored' => ?_,
    congrArg View.memory viewed, fun name inode inode' stored stored' other => ?_,
    fun name inode inode' stored stored' => ?_⟩
  · rw [slots fd, Option.filter_eq_some_iff] at live
    exact of_decide_eq_true live.2
  · obtain ⟨inode, -, same⟩ := view_file_eq files stored
    rw [show inode'.locked = _ from congrArg FileView.locked same, FileView.left]
    dsimp only
    split
    · exact positive.symm
    · assumption
  · obtain ⟨inode, -, same⟩ := view_file_eq files stored
    rw [show inode'.referenceList = _ from congrArg FileView.referenceList same, FileView.left]
    simp
  · rw [slots fd, Option.filter_eq_some_iff]
    exact and_iff_left (decide_eq_true other)
  · have file := files name
    simp only [view] at file
    rw [← Option.map_eq_none_iff (f := FileView.of), file]
    simp
  · have same := related name inode inode' stored stored'
    exact ⟨congrArg FileView.generation same, congrArg FileView.directPtr same,
      congrArg FileView.size same, congrArg FileView.pendingLocks same⟩
  · have same := congrArg FileView.locked (related name inode inode' stored stored')
    exact same.trans (if_neg other)
  · have same := congrArg FileView.referenceList (related name inode inode' stored stored')
    rw [show inode'.referenceList = _ from same, FileView.left, List.filter_filter]
    simp [FileView.of]

/-- Where every reference of the pid has its descriptor, a session is left at once. -/
theorem forget_leftBy {v : View codec} {pid : Pid}
    (listed : ∀ name f, v.file name = some f → f.referenceList.count pid = (v.held name pid).card) :
    View.apply { v with
      file := fun name => (v.file name).map fun f => f.leftBy pid (v.held name pid).card }
      (.forget pid) = v.apply (.leave pid) := by
  refine View.ext (funext fun name => ?_) rfl rfl rfl rfl
  simp only [View.apply]
  cases found : v.file name with
  | none => rfl
  | some f => rw [Option.map_some, Option.map_some, ← listed name f found, FileView.leftBy_count]

/-- The end of a session is complete just if some file is stored, and the pid has
    as many references to each file as descriptors with its name. -/
theorem removeSession_complete_iff (reached : Reachable AnyEvent fs) (pid : Pid) (now : Int) :
    (∃ fs', fileSystemRemoveSession pid now fs = .ok () fs' ∧ SessionRemoved fs pid fs') ↔
      (∃ name, fs.file name ≠ none) ∧ ∀ name inode, fs.file name = some inode →
        inode.referenceList.count pid = (fs.view.held name pid).card := by
  have spec := fileSystemRemoveSession_spec (counted_of_reachable reached) pid now
  constructor
  · rintro ⟨fs', result, removed⟩
    rw [result] at spec
    obtain ⟨some_, referenced, -, viewed⟩ := spec
    refine ⟨?_, fun name inode stored => ?_⟩
    · obtain ⟨name, names, is⟩ := List.exists_cons_of_ne_nil some_
      obtain ⟨inode, present⟩ := FileTable.mem_presenceList.mp (is ▸ List.mem_cons_self)
      exact ⟨name, by rw [file, present]; simp⟩
    · have enough : (fs.view.held name pid).card ≤ inode.referenceList.count pid :=
        Nat.le_of_not_lt fun few => referenced name ⟨_, view_file stored, few⟩
      obtain ⟨inode', stored'⟩ := Option.ne_none_iff_exists'.mp fun gone => by
        rw [removed.files] at gone
        cases stored.symm.trans gone
      have file := congrFun (congrArg View.file viewed) name
      rw [view_file stored'] at file
      simp only [View.apply, view_file stored, Option.map_some, Option.some_inj] at file
      have gone := List.count_eq_zero.mpr (removed.references name inode' stored')
      rw [show inode'.referenceList = _ from congrArg FileView.referenceList file,
        FileView.leftBy, count_iterate_erase] at gone
      simp only [FileView.of] at gone
      omega
  · rintro ⟨⟨name, stored⟩, matching⟩
    have listed : ∀ name f, fs.view.file name = some f →
        f.referenceList.count pid = (fs.view.held name pid).card := by
      intro name f found
      obtain ⟨inode, present, rfl⟩ := Option.map_eq_some_iff.mp found
      exact matching name inode present
    cases result : fileSystemRemoveSession pid now fs with
    | ok value fs' =>
        rw [result] at spec
        obtain ⟨-, -, slots, viewed⟩ := spec
        exact ⟨fs', rfl, .of_view slots (viewed.trans (forget_leftBy listed))⟩
    | error code fs' =>
        rw [result] at spec
        rcases spec with ⟨empty, -⟩ | ⟨other, f, found, few⟩
        · obtain ⟨inode, present⟩ := Option.ne_none_iff_exists'.mp stored
          have member := FileTable.mem_presenceList.mpr ⟨inode, present⟩
          rw [empty] at member
          cases member
        · exact absurd (listed other f found) few.ne
    | fault why =>
        rw [result] at spec
        exact spec.elim

theorem removeSession_complete_two : ∃ fs : FileSystem huffmanCodec,
    (Reachable AnyEvent fs ∧ ∃ entry, fs.slot 1 = some entry ∧ entry.owner = 1) ∧
    ∃ fs', fileSystemRemoveSession 1 4 fs = .ok () fs' ∧ SessionRemoved fs 1 fs' := by
  obtain ⟨fs, reached, checked⟩ := Reachable.of_runs
    (AnyEvent : FileSystem huffmanCodec → Event → Prop) 1 4 .fifo
    (fun fs : FileSystem huffmanCodec => decide (fs.file [102] ≠ none) &&
      (fs.slot 1).any (fun entry : Entry => entry.owner = 1) &&
      fs.fileTable.presenceList.all fun name => (fs.file name).all fun inode : Inode =>
        inode.referenceList.count 1 = fs.fileDescriptorTable.1.pidInodeSize name 1)
    [.open [102] 3 1 0, .open [102] 0 1 1, .open [103] 1 2 2, .write 2 (some [97, 98]) 2 3]
    (by decide +kernel)
  simp only [Bool.and_eq_true, decide_eq_true_eq, List.all_eq_true, Option.any_eq_true] at checked
  obtain ⟨⟨stored, owned⟩, matching⟩ := checked
  refine ⟨fs, ⟨reached, owned⟩, (removeSession_complete_iff reached 1 4).mpr
    ⟨⟨[102], stored⟩, fun name inode present => ?_⟩⟩
  have all := matching name (FileTable.mem_presenceList.mpr ⟨inode, present⟩)
  rw [present] at all
  rw [← pidInodeSize_eq]
  exact of_decide_eq_true all

/-- Without a stored file the descriptors of a session are not given back. -/
theorem removeSession_incomplete : ∃ fs : FileSystem huffmanCodec, Reachable AnyEvent fs ∧
    (fileSystemRemoveSession 1 2 fs).value? = none ∧
    ∃ fs' entry, (fileSystemRemoveSession 1 2 fs).state? = some fs' ∧
      fs'.slot 0 = some entry ∧ entry.owner = 1 := by
  obtain ⟨fs, reached, checked⟩ := Reachable.of_runs
    (AnyEvent : FileSystem huffmanCodec → Event → Prop) 1 4 .fifo
    (fun fs : FileSystem huffmanCodec =>
      decide ((fileSystemRemoveSession 1 2 fs).value? = none) &&
      (fileSystemRemoveSession 1 2 fs).state?.any fun fs' : FileSystem huffmanCodec =>
        (fs'.slot 0).any fun entry : Entry => entry.owner = 1)
    [.open [102] 3 1 0, .remove [102] 1] (by decide +kernel)
  simp only [Bool.and_eq_true, decide_eq_true_eq, Option.any_eq_true] at checked
  obtain ⟨failed, fs', left, entry, live, own⟩ := checked
  exact ⟨fs, reached, failed, fs', entry, left, live, own⟩

/-! ## References in all runs -/

theorem Step.orderly {fs' : FileSystem codec} {event : Event} (referenced : Referenced fs.view)
    (guarded : RetiredNames fs event) (possible : event.Possible fs)
    (result : (event.call fs).state? = some fs') :
    (∃ acts, event.Does fs fs' acts ∧ fs.Performs acts fs' ∧
      (viewSystem codec).Meets Orderly fs.view acts) ∨
    ∃ pid now, event = .removeSession pid now ∧
      (fs.Performs [] fs' ∨ fs.Performs [.leave pid] fs') := by
  by_cases leaving : ∃ pid now, event = .removeSession pid now
  · obtain ⟨pid, now, rfl⟩ := leaving
    right
    refine ⟨pid, now, rfl, ?_⟩
    have listed := fun name f (found : fs.view.file name = some f) =>
      referenced.listed name f found pid
    refine Outcome.Post.of_state (I := fun fs' => fs.Performs [] fs' ∨ fs.Performs [.leave pid] fs')
      (F := fun _ => True) ?_ result
    refine Event.post_of_actions (fun _ => ⟨_, rfl⟩) ?_
    refine (fileSystemRemoveSession_spec referenced.counted pid now).mono ?_ ?_ (fun _ _ => trivial)
    · rintro - fs₁ ⟨-, -, -, viewed⟩
      exact .inr (.single trivial (viewed.trans (forget_leftBy listed)))
    · rintro - fs₁ (⟨-, rfl⟩ | ⟨name, f, found, few⟩)
      · exact .inl .nil
      · exact absurd (listed name f found) few.ne
  · left
    obtain ⟨acts, does, performs⟩ := Step.performed possible result
    refine ⟨acts, does, performs, (meets_retiredName guarded does performs).and ?_⟩
    refine .of_forall fun v a member => ?_
    have may := does.mayDo a member
    cases may <;> first | rfl | exact absurd ⟨_, _, rfl⟩ leaving

/-- Orderly actions keep an invariant that says at least where references come from. -/
theorem Reachable.orderly_invariant {guard : FileSystem codec → Event → Prop} (I : View codec → Prop)
    (allowed : View codec → Action codec → Prop) (retired : ∀ fs event, guard fs event → RetiredNames fs event)
    (initial : I .initial)
    (meets : ∀ fs fs' event acts, I fs.view → Referenced fs.view → guard fs event →
      event.Does fs fs' acts → fs.Performs acts fs' →
      (viewSystem codec).Meets allowed fs.view acts)
    (leave : ∀ v pid, Referenced v → I v → I (v.apply (.leave pid)))
    (step : ∀ v a, I v → Referenced v → v.Enabled a → Orderly v a → allowed v a → I (v.apply a))
    (reached : Reachable guard fs) : Referenced fs.view ∧ I fs.view := by
  refine Reachable.invariant (I := fun fs => Referenced fs.view ∧ I fs.view)
    (fun memoryLimit filesLimit policy => ?_) ?_ reached
  · rw [init_view]
    exact ⟨⟨nofun, nofun, nofun⟩, initial⟩
  · rintro fs fs' event ⟨referenced, holds⟩ guarded possible result
    rcases Step.orderly referenced (retired fs event guarded) possible result with
      ⟨acts, does, performs, orderly⟩ | ⟨pid, now, rfl, performs | performs⟩
    · refine ActionSystem.Trace.keeps (S := viewSystem codec)
        (I := fun v => Referenced v ∧ I v) ?_ performs
        (orderly.and (meets fs fs' event acts holds referenced guarded does performs))
        ⟨referenced, holds⟩
      rintro v a ⟨referenced, holds⟩ enabled ⟨orderly, may⟩
      exact ⟨referenced.apply enabled orderly, step v a holds referenced enabled orderly may⟩
    · rw [performs.view_eq]
      exact ⟨referenced, holds⟩
    · rw [performs.view_single]
      exact ⟨referenced.apply trivial ⟨trivial, rfl⟩, leave _ pid referenced holds⟩

theorem referenced_of_reachable (reached : Reachable RetiredNames fs) : Referenced fs.view :=
  (Reachable.orderly_invariant (fun _ => True) (fun _ _ => True)
    (fun _ _ guarded => guarded) trivial
    (fun _ _ _ _ _ _ _ _ _ => .of_forall fun _ _ _ => trivial) (fun _ _ _ _ => trivial)
    (fun _ _ _ _ _ _ _ => trivial) reached).1

def FileSystem.owners (fs : FileSystem codec) (name : Filename) : List Pid :=
  fs.fileDescriptorTable.1.table.filterMap fun slot => slot.bind fun entry =>
    if entry.inode.name = name then some entry.owner else none

theorem count_owners (fs : FileSystem codec) (name : Filename) (pid : Pid) :
    (fs.owners name).count pid = (fs.view.held name pid).card := by
  rw [card_held, List.count, owners, List.countP_filterMap]
  refine List.countP_congr fun slot _ => ?_
  cases slot with
  | none => simp
  | some entry => by_cases named : entry.inode.name = name <;> simp [named]

/-- Where names are retired, the reference list of every stored file holds the
    owners of the descriptors with its name, and its count is right. -/
theorem references_agree (reached : Reachable RetiredNames fs) {inode : Inode}
    (stored : fs.file name = some inode) :
    inode.referenceCount = inode.referenceList.length ∧
      inode.referenceList.Perm (fs.owners name) := by
  have referenced := referenced_of_reachable reached
  refine ⟨referenced.counted name _ (view_file stored), List.perm_iff_count.mpr fun pid => ?_⟩
  rw [count_owners]
  exact referenced.listed name _ (view_file stored) pid

theorem references_agree_three : ∃ (fs : FileSystem huffmanCodec) (inode : Inode),
    (Reachable RetiredNames fs ∧ fs.file [102] = some inode ∧ inode.referenceCount = 3) ∧
      inode.referenceCount = inode.referenceList.length ∧
      inode.referenceList.Perm (fs.owners [102]) := by
  obtain ⟨fs, reached, checked⟩ := Reachable.of_runs
    (RetiredNames : FileSystem huffmanCodec → Event → Prop) 1 4 .fifo
    (fun fs : FileSystem huffmanCodec => (fs.file [102]).any fun inode : Inode =>
      inode.referenceCount = 3)
    [.open [103] 3 1 0, .remove [103] 1, .open [102] 1 2 2, .open [102] 0 1 3, .open [102] 0 2 4]
    (by decide +kernel)
  obtain ⟨inode, stored, three⟩ := (Option.any_eq_true _ _).mp checked
  exact ⟨fs, inode, ⟨reached, stored, of_decide_eq_true three⟩, references_agree reached stored⟩

/-- After a name is removed and created again its old descriptors have no reference. -/
theorem references_disagree : ∃ (fs : FileSystem huffmanCodec) (inode : Inode),
    Reachable AnyEvent fs ∧ fs.file [102] = some inode ∧
      ¬ inode.referenceList.Perm (fs.owners [102]) := by
  obtain ⟨fs, reached, checked⟩ := Reachable.of_runs
    (AnyEvent : FileSystem huffmanCodec → Event → Prop) 1 4 .fifo
    (fun fs : FileSystem huffmanCodec => (fs.file [102]).any fun inode : Inode =>
      ¬ inode.referenceList.Perm (fs.owners [102]))
    [.open [102] 3 1 0, .remove [102] 1, .open [102] 1 2 2] (by decide +kernel)
  obtain ⟨inode, stored, disagree⟩ := (Option.any_eq_true _ _).mp checked
  exact ⟨fs, inode, reached, stored, of_decide_eq_true disagree⟩

end FileStorage
