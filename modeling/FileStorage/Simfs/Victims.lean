import FileStorage.Simfs.Sessions
import FileStorage.Simfs.Room
import FileStorage.Simfs.Contents
import FileStorage.Simfs.Regular

/-! # The victims of evictions

The victim is the root of a heap made of all stored files, so its key is a least one
if no key is cut when it becomes an `int`. References never are, since no pid has more
of them than descriptors; times are not before 2^31. What an eviction takes off the
table is what the content of its victim compresses to.
-/

namespace FileStorage

open Program FileSystem

variable {codec : Codec}

/-! ## How many references a file has -/

/-- No pid has more references to a file than descriptors with its name. -/
structure Backed (v : View codec) : Prop where
  inside : ∀ fd s, v.slot fd = some s → fd < maxOpenFiles
  counted : Counted v
  listed : ∀ name f, v.file name = some f →
    ∀ pid, f.referenceList.count pid ≤ (v.held name pid).card

/-- The action does not close all descriptors of a pid apart from its references. -/
def Action.Forgets : Action codec → Prop
  | .forget _ => True
  | _ => False

theorem Backed.apply {v : View codec} (backed : Backed v) {a : Action codec}
    (enabled : v.Enabled a) (keeps : ¬ a.Forgets) : Backed (v.apply a) := by
  refine ⟨fun fd s' live => ?_, backed.counted.apply enabled, fun name f' stored pid => ?_⟩
  · cases a with
    | attach opened other pid =>
        by_cases this : fd = opened
        · exact this ▸ enabled.2.1
        · exact backed.inside fd s' (by simpa [View.apply, this] using live)
    | create other => exact backed.inside fd s' live
    | _ =>
        obtain ⟨s, found, -⟩ := (View.apply_shrinks v _ rfl rfl).slots fd s' live
        exact backed.inside fd s found
  · have listed := backed.listed name
    cases a with
    | forget pid => exact absurd trivial keeps
    | create created =>
        rw [View.held_congr (View.slot_apply rfl)]
        by_cases this : name = created
        · subst this
          obtain rfl := Option.some.inj ((Function.update_self _ _ v.file).symm.trans stored)
          exact Nat.zero_le _
        · exact listed f' (by simpa [View.apply, this] using stored) pid
    | attach fd opened owner =>
        obtain ⟨free, inside, f₀, found₀, -⟩ := enabled
        obtain ⟨f, found, rfl⟩ := View.file_of_changeFile stored
        rw [View.held_attach free inside found₀]
        have fresh : fd ∉ v.held name pid := by simp [View.mem_held, free]
        have count := listed f found pid
        by_cases this : name = opened
        · by_cases own : owner = pid
          · rw [if_pos this, if_pos ⟨own, this.symm⟩, Finset.card_insert_of_notMem fresh, own,
              List.count_cons_self]
            exact Nat.succ_le_succ count
          · rw [if_pos this, if_neg (fun both => own both.1), List.count_cons_of_ne own]
            exact count
        · rw [if_neg this, if_neg (fun both => this both.2.symm)]
          exact count
    | close fd =>
        obtain ⟨s, live⟩ := Option.ne_none_iff_exists'.mp enabled
        simp only [View.apply, live] at stored
        obtain ⟨f, found, rfl⟩ := View.file_of_changeFile stored
        rw [View.held_close live]
        have count := listed f found pid
        have member : fd ∈ v.held name pid ↔ s.owner = pid ∧ s.name = name := by
          simp [View.mem_held, live, backed.inside fd s live]
        by_cases this : name = s.name
        · rw [if_pos this, (FileView.released_counted (backed.counted name f found) _).2,
            List.count_erase]
          by_cases own : s.owner = pid
          · rw [Finset.card_erase_of_mem (member.mpr ⟨own, this.symm⟩)]
            simp only [own, beq_self_eq_true, if_true]
            omega
          · rw [Finset.erase_eq_of_notMem fun held => own (member.mp held).1]
            omega
        · rw [if_neg this, Finset.erase_eq_of_notMem fun held => this (member.mp held).2.symm]
          exact count
    | release other giver =>
        obtain ⟨f, found, rfl⟩ := View.file_of_changeFile stored
        rw [View.held_congr (View.slot_apply rfl)]
        refine le_trans ?_ (listed f found pid)
        split
        · exact List.erase_sublist.count_le pid
        · exact le_refl _
    | leave leaver =>
        obtain ⟨f, found, rfl⟩ := Option.map_eq_some_iff.mp stored
        rw [View.held_leave]
        by_cases own : pid = leaver
        · rw [if_pos own, Finset.card_empty, Nat.le_zero, List.count_eq_zero]
          simp [FileView.left, own]
        · rw [if_neg own]
          exact le_trans (List.filter_sublist.count_le pid) (listed f found pid)
    | _ =>
        obtain ⟨f, found, -, references, -⟩ := View.file_of_apply rfl stored
        rw [(references rfl).1, View.held_congr (View.slot_apply rfl)]
        exact listed f found pid

theorem Backed.performs {fs fs' : FileSystem codec} {acts : List (Action codec)}
    (backed : Backed fs.view) (performs : fs.Performs acts fs')
    (keeps : ∀ a ∈ acts, ¬ a.Forgets) : Backed fs'.view :=
  ActionSystem.Trace.keeps (S := viewSystem codec) (I := Backed)
    (fun _ _ kept enabled allowed => kept.apply enabled allowed) performs
    (.of_forall fun _ a member => keeps a member) backed

/-- The end of a session takes all references of its pid before it closes its
    descriptors, or fails before it closes them. -/
theorem Backed.step {fs fs' : FileSystem codec} {event : Event} (backed : Backed fs.view)
    (possible : event.Possible fs) (result : (event.call fs).state? = some fs') :
    Backed fs'.view := by
  by_cases leaving : ∃ pid now, event = .removeSession pid now
  · obtain ⟨pid, now, rfl⟩ := leaving
    refine Outcome.Post.of_state (I := fun fs' => Backed fs'.view) (F := fun _ => True) ?_ result
    refine Event.post_of_actions (fun _ => ⟨_, rfl⟩) ?_
    refine ((fileSystemRemoveSession_spec backed.counted pid now).and
      (fileSystemRemoveSession_performs fs pid now)).mono ?_ ?_ (fun _ _ => trivial)
    · rintro - fs₁ ⟨⟨-, referenced, -, viewed⟩, -⟩
      have listed : ∀ name f, fs.view.file name = some f →
          f.referenceList.count pid = (fs.view.held name pid).card := by
        intro name f found
        exact Nat.le_antisymm (backed.listed name f found pid)
          (Nat.le_of_not_lt fun few => referenced name ⟨f, found, few⟩)
      rw [viewed, forget_leftBy listed]
      exact backed.apply trivial id
    · rintro - fs₁ ⟨-, acts, leaves, performs⟩
      refine backed.performs performs fun a member => ?_
      obtain ⟨name, rfl | rfl⟩ := leaves a member <;> exact id
  · obtain ⟨acts, does, performs⟩ := Step.performed possible result
    refine backed.performs performs fun a member => ?_
    have may := does.mayDo a member
    cases may <;> first | exact id | exact absurd ⟨_, _, rfl⟩ leaving

theorem backed_of_reachable {guard : FileSystem codec → Event → Prop} {fs : FileSystem codec}
    (reached : Reachable guard fs) : Backed fs.view := by
  refine Reachable.invariant (I := fun fs => Backed fs.view)
    (fun memoryLimit filesLimit policy => ?_) ?_ reached
  · rw [init_view]
    exact ⟨nofun, nofun, nofun⟩
  · exact fun _ _ _ backed _ possible result => backed.step possible result

namespace FileSystem

variable {fs : FileSystem codec} {name : Filename} {inode : Inode}

/-- There are no more references to a file than descriptors can be open. -/
theorem referenceCount_le (backed : Backed fs.view) (present : fs.file name = some inode) :
    inode.referenceCount ≤ maxOpenFiles := by
  have counted : inode.referenceCount = inode.referenceList.length :=
    backed.counted name _ (view_file present)
  have sub : inode.referenceList.Subperm (fs.owners name) := by
    rw [List.subperm_ext_iff]
    intro pid _
    rw [count_owners]
    exact backed.listed name _ (view_file present) pid
  have fits := fs.fileDescriptorTable.1.bounded
  rw [fs.fileDescriptorTable.2] at fits
  calc inode.referenceCount = inode.referenceList.length := counted
    _ ≤ (fs.owners name).length := sub.length_le
    _ ≤ fs.fileDescriptorTable.1.table.length := List.length_filterMap_le _ _
    _ ≤ maxOpenFiles := fits

/-! ## The victim -/

/-- The number by which a policy orders the files, as it is stored. -/
def policyKey (policy : ReplacementPolicy) (inode : Inode) : Int :=
  match policy with
  | .fifo => inode.btime
  | .lifo => -inode.btime
  | .lru => inode.ctime
  | .mru => -inode.ctime
  | .lfu => inode.referenceCount
  | .none => 0

def Timely (fs : FileSystem codec) : Prop :=
  ∀ name inode, fs.file name = some inode → |inode.btime| < 2 ^ 31 ∧ |inode.ctime| < 2 ^ 31

theorem victimKey_eq_ok (backed : Backed fs.view) (timely : Timely fs)
    (present : fs.file name = some inode) {key : Int}
    (keyed : victimKey fs.replacementPolicy inode = .ok key) :
    key = policyKey fs.replacementPolicy inode := by
  obtain ⟨born, changed⟩ := timely name inode present
  rw [abs_lt] at born changed
  have few := referenceCount_le backed present
  unfold maxOpenFiles at few
  unfold victimKey at keyed
  unfold policyKey
  cases policy : fs.replacementPolicy with
  | none =>
      rw [policy] at keyed
      cases keyed
  | fifo | lru | lfu =>
      rw [policy] at keyed
      obtain rfl := Except.ok.inj keyed
      exact toInt32_of_range (by omega) (by omega)
  | lifo | mru =>
      rw [policy] at keyed
      obtain rfl := Except.ok.inj keyed
      exact (toInt32_of_range (by omega) (by omega)).trans (neg_one_mul _)

/-- The heap orders the files with the names by their keys. -/
structure Heaps (fs : FileSystem codec) (names : List Filename) (heap : MinHeap Inode) : Prop where
  ordered : MinHeap.Ordered heap.list
  keyed : ∀ node ∈ heap.list, ∃ name, fs.file name = some node.data ∧
    victimKey fs.replacementPolicy node.data = .ok node.key
  complete : ∀ name ∈ names, ∀ inode, fs.file name = some inode →
    ∃ node ∈ heap.list, node.data = inode

/-- The body of the loop that fills the heap puts in a stored file under its key. -/
theorem Heaps.init (fs : FileSystem codec) : Heaps fs [] MinHeap.init := ⟨nofun, nofun, nofun⟩

theorem insertVictim_eq_ok {heap heap' : MinHeap Inode}
    (inserted : insertVictim fs heap name = .ok heap') : ∃ inode key, fs.file name = some inode ∧
      victimKey fs.replacementPolicy inode = .ok key ∧ heap.insert inode key = some heap' := by
  unfold insertVictim at inserted
  cases present : fs.file name with
  | none =>
      rw [present] at inserted
      cases inserted
  | some inode =>
      rw [present] at inserted
      change (victimKey fs.replacementPolicy inode >>= _) = _ at inserted
      cases keyed : victimKey fs.replacementPolicy inode with
      | error code =>
          rw [keyed] at inserted
          cases inserted
      | ok key =>
          rw [keyed] at inserted
          simp only [Bind.bind, Except.bind] at inserted
          cases added : heap.insert inode key with
          | none =>
              rw [added] at inserted
              cases inserted
          | some result =>
              rw [added] at inserted
              obtain rfl := Except.ok.inj inserted
              exact ⟨inode, key, rfl, keyed, added⟩

theorem Heaps.insertVictim {names : List Filename} {heap heap' : MinHeap Inode}
    (heaps : Heaps fs names heap) (inserted : insertVictim fs heap name = .ok heap') :
    Heaps fs (names ++ [name]) heap' := by
  obtain ⟨inode, key, present, keyed, added⟩ := insertVictim_eq_ok inserted
  obtain ⟨result, added', perm⟩ := heap.insert_perm inode (MinHeap.insert_small added)
  obtain rfl := Option.some.inj (added.symm.trans added')
  refine ⟨MinHeap.insert_ordered heaps.ordered added, fun node member => ?_,
    fun other member stored found => ?_⟩
  · rcases List.mem_cons.mp (perm.mem_iff.mp member) with rfl | member
    · exact ⟨name, present, keyed⟩
    · exact heaps.keyed node member
  · rcases List.mem_append.mp member with member | member
    · obtain ⟨node, inside, is⟩ := heaps.complete other member stored found
      exact ⟨node, perm.mem_iff.mpr (List.mem_cons_of_mem _ inside), is⟩
    · obtain rfl := List.mem_singleton.mp member
      obtain rfl := Option.some.inj (present.symm.trans found)
      exact ⟨_, perm.mem_iff.mpr List.mem_cons_self, rfl⟩

theorem Heaps.foldlM {names rest : List Filename} {heap heap' : MinHeap Inode}
    (heaps : Heaps fs names heap) (built : rest.foldlM (FileSystem.insertVictim fs) heap = .ok heap') :
    Heaps fs (names ++ rest) heap' := by
  induction rest generalizing names heap with
  | nil =>
      obtain rfl := Except.ok.inj built
      rwa [List.append_nil]
  | cons name rest ih =>
      rw [List.foldlM_cons] at built
      cases inserted : FileSystem.insertVictim fs heap name with
      | error code =>
          rw [inserted] at built
          cases built
      | ok next =>
          rw [inserted] at built
          have all := ih (heaps.insertVictim inserted) built
          rwa [List.append_assoc] at all

theorem insertVictim_isOk (policy : fs.replacementPolicy ≠ .none) (present : fs.file name = some inode)
    (heap : MinHeap Inode) : ∃ heap', insertVictim fs heap name = .ok heap' := by
  have keyed : ∃ n : Int, victimKey fs.replacementPolicy inode = .ok (toInt32 n) := by
    unfold victimKey
    cases is : fs.replacementPolicy with
    | none => exact absurd is policy
    | fifo | lifo | lru | mru | lfu => exact ⟨_, rfl⟩
  obtain ⟨n, keyed⟩ := keyed
  have range := toInt32_range n
  obtain ⟨heap', added, -⟩ := heap.insert_perm inode
    (show toInt32 n ≤ intMax by unfold intMax; omega)
  refine ⟨heap', ?_⟩
  unfold insertVictim
  rw [present]
  change (victimKey fs.replacementPolicy inode >>= _) = _
  rw [keyed]
  simp only [Bind.bind, Except.bind, added]

theorem insertVictims_isOk (policy : fs.replacementPolicy ≠ .none) (names : List Filename)
    (stored : ∀ name ∈ names, ∃ inode, fs.file name = some inode) (heap : MinHeap Inode) :
    ∃ heap', names.foldlM (insertVictim fs) heap = .ok heap' := by
  induction names generalizing heap with
  | nil => exact ⟨heap, rfl⟩
  | cons name names ih =>
      obtain ⟨inode, present⟩ := stored name List.mem_cons_self
      obtain ⟨next, inserted⟩ := insertVictim_isOk policy present heap
      obtain ⟨heap', built⟩ := ih (fun other member => stored other (List.mem_cons_of_mem name member))
        next
      refine ⟨heap', ?_⟩
      rw [List.foldlM_cons, inserted]
      exact built

/-- There is a victim as long as there is a file and a policy. -/
theorem victim_isOk (policy : fs.replacementPolicy ≠ .none) (some_ : fs.fileTable.presenceList ≠ []) :
    ∃ inode, victim fs = .ok inode := by
  obtain ⟨heap, built⟩ := insertVictims_isOk policy fs.fileTable.presenceList
    (fun name member => FileTable.mem_presenceList.mp member) MinHeap.init
  obtain ⟨name, names, is⟩ := List.exists_cons_of_ne_nil some_
  have empty : Heaps fs [] MinHeap.init := .init fs
  have heaps := empty.foldlM built
  obtain ⟨inode, present⟩ := FileTable.mem_presenceList.mp (is ▸ List.mem_cons_self)
  obtain ⟨node, member, -⟩ := heaps.complete name (is ▸ List.mem_cons_self) inode present
  cases extracted : heap.extractMin with
  | none =>
      rw [MinHeap.extractMin_eq_none.mp extracted] at member
      cases member
  | some result =>
      refine ⟨result.1, ?_⟩
      unfold victim
      rw [if_neg some_]
      rw [show rtsBuildVictimHeap fs fs.fileTable.presenceList = .ok heap from built]
      simp only [Bind.bind, Except.bind, extracted]

/-- The victim is the root of a heap of all stored files. -/
theorem victim_heaps (selected : victim fs = .ok inode) :
    ∃ heap root, Heaps fs fs.fileTable.presenceList heap ∧ root ∈ heap.list ∧ root.data = inode ∧
      ∀ node ∈ heap.list, root.key ≤ node.key := by
  unfold victim at selected
  split at selected
  · cases selected
  cases built : rtsBuildVictimHeap fs fs.fileTable.presenceList with
  | error code =>
      rw [built] at selected
      cases selected
  | ok heap =>
      rw [built] at selected
      have empty : Heaps fs [] MinHeap.init := .init fs
      have heaps := empty.foldlM built
      simp only [Bind.bind, Except.bind] at selected
      cases extracted : heap.extractMin with
      | none =>
          rw [extracted] at selected
          cases selected
      | some result =>
          rw [extracted] at selected
          obtain rfl := Except.ok.inj selected
          obtain ⟨root, inside, is, least⟩ := MinHeap.extractMin_le heaps.ordered extracted
          exact ⟨heap, root, heaps, inside, is, least⟩

theorem victim_stored (selected : victim fs = .ok inode) : fs.file inode.name = some inode := by
  obtain ⟨heap, root, heaps, inside, rfl, -⟩ := victim_heaps selected
  obtain ⟨rootName, present, -⟩ := heaps.keyed root inside
  rw [fs.fileTable.named rootName root.data present]
  exact present

theorem victim_of_chosen (taken : fs.chosen = some inode) : victim fs = .ok inode := by
  obtain ⟨selected, is, present⟩ := Option.bind_eq_some_iff.mp taken
  cases result : victim fs with
  | error code =>
      rw [result] at is
      cases is
  | ok other =>
      rw [result] at is
      obtain rfl := Option.some.inj is
      rw [← Option.some.inj ((victim_stored result).symm.trans present)]

theorem victim_least (backed : Backed fs.view) (timely : Timely fs)
    (selected : victim fs = .ok inode) {other : Inode} (stored : fs.file name = some other) :
    policyKey fs.replacementPolicy inode ≤ policyKey fs.replacementPolicy other := by
  obtain ⟨heap, root, heaps, inside, rfl, least⟩ := victim_heaps selected
  obtain ⟨rootName, present, keyed⟩ := heaps.keyed root inside
  obtain ⟨node, member, rfl⟩ :=
    heaps.complete name (FileTable.mem_presenceList.mpr ⟨other, stored⟩) other stored
  obtain ⟨nodeName, present', keyed'⟩ := heaps.keyed node member
  rw [← victimKey_eq_ok backed timely present keyed,
    ← victimKey_eq_ok backed timely present' keyed']
  exact least node member

/-! ## What an eviction takes away -/

variable {old new : codec.Artifact} {now : Int} {other : Filename}

theorem fileTable_evicted (present : fs.file inode.name = some inode) (new : codec.Artifact)
    (now : Int) : ∃ table, (fs.started.reread inode new now).fileTable.remove inode.name = some table ∧
      (fs.evicted inode new now).fileTable = table := by
  have started : fs.started.file inode.name = some inode := present
  have present' := file_reread started new now
  obtain ⟨table, gone⟩ := FileTable.remove_isSome present'
  refine ⟨table, gone, ?_⟩
  change ((fs.started.reread inode new now).fileTable.remove inode.name).getD _ = table
  rw [gone, Option.getD_some]

theorem file_evicted (present : fs.file inode.name = some inode) (new : codec.Artifact) (now : Int)
    (other : Filename) : (fs.evicted inode new now).file other =
      if other = inode.name then none else fs.file other := by
  obtain ⟨table, gone, is⟩ := fileTable_evicted present new now
  rw [file, is, FileTable.get_remove gone]
  split
  · rfl
  · rename_i different
    change (fs.started.reread inode new now).file other = _
    rw [reread, file_putFile, if_neg different]
    rfl

/-- The table after an eviction: it has one file less, and the bytes that the content
    of the victim compresses to are taken off. -/
theorem counters_evicted (present : fs.file inode.name = some inode) (new : codec.Artifact)
    (now : Int) : (fs.evicted inode new now).fileTable.count = fs.fileTable.count - 1 ∧
      (fs.evicted inode new now).fileTable.size =
        toUnsigned64 (fs.fileTable.size - toInt32 (codec.size new)) := by
  obtain ⟨table, gone, is⟩ := fileTable_evicted present new now
  have started : fs.started.file inode.name = some inode := present
  rw [is, FileTable.remove_count gone,
    (FileTable.remove_counters gone (file_reread started new now)).2, size_reread]
  exact ⟨congrArg (· - 1) (FileTable.count_update _ _ _), rfl⟩

theorem stored_evicted {owner : Nat → Filename} (owned : Owned owner fs.view)
    (present : fs.file inode.name = some inode) (new : codec.Artifact) (now : Int)
    (different : other ≠ inode.name) :
    (fs.evicted inode new now).stored other = fs.stored other := by
  have memory : (fs.evicted inode new now).memory =
      Memory.free fs.memory inode.directPtr ++ [none] := rfl
  rw [stored, stored, file_evicted present, if_neg different, memory]
  refine Option.map_congr fun kept found => ?_
  have placed := owned.files other _ (view_file found)
  have apart := (owned.files inode.name _ (view_file present)).apart placed (Ne.symm different)
  have same : Memory.at? (Memory.free fs.memory inode.directPtr) kept.directPtr =
      Memory.at? fs.memory kept.directPtr := Memory.at?_free apart
  rw [Memory.at?_append_none, same]

/-! ## What an eviction reports -/

/-- The victim is reported with its content and taken out of the table. -/
structure Expelled (s : WriteState codec) (inode : Inode) (s' : WriteState codec) : Prop where
  chosen : s.fileSystem.chosen = some inode
  reported : s'.evictedList =
    { name := inode.name, bytes := s.fileSystem.contentOf inode.name } :: s.evictedList
  listed : s'.fileSystem.fileTable.presenceList =
    s.fileSystem.fileTable.presenceList.erase inode.name

/-- Nothing is reported and no file is taken out of the table. -/
structure Spared (s s' : WriteState codec) : Prop where
  reported : s'.evictedList = s.evictedList
  listed : s'.fileSystem.fileTable.presenceList = s.fileSystem.fileTable.presenceList

theorem listed_removes {fs' : FileSystem codec} (present : fs.file inode.name = some inode)
    {done : Bool} (removes : Removes fs inode done fs') :
    fs'.fileTable.presenceList = fs.fileTable.presenceList.erase inode.name := by
  obtain ⟨table, gone⟩ := FileTable.remove_isSome present
  have list : (fs.without inode).fileTable.presenceList =
      fs.fileTable.presenceList.erase inode.name := by
    rw [fileTable_without gone, (FileTable.remove_counters gone present).1]
  cases removes <;> exact list

theorem rtsEvict_reports (s : WriteState codec) (now : Int) :
    (WriteState.rtsEvict now s).Post (fun _ s' => ∃ inode, Expelled s inode s')
      (fun _ s' => Spared s s' ∨ ∃ inode, Expelled s inode s')
      (fun _ => ∃ inode, s.fileSystem.chosen = some inode ∧ Dangling s.fileSystem inode) := by
  simp only [WriteState.rtsEvict, WriteState.onFileSystem, post_bind, post_zoom, post_modify,
    post_get]
  refine post_ofExcept (fun inode is => ?_) (fun _ _ => .inl ⟨rfl, rfl⟩)
  -- the counter is not part of what a victim is selected by
  have is : victim s.fileSystem = .ok inode := is
  have present : s.fileSystem.started.file inode.name = some inode := victim_stored is
  have chosen : s.fileSystem.chosen = some inode := (chosen_eq is).trans present
  refine ((rtsReadInode_reads present now).and
    (rtsReadInode_performs s.fileSystem.started inode.name now)).mono ?_ ?_ ?_
  · rintro bytes fs₁ ⟨reads, f, old, new, found, live, rfl, -, -⟩
    obtain rfl := Option.some.inj (found.symm.trans (view_file present))
    have content : s.fileSystem.contentOf inode.name = codec.decode old := by
      have present : s.fileSystem.file inode.name = some inode := present
      have live : Memory.at? s.fileSystem.memory inode.directPtr = some old := live
      simp only [contentOf, stored, present, Option.map_some, Option.bind_some, live,
        Option.getD_some]
    have listed := reads.sameCounts.presenceList
    cases reads with
    | @reread _ new =>
        have found := file_reread present new now
        change (rtsRemoveInode { inode with
          size := codec.size new, directPtr := .artifact s.fileSystem.started.memory.length,
          atime := now, ctime := now }.name _).Post _ _ _
        refine (rtsRemoveInode_removes found).mono ?_ ?_ ?_
        · intro _ fs₂ removes
          exact ⟨inode, chosen, by rw [content], (listed_removes found removes).trans
            (congrArg (List.erase · inode.name) listed)⟩
        · rintro _ fs₂ ⟨-, removes⟩
          exact .inr ⟨inode, chosen, by rw [content], (listed_removes found removes).trans
            (congrArg (List.erase · inode.name) listed)⟩
        · rintro _ ⟨-, freed⟩
          have live := Memory.at?_append_self
            (Memory.free s.fileSystem.started.memory inode.directPtr) new
            (Memory.length_free _ _)
          cases live.symm.trans freed
  · rintro - fs₁ ⟨reads, -⟩
    exact .inl ⟨rfl, reads.sameCounts.presenceList⟩
  · rintro - ⟨dangling, -⟩
    exact ⟨inode, chosen, dangling⟩

/-- A file with a least key is taken off the table, and nothing else: it is reported
    at the head of the list with its content, and the counters drop by one file and by
    what it is charged with. -/
structure EvictsLeast (fs : FileSystem codec) (list : List EvictedFile) (inode : Inode)
    (s' : WriteState codec) : Prop where
  stored : fs.file inode.name = some inode
  least : ∀ name other, fs.file name = some other →
    policyKey fs.replacementPolicy inode ≤ policyKey fs.replacementPolicy other
  gone : s'.fileSystem.file inode.name = none
  reported : s'.evictedList = { name := inode.name, bytes := fs.contentOf inode.name } :: list
  others : ∀ name, name ≠ inode.name → s'.fileSystem.file name = fs.file name ∧
    s'.fileSystem.stored name = fs.stored name
  count : s'.fileSystem.fileTable.count = fs.fileTable.count - 1
  size : s'.fileSystem.fileTable.size + inode.size = fs.fileTable.size

def Repaid (fs : FileSystem codec) (inode : Inode) : Prop :=
  inode.size ≤ fs.fileTable.size ∧ ∀ old ∈ Memory.at? fs.memory inode.directPtr,
    ∀ new ∈ codec.encode (codec.decode old), toUnsigned64 (toInt32 (codec.size new)) = inode.size

theorem taken_off_iff {total size : Nat} {part : Int} (bounded : total < 2 ^ 64) :
    toUnsigned64 (total - part) + size = total ↔ size ≤ total ∧ toUnsigned64 part = size := by
  unfold toUnsigned64
  omega

theorem size_lt_of_reachable {guard : FileSystem codec → Event → Prop}
    (reached : Reachable guard fs) : fs.fileTable.size < 2 ^ 64 := by
  have kept : Regular fs ∧ fs.fileTable.size < 2 ^ 64 := by
    refine Reachable.change_invariant (I := fun fs => Regular fs ∧ fs.fileTable.size < 2 ^ 64)
      (fun _ _ _ => ⟨⟨rfl, Nat.two_pow_pos 64⟩, Nat.two_pow_pos 64⟩) ?_ reached
    rintro fs fs' ⟨regular, small⟩ next
    refine ⟨regular.change next, ?_⟩
    cases next with
    | quiet same => exact same.size ▸ small
    | create created => exact (FileTable.create_counters created).2 ▸ small
    | miscounted wrong =>
        have listed := regular.listed
        omega
    | start | buffer fd copy => exact small
    | read _ reads => exact reads.sameCounts.size ▸ small
    | @remove _ inode _ present removes =>
        have after : fs'.fileTable = (fs.without inode).fileTable := by cases removes <;> rfl
        obtain ⟨table, gone⟩ := FileTable.remove_isSome present
        rw [after, fileTable_without gone, (FileTable.remove_counters gone present).2]
        exact toUnsigned64_lt _
    | flush _ flushes =>
        cases flushes with
        | empty =>
            change (fs.updateFile _ _).fileTable.size < _
            rw [size_updateFile]
            exact small
        | full =>
            rw [(counts_flushed _ _ _ _ _).2.2.1]
            exact toUnsigned64_lt _
    | tear tears => exact tears.sameCounts.size ▸ small
  exact kept.2

end FileSystem

/-- Every eviction that succeeds takes and reports a file with a least key and leaves
    the others alone. The counters follow exactly if its victim is repaid. -/
theorem evicts_least_iff {fs : FileSystem codec} (reached : Reachable AnyEvent fs)
    (timely : Timely fs) {now : Int} {list : List EvictedFile} {s' : WriteState codec}
    (returned : WriteState.rtsEvict now { fileSystem := fs, evictedList := list } = .ok () s') :
    (∃ inode, EvictsLeast fs list inode s') ↔ ∃ inode, fs.chosen = some inode ∧ Repaid fs inode := by
  have backed := backed_of_reachable reached
  obtain ⟨owner, owned⟩ := owned_of_reachable reached
  have exact_ := rtsEvict_exact { fileSystem := fs, evictedList := list } now
  have reports := rtsEvict_reports { fileSystem := fs, evictedList := list } now
  rw [returned] at exact_ reports
  obtain ⟨inode, new, readable, -, after, -⟩ := exact_
  obtain ⟨other, expelled⟩ := reports
  have readable : Readable fs inode new := readable
  obtain ⟨old, taken, live, -, encodes⟩ := readable
  obtain rfl := Option.some.inj (taken.symm.trans expelled.chosen)
  have present := file_of_chosen taken
  have counters := counters_evicted present new now
  have bounded := size_lt_of_reachable reached
  have after : s'.fileSystem = fs.evicted inode new now := after
  have repaid : Repaid fs inode ↔
      s'.fileSystem.fileTable.size + inode.size = fs.fileTable.size := by
    rw [after, counters.2, taken_off_iff bounded]
    constructor
    · exact fun ⟨le, same⟩ => ⟨le, same old live new encodes⟩
    · rintro ⟨le, same⟩
      refine ⟨le, fun old' live' new' encodes' => ?_⟩
      obtain rfl := Option.some.inj (live.symm.trans live')
      obtain rfl := Option.some.inj (encodes.symm.trans encodes')
      exact same
  have gone : ∀ name, s'.fileSystem.file name = if name = inode.name then none else fs.file name := by
    intro name
    rw [after, file_evicted present]
  constructor
  · rintro ⟨victim, evicts⟩
    have same : victim.name = inode.name := by
      by_contra different
      have kept := gone victim.name
      rw [if_neg different, evicts.gone, evicts.stored] at kept
      cases kept
    obtain rfl : victim = inode := by
      have stored := evicts.stored
      rw [same, present] at stored
      exact (Option.some.inj stored).symm
    exact ⟨victim, taken, repaid.mpr evicts.size⟩
  · rintro ⟨victim, taken', is⟩
    obtain rfl := Option.some.inj (taken.symm.trans taken')
    refine ⟨inode, present, ?_, ?_, expelled.reported, ?_, ?_, repaid.mp is⟩
    · exact fun name other stored => victim_least backed timely (victim_of_chosen taken) stored
    · rw [gone, if_pos rfl]
    · intro name different
      rw [gone, if_neg different, after]
      exact ⟨rfl, stored_evicted owned present new now different⟩
    · rw [after, counters.1]

def timelyCheck (fs : FileSystem codec) : Bool :=
  fs.fileTable.presenceList.all fun name => (fs.file name).all fun inode =>
    |inode.btime| < 2 ^ 31 ∧ |inode.ctime| < 2 ^ 31

theorem timely_of_check {fs : FileSystem codec} (checked : timelyCheck fs = true) : Timely fs := by
  intro name inode present
  have listed := List.all_eq_true.mp checked name (FileTable.mem_presenceList.mpr ⟨inode, present⟩)
  rw [present] at listed
  exact of_decide_eq_true listed

def evictedState (fs : FileSystem losslessCodec) : Option (WriteState losslessCodec) :=
  match WriteState.rtsEvict 9 { fileSystem := fs, evictedList := [] } with
  | .ok _ s' => some s'
  | _ => none

theorem rtsEvict_of_evictedState {fs : FileSystem losslessCodec} {s' : WriteState losslessCodec}
    (is : evictedState fs = some s') :
    WriteState.rtsEvict 9 { fileSystem := fs, evictedList := [] } = .ok () s' := by
  unfold evictedState at is
  split at is
  · rename_i returned
    obtain rfl := Option.some.inj is
    exact returned
  · cases is

theorem evicts_least_two : ∃ (fs : FileSystem losslessCodec) (s' : WriteState losslessCodec),
    Reachable AnyEvent fs ∧ ∃ inode, EvictsLeast fs [] inode s' := by
  obtain ⟨fs, reached, checked⟩ := Reachable.of_runs
    (AnyEvent : FileSystem losslessCodec → Event → Prop) 1 4 .lru
    (fun fs => timelyCheck fs && (evictedState fs).isSome && fs.chosen.any fun inode =>
      inode.size ≤ fs.fileTable.size ∧ (Memory.at? fs.memory inode.directPtr).all fun old =>
        (losslessCodec.encode (losslessCodec.decode old)).all fun new =>
          toUnsigned64 (toInt32 (losslessCodec.size new)) = inode.size)
    [.open [102] 1 1 0, .open [103] 1 2 1, .write 0 (some [97, 98]) 1 2,
      .write 1 (some [99, 100]) 2 3] (by decide +kernel)
  simp only [Bool.and_eq_true, Option.isSome_iff_exists, Option.any_eq_true] at checked
  obtain ⟨⟨timely, s', is⟩, inode, taken, repaid⟩ := checked
  obtain ⟨le, same⟩ := of_decide_eq_true repaid
  refine ⟨fs, s', reached, (evicts_least_iff reached (timely_of_check timely)
    (rtsEvict_of_evictedState is)).mpr ⟨inode, taken, le, fun old live new encodes => ?_⟩⟩
  rw [Option.mem_def.mp live, Option.all_some, Option.mem_def.mp encodes, Option.all_some] at same
  exact of_decide_eq_true same

/-- Both writes into an empty file through two of its descriptors are charged, though
    only the last one is kept: the eviction leaves a byte behind. -/
theorem evicts_leaving_bytes : ∃ (fs : FileSystem losslessCodec) (s' : WriteState losslessCodec),
    Reachable AnyEvent fs ∧ fs.fileTable.presenceList ≠ [] ∧ fs.replacementPolicy ≠ .none ∧
    Timely fs ∧ WriteState.rtsEvict 9 { fileSystem := fs, evictedList := [] } = .ok () s' ∧
    ¬ ∃ inode, EvictsLeast fs [] inode s' := by
  obtain ⟨fs, reached, checked⟩ := Reachable.of_runs
    (AnyEvent : FileSystem losslessCodec → Event → Prop) 1 4 .fifo
    (fun fs => timelyCheck fs && decide (fs.fileTable.presenceList ≠ []) &&
      decide (fs.replacementPolicy ≠ .none) && (evictedState fs).any fun s' =>
        fs.fileTable.presenceList.all fun name => (fs.file name).all fun inode =>
          s'.fileSystem.fileTable.size + inode.size ≠ fs.fileTable.size)
    [.open [102] 1 1 0, .open [102] 0 1 1, .write 0 (some [97, 98]) 1 2,
      .write 1 (some [99, 100]) 1 3] (by decide +kernel)
  simp only [Bool.and_eq_true, decide_eq_true_eq, Option.any_eq_true] at checked
  obtain ⟨⟨⟨timely, some_⟩, policy⟩, s', is, left⟩ := checked
  refine ⟨fs, s', reached, some_, policy, timely_of_check timely, rtsEvict_of_evictedState is, ?_⟩
  rintro ⟨inode, evicts⟩
  have listed := List.all_eq_true.mp left inode.name
    (FileTable.mem_presenceList.mpr ⟨inode, evicts.stored⟩)
  rw [evicts.stored] at listed
  exact of_decide_eq_true listed evicts.size

end FileStorage
