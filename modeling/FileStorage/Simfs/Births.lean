import FileStorage.Simfs.FileCounts
import FileStorage.Simfs.Generations
import FileStorage.Simfs.Times
import FileStorage.Simfs.Victims

/-! # The birth of files

The list of the file table names the files in the order in which they were created, and
their times of birth are in that order as well if the clock does not go back. The heap of
the victims keeps a root as long as no smaller key comes, so it is the oldest file that
FIFO takes. LIFO takes the first of those that were created in the last second, which is
the youngest one if there is no other.
-/

namespace FileStorage

open Program FileSystem

variable {codec : Codec}

theorem View.created_trace {v v' : View codec} {acts : List (Action codec)}
    (trace : (viewSystem codec).Trace v acts v') (old : ∀ a ∈ acts, a.creates = false) :
    v'.created = v.created := by
  induction trace with
  | nil v => rfl
  | @cons v a acts v' _ _ ih =>
      obtain ⟨first, rest⟩ := List.forall_mem_cons.mp old
      refine (ih rest).trans ?_
      change (v.apply a).created = v.created
      cases a with
      | create name => cases first
      | close fd | flush fd new | tear fd =>
          simp only [apply]
          split <;> rfl
      | _ => rfl

namespace FileSystem

variable {fs fs' fs'' : FileSystem codec} {name other : Filename} {inode inode' : Inode}
  {clock later : Int}

/-! ## Files that stay -/

/-- The files of the second state are files of the first one, in the same order. -/
structure Descends (fs fs' : FileSystem codec) : Prop where
  listed : fs'.fileTable.presenceList.Sublist fs.fileTable.presenceList
  created : fs'.created = fs.created
  files : ∀ name inode', fs'.file name = some inode' → ∃ inode, fs.file name = some inode ∧
    inode'.generation = inode.generation ∧ inode'.btime = inode.btime

namespace Descends

theorem refl (fs : FileSystem codec) : Descends fs fs :=
  ⟨.refl _, rfl, fun _ inode present => ⟨inode, present, rfl, rfl⟩⟩

theorem trans (first : Descends fs fs') (second : Descends fs' fs'') : Descends fs fs'' where
  listed := second.listed.trans first.listed
  created := second.created.trans first.created
  files name inode'' present'' := by
    obtain ⟨inode', present', generation', btime'⟩ := second.files name inode'' present''
    obtain ⟨inode, present, generation, btime⟩ := first.files name inode' present'
    exact ⟨inode, present, generation'.trans generation, btime'.trans btime⟩

theorem of_quiet (quiet : Quiet fs fs') : Descends fs fs' where
  listed := quiet.presenceList ▸ .refl _
  created := quiet.created
  files name inode' present' := by
    obtain ⟨inode, present, same⟩ := quiet.file_of present'
    exact ⟨inode, present, congrArg Charge.generation same, congrArg Charge.btime same⟩

theorem of_file (listed : fs'.fileTable.presenceList = fs.fileTable.presenceList)
    (created : fs'.created = fs.created) (f : Inode → Inode)
    (same : ∀ inode, (f inode).generation = inode.generation ∧ (f inode).btime = inode.btime)
    (files : ∀ other, fs'.file other = if other = name then (fs.file name).map f
      else fs.file other) : Descends fs fs' where
  listed := listed ▸ .refl _
  created := created
  files other inode' present' := by
    rw [files] at present'
    split at present'
    · rename_i this
      subst this
      obtain ⟨inode, present, rfl⟩ := Option.map_eq_some_iff.mp present'
      exact ⟨inode, present, same inode⟩
    · exact ⟨inode', present', rfl, rfl⟩

theorem reads {now : Int} {done : Bool} (present : fs.file inode.name = some inode)
    (reads : Reads fs inode now done fs') : Descends fs fs' := by
  have putFile : ∀ s : InodeState codec, s.inode.generation = inode.generation →
      s.inode.btime = inode.btime → Descends fs (fs.putFile inode.name s) := by
    intro s generation btime
    have same : SameCounts fs (fs.putFile inode.name s) := sameCounts_putFile inode.name s
    refine ⟨same.presenceList ▸ .refl _, rfl, fun other inode' present' => ?_⟩
    rw [file_putFile, present, Option.map_some] at present'
    split at present'
    · rename_i this
      cases present'
      exact ⟨inode, this ▸ present, generation, btime⟩
    · exact ⟨inode', present', rfl, rfl⟩
  cases reads <;> exact putFile _ rfl rfl

theorem removes {done : Bool} (present : fs.file inode.name = some inode)
    (removes : Removes fs inode done fs') : Descends fs fs' where
  listed := listed_removes present removes ▸ List.erase_sublist
  created := removes.same.1
  files other inode' present' := by
    rw [removes.file present] at present'
    split at present'
    · cases present'
    · exact ⟨inode', present', rfl, rfl⟩

theorem flushes {fd : Nat} {copy : Inode} {now : Int} (flushes : Flushes fs fd copy now fs') :
    Descends fs fs' := by
  cases flushes with
  | empty =>
      refine of_file (FileTable.update_counters _ _ _).1 rfl (fun inode => { inode with
        name := copy.name, atime := copy.atime, mtime := copy.mtime, ctime := now })
        (fun _ => ⟨rfl, rfl⟩) fun other => file_recorded fs copy 0 now other
  | @full content new =>
      obtain ⟨added, files⟩ := file_flushed fs fd copy new now
      exact of_file (counts_flushed fs fd copy new now).1 rfl (fun inode => { inode with
        name := copy.name, directPtr := .artifact fs.memory.length
        size := toUnsigned32 (inode.size + added)
        atime := copy.atime, mtime := now, ctime := now }) (fun _ => ⟨rfl, rfl⟩) files

theorem tears {fd : Nat} {copy : Inode} (tears : Tears fs fd copy fs') : Descends fs fs' := by
  cases tears <;>
    exact ⟨.refl _, rfl, fun _ inode present => ⟨inode, present, rfl, rfl⟩⟩

end Descends

theorem Change.descends (regular : Regular fs) (change : Change fs fs') :
    fs.created ≤ fs'.created ∧ (fs'.created = fs.created → Descends fs fs') := by
  have same : Descends fs fs' → fs.created ≤ fs'.created ∧
      (fs'.created = fs.created → Descends fs fs') :=
    fun descends => ⟨descends.created.ge, fun _ => descends⟩
  cases change with
  | quiet quiet => exact same (.of_quiet quiet)
  | create => exact ⟨Nat.le_succ _, fun equal => absurd equal (Nat.succ_ne_self _)⟩
  | miscounted wrong =>
      have listed := regular.listed
      omega
  | start | buffer => exact same ⟨.refl _, rfl, fun _ inode present => ⟨inode, present, rfl, rfl⟩⟩
  | read present reads => exact same (.reads present reads)
  | remove present removes => exact same (.removes present removes)
  | flush _ flushes => exact same (.flushes flushes)
  | tear tears => exact same (.tears tears)

theorem Changes.descends (regular : Regular fs) (changes : Changes fs fs') :
    Regular fs' ∧ fs.created ≤ fs'.created ∧
      (fs'.created = fs.created → Descends fs fs') := by
  induction changes with
  | refl => exact ⟨regular, le_refl _, fun _ => .refl fs⟩
  | @tail fs₁ fs' _ next ih =>
      obtain ⟨regular₁, more, before⟩ := ih
      obtain ⟨more', after⟩ := Change.descends regular₁ next
      refine ⟨regular₁.change next, more.trans more', fun equal => ?_⟩
      have equal₁ : fs₁.created = fs.created := le_antisymm (equal ▸ more') more
      exact (before equal₁).trans (after (equal.trans equal₁.symm))

theorem Change.policy (regular : Regular fs) (change : Change fs fs') :
    fs'.replacementPolicy = fs.replacementPolicy := by
  cases change with
  | quiet quiet => exact quiet.replacementPolicy
  | miscounted wrong =>
      have listed := regular.listed
      omega
  | create | start | buffer => rfl
  | read _ reads => cases reads <;> rfl
  | remove _ removes => cases removes <;> rfl
  | flush _ flushes => cases flushes <;> rfl
  | tear tears => cases tears <;> rfl

theorem Changes.policy (regular : Regular fs) (changes : Changes fs fs') :
    fs'.replacementPolicy = fs.replacementPolicy := by
  induction changes with
  | refl => rfl
  | tail before next ih =>
      exact (Change.policy (Changes.descends regular before).1 next).trans ih

theorem descends_call {event : Event} (regular : Regular fs) (possible : event.Possible fs)
    (other : ∀ name flags pid now, event ≠ .open name flags pid now)
    (result : (event.call fs).state? = some fs') : Descends fs fs' := by
  obtain ⟨acts, does, performs⟩ := Step.performed possible result
  have old : ∀ a ∈ acts, a.creates = false := by
    rcases does.creates with old | ⟨name, flags, pid, now, -, is, -⟩
    · exact old
    · exact absurd is (other name flags pid now)
  exact (Changes.descends regular (Changes.of_call result)).2.2 (View.created_trace performs old)

/-! ## The invariant -/

/-- The files are listed in the order of their numbers, which is the one of their births
    as well. -/
structure Births (fs : FileSystem codec) (clock : Int) : Prop where
  ordered : fs.fileTable.CreationOrder
  numbered : ∀ name inode, fs.file name = some inode → inode.generation < fs.created
  dated : ∀ name inode, fs.file name = some inode → 0 ≤ inode.btime ∧ inode.btime ≤ clock
  later : ∀ name inode other inode', fs.file name = some inode → fs.file other = some inode' →
    inode.generation < inode'.generation → inode.btime ≤ inode'.btime

namespace Births

theorem generationOf (present : fs.file name = some inode) :
    fs.fileTable.generationOf name = inode.generation := by
  have present : fs.fileTable.get name = some inode := present
  rw [FileTable.generationOf, present, Option.elim_some]

theorem eq_of_generation (births : Births fs clock) (present : fs.file name = some inode)
    (present' : fs.file other = some inode') (same : inode.generation = inode'.generation) :
    name = other := by
  have distinct : (fs.fileTable.presenceList.map fs.fileTable.generationOf).Nodup :=
    List.pairwise_map.mpr (births.ordered.imp fun less => Nat.ne_of_lt less)
  refine List.inj_on_of_nodup_map distinct (FileTable.mem_presenceList.mpr ⟨inode, present⟩)
    (FileTable.mem_presenceList.mpr ⟨inode', present'⟩) ?_
  rw [generationOf present, generationOf present', same]

theorem init (memoryLimit filesLimit : UInt32) (policy : ReplacementPolicy) (clock : Int) :
    Births (.init memoryLimit filesLimit policy : FileSystem codec) clock := by
  have nothing (name : Filename) :
      (FileSystem.init memoryLimit filesLimit policy : FileSystem codec).file name = none := by
    cases name <;> rfl
  refine ⟨.nil, ?_, ?_, ?_⟩
  · intro name inode present
    cases (nothing name).symm.trans present
  · intro name inode present
    cases (nothing name).symm.trans present
  · intro name inode other inode' present
    cases (nothing name).symm.trans present

theorem mono (births : Births fs clock) (after : clock ≤ later) : Births fs later where
  ordered := births.ordered
  numbered := births.numbered
  dated name inode present :=
    ⟨(births.dated name inode present).1, (births.dated name inode present).2.trans after⟩
  later := births.later

theorem descends (births : Births fs clock) (descends : Descends fs fs') : Births fs' clock where
  ordered := by
    refine (births.ordered.sublist descends.listed).imp_of_mem
      fun {first second} isFirst isSecond less => ?_
    have same : ∀ other ∈ fs'.fileTable.presenceList,
        fs'.fileTable.generationOf other = fs.fileTable.generationOf other := by
      intro other member
      obtain ⟨inode', present'⟩ := FileTable.mem_presenceList.mp member
      obtain ⟨inode, present, generation, -⟩ := descends.files other inode' present'
      rw [generationOf present', generationOf present, generation]
    rwa [same first isFirst, same second isSecond]
  numbered name inode' present' := by
    obtain ⟨inode, present, generation, -⟩ := descends.files name inode' present'
    rw [generation, descends.created]
    exact births.numbered name inode present
  dated name inode' present' := by
    obtain ⟨inode, present, -, btime⟩ := descends.files name inode' present'
    rw [btime]
    exact births.dated name inode present
  later name inode' other second' present' presentSecond' less := by
    obtain ⟨inode, present, generation, btime⟩ := descends.files name inode' present'
    obtain ⟨second, presentSecond, generation', btime'⟩ :=
      descends.files other second' presentSecond'
    rw [btime, btime']
    exact births.later name inode other second present presentSecond (generation' ▸ generation ▸ less)

theorem withFile {now : Nat} (births : Births fs now) {table : FileTable}
    (created : fs.fileTable.create name fs.created now = .ok table) :
    Births (fs.withFile table) now := by
  have added := FileTable.create_spec created
  have stored : ∀ other inode, table.get other = some inode →
      inode = .init name fs.created now ∨ fs.file other = some inode := by
    intro other inode present
    rw [added] at present
    split at present
    · exact .inl (Option.some.inj present).symm
    · exact .inr present
  refine ⟨?_, fun other inode present => ?_, fun other inode present => ?_, ?_⟩
  · exact creationOrder_create births.ordered births.numbered created
  · rcases stored other inode present with rfl | old
    · exact Nat.lt_succ_self _
    · exact (births.numbered other inode old).trans (Nat.lt_succ_self _)
  · rcases stored other inode present with rfl | old
    · exact ⟨Int.natCast_nonneg now, le_refl _⟩
    · exact births.dated other inode old
  · intro first inode second inode' present present' less
    rcases stored second inode' present' with rfl | old'
    · rcases stored first inode present with rfl | old
      · exact le_refl _
      · exact (births.dated first inode old).2
    · rcases stored first inode present with rfl | old
      · have less : fs.created < inode'.generation := less
        exact absurd (births.numbered second inode' old') (by omega)
      · exact births.later first inode second inode' old old' less

theorem step {now : Nat} (births : Births fs now) (regular : Regular fs) {event : Event}
    (timed : event.At now) (possible : event.Possible fs)
    (result : (event.call fs).state? = some fs') : Births fs' now := by
  by_cases opens : ∃ name flags pid now, event = .open name flags pid now
  · obtain ⟨name, flags, pid, at_, rfl⟩ := opens
    obtain rfl : at_ = now := timed at_ rfl
    rcases Event.open_call result with quiet | wrong | ⟨table, created, -, quiet⟩
    · exact births.descends (.of_quiet quiet)
    · have listed := regular.listed
      omega
    · exact (births.withFile created).descends (.of_quiet quiet)
  · refine births.descends (descends_call regular possible ?_ result)
    rintro name flags pid at_ rfl
    exact opens ⟨name, flags, pid, at_, rfl⟩

end Births

/-! ## The first and the last file -/

theorem insertVictim_root {root : MinHeap.Node Inode} {heap heap' : MinHeap Inode}
    {names : List Filename} (heaps : Heaps fs names heap) (is : heap.list.head? = some root)
    (le : ∀ inode key, fs.file name = some inode →
      victimKey fs.replacementPolicy inode = .ok key → root.key ≤ key)
    (inserted : FileSystem.insertVictim fs heap name = .ok heap') :
    heap'.list.head? = some root := by
  obtain ⟨inode, key, present, keyed, added⟩ := insertVictim_eq_ok inserted
  exact MinHeap.insert_root heaps.ordered is (le inode key present keyed) added

theorem foldlM_root {root : MinHeap.Node Inode} {heap heap' : MinHeap Inode}
    {names rest : List Filename} (heaps : Heaps fs names heap) (is : heap.list.head? = some root)
    (le : ∀ name inode key, fs.file name = some inode →
      victimKey fs.replacementPolicy inode = .ok key → root.key ≤ key)
    (built : rest.foldlM (FileSystem.insertVictim fs) heap = .ok heap') :
    heap'.list.head? = some root := by
  induction rest generalizing names heap with
  | nil =>
      obtain rfl := Except.ok.inj built
      exact is
  | cons name rest ih =>
      rw [List.foldlM_cons] at built
      cases inserted : FileSystem.insertVictim fs heap name with
      | error code =>
          rw [inserted] at built
          cases built
      | ok next =>
          rw [inserted] at built
          exact ih (heaps.insertVictim inserted) (insertVictim_root heaps is (le name) inserted) built

theorem victim_first {first : Filename} {names : List Filename}
    (listed : fs.fileTable.presenceList = first :: names)
    (least : ∀ inode key name other key', fs.file first = some inode →
      victimKey fs.replacementPolicy inode = .ok key → fs.file name = some other →
      victimKey fs.replacementPolicy other = .ok key' → key ≤ key')
    (selected : victim fs = .ok inode) : fs.file first = some inode := by
  unfold victim at selected
  rw [listed] at selected
  split at selected
  · cases selected
  cases built : rtsBuildVictimHeap fs (first :: names) with
  | error code =>
      rw [built] at selected
      cases selected
  | ok heap =>
      rw [built] at selected
      simp only [Bind.bind, Except.bind] at selected
      rw [rtsBuildVictimHeap, List.foldlM_cons] at built
      cases inserted : FileSystem.insertVictim fs MinHeap.init first with
      | error code =>
          rw [inserted] at built
          cases built
      | ok one =>
          rw [inserted] at built
          obtain ⟨oldest, key, present, keyed, added⟩ := insertVictim_eq_ok inserted
          obtain ⟨result, added', perm⟩ :=
            MinHeap.init.insert_perm oldest (MinHeap.insert_small added)
          obtain rfl := Option.some.inj (added.symm.trans added')
          have single : one.list.head? = some ⟨oldest, key⟩ := by
            rw [List.perm_singleton.mp perm]
            rfl
          have empty : Heaps fs [] MinHeap.init := .init fs
          have root := foldlM_root (empty.insertVictim inserted) single
            (fun name other key' stored keyed' => least oldest key name other key' present keyed
              stored keyed') built
          obtain ⟨rest, is⟩ := List.head?_eq_some_iff.mp root
          cases extracted : heap.extractMin with
          | none =>
              rw [extracted] at selected
              cases selected
          | some result =>
              rw [extracted] at selected
              obtain rfl := Except.ok.inj selected
              rw [← (MinHeap.extractMin_cons is extracted).1]
              exact present

/-- Under FIFO the victim is the file that was created first. -/
theorem Births.fifo (births : Births fs clock) (policy : fs.replacementPolicy = .fifo)
    (backed : Backed fs.view) (timely : Timely fs) (selected : victim fs = .ok inode)
    (stored : fs.file name = some inode') : inode.generation ≤ inode'.generation := by
  have member := FileTable.mem_presenceList.mpr ⟨inode', stored⟩
  obtain ⟨first, names, listed⟩ := List.exists_cons_of_ne_nil (List.ne_nil_of_mem member)
  have ordered : (first :: names).Pairwise fun first second =>
      fs.fileTable.generationOf first < fs.fileTable.generationOf second := listed ▸ births.ordered
  have oldest : ∀ inode other inode', fs.file first = some inode → fs.file other = some inode' →
      inode.generation ≤ inode'.generation ∧ inode.btime ≤ inode'.btime := by
    intro inode other inode' present present'
    have member := FileTable.mem_presenceList.mpr ⟨inode', present'⟩
    rw [listed] at member
    rcases List.mem_cons.mp member with rfl | behind
    · obtain rfl := Option.some.inj (present.symm.trans present')
      exact ⟨le_refl _, le_refl _⟩
    · have less := (List.pairwise_cons.mp ordered).1 other behind
      rw [generationOf present, generationOf present'] at less
      exact ⟨less.le, births.later first inode other inode' present present' less⟩
  have taken := victim_first listed ?_ selected
  · exact (oldest inode name inode' taken stored).1
  · intro inode key other inode' key' present keyed present' keyed'
    rw [victimKey_eq_ok backed timely present keyed, victimKey_eq_ok backed timely present' keyed',
      policy]
    exact (oldest inode other inode' present present').2

def OneYoungest (fs : FileSystem codec) : Prop :=
  ∀ name ∈ fs.fileTable.presenceList, ∀ inode ∈ fs.file name,
    ∀ other ∈ fs.fileTable.presenceList, ∀ inode' ∈ fs.file other, inode'.btime = inode.btime →
      other = name ∨ ∃ last ∈ fs.fileTable.presenceList, ∃ youngest ∈ fs.file last,
        inode.btime < youngest.btime

instance (fs : FileSystem codec) : Decidable (OneYoungest fs) :=
  inferInstanceAs (Decidable (∀ name ∈ fs.fileTable.presenceList, _))

/-- Under LIFO the victim is the file that was created last, if it is the only one of its
    second. -/
theorem Births.lifo (births : Births fs clock) (policy : fs.replacementPolicy = .lifo)
    (backed : Backed fs.view) (timely : Timely fs) (single : OneYoungest fs)
    (selected : victim fs = .ok inode) (stored : fs.file name = some inode') :
    inode'.generation ≤ inode.generation := by
  have present := victim_stored selected
  have greatest : ∀ other inode', fs.file other = some inode' → inode'.btime ≤ inode.btime := by
    intro other inode' present'
    have least := victim_least backed timely selected present'
    rw [policy] at least
    exact neg_le_neg_iff.mp least
  by_contra younger
  have younger : inode.generation < inode'.generation := not_le.mp younger
  have same : inode'.btime = inode.btime := le_antisymm (greatest name inode' stored)
    (births.later inode.name inode name inode' present stored younger)
  rcases single inode.name (FileTable.mem_presenceList.mpr ⟨inode, present⟩) inode present name
    (FileTable.mem_presenceList.mpr ⟨inode', stored⟩) inode' stored same with this | later
  · rw [this, present] at stored
    obtain rfl := Option.some.inj stored
    exact lt_irrefl _ younger
  · obtain ⟨last, -, youngest, present', after⟩ := later
    exact absurd (greatest last youngest present') (not_le.mpr after)

end FileSystem

end FileStorage
