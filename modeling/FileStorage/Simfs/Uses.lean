import FileStorage.Simfs.FailedCalls
import FileStorage.Simfs.Times
import FileStorage.Simfs.Victims

/-! # Uses of the files

Which file a step uses, and what it leaves of every file as far as the policies look at
it. A step that uses a file and returns puts its second into the time of the last change,
and an open adds a reference. `Misdates` lists the files whose last change is not their
last use after a step, `GivesBack` those that have fewer references than they were opened.
-/

namespace FileStorage

open Program FileSystem

variable {codec : Codec}

namespace FileSystem

/-- The name of the file that a descriptor of the pid leads to. -/
def nameAt (fs : FileSystem codec) (fd : Int) (pid : Pid) : Option Filename :=
  (fs.slot (toUnsigned32 fd)).bind fun entry =>
    if entry.owner = pid then some entry.inode.name else none

theorem nameAt_eq {fs : FileSystem codec} {fd : Int} {pid : Pid} {copy : Inode}
    (live : fs.slot (toUnsigned32 fd) = some { owner := pid, inode := copy }) :
    fs.nameAt fd pid = some copy.name := by
  rw [nameAt, live, Option.bind_some, if_pos rfl]

def Foremost (fs : FileSystem codec) (inode : Inode) : Prop :=
  ∀ name ∈ fs.fileTable.presenceList, ∀ other ∈ fs.file name,
    policyKey fs.replacementPolicy inode ≤ policyKey fs.replacementPolicy other

def Hollow (fs : FileSystem codec) (inode : Inode) : Prop :=
  ∃ old ∈ Memory.at? fs.memory inode.directPtr, codec.decode old = []

/-- The size of the table looks like an error once the copy is flushed. -/
def Overflows (fs : FileSystem codec) (copy : Inode) : Prop :=
  ∃ content ∈ Memory.appended fs.memory copy.directPtr copy.buffer,
    ∃ new ∈ codec.encode content, toInt32 (toUnsigned64
      (fs.fileTable.size + toInt32 (codec.size new - toInt32 copy.size))) = -1

/-- The file is read again, but the flush of the copy fails. -/
def RereadInVain (fs : FileSystem codec) (inode copy : Inode) (now : Int) : Prop :=
  ∃ old ∈ Memory.at? fs.memory inode.directPtr, codec.decode old ≠ [] ∧
    ∃ new ∈ codec.encode (codec.decode old), FlushFails (fs.reread inode new now) copy

instance (fs : FileSystem codec) (name : Filename) (pid : Pid) : Decidable (Stalls fs name pid) :=
  inferInstanceAs (Decidable (∃ inode ∈ fs.file name, _))

instance (fs : FileSystem codec) : Decidable (Oversized fs) :=
  inferInstanceAs (Decidable (toInt32 fs.fileTable.size = -1))

instance (fs : FileSystem codec) (copy : Inode) : Decidable (TooMuch fs copy) :=
  inferInstanceAs (Decidable (_ ∨ ∃ old ∈ Memory.at? fs.memory copy.directPtr, _))

instance (fs : FileSystem codec) (copy : Inode) : Decidable (Overflows fs copy) :=
  inferInstanceAs (Decidable (∃ content ∈ Memory.appended fs.memory copy.directPtr copy.buffer, _))

theorem unfit_iff {fs : FileSystem codec} {copy : Inode} :
    Unfit fs copy ↔ fs.file copy.name = none ∨ TooMuch fs copy ∨ Overflows fs copy := by
  refine or_congr_right (or_congr_right ⟨?_, ?_⟩)
  · rintro ⟨content, new, appended, encodes, wraps⟩
    exact ⟨content, appended, new, encodes, wraps⟩
  · rintro ⟨content, appended, new, encodes, wraps⟩
    exact ⟨content, new, appended, encodes, wraps⟩

instance (fs : FileSystem codec) (copy : Inode) : Decidable (Unfit fs copy) :=
  decidable_of_iff _ unfit_iff.symm

instance (fs : FileSystem codec) (copy : Inode) : Decidable (FlushFails fs copy) :=
  inferInstanceAs (Decidable (_ ∧ _ ∨ _ ∧ _))

instance (fs : FileSystem codec) (inode : Inode) : Decidable (Foremost fs inode) :=
  inferInstanceAs (Decidable (∀ name ∈ fs.fileTable.presenceList, _))

instance (fs : FileSystem codec) (inode : Inode) : Decidable (Hollow fs inode) :=
  inferInstanceAs (Decidable (∃ old ∈ Memory.at? fs.memory inode.directPtr, _))

instance (fs : FileSystem codec) (inode copy : Inode) (now : Int) :
    Decidable (RereadInVain fs inode copy now) :=
  inferInstanceAs (Decidable (∃ old ∈ Memory.at? fs.memory inode.directPtr, _))

end FileSystem

/-- The references that a step has added to the file it uses when it returns. -/
def Reply.counted : Reply → Nat
  | .descriptor _ => 1
  | _ => 0

namespace Event

/-- The name of the file that a step has used when it returns. A thread that waits for
    a lock has used the file, but not one that wakes up and goes on waiting. -/
def uses (fs : FileSystem codec) (reply : Reply) : Event → Option Filename
  | .open name _ _ _ => some name
  | .write fd _ pid _ | .read fd pid _ | .close fd pid _ | .lock fd pid _ | .unlock fd pid _ =>
      fs.nameAt fd pid
  | .wake waiter _ => if reply = .waiting then none else some waiter.name
  | .remove .. | .removeSession .. => none

def GivesBack (fs : FileSystem codec) (name : Filename) (inode : Inode) : Event → Prop
  | .close fd pid _ => fs.nameAt fd pid = some name ∧ inode.referenceCount ≠ 0 ∧
      pid ∈ inode.referenceList
  | .removeSession pid _ => fs.fileDescriptorTable.1.pidInodeSize name pid ≠ 0 ∧
      inode.referenceCount ≠ 0 ∧ pid ∈ inode.referenceList
  | _ => False

/-- The step uses the file but does not change it, or it changes the file and then fails,
    or it is the end of a session that has descriptors or the lock of the file. -/
def Misdates (fs : FileSystem codec) (name : Filename) (inode : Inode) : Event → Prop
  | .open opened flags pid _ => opened = name ∧ flags.testBit 0 = false ∧
      flags.testBit 1 = true ∧ fs.fileDescriptorTable.1.size ≠ maxOpenFiles ∧ Stalls fs name pid
  | .lock fd pid _ => fs.nameAt fd pid = some name ∧
      (Stalls fs name pid ∨ 0 < inode.isFileLocked ∧ inode.locked = pid)
  | .read fd pid now => ∃ entry ∈ fs.slot (toUnsigned32 fd), entry.owner = pid ∧
      entry.inode.name = name ∧ ¬ ShutOut entry.inode pid ∧
      (Hollow fs inode ∨ RereadInVain fs inode entry.inode now)
  | .write fd buf pid now => (∃ gs ∈ fs.evictions buf now, ∃ inode ∈ gs.file name,
        Foremost gs inode ∧ Hollow gs inode) ∨
      ∃ gs ∈ fs.roomFor buf now, ∃ bytes ∈ buf, ∃ entry ∈ gs.slot (toUnsigned32 fd),
        entry.owner = pid ∧ entry.inode.name = name ∧ ¬ ShutOut entry.inode pid ∧
        Overflows gs (entry.inode.appended bytes now)
  | .removeSession pid _ => fs.fileDescriptorTable.1.pidInodeSize name pid ≠ 0 ∧
        inode.referenceCount ≠ 0 ∧ pid ∈ inode.referenceList ∨
      inode.locked = pid ∧ inode.locked ≠ 0
  | .wake waiter _ => waiter.name = name ∧ mustWait inode waiter.pid = false ∧
      (inode.locked = 0 ∧ inode.pendingLocks = 0 ∨
        (inode.locked = 0 ∨ inode.locked = waiter.pid) ∧ inode.pendingLocks ≠ 0 ∧
          waiter.call = .open ∧ fs.fileDescriptorTable.1.size = maxOpenFiles)
  | .close .. | .unlock .. | .remove .. => False

instance (fs : FileSystem codec) (name : Filename) (inode : Inode) :
    (event : Event) → Decidable (event.GivesBack fs name inode)
  | .close .. | .removeSession .. => inferInstanceAs (Decidable (_ ∧ _ ∧ _))
  | .open .. | .write .. | .read .. | .remove .. | .lock .. | .unlock .. | .wake .. =>
      inferInstanceAs (Decidable False)

instance (fs : FileSystem codec) (name : Filename) (inode : Inode) :
    (event : Event) → Decidable (event.Misdates fs name inode)
  | .open .. => inferInstanceAs (Decidable (_ ∧ _ ∧ _ ∧ _ ∧ _))
  | .lock .. => inferInstanceAs (Decidable (_ ∧ (_ ∨ _ ∧ _)))
  | .read fd _ _ => inferInstanceAs (Decidable (∃ entry ∈ fs.slot (toUnsigned32 fd), _))
  | .write _ buf _ now => inferInstanceAs (Decidable ((∃ gs ∈ fs.evictions buf now, _) ∨
      ∃ gs ∈ fs.roomFor buf now, _))
  | .removeSession .. => inferInstanceAs (Decidable (_ ∧ _ ∧ _ ∨ _ ∧ _))
  | .wake .. => inferInstanceAs (Decidable (_ ∧ _ ∧ (_ ∧ _ ∨ _ ∧ _ ∧ _ ∧ _)))
  | .close .. | .unlock .. | .remove .. => inferInstanceAs (Decidable False)

structure Follows (event : Event) (fs : FileSystem codec) (name : Filename) (used : Prop)
    (counted : Nat) (now : Int) (inode changed : Inode) : Prop where
  generation : changed.generation = inode.generation
  btime : changed.btime = inode.btime
  stamp : changed.ctime = inode.ctime ∨ changed.ctime = now
  ctime : event.Misdates fs name inode ∧ inode.ctime ≠ now ∨
    (used → changed.ctime = now) ∧ (¬ used → changed.ctime = inode.ctime)
  references : event.GivesBack fs name inode ∨
    changed.referenceCount = inode.referenceCount + counted

/-- What the step leaves of all files, of which it has used at most one. -/
def Leaves (event : Event) (fs : FileSystem codec) (used : Option Filename) (counted : Nat)
    (now : Int) (fs' : FileSystem codec) : Prop :=
  ∀ name changed, fs'.file name = some changed → ∃ inode, fs.file name = some inode ∧
    event.Follows fs name (used = some name) (if used = some name then counted else 0) now
      inode changed

variable {event : Event} {fs fs' gs : FileSystem codec} {name : Filename} {used : Option Filename}
  {counted : Nat} {now : Int} {inode changed : Inode}

/-! ## One file -/

theorem Follows.unused {p : Prop} (notUsed : ¬ p) (inode : Inode) :
    event.Follows fs name p 0 now inode inode where
  generation := rfl
  btime := rfl
  stamp := .inl rfl
  ctime := .inr ⟨fun used => absurd used notUsed, fun _ => rfl⟩
  references := .inr rfl

theorem Follows.then_used {p q : Prop} {middle : Inode}
    (follows : event.Follows fs name p 0 now inode middle)
    (uses : Used now counted middle changed) (is : q) :
    event.Follows fs name q counted now inode changed where
  generation := uses.generation.trans follows.generation
  btime := uses.btime.trans follows.btime
  stamp := .inr uses.ctime
  ctime := .inr ⟨fun _ => uses.ctime, fun not => absurd is not⟩
  references := follows.references.imp_right fun same => by
    rw [uses.references, same, Nat.add_zero]

theorem Follows.then_misdated {p : Prop} {middle : Inode}
    (follows : event.Follows fs name p 0 now inode middle)
    (misdates : event.Misdates fs name inode) (uses : Used now 0 middle changed) (notUsed : ¬ p) :
    event.Follows fs name p 0 now inode changed where
  generation := uses.generation.trans follows.generation
  btime := uses.btime.trans follows.btime
  stamp := .inr uses.ctime
  ctime := by
    by_cases late : inode.ctime = now
    · exact .inr ⟨fun used => absurd used notUsed, fun _ => uses.ctime.trans late.symm⟩
    · exact .inl ⟨misdates, late⟩
  references := follows.references.imp_right fun same => uses.references.trans same

namespace Leaves

theorem refl (fs : FileSystem codec) : event.Leaves fs none 0 now fs :=
  fun _ changed present => ⟨changed, present, .unused nofun changed⟩

theorem of_same (same : ∀ name, fs'.file name = fs.file name)
    (absent : ∀ name, used = some name → fs.file name = none) :
    event.Leaves fs used counted now fs' := by
  intro name changed present
  rw [same] at present
  have notUsed : ¬ used = some name := by
    intro is
    cases (absent name is).symm.trans present
  rw [if_neg notUsed]
  exact ⟨changed, present, .unused notUsed changed⟩

/-- Files have gone or stay as they are. -/
theorem fewer {fs₁ : FileSystem codec} (leaves : event.Leaves fs used counted now fs₁)
    (files : ∀ name changed, fs'.file name = some changed → fs₁.file name = some changed) :
    event.Leaves fs used counted now fs' :=
  fun name changed present => leaves name changed (files name changed present)

theorem of_puts {before : Inode} (leaves : event.Leaves fs none 0 now gs)
    (present : gs.file name = some before) (puts : Puts gs name changed fs')
    (only : ∀ other, used = some other → other = name)
    (follows : ∀ inode, fs.file name = some inode →
      event.Follows fs name (none = some name) 0 now inode before →
      event.Follows fs name (used = some name) (if used = some name then counted else 0) now
        inode changed) : event.Leaves fs used counted now fs' := by
  intro other after present'
  rw [puts] at present'
  split at present'
  · rename_i this
    subst this
    cases present'
    obtain ⟨inode, found, stays⟩ := leaves other before present
    exact ⟨inode, found, follows inode found (by simpa using stays)⟩
  · rename_i different
    have notUsed : ¬ used = some other := fun is => different (only other is)
    rw [if_neg notUsed]
    obtain ⟨inode, found, stays⟩ := leaves other after present'
    refine ⟨inode, found, stays.generation, stays.btime, stays.stamp, ?_, by simpa using stays.references⟩
    refine stays.ctime.imp_right fun kept => ⟨fun is => absurd is notUsed, fun _ => kept.2 nofun⟩

theorem then_used {before : Inode} (leaves : event.Leaves fs none 0 now gs)
    (present : gs.file name = some before) (puts : Puts gs name changed fs')
    (uses : Used now counted before changed) : event.Leaves fs (some name) counted now fs' := by
  refine leaves.of_puts present puts (fun other is => (Option.some.inj is).symm) ?_
  intro inode _ follows
  rw [if_pos rfl]
  exact follows.then_used uses rfl

theorem then_misdated {before : Inode} (leaves : event.Leaves fs none 0 now gs)
    (present : gs.file name = some before) (puts : Puts gs name changed fs')
    (uses : Used now 0 before changed)
    (misdates : ∀ inode, fs.file name = some inode → event.Misdates fs name inode) :
    event.Leaves fs none 0 now fs' := by
  refine leaves.of_puts present puts nofun ?_
  intro inode found follows
  rw [if_neg nofun]
  exact follows.then_misdated (misdates inode found) uses nofun

end Leaves

end Event

/-! ## Reads, flushes and removals -/

namespace FileSystem

variable {fs fs' : FileSystem codec} {name : Filename} {inode copy : Inode} {fd : Nat} {now : Int}

theorem Reads.puts (reads : Reads fs inode now true fs') (present : fs.file name = some inode) :
    ∃ changed, Puts fs name changed fs' ∧ Used now 0 inode changed := by
  obtain rfl : inode.name = name := fs.fileTable.named name inode present
  cases reads with
  | reread => exact ⟨_, puts_updateFile present _, rfl, rfl, rfl, rfl⟩

/-- A read that fails has not touched the file, or found nothing in it. -/
theorem Reads.puts_of_failed (reads : Reads fs inode now false fs')
    (present : fs.file name = some inode) : (∀ other, fs'.file other = fs.file other) ∨
      Hollow fs inode ∧ ∃ changed, Puts fs name changed fs' ∧ Used now 0 inode changed := by
  obtain rfl : inode.name = name := fs.fileTable.named name inode present
  cases reads with
  | null =>
      refine .inl fun other => ?_
      rw [file_putFile, present, Option.map_some]
      split
      · rename_i this
        rw [this, present]
      · rfl
  | @spoiled old found nothing =>
      exact .inr ⟨⟨old, found, nothing⟩, _, puts_updateFile present _, rfl, rfl, rfl, rfl⟩

theorem Flushes.puts (flushes : Flushes fs fd copy now fs')
    (present : fs.file copy.name = some inode) :
    ∃ changed, Puts fs copy.name changed fs' ∧ Used now 0 inode changed := by
  cases flushes with
  | empty =>
      refine ⟨{ inode with
        name := copy.name, atime := copy.atime, mtime := copy.mtime, ctime := now },
        fun other => (file_recorded fs copy 0 now other).trans ?_, ?_⟩
      · rw [present, Option.map_some]
      · exact ⟨rfl, rfl, rfl, rfl⟩
  | @full content new =>
      obtain ⟨added, files⟩ := file_flushed fs fd copy new now
      refine ⟨{ inode with
        name := copy.name, directPtr := .artifact fs.memory.length
        size := toUnsigned32 (inode.size + added)
        atime := copy.atime, mtime := now, ctime := now }, fun other => (files other).trans ?_, ?_⟩
      · rw [present, Option.map_some]
      · exact ⟨rfl, rfl, rfl, rfl⟩

theorem Tears.file (tears : Tears fs fd copy fs') (name : Filename) : fs'.file name = fs.file name := by
  cases tears <;> rfl

theorem Flushes.overflows (buffered : copy.buffer ≠ []) (flushes : Flushes fs fd copy now fs')
    (oversized : Oversized fs') : Overflows fs copy := by
  cases flushes with
  | empty none_ => exact absurd none_ buffered
  | @full content new _ appended _ encodes =>
      rw [Oversized, (counts_flushed fs fd copy new now).2.2.1] at oversized
      exact ⟨content, appended, new, encodes, oversized⟩

/-! ## Evictions -/

/-- What evictions have left of the files: the others are as before. -/
structure Remnant (fs gs : FileSystem codec) : Prop where
  files : ∀ name inode, gs.file name = some inode → fs.file name = some inode
  listed : gs.fileTable.presenceList.Sublist fs.fileTable.presenceList
  created : gs.created = fs.created
  policy : gs.replacementPolicy = fs.replacementPolicy

theorem Remnant.timely {gs : FileSystem codec} (remnant : Remnant fs gs) (timely : Timely fs) :
    Timely gs := fun name inode present => timely name inode (remnant.files name inode present)

theorem remnant_of_evictions {buf : Option (List UInt8)} {gs : FileSystem codec}
    (backed : Backed fs.view) (begins : gs ∈ fs.evictions buf now) :
    Remnant fs gs ∧ Backed gs.view := by
  unfold evictions at begins
  split at begins
  · cases begins
  rename_i artifact encodes
  split at begins
  · cases begins
  refine WriteState.holds_of_evictions (I := fun gs => Remnant fs gs ∧ Backed gs.view)
    (G := fun _ => True) ?_ _ _ (fun _ _ => trivial) ⟨⟨fun _ _ h => h, .refl _, rfl, rfl⟩, backed⟩ gs begins
  rintro s ⟨remnant, backed⟩ -
  refine (((rtsEvict_exact s now).and (rtsEvict_reports s now)).and (rtsEvict_performs s now)).mono
    ?_ (fun _ _ _ => trivial) (fun _ _ => trivial)
  rintro - s' ⟨⟨⟨inode, new, ⟨old, taken, -⟩, -, after, -⟩, victim, expelled⟩, name, new', performs⟩
  refine ⟨⟨fun other inode' present => ?_, ?_, ?_, ?_⟩, backed.performs performs (by simp [Action.Forgets])⟩
  · rw [after, file_evicted (file_of_chosen taken)] at present
    split at present
    · cases present
    · exact remnant.files other inode' present
  · rw [expelled.listed]
    exact List.erase_sublist.trans remnant.listed
  · rw [after]
    exact remnant.created
  · rw [after]
    exact remnant.policy

end FileSystem

/-! ## The calls -/

namespace Event

variable {fs fs' : FileSystem codec} {name : Filename} {fd : Int} {pid : Pid} {now : Int}

def Creates (fs : FileSystem codec) (name : Filename) (counted : Nat) (now : Int)
    (fs' : FileSystem codec) : Prop :=
  fs'.created = fs.created + 1 ∧ ∃ changed, Puts fs name changed fs' ∧
    Used now counted (.init name fs.created now) changed

theorem fileSystemOpen_leaves (regular : Regular fs) (name : Filename) (flags : Nat) (pid : Pid)
    (now : Int) :
    (fileSystemOpen name flags pid now fs).Post
      (fun progress fs' =>
        (Event.open name flags pid now).Leaves fs (some name) progress.counted now fs' ∨
          Creates fs name progress.counted now fs')
      (fun _ fs' => (Event.open name flags pid now).Leaves fs none 0 now fs') (fun _ => True) := by
  have nothing : (Event.open name flags pid now).Leaves fs none 0 now fs := .refl fs
  rw [fileSystemOpen_eq]
  simp only [openInode, post_bind, post_failIf, post_get]
  refine ⟨fun _ => nothing, fun _ => ⟨fun _ => nothing, fun room => ?_⟩⟩
  rw [post_ite]
  refine ⟨fun create => ?_, fun existing => ?_⟩
  · rw [post_bind, post_failIf]
    refine ⟨fun _ => nothing, fun _ => ?_⟩
    refine (rtsCreateInode_exact fs name now).mono ?_ ?_ (fun _ h => h.elim)
    · rintro - fs₁ ⟨table, created, -, rfl⟩
      have puts : Puts fs name (.init name fs.created now) (fs.withFile table) :=
        FileTable.create_spec created
      have present := (puts name).trans (if_pos rfl)
      have quiet : Keeps (Quiet (fs.withFile table)) (openExisting name flags pid now : Call codec _) :=
        (Quiet.withstands _ now).openExisting name flags pid
      refine ((openExisting_fails present room flags pid now).and (quiet _ (.refl _))).mono ?_ ?_
        (fun _ _ => trivial)
      · rintro progress fs₂ ⟨⟨-, changed, opened, used⟩, same⟩
        exact .inr ⟨same.created, changed, puts.trans opened, used⟩
      · rintro - fs₂ ⟨⟨-, busy, -⟩ | ⟨⟨-, other, found, -, negative, -⟩, -⟩, -⟩
        · exact busy.elim (fun held => absurd rfl held) (fun pending => absurd rfl pending)
        · cases present.symm.trans found
          exact absurd negative (show ¬ asInt 0 < -1 by decide)
    · rintro - fs₁ (rfl | wrong)
      · exact nothing
      · have listed := regular.listed
        omega
  · rw [post_failIf]
    refine ⟨fun _ => nothing, fun stored => ?_⟩
    obtain ⟨inode, present⟩ := Option.ne_none_iff_exists'.mp stored
    refine (openExisting_fails present room flags pid now).mono ?_ ?_ (fun _ h => h.elim)
    · rintro progress fs₁ ⟨-, changed, puts, used⟩
      exact .inl (nothing.then_used present puts used)
    · rintro - fs₁ (⟨-, -, rfl⟩ | ⟨⟨lock, stalled⟩, changed, puts, used, -⟩)
      · exact nothing
      · have existing : flags.testBit 0 = false := Bool.eq_false_iff.mpr existing
        exact nothing.then_misdated present puts used fun _ _ => ⟨rfl, existing, lock, room, stalled⟩

theorem fileSystemLock_leaves (fs : FileSystem codec) (fd : Int) (pid : Pid) (now : Int) :
    (fileSystemLock fd pid now fs).Post
      (fun _ fs' => (Event.lock fd pid now).Leaves fs (fs.nameAt fd pid) 0 now fs')
      (fun _ fs' => (Event.lock fd pid now).Leaves fs none 0 now fs') (fun _ => True) := by
  have nothing : (Event.lock fd pid now).Leaves fs none 0 now fs := .refl fs
  simp only [fileSystemLock, post_bind]
  refine post_rtsGetInodeByFd (fun copy live => ?_) (fun _ => nothing)
  have named := nameAt_eq live
  rw [named]
  refine post_rtsGetInode (fun inode _ present => ?_) (fun _ => nothing)
  rw [post_failIf]
  refine ⟨fun _ => nothing, fun readable => ?_⟩
  rw [post_ite]
  refine ⟨fun locked => ?_, fun unlocked => ?_⟩
  · simp only [post_bind, post_failIf, post_pure]
    refine ⟨fun _ => nothing, fun own => ?_⟩
    rw [not_not, Inode.isFileLocked, asInt_inj] at own
    -- a lock that the pid has is not taken again, so nothing is dated
    intro other changed found
    refine ⟨changed, found, ?_⟩
    by_cases this : copy.name = other
    · subst this
      cases present.symm.trans found
      by_cases late : inode.ctime = now
      · exact ⟨rfl, rfl, .inl rfl, .inr ⟨fun _ => late, fun _ => rfl⟩, .inr (by simp)⟩
      · exact ⟨rfl, rfl, .inl rfl, .inl ⟨⟨named, .inr ⟨locked, own⟩⟩, late⟩, .inr (by simp)⟩
    · have notUsed : ¬ some copy.name = some other := fun is => this (Option.some.inj is)
      rw [if_neg notUsed]
      exact .unused notUsed changed
  · refine (rtsLockInode_fails present readable (not_lt.mp unlocked) pid .lock now).mono ?_ ?_
      (fun _ h => h.elim)
    · rintro progress fs₁ ⟨-, ⟨changed, puts, used⟩, -⟩
      exact nothing.then_used present puts used
    · rintro - fs₁ (⟨-, -, rfl⟩ | ⟨stalled, changed, puts, used, -⟩)
      · exact nothing
      · exact nothing.then_misdated present puts used fun _ _ => ⟨named, .inl stalled⟩

theorem fileSystemUnlock_leaves (fs : FileSystem codec) (fd : Int) (pid : Pid) (now : Int) :
    (fileSystemUnlock fd pid now fs).Post
      (fun _ fs' => (Event.unlock fd pid now).Leaves fs (fs.nameAt fd pid) 0 now fs')
      (fun _ fs' => (Event.unlock fd pid now).Leaves fs none 0 now fs') (fun _ => True) := by
  have nothing : (Event.unlock fd pid now).Leaves fs none 0 now fs := .refl fs
  simp only [fileSystemUnlock, post_bind]
  refine post_rtsGetInodeByFd (fun copy live => ?_) (fun _ => nothing)
  rw [nameAt_eq live]
  refine post_rtsGetInode (fun inode _ present => ?_) (fun _ => nothing)
  simp only [post_failIf]
  refine ⟨fun _ => nothing, fun _ => ⟨fun _ => nothing, fun held => ⟨fun _ => nothing, fun own => ?_⟩⟩⟩
  refine post_changeFile present (fun changed unlock => ?_) (fun _ _ => nothing)
  have held : inode.locked ≠ 0 := fun zero => held (by rw [Inode.isFileLocked, zero, asInt_zero])
  rw [not_not, Inode.isFileLocked, asInt_inj] at own
  rw [Inode.fileUnlock, if_neg held, if_neg (not_not.mpr own)] at unlock
  obtain rfl := Except.ok.inj unlock
  exact nothing.then_used present (puts_updateFile present _) ⟨rfl, rfl, rfl, rfl⟩

theorem fileSystemClose_leaves (fs : FileSystem codec) (fd : Int) (pid : Pid) (now : Int) :
    (fileSystemClose fd pid now fs).Post
      (fun _ fs' => (Event.close fd pid now).Leaves fs (fs.nameAt fd pid) 0 now fs')
      (fun _ fs' => (Event.close fd pid now).Leaves fs none 0 now fs') (fun _ => True) := by
  have nothing : ∀ {fs' : FileSystem codec}, (∀ name, fs'.file name = fs.file name) →
      (Event.close fd pid now).Leaves fs none 0 now fs' := fun same => .of_same same nofun
  simp only [fileSystemClose, post_bind]
  refine post_rtsGetInodeByFd (fun copy live => ?_) (fun _ => nothing fun _ => rfl)
  have named := nameAt_eq live
  rw [named, post_get]
  refine post_ofExcept (fun table removed => ?_) (fun _ _ => nothing fun _ => rfl)
  simp only [post_modify, post_failIf, post_get]
  refine ⟨fun _ => nothing fun _ => rfl, fun _ => ?_⟩
  rw [post_ite]
  refine ⟨fun stored => ?_, fun absent => ?_⟩
  · obtain ⟨inode, present⟩ := Option.ne_none_iff_exists'.mp stored
    refine post_changeFile present (fun changed decrease => ?_) (fun _ _ => nothing fun _ => rfl)
    have before : fs.file copy.name = some inode := present
    unfold Inode.decreaseRefs at decrease
    split at decrease
    · cases decrease
    · rename_i counted
      split at decrease
      · cases decrease
      · rename_i member
        obtain rfl := Except.ok.inj decrease
        refine (Leaves.refl fs).of_puts before (puts_updateFile present _)
          (fun other is => (Option.some.inj is).symm) ?_
        rintro other found -
        cases before.symm.trans found
        exact ⟨rfl, rfl, .inr rfl, .inr ⟨fun _ => rfl, fun other => absurd rfl other⟩,
          .inl ⟨named, counted, not_not.mp member⟩⟩
  · refine .of_same (fun _ => rfl) ?_
    rintro other ⟨⟩
    exact not_not.mp absent

/-- The references that a thread adds when it goes on. -/
def wakeCounted : Progress (Option Nat) → Nat
  | .done (some _) => 1
  | _ => 0

theorem wakeUp_leaves (fs : FileSystem codec) (waiter : Waiter) (now : Int) :
    (wakeUp waiter now fs).Post
      (fun progress fs' => (Event.wake waiter now).Leaves fs
        (if progress = .waiting then none else some waiter.name) (wakeCounted progress) now fs')
      (fun _ fs' => (Event.wake waiter now).Leaves fs none 0 now fs') (fun _ => True) := by
  have nothing : (Event.wake waiter now).Leaves fs none 0 now fs := .refl fs
  rw [wakeUp, post_bind, post_get]
  cases present : fs.file waiter.name with
  | none => trivial
  | some inode =>
      dsimp only
      rw [post_ite]
      refine ⟨fun _ => trivial, fun _ => ?_⟩
      rw [post_ite]
      refine ⟨fun _ => nothing, fun goes => ?_⟩
      have goes : mustWait inode waiter.pid = false := Bool.eq_false_iff.mpr goes
      have misdates : (inode.locked = 0 ∧ inode.pendingLocks = 0 ∨
          (inode.locked = 0 ∨ inode.locked = waiter.pid) ∧ inode.pendingLocks ≠ 0 ∧
            waiter.call = .open ∧ fs.fileDescriptorTable.1.size = maxOpenFiles) →
          ∀ other, fs.file waiter.name = some other →
            (Event.wake waiter now).Misdates fs waiter.name other := by
        intro why other found
        cases present.symm.trans found
        exact ⟨rfl, goes, why⟩
      rw [post_bind, post_modify, post_bind]
      have awake : FileSystem.file { fs with blocked := fs.blocked.erase waiter } waiter.name =
          some inode := present
      refine (grantLock_fails awake waiter.pid now).mono ?_ ?_ (fun _ h => h.elim)
      · rintro - fs₁ ⟨free, pending, table, -, -, files⟩
        have puts : Puts fs waiter.name _ fs₁ := files
        have used : Used now 0 inode { inode with
          locked := waiter.pid, pendingLocks := inode.pendingLocks - 1, ctime := now } :=
          ⟨rfl, rfl, rfl, rfl⟩
        cases call : waiter.call with
        | lock => exact nothing.then_used present puts used
        | «open» =>
            have found := (puts waiter.name).trans (if_pos rfl)
            dsimp only
            rw [post_bind]
            refine (openDescriptor_fails found waiter.pid now).mono ?_ ?_ (fun _ h => h.elim)
            · rintro fd fs₂ ⟨-, changed, opened, more⟩
              have total := used.trans more
              rw [Nat.zero_add] at total
              exact nothing.then_used present (puts.trans opened) total
            · rintro - fs₂ ⟨full, rfl⟩
              rw [table] at full
              exact nothing.then_misdated present puts used
                (misdates (.inr ⟨free, pending, call, full⟩))
      · rintro - fs₁ (⟨-, -, rfl⟩ | ⟨free, none_, granted, rfl, lock⟩)
        · exact nothing
        · unfold Inode.fileLock at lock
          split at lock
          · cases lock
            refine .of_same (fun name => ?_) (by simp)
            rw [file_updateFile, awake, Option.map_some]
            split
            · rename_i this
              rw [this, present, ← fs.fileTable.named waiter.name inode present]
            · rfl
          · rename_i other
            have free := free.resolve_right other
            rw [if_neg (not_not.mpr free)] at lock
            have used : Used now 0 inode { granted with name := waiter.name } := by
              rw [← Except.ok.inj lock]
              exact ⟨rfl, rfl, rfl, rfl⟩
            exact nothing.then_misdated present (puts_updateFile awake granted) used
              (misdates (.inl ⟨free, none_⟩))

theorem fileSystemRead_leaves {owner : Nat → Filename} (owned : Owned owner fs.view) (fd : Int)
    (pid : Pid) (now : Int) :
    (fileSystemRead fd pid now fs).Post
      (fun _ fs' => (Event.read fd pid now).Leaves fs (fs.nameAt fd pid) 0 now fs')
      (fun _ fs' => (Event.read fd pid now).Leaves fs none 0 now fs') (fun _ => True) := by
  have nothing : (Event.read fd pid now).Leaves fs none 0 now fs := .refl fs
  have empty : ∀ copy, fs.slot (toUnsigned32 fd) = some ⟨pid, copy⟩ →
      copy.directPtr = .null → copy.size = 0 :=
    fun copy live => (owned.slots _ _ (view_slot live)).2
  refine (fileSystemRead_reads fs fd pid now).mono ?_ ?_ (fun _ _ => trivial)
  · rintro - fs' ⟨copy, inode, fs₁, live, -, present, reads, flushes, -⟩
    rw [nameAt_eq live]
    obtain ⟨first, puts, used⟩ := reads.puts present
    obtain ⟨changed, puts', used'⟩ := flushes.puts ((puts copy.name).trans (if_pos rfl))
    exact nothing.then_used present (puts.trans puts') (used.trans used')
  · rintro - fs' (⟨-, rfl⟩ | ⟨copy, inode, live, allowed, present, reads | ⟨fs₁, reads, fails⟩⟩)
    · exact nothing
    · rcases reads.puts_of_failed present with same | ⟨hollow, changed, puts, used⟩
      · exact .of_same same nofun
      · refine nothing.then_misdated present puts used fun other found => ?_
        cases present.symm.trans found
        exact ⟨_, live, rfl, rfl, allowed, .inl hollow⟩
    · obtain ⟨first, puts, used⟩ := reads.puts present
      have misdates : FlushFails fs₁ copy → ∀ other, fs.file copy.name = some other →
          (Event.read fd pid now).Misdates fs copy.name other := by
        intro vain other found
        cases present.symm.trans found
        refine ⟨_, live, rfl, rfl, allowed, .inr ?_⟩
        cases reads with
        | @reread old new stored some_ encodes => exact ⟨old, stored, some_, new, encodes, vain⟩
      rcases fails with ⟨flushes, oversized⟩ | ⟨buffered, tears⟩
      · obtain ⟨changed, puts', used'⟩ := flushes.puts ((puts copy.name).trans (if_pos rfl))
        refine nothing.then_misdated present (puts.trans puts') (used.trans used') (misdates ?_)
        exact (Flushes.fails_iff (reads.stored present) (empty copy live) flushes).mpr oversized
      · refine (nothing.then_misdated present puts used (misdates (tears.fails buffered))).fewer ?_
        intro name changed found
        rwa [tears.file name] at found

theorem fileSystemRemove_leaves (fs : FileSystem codec) (name : Filename) (pid : Pid) (now : Int) :
    (fileSystemRemove name pid fs).Post
      (fun _ fs' => (Event.remove name pid).Leaves fs none 0 now fs')
      (fun _ fs' => (Event.remove name pid).Leaves fs none 0 now fs') (fun _ => True) := by
  have removed : ∀ {inode done fs'}, fs.file name = some inode → Removes fs inode done fs' →
      (Event.remove name pid).Leaves fs none 0 now fs' := by
    intro inode done fs' present removes
    rw [← fs.fileTable.named name inode present] at present
    refine (Leaves.refl fs).fewer fun other changed found => ?_
    rw [removes.file present] at found
    split at found
    · cases found
    · exact found
  refine (fileSystemRemove_removes fs name pid).mono ?_ ?_ (fun _ _ => trivial)
  · exact fun _ fs' ⟨inode, present, _, removes⟩ => removed present removes
  · rintro - fs' (⟨-, rfl⟩ | ⟨inode, present, -, -, removes⟩)
    · exact .refl _
    · exact removed present removes

theorem rtsEvict_leaves {buf : Option (List UInt8)} (backed : Backed fs.view) (timely : Timely fs)
    (s : WriteState codec) (begins : s.fileSystem ∈ fs.evictions buf now) :
    (WriteState.rtsEvict now s).Post
      (fun _ s' => (Event.write fd buf pid now).Leaves fs none 0 now s'.fileSystem)
      (fun _ s' => (Event.write fd buf pid now).Leaves fs none 0 now s'.fileSystem)
      (fun _ => True) := by
  obtain ⟨remnant, backed⟩ := remnant_of_evictions backed begins
  have nothing : (Event.write fd buf pid now).Leaves fs none 0 now s.fileSystem :=
    (Leaves.refl fs).fewer remnant.files
  have gone : ∀ {inode fs₁ inode₁ done fs'}, s.fileSystem.chosen = some inode →
      Reads s.fileSystem.started inode now true fs₁ → fs₁.file inode.name = some inode₁ →
      Removes fs₁ inode₁ done fs' → (Event.write fd buf pid now).Leaves fs none 0 now fs' := by
    intro inode fs₁ inode₁ done fs' taken reads found removes
    have chosen : s.fileSystem.started.file inode.name = some inode := file_of_chosen taken
    obtain ⟨changed, puts, -⟩ := reads.puts chosen
    have named := fs₁.fileTable.named inode.name inode₁ found
    refine nothing.fewer fun other after present => ?_
    rw [removes.file (named ▸ found), named] at present
    split at present
    · cases present
    · rename_i different
      rwa [puts, if_neg different] at present
  refine (WriteState.rtsEvict_evicts s now).mono ?_ ?_ (fun _ _ => trivial)
  · exact fun _ s' ⟨inode, fs₁, inode₁, taken, reads, found, removes⟩ =>
      gone taken reads found removes
  · rintro - s' (same | ⟨inode, taken, reads | ⟨fs₁, inode₁, reads, found, removes⟩⟩)
    · rw [same]
      exact nothing
    · have present : s.fileSystem.file inode.name = some inode := file_of_chosen taken
      have chosen : s.fileSystem.started.file inode.name = some inode := present
      rcases reads.puts_of_failed chosen with same | ⟨hollow, changed, puts, used⟩
      · exact nothing.fewer fun other after found => (same other).symm.trans found
      · refine nothing.then_misdated present puts used fun _ _ => .inl ?_
        refine ⟨s.fileSystem, begins, inode, present, fun other _ stored found => ?_, hollow⟩
        exact victim_least backed (remnant.timely timely) (victim_of_chosen taken) found
    · exact gone taken reads found removes

theorem write_leaves (backed : Backed fs.view) (timely : Timely fs) (fd : Int)
    (buf : Option (List UInt8)) (pid : Pid) (now : Int) :
    ((Event.write fd buf pid now).call fs).Post
      (fun _ => (Event.write fd buf pid now).Leaves fs (fs.nameAt fd pid) 0 now)
      (fun _ => (Event.write fd buf pid now).Leaves fs none 0 now) (fun _ => True) := by
  refine write_call (I := fun gs => (Event.write fd buf pid now).Leaves fs none 0 now gs ∧
      ∀ other, gs.slot other = fs.slot other) (G := fun gs => gs ∈ fs.evictions buf now)
    (fun s kept begins => ((rtsEvict_leaves backed timely s begins).and
      (slots_rtsEvict fs s kept.2)).mono (fun _ _ h => h) (fun _ _ h => h) (fun _ _ => trivial))
    (fun _ begins => begins) ⟨.refl fs, fun _ => rfl⟩ (fun gs kept => kept.1) ?_
  rintro gs bytes rfl room ⟨nothing, slots⟩
  have flushed : ∀ {copy before : Inode} {fs' : FileSystem codec}, gs.file copy.name = some before →
      Flushes (gs.updateSlot (toUnsigned32 fd) fun _ => copy.appended bytes now) (toUnsigned32 fd)
        (copy.appended bytes now) now fs' →
      ∃ changed, Puts gs copy.name changed fs' ∧ Used now 0 before changed :=
    fun present flushes => flushes.puts present
  refine (writeDescriptor_flushes gs fd bytes pid now).mono ?_ ?_ (fun _ _ => trivial)
  · rintro - fs' ⟨copy, live, -, -, stored, flushes, -⟩
    rw [nameAt_eq ((slots _).symm.trans live)]
    obtain ⟨before, present⟩ := Option.ne_none_iff_exists'.mp stored
    obtain ⟨changed, puts, used⟩ := flushed present flushes
    exact nothing.then_used present puts used
  · rintro - fs' (rfl | ⟨copy, live, allowed, some_, ⟨-, rfl⟩ | ⟨stored, ⟨flushes, oversized⟩ | tears⟩⟩)
    · exact nothing
    · exact nothing
    · obtain ⟨before, present⟩ := Option.ne_none_iff_exists'.mp stored
      obtain ⟨changed, puts, used⟩ := flushed present flushes
      have buffered : (copy.appended bytes now).buffer ≠ [] :=
        fun empty => some_ (List.append_eq_nil_iff.mp empty).2
      have overflows := flushes.overflows buffered oversized
      exact nothing.then_misdated present puts used fun _ _ => .inr
        ⟨gs, room, bytes, rfl, _, live, rfl, rfl, allowed, overflows⟩
    · refine nothing.fewer fun name changed found => ?_
      rwa [tears.file name] at found

/-- What the end of a session has left of a file so far. -/
structure LeftOf (fs : FileSystem codec) (pid : Pid) (now : Int) (name : Filename)
    (inode changed : Inode) : Prop where
  follows : (Event.removeSession pid now).Follows fs name (none = some name) 0 now inode changed
  references : (Event.removeSession pid now).GivesBack fs name inode ∨
    changed.referenceList = inode.referenceList
  locked : changed.locked = inode.locked ∨ changed.locked = 0

theorem LeftOf.dated {inode before changed : Inode} (left : LeftOf fs pid now name inode before)
    (misdates : (Event.removeSession pid now).Misdates fs name inode)
    (same : changed.generation = before.generation ∧ changed.btime = before.btime ∧
      changed.ctime = now)
    (references : (Event.removeSession pid now).GivesBack fs name inode ∨
      changed.referenceList = before.referenceList ∧
        changed.referenceCount = before.referenceCount)
    (locked : changed.locked = before.locked ∨ changed.locked = 0) :
    LeftOf fs pid now name inode changed where
  follows := {
    generation := same.1.trans left.follows.generation
    btime := same.2.1.trans left.follows.btime
    stamp := .inr same.2.2
    ctime := by
      by_cases late : inode.ctime = now
      · exact .inr ⟨nofun, fun _ => same.2.2.trans late.symm⟩
      · exact .inl ⟨misdates, late⟩
    references := by
      rcases references with back | kept
      · exact .inl back
      · exact left.follows.references.imp_right fun before => kept.2.trans before }
  references := by
    rcases references with back | kept
    · exact .inl back
    · exact left.references.imp_right fun before => kept.1.trans before
  locked := by
    rcases locked with kept | free
    · rw [kept]
      exact left.locked
    · exact .inr free

theorem fileSystemRemoveSession_leaves (fs : FileSystem codec) (pid : Pid) (now : Int) :
    (fileSystemRemoveSession pid now fs).Post
      (fun _ fs' => (Event.removeSession pid now).Leaves fs none 0 now fs')
      (fun _ fs' => (Event.removeSession pid now).Leaves fs none 0 now fs') (fun _ => True) := by
  let I : FileSystem codec → Prop := fun gs => gs.fileDescriptorTable = fs.fileDescriptorTable ∧
    ∀ name changed, gs.file name = some changed →
      ∃ inode, fs.file name = some inode ∧ LeftOf fs pid now name inode changed
  have leaves : ∀ {gs}, I gs → (Event.removeSession pid now).Leaves fs none 0 now gs := by
    intro gs kept name changed present
    obtain ⟨inode, found, left⟩ := kept.2 name changed present
    exact ⟨inode, found, by simpa using left.follows⟩
  have change : ∀ name (f : Inode → Except Errno Inode),
      (∀ inode before changed, LeftOf fs pid now name inode before → f before = .ok changed →
        LeftOf fs pid now name inode { changed with name }) →
      Keeps I (changeFile name f : Call codec Unit) := by
    intro name f keeps gs kept
    cases present : gs.file name with
    | none => simp only [changeFile, post_bind, post_get, present, post_fault]
    | some before =>
        refine post_changeFile present (fun changed is => ⟨kept.1, fun other after found => ?_⟩)
          (fun _ _ => kept)
        rw [puts_updateFile present changed other] at found
        split at found
        · rename_i this
          subst this
          cases found
          obtain ⟨inode, stored, left⟩ := kept.2 other before present
          exact ⟨inode, stored, keeps inode before changed left is⟩
        · exact kept.2 other after found
  have decreases : ∀ name, fs.fileDescriptorTable.1.pidInodeSize name pid ≠ 0 → ∀ times,
      Keeps I (decreaseRefsTimes name pid now times : Call codec Unit) := by
    intro name some_ times
    induction times with
    | zero => exact .pure ()
    | succ times ih =>
        refine .bind (change name _ fun inode before changed left is => ?_) fun _ => ih
        unfold Inode.decreaseRefs at is
        split at is
        · cases is
        · rename_i counted
          split at is
          · cases is
          · rename_i member
            obtain rfl := Except.ok.inj is
            -- only a reference that was there at first can be given back
            have back : (Event.removeSession pid now).GivesBack fs name inode := by
              rcases left.references with back | list
              · exact back
              · rcases left.follows.references with back | count
                · exact back
                · rw [count, Nat.add_zero] at counted
                  rw [list, not_not] at member
                  exact ⟨some_, counted, member⟩
            exact left.dated (.inl back) ⟨rfl, rfl, rfl⟩ (.inl back) (.inl rfl)
  have unlocks : ∀ name, Keeps I
      (changeFile name (fun inode => inode.fileUnlock pid now) : Call codec Unit) := by
    intro name
    refine change name _ fun inode before changed left is => ?_
    unfold Inode.fileUnlock at is
    split at is
    · obtain rfl := Except.ok.inj is
      have same := left.follows
      exact ⟨⟨same.generation, same.btime, same.stamp, same.ctime, same.references⟩,
        left.references, left.locked⟩
    · rename_i held
      split at is
      · cases is
      · rename_i own
        obtain rfl := Except.ok.inj is
        have same : before.locked = inode.locked := left.locked.resolve_right held
        exact left.dated (.inr ⟨same ▸ not_not.mp own, same ▸ held⟩) ⟨rfl, rfl, rfl⟩
          (.inr ⟨rfl, rfl⟩) (.inr rfl)
  have leaveFile : ∀ name, Keeps I (leaveFile pid now name : Call codec Unit) := by
    intro name
    refine .bind (keeps_rtsGetInode name) fun _ gs kept => ?_
    rw [post_bind, post_get, kept.1]
    have decreased : Keeps I (decreaseRefsTimes name pid now
        (fs.fileDescriptorTable.1.pidInodeSize name pid) : Call codec Unit) := by
      by_cases none_ : fs.fileDescriptorTable.1.pidInodeSize name pid = 0
      · rw [none_]
        exact .pure ()
      · exact decreases name none_ _
    refine decreased.bind (fun _ => ?_) gs kept
    exact .bind (keeps_rtsGetInode name) fun _ => .ite (unlocks name) (.pure _)
  have leaveFiles : ∀ names, Keeps I (leaveFiles pid now names : Call codec Unit) := by
    intro names
    induction names with
    | nil => exact .pure ()
    | cons name names ih => exact .bind (leaveFile name) fun _ => ih
  have begins : I fs := by
    refine ⟨rfl, fun name changed present => ⟨changed, present, ?_⟩⟩
    exact ⟨.unused (by simp) changed, .inr rfl, .inl rfl⟩
  rw [fileSystemRemoveSession, post_bind, post_get, post_bind, post_failIf]
  refine ⟨fun _ => leaves begins, fun _ => ?_⟩
  rw [post_bind]
  refine (leaveFiles _ fs begins).mono ?_ (fun _ gs kept => leaves kept) (fun _ _ => trivial)
  exact fun _ gs kept => (leaves kept).fewer fun _ _ present => present

/-! ## The steps -/

/-- Every step that returns has used at most one file, or has created it; one that fails
    has used none. -/
theorem leaves_call {event : Event} {clock : Int} {owner : Nat → Filename} (regular : Regular fs)
    (backed : Backed fs.view) (timely : Timely fs) (owned : Owned owner fs.view)
    (timed : ∀ now ∈ event.time, now = clock) :
    (event.call fs).Post
      (fun reply fs' => event.Leaves fs (event.uses fs reply) reply.counted clock fs' ∨
        ∃ name flags pid now, event = .open name flags pid now ∧
          Creates fs name reply.counted clock fs')
      (fun _ fs' => event.Leaves fs none 0 clock fs') (fun _ => True) := by
  cases event with
  | «open» name flags pid now =>
      obtain rfl := timed now rfl
      change ((fileSystemOpen name flags pid now >>= _) fs).Post _ _ _
      rw [post_bind]
      refine (fileSystemOpen_leaves regular name flags pid now).mono ?_ (fun _ _ h => h)
        (fun _ _ => trivial)
      rintro (fd | _) fs' (leaves | creates)
      · exact .inl leaves
      · exact .inr ⟨name, flags, pid, now, rfl, creates⟩
      · exact .inl leaves
      · exact .inr ⟨name, flags, pid, now, rfl, creates⟩
  | write fd buf pid now =>
      obtain rfl := timed now rfl
      have leaves := write_leaves backed timely fd buf pid now
      change (writeCall fd buf pid now fs).Post _ _ _ at leaves
      change (writeCall fd buf pid now fs).Post _ _ _
      unfold writeCall at leaves ⊢
      cases written : fileSystemWrite fd buf pid now { fileSystem := fs, evictedList := [] } with
      | ok done s =>
          rw [written] at leaves
          exact .inl leaves
      | error code s =>
          rw [written] at leaves
          exact leaves
      | fault why => trivial
  | read fd pid now =>
      obtain rfl := timed now rfl
      change ((fileSystemRead fd pid now >>= _) fs).Post _ _ _
      rw [post_bind]
      exact (fileSystemRead_leaves owned fd pid now).mono (fun _ _ h => .inl h) (fun _ _ h => h)
        (fun _ _ => trivial)
  | close fd pid now =>
      obtain rfl := timed now rfl
      change ((fileSystemClose fd pid now >>= _) fs).Post _ _ _
      rw [post_bind]
      exact (fileSystemClose_leaves fs fd pid now).mono (fun _ _ h => .inl h) (fun _ _ h => h)
        (fun _ _ => trivial)
  | remove name pid =>
      change ((fileSystemRemove name pid >>= _) fs).Post _ _ _
      rw [post_bind]
      exact (fileSystemRemove_leaves fs name pid clock).mono (fun _ _ h => .inl h) (fun _ _ h => h)
        (fun _ _ => trivial)
  | lock fd pid now =>
      obtain rfl := timed now rfl
      change ((fileSystemLock fd pid now >>= _) fs).Post _ _ _
      rw [post_bind]
      refine (fileSystemLock_leaves fs fd pid now).mono ?_ (fun _ _ h => h) (fun _ _ => trivial)
      rintro (_ | _) fs' leaves
      · exact .inl leaves
      · exact .inl leaves
  | unlock fd pid now =>
      obtain rfl := timed now rfl
      change ((fileSystemUnlock fd pid now >>= _) fs).Post _ _ _
      rw [post_bind]
      exact (fileSystemUnlock_leaves fs fd pid now).mono (fun _ _ h => .inl h) (fun _ _ h => h)
        (fun _ _ => trivial)
  | removeSession pid now =>
      obtain rfl := timed now rfl
      change ((fileSystemRemoveSession pid now >>= _) fs).Post _ _ _
      rw [post_bind]
      exact (fileSystemRemoveSession_leaves fs pid now).mono (fun _ _ h => .inl h) (fun _ _ h => h)
        (fun _ _ => trivial)
  | wake waiter now =>
      obtain rfl := timed now rfl
      change ((wakeUp waiter now >>= _) fs).Post _ _ _
      rw [post_bind]
      refine (wakeUp_leaves fs waiter now).mono ?_ (fun _ _ h => h) (fun _ _ => trivial)
      rintro ((_ | fd) | _) fs' leaves
      · exact .inl leaves
      · exact .inl leaves
      · exact .inl leaves

end Event

end FileStorage
