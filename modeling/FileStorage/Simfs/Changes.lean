import FileStorage.Simfs.Evictions
import FileStorage.Simfs.Outcomes

/-! # Calls as sequences of changes

Every step of a run comes down to a few changes: a quiet one, a new file, the
beginning of an eviction, a read, a removal, a flush. What all changes keep holds in
every state of every run.
-/

namespace FileStorage

open Program FileSystem

variable {codec : Codec}

inductive Change : FileSystem codec → FileSystem codec → Prop where
  | quiet {fs fs'} : Quiet fs fs' → Change fs fs'
  | create {fs name now table} : fs.fileTable.create name fs.created now = .ok table →
      Change fs (fs.withFile table)
  /-- a number of files that is taken for an error -/
  | miscounted {fs fs'} : fs.fileTable.count = -2 → Change fs fs'
  | start {fs} : Change fs fs.started
  | read {fs fs' inode now done} : fs.file inode.name = some inode →
      Reads fs inode now done fs' → Change fs fs'
  | remove {fs fs' inode done} : fs.file inode.name = some inode → Removes fs inode done fs' →
      Change fs fs'
  | buffer {fs} (fd : Nat) (copy : Inode) : Change fs (fs.updateSlot fd fun _ => copy)
  | flush {fs fs' fd copy now} : fs.file copy.name ≠ none → Flushes fs fd copy now fs' → Change fs fs'
  | tear {fs fs' fd copy} : Tears fs fd copy fs' → Change fs fs'

abbrev Changes (fs fs' : FileSystem codec) : Prop := Relation.ReflTransGen Change fs fs'

namespace Changes

variable {fs fs' origin : FileSystem codec}

theorem evict (s : WriteState codec) (before : Changes origin s.fileSystem) (now : Int) :
    (WriteState.rtsEvict now s).Post (fun _ s' => Changes origin s'.fileSystem)
      (fun _ s' => Changes origin s'.fileSystem) (fun _ => True) := by
  refine WriteState.keeps_rtsEvict ?_ ?_ ?_ s before
  · exact fun _ changes => changes.tail .start
  · exact fun _ _ _ _ changes present reads => changes.tail (.read present reads)
  · exact fun _ _ _ _ changes present removes => changes.tail (.remove present removes)

theorem writeDescriptor (before : Changes origin fs) (fd : Int) (bytes : List UInt8) (pid : Pid)
    (now : Int) :
    (writeDescriptor fd (some bytes) pid now fs).Post (fun _ fs' => Changes origin fs')
      (fun _ fs' => Changes origin fs') (fun _ => True) := by
  have buffered : ∀ copy, Changes origin (fs.updateSlot (toUnsigned32 fd) fun _ => copy) :=
    fun copy => before.tail (.buffer _ copy)
  have flush : ∀ copy : Inode, ∀ fs', fs.file copy.name ≠ none →
      Flushes (fs.updateSlot (toUnsigned32 fd) fun _ => copy.appended bytes now) (toUnsigned32 fd)
        (copy.appended bytes now) now fs' → Changes origin fs' := by
    intro copy fs' stored flushes
    have stored' : (fs.updateSlot (toUnsigned32 fd) fun _ => copy.appended bytes now).file
        (copy.appended bytes now).name ≠ none := stored
    exact (buffered _).tail (.flush stored' flushes)
  refine (writeDescriptor_flushes fs fd bytes pid now).mono ?_ ?_ (fun _ _ => trivial)
  · rintro - fs' ⟨copy, -, -, -, stored, flushes, -⟩
    exact flush copy fs' stored flushes
  · rintro - fs' (rfl | ⟨copy, -, -, -, ⟨-, rfl⟩ | ⟨stored, ⟨flushes, -⟩ | tears⟩⟩)
    · exact before
    · exact buffered _
    · exact flush copy fs' stored flushes
    · exact (buffered _).tail (.tear tears)

theorem fileSystemRead (before : Changes origin fs) (fd : Int) (pid : Pid) (now : Int) :
    (fileSystemRead fd pid now fs).Post (fun _ fs' => Changes origin fs')
      (fun _ fs' => Changes origin fs') (fun _ => True) := by
  have read : ∀ (copy : Inode) inode fs₁ done, fs.file copy.name = some inode →
      Reads fs inode now done fs₁ → Changes origin fs₁ := by
    intro copy inode fs₁ done present reads
    rw [← fs.fileTable.named copy.name inode present] at present
    exact before.tail (.read present reads)
  refine (fileSystemRead_reads fs fd pid now).mono ?_ ?_ (fun _ _ => trivial)
  · rintro - fs' ⟨copy, inode, fs₁, -, -, present, reads, flushes, -⟩
    exact (read copy inode fs₁ true present reads).tail (.flush (reads.stored present) flushes)
  · rintro - fs' (⟨-, rfl⟩ | ⟨copy, inode, -, -, present, reads | ⟨fs₁, reads, fails⟩⟩)
    · exact before
    · exact read copy inode fs' false present reads
    · rcases fails with ⟨flushes, -⟩ | ⟨-, tears⟩
      · exact (read copy inode fs₁ true present reads).tail (.flush (reads.stored present) flushes)
      · exact (read copy inode fs₁ true present reads).tail (.tear tears)

theorem of_call {event : Event} (result : (event.call fs).state? = some fs') : Changes fs fs' := by
  by_cases quiet : event.quiet = true
  · exact .single (.quiet (Event.quiet_call quiet result))
  · cases event with
    | «open» name flags pid now =>
        rcases Event.open_call result with same | wrong | ⟨table, created, -, same⟩
        · exact .single (.quiet same)
        · exact .single (.miscounted wrong)
        · exact .head (.create created) (.single (.quiet same))
    | write fd buf pid now =>
        refine Outcome.Post.of_state (F := fun _ => True) ?_ result
        refine write_call (I := Changes fs) (G := fun _ => True)
          (fun s before _ => evict s before now) (fun _ _ => trivial) .refl (fun _ before => before) ?_
        rintro gs bytes rfl - before
        exact before.writeDescriptor fd bytes pid now
    | read fd pid now =>
        refine Outcome.Post.of_state (F := fun _ => True) ?_ result
        exact Event.post_of_actions (fun _ => ⟨_, rfl⟩)
          (fileSystemRead Relation.ReflTransGen.refl fd pid now)
    | remove name pid =>
        refine Outcome.Post.of_state (F := fun _ => True) ?_ result
        refine Event.post_of_actions (fun _ => ⟨_, rfl⟩) ?_
        refine (fileSystemRemove_removes fs name pid).mono ?_ ?_ (fun _ _ => trivial)
        · rintro - fs' ⟨inode, present, -, removes⟩
          rw [← fs.fileTable.named name inode present] at present
          exact .single (.remove present removes)
        · rintro - fs' (⟨-, rfl⟩ | ⟨inode, present, -, -, removes⟩)
          · exact .refl
          · rw [← fs.fileTable.named name inode present] at present
            exact .single (.remove present removes)
    | close fd pid now | lock fd pid now | unlock fd pid now | removeSession pid now
    | wake waiter now => exact absurd rfl quiet

end Changes

/-- What holds at first and is kept by every change holds in every run. -/
theorem Reachable.change_invariant {guard : FileSystem codec → Event → Prop}
    {I : FileSystem codec → Prop}
    (initial : ∀ memoryLimit filesLimit policy, I (.init memoryLimit filesLimit policy))
    (step : ∀ fs fs', I fs → Change fs fs' → I fs') {fs : FileSystem codec}
    (reached : Reachable guard fs) : I fs := by
  refine Reachable.invariant initial ?_ reached
  intro fs fs' event holds _ _ result
  have changes := Changes.of_call result
  clear result
  induction changes with
  | refl => exact holds
  | tail _ next ih => exact step _ _ ih next

end FileStorage
