import FileStorage.Simfs.Effects

/-! # The calls as traces of actions

What every call of the file system does to the view, whichever way it ends.
-/

namespace FileStorage

open Program

variable {codec : Codec}

namespace FileSystem

variable {fs fs' fs'' : FileSystem codec} {name : Filename}
  {Q : Unit → FileSystem codec → Prop} {E : Errno → FileSystem codec → Prop} {F : Fault → Prop}

/-! ## Open -/

/-- What follows when the inode is found or created in `gnl_simfs_file_system_open`. -/
def openExisting (name : Filename) (flags : Nat) (pid : Pid) (now : Int) :
    Call codec (Progress Nat) := do
  let inode ← rtsGetInode name
  failIf (inode.isFileLocked = -1) .bubbled
  failIf (0 < inode.isFileLocked ∧ inode.isFileLocked ≠ asInt pid) .EBUSY
  if flags.testBit 1 then
    if inode.isFileLocked = asInt pid then
      let fd ← openDescriptor name pid now
      pure (.done fd)
    else
      match ← rtsLockInode name pid .open now with
      | .waiting => pure .waiting
      | .done _ =>
          let fd ← openDescriptor name pid now
          pure (.done fd)
  else
    failIf inode.hasPendingLocks .EBUSY
    let fd ← openDescriptor name pid now
    pure (.done fd)

theorem fileSystemOpen_eq (name : Filename) (flags : Nat) (pid : Pid) (now : Int) :
    (fileSystemOpen name flags pid now : Call codec _) =
      openInode name (flags.testBit 0) now >>= fun _ => openExisting name flags pid now := rfl

def Opening (name : Filename) (flags : Nat) (acts : List (Action codec)) : Prop :=
  flags.testBit 0 = false ∧ acts = [] ∨ flags.testBit 0 = true ∧ acts = [.create name]

theorem rtsCreateInode_performs (absent : fs.file name = none) (now : Int) :
    (rtsCreateInode name now fs).Post
      (fun _ fs' => fs.Performs [.create name] fs')
      (fun _ fs' => fs.Performs [] fs' ∨ fs.Performs [.create name] fs')
      (fun _ => False) := by
  simp only [rtsCreateInode, post_bind, post_get, post_failIf]
  refine ⟨fun _ => .inl .nil, fun nonempty => ⟨fun _ => .inl .nil, fun _ => ⟨fun _ => .inl .nil,
    fun _ => ?_⟩⟩⟩
  refine post_fileTableSize (fun _ => ⟨fun _ => .inl .nil, fun _ => ?_⟩) (fun _ => .inl .nil)
  refine post_ofExcept (fun fileTable created => ?_) (fun _ _ => .inl .nil)
  have performed : fs.Performs [.create name]
      { fs with fileTable, created := fs.created + 1 } := by
    refine .single ⟨nonempty, by simp [view, absent]⟩ (View.ext ?_ rfl rfl rfl rfl)
    funext other
    by_cases same : other = name <;>
      simp [view, file, FileTable.create_spec created, same, View.apply, FileView.of, FileView.new,
        Inode.init]
  simp only [post_modify]
  exact ⟨fun _ => .inr performed, fun _ => performed.counted _⟩

theorem openInode_performs (fs : FileSystem codec) (name : Filename) (flags : Nat) (now : Int) :
    (openInode name (flags.testBit 0) now fs).Post
      (fun _ fs' => ∃ pre, Opening name flags pre ∧ fs.Performs pre fs')
      (fun _ fs' => fs.Performs [] fs' ∨ ∃ pre, Opening name flags pre ∧ fs.Performs pre fs')
      (fun _ => False) := by
  simp only [openInode, post_bind, post_get, post_failIf]
  refine ⟨fun _ => .inl .nil, fun _ => ⟨fun _ => .inl .nil, fun _ => ?_⟩⟩
  by_cases create : flags.testBit 0 = true
  · rw [if_pos create]
    simp only [post_bind, post_failIf]
    refine ⟨fun _ => .inl .nil, fun absent => ?_⟩
    exact (rtsCreateInode_performs (not_not.mp absent) now).mono
      (fun _ _ performed => ⟨_, .inr ⟨create, rfl⟩, performed⟩)
      (fun _ _ performed => performed.imp_right fun performed => ⟨_, .inr ⟨create, rfl⟩, performed⟩)
      (fun _ h => h)
  · rw [if_neg create]
    simp only [post_failIf]
    exact ⟨fun _ => .inl .nil, fun _ => ⟨[], .inl ⟨Bool.eq_false_iff.mpr create, rfl⟩, .nil⟩⟩

def OpenFails (fs : FileSystem codec) (name : Filename) (flags : Nat) (pid : Pid)
    (fs' : FileSystem codec) : Prop :=
  fs.Performs [] fs' ∨ ∃ pre acts, Opening name flags pre ∧
    (acts = [] ∨ flags.testBit 1 = true ∧ Requested name pid acts) ∧ fs.Performs (pre ++ acts) fs'

/-- What an open does before it returns a descriptor or waits. -/
def OpenReturns (fs : FileSystem codec) (name : Filename) (flags : Nat) (pid : Pid) :
    Progress Nat → FileSystem codec → Prop
  | .done fd, fs' => ∃ pre lock, Opening name flags pre ∧
      (lock = [] ∨ flags.testBit 1 = true ∧
        lock = [.request name, .grant name pid, .settle name]) ∧
      fs.Performs (pre ++ (lock ++ [.attach fd name pid])) fs'
  | .waiting, fs' => ∃ pre generation, Opening name flags pre ∧ flags.testBit 1 = true ∧
      fs.Performs (pre ++ [.request name, .block { pid, name, generation, call := .open }]) fs'

theorem fileSystemOpen_performs (fs : FileSystem codec) (name : Filename) (flags : Nat) (pid : Pid)
    (now : Int) :
    (fileSystemOpen name flags pid now fs).Post
      (OpenReturns fs name flags pid) (fun _ fs' => OpenFails fs name flags pid fs')
      (fun _ => False) := by
  simp only [fileSystemOpen, post_bind]
  refine (openInode_performs fs name flags now).mono ?_ ?_ (fun _ h => h)
  · rintro - fs₁ ⟨pre, opening, performed⟩
    have failing : OpenFails fs name flags pid fs₁ :=
      .inr ⟨pre, [], opening, .inl rfl, by simpa using performed⟩
    refine post_rtsGetInode (fun inode nonempty present => ?_) (fun _ => failing)
    simp only [post_failIf]
    refine ⟨fun _ => failing, fun _ => ⟨fun _ => failing, fun access => ?_⟩⟩
    have access : ¬ (0 < asInt inode.locked ∧ inode.locked ≠ pid) := by
      simpa [Inode.isFileLocked, asInt_inj] using access
    -- the end of the call where the lock is not touched
    have direct : ((openDescriptor name pid now >>= fun fd => pure (Progress.done fd)) fs₁).Post
        (OpenReturns fs name flags pid) (fun _ fs' => OpenFails fs name flags pid fs')
        (fun _ => False) := by
      rw [post_bind]
      refine (openDescriptor_performs present access now).mono (fun fd fs₂ attached => ?_)
        (fun _ fs₂ same => ?_) (fun _ h => h)
      · exact ⟨pre, [], opening, .inl rfl, performed.trans attached⟩
      · exact .inr ⟨pre, [], opening, .inl rfl, performed.trans same⟩
    by_cases lock : flags.testBit 1 = true
    · rw [if_pos lock]
      by_cases own : inode.isFileLocked = asInt pid
      · rw [if_pos own]
        exact direct
      · rw [if_neg own, post_bind]
        refine (rtsLockInode_performs fs₁ name pid .open now).mono ?_ ?_ (fun _ h => h)
        · rintro (_ | _) fs₂ locked
          · obtain ⟨changed, present', own'⟩ : ∃ inode, fs₂.file name = some inode ∧
                inode.locked = pid := by
              obtain _ | ⟨-, rest⟩ := locked
              exact locked_of_settled rest
            rw [post_bind]
            refine (openDescriptor_performs present' (by simp [own']) now).mono ?_ ?_ (fun _ h => h)
            · exact fun fd fs₃ attached => ⟨pre, _, opening, .inr ⟨lock, rfl⟩,
                performed.trans (locked.trans attached)⟩
            · intro _ fs₃ same
              exact .inr ⟨pre, _, opening, .inr ⟨lock, .inr (.inr (.inr rfl))⟩,
                performed.trans (locked.trans same)⟩
          · obtain ⟨generation, waiting⟩ := locked
            exact ⟨pre, generation, opening, lock, performed.trans waiting⟩
        · rintro - fs₂ ⟨acts, requested, locked⟩
          exact .inr ⟨pre, acts, opening, .inr ⟨lock, requested⟩, performed.trans locked⟩
    · rw [if_neg lock]
      rw [post_bind, post_failIf]
      exact ⟨fun _ => failing, fun _ => direct⟩
  · rintro - fs₁ (same | ⟨pre, opening, performed⟩)
    · exact .inl same
    · exact .inr ⟨pre, [], opening, .inl rfl, by simpa using performed⟩

/-! ## Close, remove, unlock and lock -/

theorem post_rtsGetInodeByFd {R : Inode → FileSystem codec → Prop} {fd : Int} {pid : Pid}
    (found : ∀ copy, fs.slot (toUnsigned32 fd) = some { owner := pid, inode := copy } → R copy fs)
    (failed : ∀ e, E e fs) : (rtsGetInodeByFd fd pid fs).Post R E F := by
  simp only [rtsGetInodeByFd, post_bind, post_get]
  exact post_ofExcept (fun copy got => found copy (FileDescriptorTable.get_eq_ok.mp got))
    (fun _ _ => failed _)

def Owns (v : View codec) (fd : Nat) (pid : Pid) : Prop := ∃ s, v.slot fd = some s ∧ s.owner = pid

theorem owns_of_slot {fd : Nat} {pid : Pid} {copy : Inode}
    (live : fs.slot fd = some { owner := pid, inode := copy }) : Owns fs.view fd pid :=
  ⟨_, view_slot live, rfl⟩

theorem close_view {fd : Nat} {entry : Entry} (live : fs.slot fd = some entry)
    {table : FileDescriptorTable} (limited : table.limit = maxOpenFiles)
    (slots : ∀ other, table.slot other = if other = fd then none else fs.slot other) {f : Inode → Inode}
    (released : ∀ inode, fs.file entry.inode.name = some inode →
      FileView.of (f inode) = (FileView.of inode).released entry.owner) :
    fs.Performs [.close fd] (updateFile { fs with fileDescriptorTable := ⟨table, limited⟩ }
      entry.inode.name f) := by
  have viewed := view_slot live
  refine .single (by simp [View.Enabled, viewed]) (View.ext ?_ ?_ ?_ ?_ ?_)
  · have changed : (fs.updateFile entry.inode.name f).view =
        fs.view.changeFile entry.inode.name fun f => f.released entry.owner :=
      view_updateFile released
    have files := congrArg View.file changed
    simp only [View.apply, viewed]
    exact files
  · funext other
    simp only [View.apply, viewed]
    by_cases same : other = fd
    · simp [view, slot, updateFile, slots, same]
    · rw [Function.update_of_ne same]
      simp only [view, updateFile, slot, slots, if_neg same]
  all_goals
    simp only [View.apply, viewed]
    rfl

theorem fileSystemClose_performs (fs : FileSystem codec) (fd : Int) (pid : Pid) (now : Int) :
    (fileSystemClose fd pid now fs).Post
      (fun _ fs' => Owns fs.view (toUnsigned32 fd) pid ∧ fs.Performs [.close (toUnsigned32 fd)] fs')
      (fun _ fs' => fs' = fs ∨
        Owns fs.view (toUnsigned32 fd) pid ∧ fs.Performs [.close (toUnsigned32 fd)] fs')
      (fun _ => False) := by
  simp only [fileSystemClose, post_bind]
  refine post_rtsGetInodeByFd (fun copy live => ?_) (fun _ => .inl rfl)
  simp only [post_get]
  obtain ⟨closed, removes, spec⟩ := FileDescriptorTable.remove_spec live
  rw [removes]
  have limited := spec.1.trans fs.fileDescriptorTable.2
  have owns := owns_of_slot live
  refine post_ofExcept (fun table removed => ?_) (fun _ failed => by cases failed)
  obtain rfl := Except.ok.inj removed
  simp only [post_modify, dif_pos limited, post_failIf]
  -- without a reference to give back only the descriptor goes
  have dropped : (∀ inode, fs.file copy.name = some inode →
        inode.referenceCount = 0 ∨ pid ∉ inode.referenceList) →
      fs.Performs [.close (toUnsigned32 fd)] { fs with fileDescriptorTable :=
        ⟨closed, limited⟩ } := by
    intro none_
    have viewed := close_view live limited spec.2 (f := id) fun inode present => by
      have refused : ¬ (inode.referenceCount ≠ 0 ∧ pid ∈ inode.referenceList) := by
        rintro ⟨counted, member⟩
        exact (none_ inode present).elim counted fun away => away member
      exact (if_neg refused).symm
    rw [← List.append_nil [Action.close (toUnsigned32 fd)]]
    refine viewed.trans (.of_view ?_)
    exact ((view_updateFile (g := id) fun _ _ => rfl).trans (changeFile_id _ _)).symm
  refine ⟨fun empty => .inr ⟨owns, dropped ?_⟩, fun nonempty => ?_⟩
  · rw [empty, file_nil]
    intro inode present
    cases present
  · rw [post_ite]
    refine ⟨fun stored => ?_, fun absent => ⟨owns, dropped ?_⟩⟩
    · obtain ⟨inode, present⟩ := Option.ne_none_iff_exists'.mp stored
      have unique : ∀ other, fs.file copy.name = some other → inode = other := fun other found =>
        Option.some.inj (present.symm.trans found)
      refine post_changeFile (show _ = some inode from present) (fun changed decrease => ?_)
        (fun _ failed => ?_)
      · refine ⟨owns, close_view live limited spec.2 fun other found => ?_⟩
        obtain rfl := unique other found
        unfold Inode.decreaseRefs at decrease
        split at decrease
        · cases decrease
        · rename_i counted
          split at decrease
          · cases decrease
          · rename_i member
            cases decrease
            have given : inode.referenceCount ≠ 0 ∧ pid ∈ inode.referenceList :=
              ⟨counted, not_not.mp member⟩
            exact (if_pos given).symm
      · refine .inr ⟨owns, dropped fun other found => ?_⟩
        obtain rfl := unique other found
        unfold Inode.decreaseRefs at failed
        split at failed
        · exact .inl ‹_›
        · split at failed
          · exact .inr ‹_›
          · cases failed
    · intro inode present
      have none_ : fs.file copy.name = none := not_not.mp absent
      rw [none_] at present
      cases present

theorem fileSystemRemove_performs (fs : FileSystem codec) (name : Filename) (pid : Pid) :
    (fileSystemRemove name pid fs).Post
      (fun _ fs' => (∃ inode, fs.file name = some inode ∧ inode.locked = pid ∧ inode.locked ≠ 0) ∧
        fs.Performs [.vanish name] fs')
      (fun _ fs' => fs.Performs [] fs' ∨
        (∃ inode, fs.file name = some inode ∧ inode.locked = pid ∧ inode.locked ≠ 0) ∧
          fs.Performs [.vanish name] fs')
      (fun why => why ≠ .decodeFreed) := by
  simp only [fileSystemRemove, post_bind, post_failIf]
  refine ⟨fun _ => .inl .nil, fun _ => ?_⟩
  refine post_rtsGetInode (fun inode _ present => ?_) (fun _ => .inl .nil)
  refine ⟨fun _ => .inl .nil, fun _ => ⟨fun _ => .inl .nil, fun own => ?_⟩⟩
  have own : inode.locked = pid ∧ inode.locked ≠ 0 := by
    rw [not_or, not_not, Inode.isFileLocked, asInt_inj, ← asInt_zero, asInt_inj] at own
    exact ⟨own.2, own.1⟩
  refine (rtsRemoveInode_performs fs name).mono
    (fun _ _ performed => ⟨⟨inode, present, own⟩, performed⟩) (fun _ _ performed => ?_)
    (fun _ other => other)
  exact performed.elim .inl fun performed => .inr ⟨⟨inode, present, own⟩, performed⟩

theorem fileSystemLock_performs (fs : FileSystem codec) (fd : Int) (pid : Pid) (now : Int) :
    (fileSystemLock fd pid now fs).Post
      (fun progress fs' => ∃ copy,
        fs.slot (toUnsigned32 fd) = some { owner := pid, inode := copy } ∧ match progress with
          | .done _ => fs' = fs ∨ fs.Performs
              [.request copy.name, .grant copy.name pid, .settle copy.name] fs'
          | .waiting => ∃ generation, fs.Performs [.request copy.name,
              .block { pid, name := copy.name, generation, call := .lock }] fs')
      (fun _ fs' => fs' = fs ∨
        ∃ copy acts, fs.slot (toUnsigned32 fd) = some { owner := pid, inode := copy } ∧
          Requested copy.name pid acts ∧ fs.Performs acts fs')
      (fun _ => False) := by
  simp only [fileSystemLock, post_bind]
  refine post_rtsGetInodeByFd (fun copy live => ?_) (fun _ => .inl rfl)
  refine post_rtsGetInode (fun inode _ present => ?_) (fun _ => .inl rfl)
  simp only [post_failIf]
  refine ⟨fun _ => .inl trivial, fun _ => ?_⟩
  by_cases locked : 0 < inode.isFileLocked
  · rw [if_pos locked, post_bind, post_failIf]
    exact ⟨fun _ => .inl rfl, fun _ => ⟨copy, live, .inl rfl⟩⟩
  · rw [if_neg locked]
    refine (rtsLockInode_performs fs copy.name pid .lock now).mono ?_ ?_ (fun _ h => h)
    · rintro (_ | _) fs₁ performed
      · exact ⟨copy, live, .inr performed⟩
      · exact ⟨copy, live, performed⟩
    · rintro - fs₁ ⟨acts, requested, performed⟩
      exact .inr ⟨copy, acts, live, requested, performed⟩

theorem fileSystemUnlock_performs (fs : FileSystem codec) (fd : Int) (pid : Pid) (now : Int) :
    (fileSystemUnlock fd pid now fs).Post
      (fun _ fs' => ∃ copy, fs.slot (toUnsigned32 fd) = some { owner := pid, inode := copy } ∧
        fs.Performs [.unlock copy.name pid] fs')
      (fun _ fs' => fs' = fs)
      (fun _ => False) := by
  simp only [fileSystemUnlock, post_bind]
  refine post_rtsGetInodeByFd (fun copy live => ?_) (fun _ => rfl)
  refine post_rtsGetInode (fun inode _ present => ?_) (fun _ => rfl)
  simp only [post_failIf]
  refine ⟨fun _ => trivial, fun _ => ⟨fun _ => trivial, fun held => ⟨fun _ => trivial, fun own => ?_⟩⟩⟩
  rw [not_not, Inode.isFileLocked, asInt_inj] at own
  rw [Inode.isFileLocked, ← asInt_zero, asInt_inj] at held
  refine post_changeFile present (fun changed unlock => ?_) (fun _ failed => rfl)
  rw [Inode.fileUnlock, if_neg held, if_neg (not_not.mpr own)] at unlock
  cases unlock
  exact ⟨copy, live, .changed present (g := fun f => { f with locked := 0 }) rfl
    ⟨_, view_file present, own⟩ rfl⟩

/-! ## Waking up -/

def WakeReturns (fs : FileSystem codec) (waiter : Waiter) :
    Progress (Option Nat) → FileSystem codec → Prop
  | .waiting, fs' => fs' = fs
  | .done none, fs' => fs.Performs [.unblock waiter, .grant waiter.name waiter.pid,
      .settle waiter.name] fs'
  | .done (some fd), fs' => fs.Performs [.unblock waiter, .grant waiter.name waiter.pid,
      .settle waiter.name, .attach fd waiter.name waiter.pid] fs'

def WakeFails (fs : FileSystem codec) (waiter : Waiter) (fs' : FileSystem codec) : Prop :=
  fs.Performs [.unblock waiter] fs' ∨
    fs.Performs [.unblock waiter, .grant waiter.name waiter.pid] fs' ∨
    fs.Performs [.unblock waiter, .grant waiter.name waiter.pid, .settle waiter.name] fs'

theorem wakeUp_performs {waiter : Waiter} (waits : waiter ∈ fs.blocked) (now : Int) :
    (wakeUp waiter now fs).Post
      (fun progress fs' => WakeReturns fs waiter progress fs' ∧ ∃ inode,
        fs.file waiter.name = some inode ∧ inode.generation = waiter.generation)
      (fun _ fs' => WakeFails fs waiter fs' ∧ ∃ inode,
        fs.file waiter.name = some inode ∧ inode.generation = waiter.generation)
      (fun why => why = .inodeFreed) := by
  simp only [wakeUp, post_bind, post_get]
  cases present : fs.file waiter.name with
  | none => rfl
  | some inode =>
      simp only []
      split
      · rfl
      · rename_i alive
        have found : ∃ other, some inode = some other ∧ other.generation = waiter.generation :=
          ⟨inode, rfl, not_not.mp alive⟩
        split
        · exact ⟨rfl, found⟩
        · rename_i ready
          have unblocked : fs.Performs [.unblock waiter]
              { fs with blocked := fs.blocked.erase waiter } := .single waits rfl
          simp only [post_bind, post_modify]
          have present' : file { fs with blocked := fs.blocked.erase waiter } waiter.name =
              some inode := present
          refine (grantLock_performs present' (Bool.eq_false_iff.mpr ready) now).mono ?_ ?_
            (fun _ h => h.elim)
          · intro _ fs₁ granted
            cases waiter.call with
            | lock => exact ⟨unblocked.trans granted, found⟩
            | «open» =>
                obtain ⟨changed, present', own⟩ := locked_of_settled granted
                rw [post_bind]
                refine (openDescriptor_performs present' (by simp [own]) now).mono ?_ ?_
                  (fun _ h => h.elim)
                · exact fun fd fs₂ attached => ⟨unblocked.trans (granted.trans attached), found⟩
                · exact fun _ fs₂ same =>
                    ⟨.inr (.inr (unblocked.trans (granted.trans same))), found⟩
          · rintro - fs₁ (same | granted)
            · exact ⟨.inl (unblocked.trans same), found⟩
            · exact ⟨.inr (.inl (unblocked.trans granted)), found⟩

/-! ## Leaving -/

/-- References given back and locks released on behalf of one pid. -/
def Leaving (pid : Pid) (acts : List (Action codec)) : Prop :=
  ∀ a ∈ acts, ∃ name, a = .release name pid ∨ a = .unlock name pid

theorem Leaving.append {pid : Pid} {acts rest : List (Action codec)} (left : Leaving pid acts)
    (right : Leaving pid rest) : Leaving pid (acts ++ rest) := by
  intro a member
  exact (List.mem_append.mp member).elim (left a) (right a)

/-- A program that only gives back what the pid holds. -/
def Leaves {α : Type} (pid : Pid) (p : Call codec α) : Prop :=
  ∀ fs, (p fs).Post (fun _ fs' => ∃ acts, Leaving pid acts ∧ fs.Performs acts fs')
    (fun _ fs' => ∃ acts, Leaving pid acts ∧ fs.Performs acts fs') (fun why => why = .nullPointer)

theorem Leaves.pure {α : Type} (pid : Pid) (a : α) : Leaves pid (pure a : Call codec α) :=
  fun _ => ⟨[], nofun, .nil⟩

theorem Leaves.bind {α β : Type} {pid : Pid} {p : Call codec α} {q : α → Call codec β}
    (first : Leaves pid p) (second : ∀ a, Leaves pid (q a)) : Leaves pid (p >>= q) := by
  intro fs
  rw [post_bind]
  refine (first fs).mono ?_ (fun _ _ h => h) (fun _ h => h)
  rintro a fs₁ ⟨acts, leaving, performed⟩
  refine (second a fs₁).mono ?_ ?_ (fun _ h => h)
  all_goals
    rintro - fs₂ ⟨rest, leaving', performed'⟩
    exact ⟨acts ++ rest, leaving.append leaving', performed.trans performed'⟩

theorem Leaves.get (pid : Pid) : Leaves pid (Program.get : Call codec _) :=
  fun _ => ⟨[], nofun, .nil⟩

theorem Leaves.rtsGetInode (pid : Pid) (name : Filename) :
    Leaves pid (FileSystem.rtsGetInode name : Call codec _) :=
  fun _ => post_rtsGetInode (fun _ _ _ => ⟨[], nofun, .nil⟩) (fun _ => ⟨[], nofun, .nil⟩)

theorem Leaves.decreaseRefs (pid : Pid) (name : Filename) (now : Int) :
    Leaves pid (changeFile name (fun inode => inode.decreaseRefs pid now) : Call codec _) := by
  intro fs
  cases present : fs.file name with
  | none => simp [changeFile, present]
  | some inode =>
      refine post_changeFile present (fun changed decrease => ?_) (fun _ _ => ⟨[], by simp [Leaving], .nil⟩)
      unfold Inode.decreaseRefs at decrease
      split at decrease
      · cases decrease
      · rename_i counted
        split at decrease
        · cases decrease
        · rename_i member
          cases decrease
          refine ⟨[.release name pid], by simp [Leaving], .changed present (g := fun f => { f with
            referenceList := f.referenceList.erase pid, referenceCount := f.referenceCount - 1 })
            rfl ⟨_, view_file present, counted, not_not.mp member⟩ rfl⟩

theorem Leaves.fileUnlock (pid : Pid) (name : Filename) (now : Int) :
    Leaves pid (changeFile name (fun inode => inode.fileUnlock pid now) : Call codec _) := by
  intro fs
  cases present : fs.file name with
  | none => simp [changeFile, present]
  | some inode =>
      refine post_changeFile present (fun changed unlock => ?_) (fun _ _ => ⟨[], by simp [Leaving], .nil⟩)
      unfold Inode.fileUnlock at unlock
      split at unlock
      · cases unlock
        refine ⟨[], by simp [Leaving], .of_view ?_⟩
        exact (view_updateFile (g := id) fun other found => by
          obtain rfl : inode = other := Option.some.inj (present.symm.trans found)
          rfl).trans (changeFile_id fs.view name)
      · split at unlock
        · cases unlock
        · rename_i held own
          cases unlock
          exact ⟨[.unlock name pid], by simp [Leaving], .changed present
            (g := fun f => { f with locked := 0 }) rfl
            ⟨_, view_file present, not_not.mp own⟩ rfl⟩

theorem Leaves.decreaseRefsTimes (pid : Pid) (name : Filename) (now : Int) (times : Nat) :
    Leaves pid (FileSystem.decreaseRefsTimes name pid now times : Call codec _) := by
  induction times with
  | zero => exact .pure pid ()
  | succ times ih => exact (Leaves.decreaseRefs pid name now).bind fun _ => ih

theorem Leaves.leaveFile (pid : Pid) (now : Int) (name : Filename) :
    Leaves pid (FileSystem.leaveFile pid now name : Call codec _) := by
  refine (Leaves.rtsGetInode pid name).bind fun _ => (Leaves.get pid).bind fun fs => ?_
  refine (Leaves.decreaseRefsTimes pid name now _).bind fun _ => ?_
  refine (Leaves.rtsGetInode pid name).bind fun inode => ?_
  split
  · exact Leaves.fileUnlock pid name now
  · exact .pure pid ()

theorem Leaves.leaveFiles (pid : Pid) (now : Int) (names : List Filename) :
    Leaves pid (FileSystem.leaveFiles pid now names : Call codec _) := by
  induction names with
  | nil => exact .pure pid ()
  | cons name names ih => exact (Leaves.leaveFile pid now name).bind fun _ => ih

theorem removePid_performs (fs : FileSystem codec) (pid : Pid) :
    fs.Performs [.forget pid] { fs with fileDescriptorTable :=
      ⟨fs.fileDescriptorTable.1.removePid pid,
        (fs.fileDescriptorTable.1.removePid_spec pid).1.trans fs.fileDescriptorTable.2⟩ } := by
  refine .single trivial (View.ext rfl ?_ rfl rfl rfl)
  funext other
  simp only [view, slot, (fs.fileDescriptorTable.1.removePid_spec pid).2, View.apply]
  cases fs.fileDescriptorTable.1.slot other with
  | none => rfl
  | some entry => by_cases own : entry.owner = pid <;> simp [Option.filter, SlotView.of, own]

theorem fileSystemRemoveSession_performs (fs : FileSystem codec) (pid : Pid) (now : Int) :
    (fileSystemRemoveSession pid now fs).Post
      (fun _ fs' => ∃ acts, Leaving pid acts ∧ fs.Performs (acts ++ [.forget pid]) fs')
      (fun _ fs' => ∃ acts, Leaving pid acts ∧ fs.Performs acts fs')
      (fun why => why = .nullPointer) := by
  simp only [fileSystemRemoveSession, post_bind, post_get, post_failIf]
  refine ⟨fun _ => ⟨[], by simp [Leaving], .nil⟩, fun _ => ?_⟩
  refine (Leaves.leaveFiles pid now fs.fileTable.presenceList fs).mono ?_ (fun _ _ h => h)
    (fun _ h => h)
  rintro - fs₁ ⟨acts, leaving, performed⟩
  exact ⟨acts, leaving, performed.trans (removePid_performs fs₁ pid)⟩

/-! ## Read and write -/

def ReadFails (fs : FileSystem codec) (fd : Nat) (name : Filename) (fs' : FileSystem codec) : Prop :=
  fs.Performs [.spoil name] fs' ∨ ∃ new,
    fs.Performs [.reread name new] fs' ∨ fs.Performs [.reread name new, .tear fd] fs' ∨
      ∃ flushed, fs.Performs [.reread name new, .flush fd flushed] fs'

theorem fileSystemRead_performs (fs : FileSystem codec) (fd : Int) (pid : Pid) (now : Int) :
    (fileSystemRead fd pid now fs).Post
      (fun data fs' => ∃ copy f old new,
        fs.slot (toUnsigned32 fd) = some { owner := pid, inode := copy } ∧
        fs.view.file copy.name = some f ∧ Memory.at? fs.memory f.directPtr = some old ∧
        data = codec.decode old ∧
        (fs.Performs [.reread copy.name new] fs' ∧ copy.buffer = [] ∨
          ∃ flushed, fs.Performs [.reread copy.name new, .flush (toUnsigned32 fd) flushed] fs'))
      (fun _ fs' => fs.Performs [] fs' ∨ ∃ copy,
        fs.slot (toUnsigned32 fd) = some { owner := pid, inode := copy } ∧
        ReadFails fs (toUnsigned32 fd) copy.name fs')
      (fun why => why = .decodeFreed → ∃ copy,
        fs.slot (toUnsigned32 fd) = some { owner := pid, inode := copy } ∧
        (FreedFile fs.view copy.name ∨ ∃ new fs₁, fs.Performs [.reread copy.name new] fs₁ ∧
          FreedSlot fs₁.view (toUnsigned32 fd))) := by
  simp only [fileSystemRead, post_bind]
  refine post_rtsGetInodeByFd (fun copy live => ?_) (fun _ => .inl .nil)
  simp only [post_failIf]
  refine ⟨fun _ => .inl .nil, fun _ => ⟨fun _ => .inl .nil, fun _ => ?_⟩⟩
  have reads := rtsReadInode_keeps_slots fs copy.name now (toUnsigned32 fd)
  refine ((rtsReadInode_performs fs copy.name now).and reads).mono ?_ ?_ ?_
  · rintro data fs₁ ⟨⟨f, old, new, stored, found, rfl, -, read⟩, same⟩
    refine (rtsFflushInode_performs (same.trans live) now).mono ?_ ?_ ?_
    · rintro - fs₂ (⟨flushed, empty⟩ | ⟨flushed, performed⟩)
      · exact ⟨copy, f, old, new, live, stored, found, rfl, .inl ⟨read.trans flushed, empty⟩⟩
      · exact ⟨copy, f, old, new, live, stored, found, rfl, .inr ⟨flushed, read.trans performed⟩⟩
    · rintro - fs₂ (⟨performed, -⟩ | performed | ⟨flushed, performed, -⟩)
      · exact .inr ⟨copy, live, .inr ⟨new, .inl (read.trans performed)⟩⟩
      · exact .inr ⟨copy, live, .inr ⟨new, .inr (.inl (read.trans performed))⟩⟩
      · exact .inr ⟨copy, live, .inr ⟨new, .inr (.inr ⟨flushed, read.trans performed⟩)⟩⟩
    · exact fun why freed is => ⟨copy, live, .inr ⟨new, fs₁, read, freed is⟩⟩
  · rintro - fs₁ ⟨performed | performed, -⟩
    · exact .inl performed
    · exact .inr ⟨copy, live, .inl performed⟩
  · exact fun why freed is => ⟨copy, live, .inl (freed.1 is)⟩

inductive Evictions : List (Action codec) → Prop where
  | nil : Evictions []
  | cons {acts} (name : Filename) (new : codec.Artifact) : Evictions acts →
      Evictions (.reread name new :: .vanish name :: acts)

def EvictionFails (acts : List (Action codec)) : Prop :=
  acts = [] ∨ ∃ name, acts = [.spoil name] ∨ ∃ new, acts = [.reread name new] ∨
    acts = [.reread name new, .vanish name]

theorem rtsEvict_performs (s : WriteState codec) (now : Int) :
    (WriteState.rtsEvict now s).Post
      (fun _ s' => ∃ name new,
        s.fileSystem.Performs [.reread name new, .vanish name] s'.fileSystem)
      (fun _ s' => ∃ acts, EvictionFails acts ∧ s.fileSystem.Performs acts s'.fileSystem)
      (fun why => why = .decodeFreed → ∃ name, FreedFile s.fileSystem.view name) := by
  have counted : s.fileSystem.Performs [] { s.fileSystem with
      monitor := s.fileSystem.monitor.evictionStarted } := Performs.nil.counted _
  simp only [WriteState.rtsEvict, WriteState.onFileSystem, post_bind, post_zoom, post_modify,
    post_get]
  refine post_ofExcept (fun inode _ => ?_) (fun _ _ => ⟨[], .inl rfl, counted⟩)
  refine (rtsReadInode_performs _ inode.name now).mono ?_ ?_ ?_
  · rintro data fs₁ ⟨-, -, new, -, -, -, -, read⟩
    refine (rtsRemoveInode_performs fs₁ inode.name).mono ?_ ?_ ?_
    · exact fun _ fs₂ removed => ⟨inode.name, new, read.trans removed⟩
    · rintro - fs₂ (same | removed)
      · exact ⟨_, .inr ⟨inode.name, .inr ⟨new, .inl rfl⟩⟩, read.trans same⟩
      · exact ⟨_, .inr ⟨inode.name, .inr ⟨new, .inr rfl⟩⟩, read.trans removed⟩
    · exact fun why other is => absurd is other
  · rintro - fs₁ (same | spoilt)
    · exact ⟨[], .inl rfl, same⟩
    · exact ⟨_, .inr ⟨inode.name, .inl rfl⟩, spoilt⟩
  · exact fun why freed is => ⟨inode.name, freed is⟩

theorem makeRoom_performs (s : WriteState codec) (finalCount now : Int) (bound : Nat) :
    (WriteState.makeRoom finalCount now bound s).Post
      (fun _ s' => ∃ acts, Evictions acts ∧ s.fileSystem.Performs acts s'.fileSystem)
      (fun _ s' => ∃ acts last, Evictions acts ∧ EvictionFails last ∧
        s.fileSystem.Performs (acts ++ last) s'.fileSystem)
      (fun why => why = .decodeFreed → ∃ acts v name, Evictions acts ∧
        (viewSystem codec).Trace s.fileSystem.view acts v ∧ FreedFile v name) := by
  induction bound generalizing s with
  | zero => simp [WriteState.makeRoom]
  | succ bound ih =>
      have nothing : ∃ acts last, Evictions acts ∧ EvictionFails last ∧
          s.fileSystem.Performs (acts ++ last) s.fileSystem :=
        ⟨[], [], .nil, .inl rfl, .nil⟩
      simp only [WriteState.makeRoom, post_bind, post_get]
      split
      · simp only [post_bind, post_failIf]
        refine ⟨fun _ => nothing, fun _ => ⟨fun _ => nothing, fun _ => ?_⟩⟩
        refine (rtsEvict_performs s now).mono ?_ ?_ ?_
        · rintro - s₁ ⟨name, new, evicted⟩
          refine (ih s₁).mono ?_ ?_ ?_
          · rintro - s₂ ⟨acts, evictions, performed⟩
            exact ⟨_, .cons name new evictions, evicted.trans performed⟩
          · rintro - s₂ ⟨acts, last, evictions, fails, performed⟩
            exact ⟨_, last, .cons name new evictions, fails, evicted.trans performed⟩
          · intro why freed is
            obtain ⟨acts, v, other, evictions, trace, found⟩ := freed is
            exact ⟨_, v, other, .cons name new evictions,
              ActionSystem.Trace.append evicted trace, found⟩
        · rintro - s₁ ⟨last, fails, performed⟩
          exact ⟨[], last, .nil, fails, performed⟩
        · intro why freed is
          obtain ⟨name, found⟩ := freed is
          exact ⟨[], _, name, .nil, .nil _, found⟩
      · exact ⟨[], .nil, .nil⟩

def StoreFails (fd : Nat) (bytes : List UInt8) (acts : List (Action codec))
    (fs' : FileSystem codec) : Prop :=
  acts = [] ∨ acts = [.store fd bytes] ∧ Unflushable fs'.view fd ∨
    acts = [.store fd bytes, .tear fd] ∨ ∃ new, acts = [.store fd bytes, .flush fd new] ∧ Oversized fs'

theorem writeDescriptor_performs (fs : FileSystem codec) (fd : Int) (bytes : List UInt8) (pid : Pid)
    (now : Int) :
    (writeDescriptor fd (some bytes) pid now fs).Post
      (fun _ fs' => ∃ copy new,
        fs.slot (toUnsigned32 fd) = some { owner := pid, inode := copy } ∧
        fs.Performs [.store (toUnsigned32 fd) bytes, .flush (toUnsigned32 fd) new] fs')
      (fun _ fs' => ∃ acts, StoreFails (toUnsigned32 fd) bytes acts fs' ∧ fs.Performs acts fs' ∧
        (acts ≠ [] → ∃ copy, fs.slot (toUnsigned32 fd) = some { owner := pid, inode := copy }))
      (fun why => why = .decodeFreed → ∃ copy fs₁,
        fs.slot (toUnsigned32 fd) = some { owner := pid, inode := copy } ∧
        fs.Performs [.store (toUnsigned32 fd) bytes] fs₁ ∧
        FreedSlot fs₁.view (toUnsigned32 fd)) := by
  have nothing : ∃ acts, StoreFails (toUnsigned32 fd) bytes acts fs ∧ fs.Performs acts fs ∧
      (acts ≠ [] → ∃ copy, fs.slot (toUnsigned32 fd) = some { owner := pid, inode := copy }) :=
    ⟨[], .inl rfl, .nil, fun some_ => absurd rfl some_⟩
  simp only [writeDescriptor, post_bind]
  refine post_rtsGetInodeByFd (fun copy live => ?_) (fun _ => nothing)
  simp only [post_failIf]
  refine ⟨fun _ => nothing, fun _ => ⟨fun _ => nothing, fun _ => ?_⟩⟩
  refine post_ofExcept (fun buffered write => ?_) (fun _ _ => nothing)
  obtain ⟨some_, small, rfl⟩ : bytes ≠ [] ∧ (copy.buffer ++ bytes).length < 2 ^ 31 ∧
      { copy with buffer := copy.buffer ++ bytes, ctime := now } = buffered := by
    simp only [Inode.write] at write
    split at write
    · cases write
    · split at write
      · cases write
      · rename_i some_ fits
        rw [not_le, ← List.length_append] at fits
        exact ⟨some_, fits, Except.ok.inj write⟩
  have stored : fs.Performs [.store (toUnsigned32 fd) bytes] (fs.updateSlot (toUnsigned32 fd)
      fun _ => { copy with buffer := copy.buffer ++ bytes, ctime := now }) := by
    refine .single ⟨some_, _, view_slot live, small⟩ ?_
    refine view_updateSlot fun entry found => ?_
    obtain rfl : { owner := pid, inode := copy } = entry := Option.some.inj (live.symm.trans found)
    rfl
  have live' : (fs.updateSlot (toUnsigned32 fd) fun _ =>
      { copy with buffer := copy.buffer ++ bytes, ctime := now }).slot (toUnsigned32 fd) =
      some { owner := pid, inode :=
        { copy with buffer := copy.buffer ++ bytes, ctime := now } } := by simp [live]
  refine (rtsFflushInode_performs live' now).mono ?_ ?_ ?_
  · rintro - fs₁ (⟨-, empty⟩ | ⟨new, flushed⟩)
    · exact absurd (List.append_eq_nil_iff.mp empty).2 some_
    · exact ⟨copy, new, live, stored.trans flushed⟩
  · rintro - fs₁ (⟨same, unflushable⟩ | torn | ⟨new, flushed, oversized⟩)
    · refine ⟨_, .inr (.inl ⟨rfl, ?_⟩), stored.trans same, fun _ => ⟨copy, live⟩⟩
      rw [same.view_eq]
      exact unflushable.resolve_right fun empty => some_ (List.append_eq_nil_iff.mp empty).2
    · exact ⟨_, .inr (.inr (.inl rfl)), stored.trans torn, fun _ => ⟨copy, live⟩⟩
    · exact ⟨_, .inr (.inr (.inr ⟨new, rfl, oversized⟩)), stored.trans flushed,
        fun _ => ⟨copy, live⟩⟩
  · exact fun why freed is => ⟨copy, _, live, stored, freed is⟩

theorem Evictions.slot_eq {evs : List (Action codec)} (evictions : Evictions evs)
    {v w : View codec} (trace : (viewSystem codec).Trace v evs w) : w.slot = v.slot := by
  induction evictions generalizing v with
  | nil =>
      cases trace
      rfl
  | cons name new _ ih =>
      obtain _ | ⟨-, _ | ⟨-, rest⟩⟩ := trace
      exact (ih rest).trans rfl

/-- Some artifact a write decodes has been freed: that of a victim, or that of the
    descriptor after some evictions. -/
def WriteFreed (v : View codec) (fd : Nat) (pid : Pid) : Prop :=
  ∃ evs w, Evictions evs ∧ (viewSystem codec).Trace v evs w ∧ ((∃ name, FreedFile w name) ∨
    Owns v fd pid ∧ ∃ bytes u, (viewSystem codec).Trace w [.store fd bytes] u ∧ FreedSlot u fd)

/-- What a write does after its evictions before it fails in the state `fs'`. -/
def WriteFails (fs fs' : FileSystem codec) (fd : Nat) (buf : Option (List UInt8)) (pid : Pid)
    (acts : List (Action codec)) : Prop :=
  EvictionFails acts ∨
    ∃ bytes, buf = some bytes ∧ StoreFails fd bytes acts fs' ∧ Owns fs.view fd pid

theorem fileSystemWrite_performs (s : WriteState codec) (fd : Int) (buf : Option (List UInt8))
    (pid : Pid) (now : Int) :
    (fileSystemWrite fd buf pid now s).Post
      (fun _ s' => ∃ evs bytes new, buf = some bytes ∧ Evictions evs ∧
        Owns s.fileSystem.view (toUnsigned32 fd) pid ∧ s.fileSystem.Performs
          (evs ++ [.store (toUnsigned32 fd) bytes, .flush (toUnsigned32 fd) new]) s'.fileSystem)
      (fun _ s' => ∃ evs acts, Evictions evs ∧
        WriteFails s.fileSystem s'.fileSystem (toUnsigned32 fd) buf pid acts ∧
        s.fileSystem.Performs (evs ++ acts) s'.fileSystem)
      (fun why => why = .decodeFreed → WriteFreed s.fileSystem.view (toUnsigned32 fd) pid) := by
  have nothing : ∃ evs acts, Evictions evs ∧
      WriteFails s.fileSystem s.fileSystem (toUnsigned32 fd) buf pid acts ∧
      s.fileSystem.Performs (evs ++ acts) s.fileSystem := ⟨[], [], .nil, .inl (.inl rfl), .nil⟩
  simp only [fileSystemWrite, encodeBuffer, WriteState.onFileSystem, post_bind, post_zoom,
    post_orFail]
  refine ⟨fun _ => nothing, fun bytes given => ?_⟩
  rw [post_ite]
  refine ⟨fun _ => by simp, fun _ => ?_⟩
  simp only [post_orFail, post_get, post_failIf]
  refine ⟨fun _ => nothing, fun artifact _ => ⟨fun _ => nothing, fun _ => ?_⟩⟩
  refine (makeRoom_performs s _ now _).mono ?_ ?_ ?_
  · rintro - s₁ ⟨evs, evictions, evicted⟩
    have slots := evictions.slot_eq evicted
    have owns : ∀ copy, s₁.fileSystem.slot (toUnsigned32 fd) = some { owner := pid, inode := copy } →
        Owns s.fileSystem.view (toUnsigned32 fd) pid := by
      intro copy live
      obtain ⟨slot, found, own⟩ := owns_of_slot live
      exact ⟨slot, by rw [← slots]; exact found, own⟩
    subst given
    refine (writeDescriptor_performs s₁.fileSystem fd bytes pid now).mono ?_ ?_ ?_
    · rintro - fs₂ ⟨copy, new, live, written⟩
      exact ⟨evs, bytes, new, rfl, evictions, owns copy live, evicted.trans written⟩
    · rintro - fs₂ ⟨acts, fails, written, live⟩
      by_cases empty : acts = []
      · exact ⟨evs, acts, evictions, .inl (.inl empty), evicted.trans written⟩
      · obtain ⟨copy, live⟩ := live empty
        exact ⟨evs, acts, evictions, .inr ⟨bytes, rfl, fails, owns copy live⟩,
          evicted.trans written⟩
    · rintro why freed is
      obtain ⟨copy, fs₂, live, stored, found⟩ := freed is
      exact ⟨evs, _, evictions, evicted, .inr ⟨owns copy live, bytes, _, stored, found⟩⟩
  · rintro - s₁ ⟨evs, acts, evictions, fails, performed⟩
    exact ⟨evs, acts, evictions, .inl fails, performed⟩
  · intro why freed is
    obtain ⟨evs, w, name, evictions, trace, found⟩ := freed is
    exact ⟨evs, w, evictions, trace, .inl ⟨name, found⟩⟩

end FileSystem

end FileStorage
