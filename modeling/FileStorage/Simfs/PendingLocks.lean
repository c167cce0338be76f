import FileStorage.Simfs.FailedCalls
import FileStorage.Simfs.Waiting

/-! # Pending locks

A lock request that has to wait is counted in its file, and as long as it is, the
file refuses all other opens and lock requests. `Awaits` is a file with one thread
that waits, `Settled` a file without any: every step leaves a file in one of the
two states, where only pids that are positive as an `int` ask for its lock.
-/

namespace FileStorage

open Program FileSystem

variable {codec : Codec}

def Action.Calm (name : Filename) : Action codec → Prop
  | .request other | .grant other _ | .settle other => other ≠ name
  | .block waiter => waiter.name ≠ name
  | _ => True

/-- A call is granted the lock of a file or leaves it alone, or it waits for the lock. -/
def FileSystem.TakesTurn (fs : FileSystem codec) (name : Filename) (pid : Pid)
    (fs' : FileSystem codec) : Prop :=
  (∃ turn rest, (turn = [] ∨ 0 < asInt pid ∧ turn = [.request name, .grant name pid, .settle name]) ∧
    (∀ a ∈ rest, a.Calm name) ∧ fs.Performs (turn ++ rest) fs') ∨
  0 < asInt pid ∧ (∀ f, fs.view.file name = some f → f.locked = 0) ∧
    ∃ generation call, fs.Performs [.request name, .block { pid, name, generation, call }] fs'

/-- The waiting thread takes the lock, and it may open a descriptor. -/
def FileSystem.TakesOver (fs : FileSystem codec) (waiter : Waiter) (fs' : FileSystem codec) : Prop :=
  ∃ rest, (∀ a ∈ rest, ∃ fd, a = .attach fd waiter.name waiter.pid) ∧
    fs.Performs ([.unblock waiter, .grant waiter.name waiter.pid, .settle waiter.name] ++ rest) fs'

/-! ## The calls -/

namespace FileSystem

variable {fs : FileSystem codec} {name : Filename} {pid : Pid} {now : Int} {inode : Inode}

theorem grantLock_succeeds (present : fs.file name = some inode) (free : inode.locked = 0)
    (pending : inode.pendingLocks ≠ 0) :
    (grantLock name pid now fs).Post (fun _ _ => True) (fun _ _ => False) (fun _ => False) := by
  refine (grantLock_fails present pid now).mono (fun _ _ _ => trivial) ?_ (fun _ h => h)
  rintro code fs' (⟨held, -⟩ | ⟨-, none_, -⟩)
  · exact held free
  · exact pending none_

theorem rtsLockInode_refused (present : fs.file name = some inode) (free : inode.locked = 0)
    (call : WaitingCall) :
    (rtsLockInode name pid call now fs).Post (fun _ _ => inode.pendingLocks = 0)
      (fun _ fs' => fs' = fs ∧ inode.pendingLocks ≠ 0) (fun _ => False) := by
  have unlocked : inode.isFileLocked = 0 := by rw [Inode.isFileLocked, free, asInt_zero]
  refine ((rtsLockInode_performs fs name pid call now).and (rtsLockInode_fails present
    (by rw [unlocked]; decide) unlocked.le pid call now)).mono ?_ ?_ (fun _ h => h.1)
  · have requested : ∀ {acts fs'}, fs.Performs (.request name :: acts) fs' →
        inode.pendingLocks = 0 := by
      rintro acts fs' performs
      by_contra pending
      exact Event.not_requested (view_file present) pending performs
    rintro (_ | _) fs' ⟨locks, -⟩
    · exact requested locks
    · obtain ⟨generation, blocks⟩ := locks
      exact requested blocks
  · rintro code fs' ⟨-, ⟨-, pending, same⟩ | ⟨⟨other, found, -, negative, -⟩, -⟩⟩
    · exact ⟨same, pending⟩
    · cases present.symm.trans found
      rw [unlocked] at negative
      exact absurd negative (by decide)

/-- The lock is free or belongs to a pid that is positive as an `int`. -/
def SoundLock (locked : Pid) : Prop := locked = 0 ∨ 0 < asInt locked

theorem openExisting_pending (present : fs.file name = some inode) (free : inode.locked = 0)
    (pending : inode.pendingLocks ≠ 0) {flags : Nat}
    (positive : flags.testBit 1 = true → 0 < asInt pid) :
    (openExisting name flags pid now fs).Post (fun _ _ => False) (fun _ fs' => fs' = fs)
      (fun _ => False) := by
  have unlocked : inode.isFileLocked = 0 := by rw [Inode.isFileLocked, free, asInt_zero]
  simp only [openExisting, post_bind]
  refine post_rtsGetInode (fun found _ stored => ?_) (fun _ => rfl)
  obtain rfl := Option.some.inj (present.symm.trans stored)
  rw [unlocked]
  simp only [post_failIf]
  refine ⟨fun _ => trivial, fun _ => ⟨fun _ => trivial, fun _ => ?_⟩⟩
  by_cases lock : flags.testBit 1 = true
  · rw [if_pos lock, if_neg (positive lock).ne, post_bind]
    exact (rtsLockInode_refused present free .open).mono (fun _ _ settled => absurd settled pending)
      (fun _ _ fails => fails.1) (fun _ h => h)
  · rw [if_neg lock, post_bind, post_failIf]
    exact ⟨fun _ => rfl, fun settled =>
      absurd (by simpa [Inode.hasPendingLocks] using settled) pending⟩

theorem rtsLockInode_settled (present : fs.file name = some inode) (free : inode.locked = 0)
    (settled : inode.pendingLocks = 0) (positive : 0 < asInt pid) (call : WaitingCall) :
    (rtsLockInode name pid call now fs).Post
      (fun progress fs' => match progress with
        | .done _ => fs.Performs [.request name, .grant name pid, .settle name] fs'
        | .waiting => TakesTurn fs name pid fs')
      (fun _ _ => False) (fun _ => False) := by
  refine ((rtsLockInode_performs fs name pid call now).and (rtsLockInode_refused present free call)).mono
    ?_ ?_ (fun _ h => h.1)
  · rintro (_ | _) fs' ⟨locks, -⟩
    · exact locks
    · obtain ⟨generation, performs⟩ := locks
      refine .inr ⟨positive, fun f found => ?_, generation, call, performs⟩
      obtain rfl := Option.some.inj ((view_file present).symm.trans found)
      exact free
  · exact fun _ _ fails => fails.2.2 settled

theorem openExisting_settled (present : fs.file name = some inode) (sound : SoundLock inode.locked)
    (settled : inode.pendingLocks = 0) {flags : Nat}
    (positive : flags.testBit 1 = true → 0 < asInt pid) :
    (openExisting name flags pid now fs).Post (fun _ fs' => TakesTurn fs name pid fs')
      (fun _ fs' => TakesTurn fs name pid fs') (fun _ => False) := by
  have nothing : TakesTurn fs name pid fs := .inl ⟨[], [], .inl rfl, nofun, .nil⟩
  simp only [openExisting, post_bind]
  refine post_rtsGetInode (fun found _ stored => ?_) (fun _ => nothing)
  obtain rfl := Option.some.inj (present.symm.trans stored)
  simp only [post_failIf]
  refine ⟨fun _ => nothing, fun _ => ⟨fun _ => nothing, fun access => ?_⟩⟩
  have access : ¬ (0 < asInt inode.locked ∧ inode.locked ≠ pid) := by
    simpa [Inode.isFileLocked, asInt_inj] using access
  -- the end of the call where the lock is not touched
  have direct : ((openDescriptor name pid now >>= fun fd => pure (Progress.done fd)) fs).Post
      (fun _ fs' => TakesTurn fs name pid fs') (fun _ fs' => TakesTurn fs name pid fs')
      (fun _ => False) := by
    rw [post_bind]
    refine (openDescriptor_performs present access now).mono (fun fd fs' attached => ?_)
      (fun _ fs' same => ?_) (fun _ h => h)
    · exact .inl ⟨[], [.attach fd name pid], .inl rfl, by simp [Action.Calm], attached⟩
    · exact .inl ⟨[], [], .inl rfl, nofun, same⟩
  by_cases lock : flags.testBit 1 = true
  · rw [if_pos lock]
    by_cases own : inode.isFileLocked = asInt pid
    · rw [if_pos own]
      exact direct
    · rw [if_neg own, post_bind]
      rw [Inode.isFileLocked, asInt_inj] at own
      have free : inode.locked = 0 := sound.resolve_right fun held => access ⟨held, own⟩
      refine (rtsLockInode_settled present free settled (positive lock) .open).mono ?_
        (fun _ _ h => h.elim) (fun _ h => h)
      rintro (_ | _) fs₁ locked
      · obtain ⟨changed, present', own'⟩ : ∃ inode, fs₁.file name = some inode ∧
            inode.locked = pid := by
          obtain _ | ⟨-, rest⟩ := locked
          exact locked_of_settled rest
        rw [post_bind]
        refine (openDescriptor_performs present' (by simp [own']) now).mono ?_ ?_ (fun _ h => h)
        · exact fun fd fs₂ attached => .inl ⟨_, [.attach fd name pid], .inr ⟨positive lock, rfl⟩,
            by simp [Action.Calm], locked.trans attached⟩
        · exact fun _ fs₂ same =>
            .inl ⟨_, [], .inr ⟨positive lock, rfl⟩, nofun, locked.trans same⟩
      · exact locked
  · rw [if_neg lock, post_bind, post_failIf]
    exact ⟨fun _ => nothing, fun _ => direct⟩

theorem fileSystemOpen_pending (present : fs.file name = some inode) (free : inode.locked = 0)
    (pending : inode.pendingLocks ≠ 0) {flags : Nat}
    (positive : flags.testBit 1 = true → 0 < asInt pid) :
    (fileSystemOpen name flags pid now fs).Post (fun _ _ => False) (fun _ fs' => fs' = fs)
      (fun _ => False) := by
  rw [fileSystemOpen_eq]
  simp only [post_bind, openInode, post_failIf, post_get]
  refine ⟨fun _ => trivial, fun _ => ⟨fun _ => trivial, fun _ => ?_⟩⟩
  by_cases create : flags.testBit 0 = true
  · rw [if_pos create]
    simp only [post_bind, post_failIf]
    exact ⟨fun _ => trivial, fun absent => absurd (by simp [present]) absent⟩
  · rw [if_neg create]
    simp only [post_failIf]
    exact ⟨fun _ => trivial, fun _ => openExisting_pending present free pending positive⟩

variable {fd : Int} {copy : Inode}

theorem fileSystemLock_pending
    (live : fs.slot (toUnsigned32 fd) = some { owner := pid, inode := copy })
    (present : fs.file copy.name = some inode) (free : inode.locked = 0)
    (pending : inode.pendingLocks ≠ 0) :
    (fileSystemLock fd pid now fs).Post (fun _ _ => False) (fun _ fs' => fs' = fs)
      (fun _ => False) := by
  simp only [fileSystemLock, post_bind]
  refine post_rtsGetInodeByFd (fun found stored => ?_) (fun _ => rfl)
  obtain rfl : copy = found := by simpa [live] using stored
  refine post_rtsGetInode (fun found _ stored => ?_) (fun _ => rfl)
  obtain rfl := Option.some.inj (present.symm.trans stored)
  have unlocked : ¬ 0 < inode.isFileLocked := by
    rw [Inode.isFileLocked, free, asInt_zero]
    exact lt_irrefl 0
  rw [if_neg unlocked]
  simp only [post_failIf]
  exact ⟨fun _ => trivial, fun _ => (rtsLockInode_refused present free .lock).mono
    (fun _ _ settled => absurd settled pending) (fun _ _ fails => fails.1) (fun _ h => h)⟩

theorem fileSystemLock_settled
    (live : fs.slot (toUnsigned32 fd) = some { owner := pid, inode := copy })
    (present : fs.file copy.name = some inode) (sound : SoundLock inode.locked)
    (settled : inode.pendingLocks = 0) (positive : 0 < asInt pid) :
    (fileSystemLock fd pid now fs).Post (fun _ fs' => TakesTurn fs copy.name pid fs')
      (fun _ fs' => TakesTurn fs copy.name pid fs') (fun _ => False) := by
  have nothing : TakesTurn fs copy.name pid fs := .inl ⟨[], [], .inl rfl, nofun, .nil⟩
  simp only [fileSystemLock, post_bind]
  refine post_rtsGetInodeByFd (fun found stored => ?_) (fun _ => nothing)
  obtain rfl : copy = found := by simpa [live] using stored
  refine post_rtsGetInode (fun found _ stored => ?_) (fun _ => nothing)
  obtain rfl := Option.some.inj (present.symm.trans stored)
  simp only [post_failIf]
  refine ⟨fun _ => nothing, fun _ => ?_⟩
  by_cases locked : 0 < inode.isFileLocked
  · rw [if_pos locked, post_bind, post_failIf]
    exact ⟨fun _ => nothing, fun _ => nothing⟩
  · rw [if_neg locked]
    refine (rtsLockInode_settled present (sound.resolve_right locked) settled positive .lock).mono ?_
      (fun _ _ h => h.elim) (fun _ h => h)
    rintro (_ | _) fs₁ locks
    · exact .inl ⟨_, [], .inr ⟨positive, rfl⟩, nofun, locks⟩
    · exact locks

/-- A thread that waits for a free lock waits on, or it takes the lock. -/
theorem wakeUp_returns {waiter : Waiter} (waits : waiter ∈ fs.blocked)
    (present : fs.file waiter.name = some inode) (same : inode.generation = waiter.generation)
    (free : inode.locked = 0) (pending : inode.pendingLocks ≠ 0) :
    (wakeUp waiter now fs).Post
      (fun progress fs' => match progress with
        | .waiting => fs' = fs ∧ mustWait inode waiter.pid = true
        | .done _ => TakesOver fs waiter fs')
      (fun _ fs' => TakesOver fs waiter fs') (fun _ => False) := by
  simp only [wakeUp, post_bind, post_get, present]
  rw [if_neg (not_not.mpr same)]
  split
  · rename_i wait
    exact ⟨rfl, wait⟩
  · rename_i ready
    have unblocked : fs.Performs [.unblock waiter]
        { fs with blocked := fs.blocked.erase waiter } := .single waits rfl
    simp only [post_bind, post_modify]
    have present' : file { fs with blocked := fs.blocked.erase waiter } waiter.name =
        some inode := present
    refine ((grantLock_performs present' (Bool.eq_false_iff.mpr ready) now).and
      (grantLock_succeeds present' free pending)).mono ?_ (fun _ _ h => h.2.elim) (fun _ h => h.1)
    rintro _ fs₁ ⟨granted, -⟩
    cases waiter.call with
    | lock => exact ⟨[], by simp, unblocked.trans granted⟩
    | «open» =>
        obtain ⟨changed, present₁, own⟩ := locked_of_settled granted
        rw [post_bind]
        refine (openDescriptor_performs present₁ (by simp [own]) now).mono ?_ ?_ (fun _ h => h)
        · exact fun fd fs₂ attached => ⟨[.attach fd waiter.name waiter.pid], by simp,
            unblocked.trans (granted.trans attached)⟩
        · exact fun _ fs₂ same => ⟨[], by simp, unblocked.trans (granted.trans same)⟩

end FileSystem

/-! ## The view -/

namespace View

variable {v v' : View codec} {name : Filename} {a : Action codec} {acts : List (Action codec)}
  {waiter : Waiter}

/-- The threads that wait for a file. -/
def waiters (v : View codec) (name : Filename) : List Waiter := v.blocked.filter (·.name = name)

structure Settled (v : View codec) (name : Filename) : Prop where
  nobody : v.waiters name = []
  state : ∀ state, v.lockState name = some state →
    state.pendingLocks = 0 ∧ SoundLock state.locked

/-- The thread is the only one that waits for its file, which is not locked and to
    which its pid refers. -/
structure Awaits (v : View codec) (waiter : Waiter) : Prop where
  only : v.waiters waiter.name = [waiter]
  state : v.lockState waiter.name = some ⟨waiter.generation, 0, 1⟩
  positive : 0 < asInt waiter.pid
  refers : ∀ f, v.file waiter.name = some f → waiter.pid ∈ f.referenceList

theorem Settled.inode {fs : FileSystem codec} {inode : Inode} (settled : fs.view.Settled name)
    (present : fs.file name = some inode) :
    inode.pendingLocks = 0 ∧ SoundLock inode.locked :=
  settled.state (FileView.of inode).lockState (by rw [lockState, view_file present]; rfl)

theorem Awaits.waits (awaits : v.Awaits waiter) : waiter ∈ v.blocked := by
  have member : waiter ∈ v.waiters waiter.name := by
    rw [awaits.only]
    exact List.mem_singleton_self waiter
  exact (List.mem_filter.mp member).1

theorem Awaits.eq_of_waits (awaits : v.Awaits waiter) {other : Waiter} (waits : other ∈ v.blocked)
    (same : other.name = waiter.name) : other = waiter := by
  have member : other ∈ v.waiters waiter.name :=
    List.mem_filter.mpr ⟨waits, decide_eq_true same⟩
  rw [awaits.only] at member
  exact List.mem_singleton.mp member

theorem Awaits.inode {fs : FileSystem codec} (awaits : fs.view.Awaits waiter) :
    ∃ inode, fs.file waiter.name = some inode ∧ inode.generation = waiter.generation ∧
      inode.locked = 0 ∧ inode.pendingLocks ≠ 0 := by
  obtain ⟨inode, present, is⟩ := Event.lockState_of_file awaits.state
  obtain ⟨same, free, pending⟩ := LockState.mk.inj is
  exact ⟨inode, present, same, free, fun zero => Nat.one_ne_zero (pending.symm.trans zero)⟩

theorem waiters_apply (calm : a.Calm name) (none_ : v.waiters name = []) :
    (v.apply a).waiters name = [] := by
  unfold View.waiters at none_ ⊢
  rw [blocked_apply]
  cases a with
  | block new => simpa [List.filter_append, none_, Action.Calm] using calm
  | unblock woken =>
      rw [List.filter_eq_nil_iff] at none_ ⊢
      exact fun other member => none_ other (List.mem_of_mem_erase member)
  | _ => exact none_

@[simp] theorem lockState_unlock (v : View codec) (name : Filename) (pid : Pid) :
    (v.apply (.unlock name pid)).lockState name =
      (v.lockState name).map fun state => { state with locked := 0 } :=
  lockState_changeFile_self fun _ => rfl

theorem Settled.apply (settled : v.Settled name) (calm : a.Calm name) :
    (v.apply a).Settled name := by
  refine ⟨waiters_apply calm settled.nobody, fun state is => ?_⟩
  by_cases apart : a.leaves = false ∧ a.lockName ≠ some name
  · rw [lockState_apply apart.1 apart.2] at is
    exact settled.state state is
  cases a with
  | create created =>
      obtain rfl : created = name := by simpa [Action.leaves, Action.lockName] using apart
      simp only [lockState, apply, Function.update_self, Option.map_some, Option.some.injEq] at is
      subst is
      exact ⟨rfl, .inl rfl⟩
  | request other | grant other pid | settle other =>
      exact absurd (by simpa [Action.leaves, Action.lockName] using apart) calm
  | unlock other pid =>
      obtain rfl : other = name := by simpa [Action.leaves, Action.lockName] using apart
      rw [lockState_unlock] at is
      obtain ⟨before, was, rfl⟩ := Option.map_eq_some_iff.mp is
      exact ⟨(settled.state before was).1, .inl rfl⟩
  | vanish other =>
      obtain rfl : other = name := by simpa [Action.leaves, Action.lockName] using apart
      simp [lockState, apply] at is
  | leave pid =>
      simp only [lockState, apply, Option.map_map, Option.map_eq_some_iff] at is
      obtain ⟨f, found, rfl⟩ := is
      obtain ⟨pending, sound⟩ := settled.state f.lockState (by rw [lockState, found]; rfl)
      refine ⟨pending, ?_⟩
      simp only [Function.comp_apply, FileView.left, FileView.lockState]
      split
      · exact .inl rfl
      · exact sound
  | _ => exact absurd (by simp [Action.leaves, Action.lockName]) apart

theorem Settled.trace (settled : v.Settled name) (trace : (viewSystem codec).Trace v acts v')
    (calm : ∀ a ∈ acts, a.Calm name) : v'.Settled name := by
  induction trace with
  | nil v => exact settled
  | cons _ _ ih =>
      obtain ⟨first, rest⟩ := List.forall_mem_cons.mp calm
      exact ih (settled.apply first) rest

/-- Some other pid refers to the file that the thread waits for. -/
def Shared (v : View codec) (waiter : Waiter) : Prop :=
  ∃ f, v.file waiter.name = some f ∧ ∃ other ∈ f.referenceList, other ≠ waiter.pid

/-- The file is settled, or a thread has begun to wait for it. -/
def Attended (v : View codec) (name : Filename) : Prop :=
  v.Settled name ∨ ∃ waiter, waiter.name = name ∧ v.Awaits waiter ∧ v.Shared waiter

theorem Settled.granted {pid : Pid} (settled : v.Settled name) (positive : 0 < asInt pid)
    (trace : (viewSystem codec).Trace v [.request name, .grant name pid, .settle name] v') :
    v'.Settled name := by
  refine ⟨?_, fun state is => ?_⟩
  · have same : v'.blocked = v.blocked := blocked_trace trace (by simp)
    rw [View.waiters, same]
    exact settled.nobody
  · rw [trace.eq_foldl] at is
    simp only [List.foldl_cons, List.foldl_nil, viewSystem, lockState_settle, lockState_grant,
      lockState_request, Option.map_map, Option.map_eq_some_iff] at is
    obtain ⟨before, was, rfl⟩ := is
    exact ⟨(settled.state before was).1, .inr positive⟩

theorem Settled.blocks (settled : v.Settled waiter.name) (positive : 0 < asInt waiter.pid)
    (free : ∀ f, v.file waiter.name = some f → f.locked = 0)
    (trace : (viewSystem codec).Trace v [.request waiter.name, .block waiter] v') :
    v'.Awaits waiter ∧ v'.Shared waiter := by
  obtain _ | ⟨-, _ | ⟨⟨f, found, same, -, refers, shared⟩, _ | -⟩⟩ := trace
  obtain ⟨before, was, rfl⟩ := file_of_changeFile found
  have locked : v.lockState waiter.name = some before.lockState := by
    rw [lockState, was]
    rfl
  have none_ := (settled.state before.lockState locked).1
  refine ⟨⟨?_, ?_, positive, fun after is => ?_⟩, _, found, shared⟩
  · have nobody : v.blocked.filter (·.name = waiter.name) = [] := settled.nobody
    change (v.blocked ++ [waiter]).filter (·.name = waiter.name) = [waiter]
    rw [List.filter_append, nobody]
    simp
  · have same : before.generation = waiter.generation := by simpa using same
    simp only [viewSystem, lockState_block, lockState_request, locked, Option.map_some, none_]
    rw [FileView.lockState, free before was, same]
  · obtain rfl := Option.some.inj (found.symm.trans is)
    exact refers

theorem Settled.takesTurn {fs fs' : FileSystem codec} {pid : Pid} (settled : fs.view.Settled name)
    (takes : fs.TakesTurn name pid fs') : fs'.view.Attended name := by
  rcases takes with ⟨turn, rest, turned, calm, performs⟩ | ⟨positive, free, generation, call, blocks⟩
  · obtain ⟨v, first, second⟩ := performs.of_append
    rcases turned with rfl | ⟨positive, rfl⟩
    · exact .inl ((settled.trace first nofun).trace second calm)
    · exact .inl ((settled.granted positive first).trace second calm)
  · exact .inr ⟨_, rfl, @Settled.blocks _ _ _ ⟨pid, name, generation, call⟩ settled positive free blocks⟩

/-! ## While a thread waits -/

/-- The action leaves the request of a waiting thread alone and does not give back a
    reference of its pid. -/
def Bears (waiter : Waiter) (v : View codec) : Action codec → Prop
  | .create name | .request name | .grant name _ | .settle name | .attach _ name _
  | .vanish name => name ≠ waiter.name
  | .block other | .unblock other => other.name ≠ waiter.name
  | .close fd => ∀ s, v.slot fd = some s → s.owner ≠ waiter.pid
  | .release _ pid => pid ≠ waiter.pid
  | .leave _ => False
  | _ => True

theorem refers_apply (bears : Bears waiter v a)
    (refers : ∀ f, v.file waiter.name = some f → waiter.pid ∈ f.referenceList) {f' : FileView}
    (stored : (v.apply a).file waiter.name = some f') : waiter.pid ∈ f'.referenceList := by
  cases a with
  | create name =>
      have away : waiter.name ≠ name := Ne.symm bears
      exact refers f' (by simpa [apply, Function.update_of_ne away] using stored)
  | attach fd name pid =>
      obtain ⟨f, found, rfl⟩ := file_of_changeFile stored
      rw [if_neg (Ne.symm bears)]
      exact refers f found
  | close fd =>
      simp only [apply] at stored
      split at stored
      · exact refers f' stored
      · rename_i s live
        obtain ⟨f, found, rfl⟩ := file_of_changeFile stored
        have member := refers f found
        split
        · unfold FileView.released
          split
          · exact (List.mem_erase_of_ne (Ne.symm (bears s live))).mpr member
          · exact member
        · exact member
  | release name pid =>
      obtain ⟨f, found, rfl⟩ := file_of_changeFile stored
      have member := refers f found
      split
      · exact (List.mem_erase_of_ne (Ne.symm bears)).mpr member
      · exact member
  | leave pid => exact bears.elim
  | _ =>
      obtain ⟨f, found, -, references, -⟩ := file_of_apply rfl stored
      rw [(references rfl).1]
      exact refers f found

/-- A thread goes on waiting under all actions that leave its request alone. -/
theorem Awaits.apply (awaits : v.Awaits waiter) (bears : Bears waiter v a) :
    (v.apply a).Awaits waiter := by
  refine ⟨?_, ?_, awaits.positive, fun f' stored => refers_apply bears awaits.refers stored⟩
  · have only := awaits.only
    unfold View.waiters at only ⊢
    rw [blocked_apply]
    cases a with
    | block new => simpa [List.filter_append, only, Bears] using bears
    | unblock woken =>
        have other : woken ∉ v.blocked.filter (·.name = waiter.name) := fun member =>
          bears (of_decide_eq_true (List.mem_filter.mp member).2)
        simp only
        rw [← List.erase_filter, List.erase_of_not_mem other, only]
    | _ => exact only
  · by_cases apart : a.leaves = false ∧ a.lockName ≠ some waiter.name
    · rw [lockState_apply apart.1 apart.2, awaits.state]
    cases a with
    | create name | request name | grant name pid | settle name | vanish name =>
        exact absurd (by simpa [Action.leaves, Action.lockName] using apart) bears
    | unlock name pid =>
        obtain rfl : name = waiter.name := by simpa [Action.leaves, Action.lockName] using apart
        rw [lockState_unlock, awaits.state]
        rfl
    | leave pid => exact bears.elim
    | _ => exact absurd (by simp [Action.leaves, Action.lockName]) apart

theorem Awaits.served (awaits : v.Awaits waiter)
    (trace : (viewSystem codec).Trace v
      [.unblock waiter, .grant waiter.name waiter.pid, .settle waiter.name] v') :
    v'.Settled waiter.name ∧
      v'.lockState waiter.name = some ⟨waiter.generation, waiter.pid, 0⟩ := by
  have locked : v'.lockState waiter.name = some ⟨waiter.generation, waiter.pid, 0⟩ := by
    rw [trace.eq_foldl]
    simp only [List.foldl_cons, List.foldl_nil, viewSystem, lockState_settle, lockState_grant,
      lockState_unblock, awaits.state, Option.map_some]
  refine ⟨⟨?_, fun state is => ?_⟩, locked⟩
  · have blocked : v'.blocked = v.blocked.erase waiter := by
      rw [trace.eq_foldl]
      rfl
    rw [View.waiters, blocked, ← List.erase_filter]
    have only : v.blocked.filter (·.name = waiter.name) = [waiter] := awaits.only
    rw [only, List.erase_cons_head]
  · obtain rfl := Option.some.inj (locked.symm.trans is)
    exact ⟨rfl, .inr awaits.positive⟩

theorem gone_trace (trace : (viewSystem codec).Trace v acts v')
    (old : ∀ a ∈ acts, a.creates = false) (vanishes : .vanish name ∈ acts) :
    v'.file name = none := by
  have absent : ∀ {v v' : View codec} {acts : List (Action codec)},
      (viewSystem codec).Trace v acts v' → (∀ a ∈ acts, a.creates = false) →
      v.file name = none → v'.file name = none := by
    intro v v' acts trace old gone
    induction trace with
    | nil v => exact gone
    | @cons v a acts t _ _ ih =>
        obtain ⟨first, rest⟩ := List.forall_mem_cons.mp old
        refine ih rest (Option.eq_none_iff_forall_ne_some.mpr fun f stored => ?_)
        obtain ⟨f₀, found, -⟩ := file_of_apply first stored
        cases gone.symm.trans found
  obtain ⟨before, after, rfl⟩ := List.append_of_mem vanishes
  obtain ⟨w, -, trace⟩ := trace.of_append
  obtain _ | ⟨-, rest⟩ := trace
  exact absent rest (fun a member => old a (by simp [member])) (by simp [viewSystem, apply])

def NewSlotsOf (pid : Pid) (v v' : View codec) (name : Filename) : Prop :=
  ∀ fd s', v'.slot fd = some s' → s'.name = name → s'.owner ≠ pid →
    ∃ s, v.slot fd = some s ∧ s'.key = s.key

variable {pid : Pid}

theorem newSlotsOf_apply (own : ∀ fd other, a = .attach fd name other → other = pid) :
    NewSlotsOf pid v (v.apply a) name := by
  intro fd s' live named other
  cases a with
  | attach fd' opened owner =>
      by_cases this : fd = fd'
      · subst this
        simp only [apply, Function.update_self, Option.map_eq_some_iff] at live
        obtain ⟨f, -, rfl⟩ := live
        obtain rfl : opened = name := named
        exact absurd (own fd owner rfl) other
      · exact ⟨s', by simpa [apply, Function.update_of_ne this] using live, rfl⟩
  | close fd' => exact ⟨s', (slot_of_close live).2, rfl⟩
  | forget pid | leave pid => exact ⟨s', (Option.filter_eq_some_iff.mp live).1, rfl⟩
  | _ => exact slot_of_apply rfl live

theorem NewSlotsOf.trans {w : View codec} (first : NewSlotsOf pid v v' name)
    (second : NewSlotsOf pid v' w name) : NewSlotsOf pid v w name := by
  intro fd s' live named other
  obtain ⟨s, between, key⟩ := second fd s' live named other
  obtain ⟨sameOwner, sameName, -⟩ := SlotView.key_eq.mp key
  obtain ⟨s₀, before, key₀⟩ := first fd s between (sameName ▸ named) (sameOwner ▸ other)
  exact ⟨s₀, before, key.trans key₀⟩

theorem newSlotsOf_trace (trace : (viewSystem codec).Trace v acts v')
    (own : ∀ a ∈ acts, ∀ fd other, a = .attach fd name other → other = pid) :
    NewSlotsOf pid v v' name := by
  induction trace with
  | nil v => exact fun fd s live _ _ => ⟨s, live, rfl⟩
  | cons _ _ ih =>
      obtain ⟨first, rest⟩ := List.forall_mem_cons.mp own
      exact (newSlotsOf_apply first).trans (ih rest)

/-- A trace of actions that leave the request of a waiting thread alone. -/
theorem Awaits.trace (awaits : v.Awaits waiter) (trace : (viewSystem codec).Trace v acts v')
    (bears : (viewSystem codec).Meets (Bears waiter) v acts) :
    v'.Awaits waiter ∧ NewSlotsOf waiter.pid v v' waiter.name := by
  induction trace with
  | nil v => exact ⟨awaits, fun fd s live _ _ => ⟨s, live, rfl⟩⟩
  | @cons v a acts t _ _ ih =>
      obtain ⟨kept, slots⟩ := ih (awaits.apply bears.1) bears.2
      refine ⟨kept, (newSlotsOf_apply fun fd other is => ?_).trans slots⟩
      subst is
      exact absurd rfl bears.1

end View

/-! ## The steps -/

namespace Event

variable {fs fs' : FileSystem codec} {event : Event} {name : Filename} {waiter : Waiter}

/-- The step asks for the lock of the file. -/
def Requests (fs : FileSystem codec) (name : Filename) : Event → Bool
  | .open opened flags _ _ => opened = name ∧ flags.testBit 1 = true
  | .lock fd pid _ => (fs.slot (toUnsigned32 fd)).any fun entry =>
      entry.owner = pid ∧ entry.inode.name = name
  | _ => false

theorem attended_open {flags : Nat} {pid : Pid} {now : Int} (settled : fs.view.Settled name)
    (positive : flags.testBit 1 = true → 0 < asInt pid) :
    (fileSystemOpen name flags pid now fs).Post (fun _ fs' => fs'.view.Attended name)
      (fun _ fs' => fs'.view.Attended name) (fun _ => False) := by
  have opened : ∀ {fs₁ : FileSystem codec} {pre}, Opening name flags pre → fs.Performs pre fs₁ →
      fs₁.view.Settled name := by
    rintro fs₁ pre (⟨-, rfl⟩ | ⟨-, rfl⟩) performs
    · exact settled.trace performs nofun
    · exact settled.trace performs (by simp [Action.Calm])
  rw [fileSystemOpen_eq, post_bind]
  refine (openInode_performs fs name flags now).mono ?_ ?_ (fun _ h => h)
  · rintro - fs₁ ⟨pre, opening, performs⟩
    have settled₁ := opened opening performs
    cases present : fs₁.file name with
    | none =>
        simp only [openExisting, post_bind]
        refine post_rtsGetInode (fun inode _ stored => ?_) (fun _ => .inl settled₁)
        cases present.symm.trans stored
    | some inode =>
        obtain ⟨none_, sound⟩ := settled₁.inode present
        exact (openExisting_settled present sound none_ positive).mono
          (fun _ _ takes => settled₁.takesTurn takes) (fun _ _ takes => settled₁.takesTurn takes)
          (fun _ h => h)
  · rintro - fs₁ (performs | ⟨pre, opening, performs⟩)
    · exact .inl (settled.trace performs nofun)
    · exact .inl (opened opening performs)

theorem attended_lock {fd : Int} {pid : Pid} {now : Int} {copy : Inode}
    (live : fs.slot (toUnsigned32 fd) = some { owner := pid, inode := copy })
    (settled : fs.view.Settled copy.name) (positive : 0 < asInt pid) :
    (fileSystemLock fd pid now fs).Post (fun _ fs' => fs'.view.Attended copy.name)
      (fun _ fs' => fs'.view.Attended copy.name) (fun _ => False) := by
  cases present : fs.file copy.name with
  | none =>
      simp only [fileSystemLock, post_bind]
      refine post_rtsGetInodeByFd (fun found stored => ?_) (fun _ => .inl settled)
      obtain rfl : copy = found := by simpa [live] using stored
      refine post_rtsGetInode (fun inode _ stored => ?_) (fun _ => .inl settled)
      cases present.symm.trans stored
  | some inode =>
      obtain ⟨none_, sound⟩ := settled.inode present
      exact (fileSystemLock_settled live present sound none_ positive).mono
        (fun _ _ takes => settled.takesTurn takes) (fun _ _ takes => settled.takesTurn takes)
        (fun _ h => h)

/-- A file that is settled stays so, unless a step begins to wait for its lock. -/
theorem settled_call (settled : fs.view.Settled name) (possible : event.Possible fs)
    (result : (event.call fs).state? = some fs')
    (asks : event.Requests fs name = true → 0 < asInt event.pid) : fs'.view.Attended name := by
  obtain ⟨acts, does, performs⟩ := Step.performed possible result
  have may := does.mayDo
  have calm : (∀ a ∈ acts, a.Calm name) → fs'.view.Attended name := fun calm =>
    .inl (settled.trace performs calm)
  cases event with
  | «open» opened flags pid now =>
      by_cases this : opened = name
      · subst this
        have positive : flags.testBit 1 = true → 0 < asInt pid := fun flag =>
          asks (by simp [Requests, flag])
        have opens : ((Event.open opened flags pid now).call fs).Post
            (fun _ fs' => fs'.view.Attended opened) (fun _ fs' => fs'.view.Attended opened)
            (fun _ => False) :=
          post_of_actions (by rintro (_ | _) <;> exact ⟨_, rfl⟩) (attended_open settled positive)
        exact opens.of_state result
      · refine calm fun a member => ?_
        cases may a member <;> simp [Action.Calm, this]
  | lock fd pid now =>
      obtain rfl | ⟨slot, live, own, locks⟩ := does
      · exact calm nofun
      obtain ⟨copy, found, named⟩ := descriptor_of_view live own
      by_cases this : slot.name = name
      · obtain rfl := named.trans this
        have positive : 0 < asInt pid := asks (by simp [Requests, found])
        have locks : ((Event.lock fd pid now).call fs).Post
            (fun _ fs' => fs'.view.Attended copy.name) (fun _ fs' => fs'.view.Attended copy.name)
            (fun _ => False) :=
          post_of_actions (by rintro (_ | _) <;> exact ⟨_, rfl⟩) (attended_lock found settled positive)
        exact locks.of_state result
      · refine calm ?_
        rcases locks with (rfl | rfl | rfl | rfl) | ⟨generation, rfl⟩ <;> simp [Action.Calm, this]
  | wake woken now =>
      have away : woken.name ≠ name := by
        have nobody := settled.nobody
        rw [View.waiters, List.filter_eq_nil_iff] at nobody
        simpa using nobody woken possible
      refine calm fun a member => ?_
      cases may a member <;> simp [Action.Calm, away]
  | _ =>
      refine calm fun a member => ?_
      cases may a member <;> simp [Action.Calm]

def OneCall (fs : FileSystem codec) : Event → Prop
  | .wake _ _ => True
  | event => ∀ waiter ∈ fs.blocked, waiter.pid ≠ event.pid

theorem bears_call (awaits : fs.view.Awaits waiter) (possible : event.Possible fs)
    (result : (event.call fs).state? = some fs') (oneCall : event.OneCall fs)
    (asks : event.Requests fs waiter.name = true → 0 < asInt event.pid)
    (spares : ¬ event.Destroys fs waiter.name) (sleeps : ∀ now, event ≠ .wake waiter now) :
    ∃ acts, (acts = [] ∨ event.Does fs fs' acts) ∧ fs.Performs acts fs' ∧
      (viewSystem codec).Meets (View.Bears waiter) fs.view acts := by
  obtain ⟨acts, does, performs⟩ := Step.performed possible result
  have may := does.mayDo
  have waits : waiter ∈ fs.blocked := awaits.waits
  obtain ⟨inode, present, same, free, pending⟩ := awaits.inode
  have unchanged : fs' = fs → ∃ acts, (acts = [] ∨ event.Does fs fs' acts) ∧
      fs.Performs acts fs' ∧ (viewSystem codec).Meets (View.Bears waiter) fs.view acts := by
    rintro rfl
    exact ⟨[], .inl rfl, .nil, trivial⟩
  have bears : (viewSystem codec).Meets (View.Bears waiter) fs.view acts →
      ∃ acts, (acts = [] ∨ event.Does fs fs' acts) ∧ fs.Performs acts fs' ∧
        (viewSystem codec).Meets (View.Bears waiter) fs.view acts :=
    fun bears => ⟨acts, .inr does, performs, bears⟩
  cases event with
  | «open» opened flags pid now =>
      by_cases this : opened = waiter.name
      · subst this
        have positive : flags.testBit 1 = true → 0 < asInt pid := fun flag =>
          asks (by simp [Requests, flag])
        have opens : ((Event.open waiter.name flags pid now).call fs).Post (fun _ fs' => fs' = fs)
            (fun _ fs' => fs' = fs) (fun _ => False) :=
          post_of_actions (by rintro (_ | _) <;> exact ⟨_, rfl⟩)
            ((fileSystemOpen_pending present free pending positive).mono (fun _ _ h => h.elim)
              (fun _ _ same => same) (fun _ h => h))
        exact unchanged (opens.of_state result)
      · refine bears (.of_forall fun v a member => ?_)
        cases may a member <;> simp [View.Bears, this]
  | write fd buf pid now =>
      refine bears (.of_forall fun v a member => ?_)
      cases may a member with
      | evict name =>
          rintro rfl
          have old : ∀ a ∈ acts, a.creates = false := by
            intro a member
            cases may a member <;> rfl
          have gone := View.gone_trace performs old member
          have kept := lockState_write result spares
          rw [awaits.state, View.lockState, gone] at kept
          cases kept
      | _ => trivial
  | read fd pid now =>
      refine bears (.of_forall fun v a member => ?_)
      cases may a member <;> trivial
  | close fd pid now =>
      rcases does with rfl | ⟨⟨s, live, own⟩, rfl⟩
      · exact bears trivial
      · refine bears ⟨fun other is => ?_, trivial⟩
        obtain rfl := Option.some.inj (live.symm.trans is)
        exact own.trans_ne (oneCall waiter waits).symm
  | remove removed pid =>
      rcases does with rfl | ⟨⟨f, found, own, locked⟩, rfl⟩
      · exact bears trivial
      · refine bears ⟨?_, trivial⟩
        rintro rfl
        obtain rfl := Option.some.inj ((view_file present).symm.trans found)
        exact locked free
  | lock fd pid now =>
      obtain rfl | ⟨slot, live, own, locks⟩ := does
      · exact bears trivial
      obtain ⟨copy, found, named⟩ := descriptor_of_view live own
      by_cases this : slot.name = waiter.name
      · have present : fs.file copy.name = some inode := (named.trans this) ▸ present
        have locks : ((Event.lock fd pid now).call fs).Post (fun _ fs' => fs' = fs)
            (fun _ fs' => fs' = fs) (fun _ => False) :=
          post_of_actions (by rintro (_ | _) <;> exact ⟨_, rfl⟩)
            ((fileSystemLock_pending found present free pending).mono (fun _ _ h => h.elim)
              (fun _ _ same => same) (fun _ h => h))
        exact unchanged (locks.of_state result)
      · refine bears (.of_forall fun v => ?_)
        rcases locks with (rfl | rfl | rfl | rfl) | ⟨generation, rfl⟩ <;> simp [View.Bears, this]
  | unlock fd pid now =>
      refine bears (.of_forall fun v a member => ?_)
      cases may a member
      trivial
  | removeSession pid now =>
      have other : pid ≠ waiter.pid := (oneCall waiter waits).symm
      refine bears (.of_forall fun v a member => ?_)
      cases may a member with
      | leaveRelease name => exact other
      | _ => trivial
  | wake woken now =>
      have away : woken.name ≠ waiter.name := fun this =>
        sleeps now (awaits.eq_of_waits possible this ▸ rfl)
      refine bears (.of_forall fun v a member => ?_)
      cases may a member <;> simp [View.Bears, away]

/-- A thread that wakes up waits on, or it has the lock. -/
theorem wake_call {now : Int} (awaits : fs.view.Awaits waiter)
    (result : ((Event.wake waiter now).call fs).state? = some fs') :
    (fs' = fs ∧ ∃ f, fs.view.file waiter.name = some f ∧ f.MustWait waiter.pid) ∨
      fs'.view.Settled waiter.name ∧
        fs'.view.lockState waiter.name = some ⟨waiter.generation, waiter.pid, 0⟩ ∧
        View.NewSlotsOf waiter.pid fs.view fs'.view waiter.name := by
  obtain ⟨inode, present, same, free, pending⟩ := awaits.inode
  have wins : ∀ {fs'}, TakesOver fs waiter fs' → fs'.view.Settled waiter.name ∧
      fs'.view.lockState waiter.name = some ⟨waiter.generation, waiter.pid, 0⟩ ∧
      View.NewSlotsOf waiter.pid fs.view fs'.view waiter.name := by
    rintro fs' ⟨rest, attaches, performs⟩
    obtain ⟨v, first, second⟩ := performs.of_append
    obtain ⟨settled, locked⟩ := awaits.served first
    have apart : ∀ a ∈ rest, a.leaves = false ∧ a.lockName ≠ some waiter.name := by
      intro a member
      obtain ⟨fd, rfl⟩ := attaches a member
      exact ⟨rfl, nofun⟩
    refine ⟨settled.trace second fun a member => ?_, (View.lockState_trace second apart).trans locked,
      View.newSlotsOf_trace performs fun a member fd other is => ?_⟩
    · obtain ⟨fd, rfl⟩ := attaches a member
      trivial
    · subst is
      rcases List.mem_append.mp member with early | late
      · simp at early
      · obtain ⟨fd', is⟩ := attaches _ late
        exact (Action.attach.inj is).2.2
  have wakes : ((Event.wake waiter now).call fs).Post
      (fun reply fs' => fs' = fs ∧ mustWait inode waiter.pid = true ∨ TakesOver fs waiter fs')
      (fun _ fs' => fs' = fs ∧ mustWait inode waiter.pid = true ∨ TakesOver fs waiter fs')
      (fun _ => False) := by
    refine post_of_actions (by rintro ((_ | _) | _) <;> exact ⟨_, rfl⟩) ?_
    refine (wakeUp_returns awaits.waits present same free pending).mono ?_ (fun _ _ takes => .inr takes)
      (fun _ h => h)
    rintro (_ | _) fs' woken
    · exact .inr woken
    · exact .inl woken
  rcases wakes.of_state result with ⟨rfl, wait⟩ | takes
  · exact .inl ⟨rfl, _, view_file present, (mustWait_iff inode waiter.pid).mp wait⟩
  · exact .inr (wins takes)

end Event

end FileStorage
