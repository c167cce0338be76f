import FileStorage.Simfs.Locks

/-! # What the calls do to locks

For every step of the file system the files whose lock, or whose pending lock
requests, it may change. All other files keep both.
-/

namespace FileStorage

open Program FileSystem

variable {codec : Codec}

/-- Who locks a file and how many requests for its lock are pending. -/
structure LockState where
  generation : Nat
  locked : Pid
  pendingLocks : Nat
  deriving DecidableEq

def FileView.lockState (f : FileView) : LockState := ⟨f.generation, f.locked, f.pendingLocks⟩

def View.lockState (v : View codec) (name : Filename) : Option LockState :=
  (v.file name).map FileView.lockState

def Action.lockName : Action codec → Option Filename
  | .create name | .request name | .grant name _ | .settle name | .unlock name _ | .vanish name =>
      some name
  | _ => none

def Action.leaves : Action codec → Bool
  | .leave _ => true
  | _ => false

namespace View

variable {v v' : View codec} {a : Action codec} {name other : Filename}

theorem lockState_changeFile {g : FileView → FileView}
    (keeps : ∀ f, (g f).lockState = f.lockState) :
    (v.changeFile other g).lockState name = v.lockState name := by
  simp only [lockState, changeFile, Function.update_apply]
  split
  · rename_i same
    rw [same, Option.map_map]
    exact congrArg (fun h => (v.file other).map h) (funext keeps)
  · rfl

theorem lockState_changeFile_of_ne (different : name ≠ other) (g : FileView → FileView) :
    (v.changeFile other g).lockState name = v.lockState name := by
  simp only [lockState, changeFile, Function.update_of_ne different]

theorem lockState_apply (stays : a.leaves = false) (apart : a.lockName ≠ some name) :
    (v.apply a).lockState name = v.lockState name := by
  have ne : ∀ other, a.lockName = some other → name ≠ other := by
    rintro other is rfl
    exact apart is
  cases a with
  | create created => simp only [lockState, apply, Function.update_of_ne (ne created rfl)]
  | request requested | grant requested pid | settle requested | unlock requested pid =>
      exact lockState_changeFile_of_ne (ne requested rfl) _
  | vanish vanished => simp only [lockState, apply, Function.update_of_ne (ne vanished rfl)]
  | attach fd attached pid | release attached pid | reread attached new | spoil attached =>
      exact lockState_changeFile fun _ => rfl
  | close fd =>
      simp only [apply]
      split
      · rfl
      · rename_i s live
        refine lockState_changeFile fun f => ?_
        unfold FileView.released
        split <;> rfl
  | flush fd new =>
      simp only [apply]
      split
      · rfl
      · exact lockState_changeFile fun _ => rfl
  | tear fd =>
      simp only [apply]
      split <;> rfl
  | leave pid => cases stays
  | store fd bytes | forget pid | block waiter | unblock waiter => rfl

theorem lockState_changeFile_self {f : FileView → FileView} {g : LockState → LockState}
    (agrees : ∀ x, (f x).lockState = g x.lockState) :
    (v.changeFile name f).lockState name = (v.lockState name).map g := by
  simp only [lockState, changeFile_self, Option.map_map]
  exact congrArg (fun h => (v.file name).map h) (funext agrees)

@[simp] theorem lockState_request (v : View codec) (name : Filename) :
    (v.apply (.request name)).lockState name =
      (v.lockState name).map fun state => { state with pendingLocks := state.pendingLocks + 1 } :=
  lockState_changeFile_self fun _ => rfl

@[simp] theorem lockState_grant (v : View codec) (name : Filename) (pid : Pid) :
    (v.apply (.grant name pid)).lockState name =
      (v.lockState name).map fun state => { state with locked := pid } :=
  lockState_changeFile_self fun _ => rfl

@[simp] theorem lockState_settle (v : View codec) (name : Filename) :
    (v.apply (.settle name)).lockState name =
      (v.lockState name).map fun state => { state with pendingLocks := state.pendingLocks - 1 } :=
  lockState_changeFile_self fun _ => rfl

@[simp] theorem lockState_attach (v : View codec) (fd : Nat) (other : Filename) (pid : Pid)
    (name : Filename) : (v.apply (.attach fd other pid)).lockState name = v.lockState name :=
  lockState_apply rfl nofun

@[simp] theorem lockState_block (v : View codec) (waiter : Waiter) (name : Filename) :
    (v.apply (.block waiter)).lockState name = v.lockState name := rfl

@[simp] theorem lockState_unblock (v : View codec) (waiter : Waiter) (name : Filename) :
    (v.apply (.unblock waiter)).lockState name = v.lockState name := rfl

theorem lockState_trace {acts : List (Action codec)} (trace : (viewSystem codec).Trace v acts v')
    (apart : ∀ a ∈ acts, a.leaves = false ∧ a.lockName ≠ some name) :
    v'.lockState name = v.lockState name := by
  induction trace with
  | nil v => rfl
  | cons _ _ ih =>
      obtain ⟨first, rest⟩ := List.forall_mem_cons.mp apart
      exact (ih rest).trans (lockState_apply first.1 first.2)

end View

/-! ## The files a write evicts -/

namespace WriteState

def victims (finalCount : Int) (now : Int) : (bound : Nat) → WriteState codec → List Filename
  | 0, _ => []
  | bound + 1, s =>
      let available := rtsAvailableBytes s.fileSystem
      if available < finalCount ∧ available ≠ -1 ∧ s.fileSystem.replacementPolicy ≠ .none then
        ((victim s.fileSystem).toOption.map Inode.name).toList ++ match rtsEvict now s with
          | .ok _ s => victims finalCount now bound s
          | _ => []
      else []

end WriteState

namespace FileSystem

/-- The files a write evicts from a state. -/
def evictedBy (fs : FileSystem codec) (buf : Option (List UInt8)) (now : Int) : List Filename :=
  match buf.bind codec.encode with
  | none => []
  | some artifact =>
      if fs.memoryLimit < codec.size artifact then []
      else WriteState.victims (codec.size artifact) now (fs.fileTable.presenceList.length + 1)
        { fileSystem := fs, evictedList := [] }

variable {fs fs' : FileSystem codec} {name : Filename}

theorem Performs.lockState {acts : List (Action codec)} (performs : fs.Performs acts fs')
    (apart : ∀ a ∈ acts, a.leaves = false ∧ a.lockName ≠ some name) :
    fs'.view.lockState name = fs.view.lockState name :=
  View.lockState_trace performs apart

end FileSystem

namespace WriteState

variable {name : Filename}

theorem rtsEvict_lockState (s : WriteState codec) (name : Filename) (now : Int)
    (apart : ∀ inode, victim s.fileSystem = .ok inode → inode.name ≠ name) :
    (rtsEvict now s).Post
      (fun _ s' => s'.fileSystem.view.lockState name = s.fileSystem.view.lockState name)
      (fun _ s' => s'.fileSystem.view.lockState name = s.fileSystem.view.lockState name)
      (fun _ => True) := by
  simp only [rtsEvict, onFileSystem, post_bind, post_zoom, post_modify, post_get]
  refine post_ofExcept (fun inode is => ?_) (fun _ _ => rfl)
  have away : ∀ acts : List (Action codec), acts = [] ∨ acts = [.vanish inode.name] →
      ∀ a ∈ acts, a.leaves = false ∧ a.lockName ≠ some name := by
    rintro acts (rfl | rfl)
    · simp
    · simpa [Action.leaves, Action.lockName] using apart inode is
  refine (rtsReadInode_performs _ inode.name now).mono ?_ ?_ (fun _ _ => trivial)
  · rintro data fs₁ ⟨-, -, new, -, -, -, -, read⟩
    have first : fs₁.view.lockState name = s.fileSystem.view.lockState name :=
      read.lockState (by simp [Action.leaves, Action.lockName])
    refine (rtsRemoveInode_performs fs₁ inode.name).mono ?_ ?_ (fun _ _ => trivial)
    · exact fun _ fs₂ removed => (removed.lockState (away _ (.inr rfl))).trans first
    · rintro - fs₂ (same | removed)
      · exact (same.lockState (away _ (.inl rfl))).trans first
      · exact (removed.lockState (away _ (.inr rfl))).trans first
  · rintro - fs₁ (same | spoilt)
    · exact same.lockState (away _ (.inl rfl))
    · exact spoilt.lockState (by simp [Action.leaves, Action.lockName])

theorem makeRoom_lockState (finalCount now : Int) (bound : Nat) (s : WriteState codec)
    (apart : name ∉ victims finalCount now bound s) :
    (makeRoom finalCount now bound s).Post
      (fun _ s' => s'.fileSystem.view.lockState name = s.fileSystem.view.lockState name)
      (fun _ s' => s'.fileSystem.view.lockState name = s.fileSystem.view.lockState name)
      (fun _ => True) := by
  induction bound generalizing s with
  | zero => trivial
  | succ bound ih =>
      rw [makeRoom, post_bind, post_get, post_ite]
      refine ⟨fun roomless => ?_, fun _ => rfl⟩
      simp only [post_bind, post_failIf]
      refine ⟨fun _ => trivial, fun sized => ⟨fun _ => trivial, fun policy => ?_⟩⟩
      rw [victims, if_pos ⟨roomless, sized, policy⟩, List.mem_append, not_or] at apart
      have kept := rtsEvict_lockState s name now fun inode is same => by
        simp [is, same, Except.toOption] at apart
      cases evicted : rtsEvict now s with
      | ok done s₁ =>
          rw [evicted] at kept apart
          exact (ih s₁ apart.2).mono (fun _ _ same => same.trans kept)
            (fun _ _ same => same.trans kept) (fun _ _ => trivial)
      | error code s₁ =>
          rw [evicted] at kept
          exact kept
      | fault why => trivial

end WriteState

namespace FileSystem

theorem fileSystemWrite_lockState (fs : FileSystem codec) (fd : Int) (buf : Option (List UInt8))
    (pid : Pid) (now : Int) {name : Filename} (apart : name ∉ fs.evictedBy buf now) :
    (fileSystemWrite fd buf pid now { fileSystem := fs, evictedList := [] }).Post
      (fun _ s => s.fileSystem.view.lockState name = fs.view.lockState name)
      (fun _ s => s.fileSystem.view.lockState name = fs.view.lockState name)
      (fun _ => True) := by
  simp only [fileSystemWrite, encodeBuffer, WriteState.onFileSystem, post_bind, post_zoom,
    post_orFail]
  refine ⟨fun _ => trivial, ?_⟩
  rintro bytes rfl
  rw [post_ite]
  refine ⟨fun _ => trivial, fun _ => ?_⟩
  simp only [post_orFail, post_get, post_failIf]
  refine ⟨fun _ => trivial, fun artifact encodes => ⟨fun _ => trivial, fun fits => ?_⟩⟩
  simp only [evictedBy, Option.bind_some, encodes, if_neg fits] at apart
  refine (WriteState.makeRoom_lockState _ now _ _ apart).mono ?_ (fun _ _ same => same)
    (fun _ _ => trivial)
  intro _ s₁ first
  have rest : ∀ (fs₂ : FileSystem codec) acts, s₁.fileSystem.Performs acts fs₂ →
      (∀ a ∈ acts, a.leaves = false ∧ a.lockName ≠ some name) →
      fs₂.view.lockState name = fs.view.lockState name :=
    fun _ _ performs away => (performs.lockState away).trans first
  refine (writeDescriptor_performs s₁.fileSystem fd bytes pid now).mono ?_ ?_ (fun _ _ => trivial)
  · rintro - fs₂ ⟨-, new, -, written⟩
    exact rest fs₂ _ written (by simp [Action.leaves, Action.lockName])
  · rintro - fs₂ ⟨acts, fails, written, -⟩
    refine rest fs₂ acts written ?_
    rcases fails with rfl | ⟨rfl, -⟩ | rfl | ⟨new, rfl, -⟩ <;>
      simp [Action.leaves, Action.lockName]

end FileSystem

/-! ## The steps -/

namespace Event

/-- The files whose lock state a step may change. -/
def Locks (fs : FileSystem codec) (name : Filename) : Event → Prop
  | .open opened _ _ _ => name = opened
  | .write _ buf _ now => name ∈ fs.evictedBy buf now
  | .read .. | .close .. => False
  | .remove removed pid => name = removed ∧
      ∃ inode, fs.file name = some inode ∧ inode.locked = pid ∧ inode.locked ≠ 0
  | .lock fd pid _ | .unlock fd pid _ =>
      ∃ copy, fs.slot (toUnsigned32 fd) = some { owner := pid, inode := copy } ∧ copy.name = name
  | .removeSession pid _ => ∃ inode, fs.file name = some inode ∧ inode.locked = pid
  | .wake waiter _ => name = waiter.name

variable {fs fs' : FileSystem codec} {name : Filename} {event : Event}

theorem lockState_write {fd : Int} {buf : Option (List UInt8)} {pid : Pid} {now : Int}
    (result : ((Event.write fd buf pid now).call fs).state? = some fs')
    (apart : name ∉ fs.evictedBy buf now) :
    fs'.view.lockState name = fs.view.lockState name := by
  have writes := fileSystemWrite_lockState fs fd buf pid now apart
  change (writeCall fd buf pid now fs).state? = some fs' at result
  unfold writeCall at result
  split at result
  · rename_i done
    rw [done] at writes
    cases result
    exact writes
  · rename_i failed
    rw [failed] at writes
    cases result
    exact writes
  · cases result

/-- What the end of a session consists of. -/
def PartOfLeaving (pid : Pid) (a : Action codec) : Prop :=
  a = .forget pid ∨ ∃ name, a = .release name pid ∨ a = .unlock name pid

theorem lockState_leaving {v v' : View codec} {pid : Pid} {acts : List (Action codec)}
    (trace : (viewSystem codec).Trace v acts v') (parts : ∀ a ∈ acts, PartOfLeaving pid a)
    (apart : ∀ state, v.lockState name = some state → state.locked ≠ pid) :
    v'.lockState name = v.lockState name := by
  induction trace with
  | nil v => rfl
  | @cons v a acts t enabled _ ih =>
      obtain ⟨first, rest⟩ := List.forall_mem_cons.mp parts
      have same : (v.apply a).lockState name = v.lockState name := by
        rcases first with rfl | ⟨other, rfl | rfl⟩
        · exact View.lockState_apply rfl nofun
        · exact View.lockState_apply rfl nofun
        · refine View.lockState_apply rfl ?_
          rintro ⟨⟩
          obtain ⟨f, found, own⟩ := enabled
          refine apart f.lockState ?_ own
          rw [View.lockState, found, Option.map_some]
      exact (ih rest (same ▸ apart)).trans same

theorem descriptor_of_view {fd : Nat} {pid : Pid} {s : SlotView} (live : fs.view.slot fd = some s)
    (own : s.owner = pid) :
    ∃ copy, fs.slot fd = some { owner := pid, inode := copy } ∧ copy.name = s.name := by
  obtain ⟨⟨owner, copy⟩, found, rfl⟩ := Option.map_eq_some_iff.mp live
  subst own
  exact ⟨copy, found, rfl⟩

theorem lockState_of_file {state : LockState} (is : fs.view.lockState name = some state) :
    ∃ inode, fs.file name = some inode ∧ (FileView.of inode).lockState = state := by
  simpa [View.lockState, view] using is

/-- A step leaves the locks of all other files alone. -/
theorem lockState_call (possible : event.Possible fs) (result : (event.call fs).state? = some fs')
    (apart : ¬ event.Locks fs name) : fs'.view.lockState name = fs.view.lockState name := by
  obtain ⟨acts, does, performs⟩ := Step.performed possible result
  have may := does.mayDo
  cases event with
  | «open» opened flags pid now =>
      refine performs.lockState fun a member => ?_
      have away : opened ≠ name := fun same => apart same.symm
      cases may a member <;> simp [Action.leaves, Action.lockName, away]
  | write fd buf pid now => exact lockState_write result apart
  | read fd pid now =>
      refine performs.lockState fun a member => ?_
      cases may a member <;> simp [Action.leaves, Action.lockName]
  | close fd pid now =>
      refine performs.lockState fun a member => ?_
      cases may a member
      simp [Action.leaves, Action.lockName]
  | remove removed pid =>
      obtain rfl | ⟨⟨f, found, own, locked⟩, rfl⟩ := does
      · exact performs.lockState nofun
      · refine performs.lockState ?_
        simp only [List.mem_singleton, forall_eq, Action.leaves, Action.lockName, true_and]
        rintro ⟨⟩
        obtain ⟨inode, present, rfl⟩ := Option.map_eq_some_iff.mp found
        exact apart ⟨rfl, inode, present, own, locked⟩
  | lock fd pid now =>
      obtain rfl | ⟨slot, live, own, locks⟩ := does
      · exact performs.lockState nofun
      · obtain ⟨copy, found, named⟩ := descriptor_of_view live own
        have away : slot.name ≠ name := fun same => apart ⟨copy, found, named.trans same⟩
        refine performs.lockState ?_
        rcases locks with (rfl | rfl | rfl | rfl) | ⟨generation, rfl⟩ <;>
          simp [Action.leaves, Action.lockName, away]
  | unlock fd pid now =>
      obtain rfl | ⟨slot, live, own, rfl⟩ := does
      · exact performs.lockState nofun
      · obtain ⟨copy, found, named⟩ := descriptor_of_view live own
        have away : slot.name ≠ name := fun same => apart ⟨copy, found, named.trans same⟩
        exact performs.lockState (by simp [Action.leaves, Action.lockName, away])
  | removeSession pid now =>
      obtain ⟨rest, leaving, is⟩ := does
      have parts : ∀ a ∈ acts, PartOfLeaving pid a := by
        intro a member
        rcases is with rfl | rfl
        · exact .inr (leaving a member)
        · rcases List.mem_append.mp member with earlier | last
          · exact .inr (leaving a earlier)
          · exact .inl (List.mem_singleton.mp last)
      refine lockState_leaving performs parts fun state is own => ?_
      obtain ⟨inode, present, rfl⟩ := lockState_of_file is
      exact apart ⟨inode, present, own⟩
  | wake waiter now =>
      refine performs.lockState fun a member => ?_
      have away : waiter.name ≠ name := fun same => apart same.symm
      cases may a member <;> simp [Action.leaves, Action.lockName, away]

def Ends (fs : FileSystem codec) (name : Filename) : Event → Prop
  | .write _ buf _ now => name ∈ fs.evictedBy buf now
  | .wake waiter _ => waiter.name = name
  | _ => False

/-- A second lock request is refused. -/
theorem not_requested {v v' : View codec} {acts : List (Action codec)} {f : FileView}
    (found : v.file name = some f) (pending : f.pendingLocks ≠ 0) :
    ¬ (viewSystem codec).Trace v (.request name :: acts) v' := by
  rintro (_ | ⟨⟨g, present, none_⟩, -⟩)
  obtain rfl := Option.some.inj (present.symm.trans found)
  exact pending none_

/-- A file with a pending request that nobody locks keeps both, until the request
    ends. -/
theorem lockState_pending (possible : event.Possible fs)
    (result : (event.call fs).state? = some fs') (positive : 0 < asInt event.pid)
    {state : LockState} (is : fs.view.lockState name = some state) (pending : 0 < state.pendingLocks)
    (unlocked : asInt state.locked ≤ 0) (apart : ¬ event.Ends fs name) :
    fs'.view.lockState name = some state := by
  rw [← is]
  obtain ⟨inode, present, rfl⟩ := lockState_of_file is
  have found := view_file present
  have pending : inode.pendingLocks ≠ 0 := Nat.pos_iff_ne_zero.mp pending
  have free : ∀ other, fs.file name = some other → other.locked ≠ event.pid := by
    intro other same own
    obtain rfl := Option.some.inj (present.symm.trans same)
    have unlocked : asInt inode.locked ≤ 0 := unlocked
    rw [own] at unlocked
    exact absurd positive (not_lt.mpr unlocked)
  by_cases locks : event.Locks fs name
  · obtain ⟨acts, does, performs⟩ := Step.performed possible result
    cases event with
    | «open» opened flags pid now =>
        obtain rfl : name = opened := locks
        obtain rfl | ⟨pre, rest, opening, does, rfl⟩ := does
        · exact performs.lockState nofun
        rcases opening with ⟨-, rfl⟩ | ⟨-, rfl⟩
        · rcases does with rfl | ⟨fd, rfl⟩ | ⟨-, (rfl | rfl | rfl | rfl) | ⟨fd, rfl⟩ |
            ⟨generation, rfl⟩⟩
          · exact performs.lockState nofun
          · exact performs.lockState (by simp [Action.leaves, Action.lockName])
          · exact performs.lockState nofun
          all_goals exact absurd performs (not_requested found pending)
        · obtain _ | ⟨⟨-, absent⟩, -⟩ := performs
          rw [found] at absent
          cases absent
    | write fd buf pid now => exact absurd locks apart
    | read fd pid now | close fd pid now => exact locks.elim
    | remove removed pid =>
        obtain ⟨-, other, same, own, -⟩ := locks
        exact absurd own (free other same)
    | lock fd pid now =>
        obtain ⟨copy, live, rfl⟩ := locks
        obtain rfl | ⟨slot, found', -, does⟩ := does
        · exact performs.lockState nofun
        obtain rfl := Option.some.inj ((view_slot live).symm.trans found')
        rcases does with (rfl | rfl | rfl | rfl) | ⟨generation, rfl⟩
        · exact performs.lockState nofun
        all_goals exact absurd performs (not_requested found pending)
    | unlock fd pid now =>
        obtain ⟨copy, live, rfl⟩ := locks
        obtain rfl | ⟨slot, found', -, rfl⟩ := does
        · exact performs.lockState nofun
        obtain rfl := Option.some.inj ((view_slot live).symm.trans found')
        obtain _ | ⟨⟨f, same, own⟩, -⟩ := performs
        obtain rfl := Option.some.inj (found.symm.trans same)
        exact absurd own (free inode present)
    | removeSession pid now =>
        obtain ⟨other, same, own⟩ := locks
        exact absurd own (free other same)
    | wake waiter now => exact absurd (Eq.symm locks) apart
  · exact lockState_call possible result locks

end Event

/-! ## Files that somebody holds -/

def LockState.held (state : LockState) : Bool := state.locked ≠ 0 ∨ 0 < state.pendingLocks

namespace FileSystem

/-- The file is stored, and it is locked or a lock of it is pending. -/
def held (fs : FileSystem codec) (name : Filename) : Bool :=
  (fs.view.lockState name).any LockState.held

theorem held_iff {fs : FileSystem codec} {name : Filename} : fs.held name = true ↔
    ∃ inode, fs.file name = some inode ∧ (inode.locked ≠ 0 ∨ 0 < inode.pendingLocks) := by
  cases found : fs.file name <;>
    simp [held, View.lockState, view, found, LockState.held, FileView.lockState, FileView.of]

/-- The file is stored and locked by the pid. -/
def lockedBy (fs : FileSystem codec) (name : Filename) (pid : Pid) : Bool :=
  (fs.file name).any (·.locked = pid)

end FileSystem

namespace Event

variable {fs fs' : FileSystem codec} {name : Filename} {event : Event}

/-- The steps that take the file away, or its lock with the session that has it. -/
def takes (fs : FileSystem codec) (name : Filename) : Event → Bool
  | .write _ buf _ now => name ∈ fs.evictedBy buf now
  | .remove removed pid => name = removed ∧ fs.lockedBy name pid
  | .removeSession pid _ => fs.lockedBy name pid
  | _ => false

def Unlocks (fs : FileSystem codec) (name : Filename) : Event → Prop
  | .unlock fd pid _ =>
      ∃ copy, fs.slot (toUnsigned32 fd) = some { owner := pid, inode := copy } ∧ copy.name = name
  | _ => False

theorem held_requested {v : View codec} {pid : Pid} (nonzero : pid ≠ 0)
    {acts : List (Action codec)} (requested : Requested name pid acts)
    (held : (v.lockState name).any LockState.held = true) :
    ((acts.foldl View.apply v).lockState name).any LockState.held = true := by
  obtain ⟨state, is, holds⟩ := (Option.any_eq_true _ _).mp held
  rcases requested with rfl | rfl | rfl | rfl <;> simp_all [LockState.held]

/-- A file that somebody holds is held after every step that neither unlocks it nor
    takes it away. -/
theorem held_call (possible : event.Possible fs) (result : (event.call fs).state? = some fs')
    (nonzero : event.pid ≠ 0) (held : fs.held name = true) (stays : event.takes fs name = false)
    (notUnlocked : ¬ event.Unlocks fs name) : fs'.held name = true := by
  obtain ⟨inode, present, -⟩ := held_iff.mp held
  by_cases locks : event.Locks fs name
  · obtain ⟨acts, does, performs⟩ := Step.performed possible result
    have ends : fs'.view = acts.foldl View.apply fs.view := performs.eq_foldl
    obtain ⟨state, is, holds⟩ := (Option.any_eq_true _ _).mp held
    cases event with
    | «open» opened flags pid now =>
        obtain rfl : name = opened := locks
        obtain rfl | ⟨pre, rest, opening, does, rfl⟩ := does
        · rw [FileSystem.held, ends]
          exact held
        rcases opening with ⟨-, rfl⟩ | ⟨-, rfl⟩
        · rw [FileSystem.held, ends, List.nil_append]
          rcases does with rfl | ⟨fd, rfl⟩ | ⟨-, requested | ⟨fd, rfl⟩ | ⟨generation, rfl⟩⟩
          · exact held
          · simpa [FileSystem.held] using held
          · exact held_requested nonzero requested held
          · simpa [is, LockState.held] using .inl nonzero
          · simp [is, LockState.held]
        · obtain _ | ⟨⟨-, absent⟩, -⟩ := performs
          rw [view_file present] at absent
          cases absent
    | lock fd pid now =>
        obtain ⟨copy, live, rfl⟩ := locks
        obtain rfl | ⟨slot, found, -, does⟩ := does
        · rw [FileSystem.held, ends]
          exact held
        obtain rfl := Option.some.inj ((view_slot live).symm.trans found)
        rw [FileSystem.held, ends]
        rcases does with requested | ⟨generation, rfl⟩
        · exact held_requested nonzero requested held
        · simp [is, LockState.held, SlotView.of]
    | wake waiter now =>
        obtain rfl : name = waiter.name := locks
        rw [FileSystem.held, ends]
        have nonzero : waiter.pid ≠ 0 := nonzero
        rcases does with rfl | ⟨rest, rfl, rfl | rfl | rfl | ⟨fd, rfl⟩⟩
        · exact held
        · simpa [FileSystem.held] using held
        all_goals simp [is, LockState.held, nonzero]
    | unlock fd pid now => exact absurd locks notUnlocked
    | write fd buf pid now => simp_all [takes, Locks]
    | read fd pid now | close fd pid now => exact locks.elim
    | remove removed pid =>
        obtain ⟨rfl, other, same, own, -⟩ := locks
        simp [takes, lockedBy, same, own] at stays
    | removeSession pid now =>
        obtain ⟨other, same, own⟩ := locks
        simp [takes, lockedBy, same, own] at stays
  · rw [FileSystem.held, lockState_call possible result locks]
    exact held

end Event

/-! ## Descriptors and waiting threads -/

namespace View

variable {v v' : View codec} {pid : Pid} {fd : Nat}

/-- The actions that can close a descriptor of a pid. -/
def MayClose (pid : Pid) : Action codec → Prop
  | .close _ | .leave _ => True
  | .forget left => left = pid
  | _ => False

theorem slot_trace {acts : List (Action codec)} (trace : (viewSystem codec).Trace v acts v')
    {s : SlotView} (live : v.slot fd = some s) (stays : ∀ a ∈ acts, ¬ MayClose s.owner a) :
    (v'.slot fd).map SlotView.key = some s.key := by
  induction trace generalizing s with
  | nil v => rw [live, Option.map_some]
  | @cons v a acts t enabled _ ih =>
      obtain ⟨first, rest⟩ := List.forall_mem_cons.mp stays
      have kept : ((v.apply a).slot fd).map SlotView.key = some s.key := by
        cases a with
        | close fd | leave pid => exact absurd trivial first
        | attach fd' name pid =>
            obtain ⟨free, -⟩ := enabled
            have away : fd ≠ fd' := by
              rintro rfl
              rw [free] at live
              cases live
            simp [apply, Function.update_of_ne away, live]
        | forget left =>
            have away : s.owner ≠ left := fun same => first same.symm
            simp [apply, live, away]
        | _ => rw [slot_apply rfl, live, Option.map_some]
      obtain ⟨s', live', same⟩ := Option.map_eq_some_iff.mp kept
      rw [← same]
      exact ih live' ((SlotView.key_eq.mp same).1 ▸ rest)

theorem mem_blocked_trace {acts : List (Action codec)} {waiter : Waiter}
    (trace : (viewSystem codec).Trace v acts v') (waits : waiter ∈ v.blocked)
    (sleeps : ∀ a ∈ acts, a ≠ .unblock waiter) : waiter ∈ v'.blocked := by
  induction trace with
  | nil v => exact waits
  | @cons v a acts t _ _ ih =>
      obtain ⟨first, rest⟩ := List.forall_mem_cons.mp sleeps
      refine ih ?_ rest
      cases a with
      | block new => exact List.mem_append_left _ waits
      | unblock woken =>
          have other : waiter ≠ woken := fun same => first (same ▸ rfl)
          exact (List.mem_erase_of_ne other).mpr waits
      | close fd | flush fd new | tear fd =>
          change waiter ∈ (v.apply _).blocked
          simp only [apply]
          split <;> exact waits
      | _ => exact waits

end View

namespace Event

variable {fs fs' : FileSystem codec} {event : Event}

theorem slot_call (possible : event.Possible fs) (result : (event.call fs).state? = some fs')
    {fd : Nat} {s : SlotView} (live : fs.view.slot fd = some s) (other : s.owner ≠ event.pid) :
    (fs'.view.slot fd).map SlotView.key = some s.key := by
  obtain ⟨acts, does, performs⟩ := Step.performed possible result
  have may := does.mayDo
  cases event with
  | close closed pid now =>
      obtain rfl | ⟨⟨entry, open_, own⟩, rfl⟩ := does
      · exact View.slot_trace performs live nofun
      · have away : fd ≠ toUnsigned32 closed := by
          rintro rfl
          obtain rfl := Option.some.inj (open_.symm.trans live)
          exact other own
        have ends : fs'.view = fs.view.apply (.close (toUnsigned32 closed)) := performs.view_single
        rw [ends]
        simp [View.apply, open_, Function.update_of_ne away, live]
  | removeSession pid now =>
      refine View.slot_trace performs live fun a member => ?_
      cases may a member with
      | leaveRelease name | leaveUnlock name => exact id
      | forget => exact Ne.symm other
  | _ =>
      refine View.slot_trace performs live fun a member => ?_
      cases may a member <;> exact id

theorem mem_blocked_call (possible : event.Possible fs)
    (result : (event.call fs).state? = some fs') {waiter : Waiter} (waits : waiter ∈ fs.blocked)
    (sleeps : ∀ now, event ≠ .wake waiter now) : waiter ∈ fs'.blocked := by
  obtain ⟨acts, does, performs⟩ := Step.performed possible result
  refine View.mem_blocked_trace performs waits fun a member => ?_
  rintro rfl
  cases does.mayDo _ member
  exact sleeps _ rfl

end Event

/-! ## Requests that wait -/

namespace FileSystem

variable {fs : FileSystem codec}

/-- A request of a pid for the lock of a file has to wait. -/
def waitsFor (fs : FileSystem codec) (name : Filename) (pid : Pid) : Bool :=
  (fs.file name).any fun inode =>
    !inode.hasPendingLocks && inode.isFileLocked ≤ 0 && mustWait inode pid

/-- The request is pending and its thread waits for the file as it is now. -/
def Waits (fs : FileSystem codec) (name : Filename) (pid : Pid) (call : WaitingCall)
    (fs' : FileSystem codec) : Prop :=
  fs.waitsFor name pid = true ∧ ∃ inode, fs.file name = some inode ∧ fs.Performs [.request name,
    .block { pid, name, generation := inode.generation, call }] fs'

theorem Waits.of_performs {name : Filename} {pid : Pid} {call : WaitingCall} {generation : Nat}
    {fs' : FileSystem codec} {inode : Inode} (present : fs.file name = some inode)
    (unlocked : inode.isFileLocked ≤ 0)
    (performs : fs.Performs [.request name, .block { pid, name, generation, call }] fs') :
    fs.Waits name pid call fs' := by
  have found := view_file present
  obtain _ | ⟨⟨f, same, none_⟩, rest⟩ := id performs
  obtain _ | ⟨⟨g, changed, current, waits⟩, -⟩ := rest
  obtain rfl := Option.some.inj (found.symm.trans same)
  simp only [viewSystem, View.apply, View.changeFile_self, found, Option.map_some,
    Option.some.injEq] at changed
  subst changed
  obtain rfl : inode.generation = generation := current
  refine ⟨?_, inode, present, performs⟩
  have must : mustWait inode pid = true := (mustWait_iff inode pid).mpr waits
  have free : inode.pendingLocks = 0 := none_
  simp [waitsFor, present, Inode.hasPendingLocks, free, unlocked, must]

theorem fileSystemLock_waits (fs : FileSystem codec) (fd : Int) (pid : Pid) (now : Int) :
    (fileSystemLock fd pid now fs).Post
      (fun progress fs' => progress = .waiting → ∃ copy,
        fs.slot (toUnsigned32 fd) = some { owner := pid, inode := copy } ∧
        fs.Waits copy.name pid .lock fs')
      (fun _ _ => True) (fun _ => True) := by
  simp only [fileSystemLock, post_bind]
  refine post_rtsGetInodeByFd (fun copy live => ?_) (fun _ => trivial)
  refine post_rtsGetInode (fun inode _ present => ?_) (fun _ => trivial)
  simp only [post_failIf]
  refine ⟨fun _ => trivial, fun _ => ?_⟩
  by_cases locked : 0 < inode.isFileLocked
  · rw [if_pos locked, post_bind, post_failIf]
    exact ⟨fun _ => trivial, fun _ => nofun⟩
  · rw [if_neg locked]
    refine (rtsLockInode_performs fs copy.name pid .lock now).mono ?_ (fun _ _ _ => trivial)
      (fun _ _ => trivial)
    rintro - fs' performed rfl
    obtain ⟨generation, performed⟩ := performed
    exact ⟨copy, live, .of_performs present (not_lt.mp locked) performed⟩

theorem fileSystemOpen_waits (fs : FileSystem codec) (name : Filename) (flags : Nat) (pid : Pid)
    (now : Int) :
    (fileSystemOpen name flags pid now fs).Post
      (fun progress fs' => progress = .waiting → flags.testBit 1 = true ∧
        fs.Waits name pid .open fs')
      (fun _ _ => True) (fun _ => True) := by
  by_cases create : flags.testBit 0 = true
  · refine (fileSystemOpen_performs fs name flags pid now).mono ?_ (fun _ _ _ => trivial)
      (fun _ _ => trivial)
    rintro - fs' returns rfl
    obtain ⟨pre, generation, opening, flag, performs⟩ := returns
    rcases opening with ⟨not, -⟩ | ⟨-, rfl⟩
    · rw [create] at not
      cases not
    -- nobody refers to a new file
    · obtain _ | ⟨-, rest⟩ := performs
      obtain _ | ⟨-, rest⟩ := rest
      obtain _ | ⟨⟨f, found, -, waits⟩, -⟩ := rest
      simp only [viewSystem, View.apply, View.changeFile_self, Function.update_self,
        Option.map_some, Option.some.injEq] at found
      subst found
      exact absurd waits.1 (by simp [FileView.new])
  · simp only [fileSystemOpen, openInode, post_bind, post_failIf, post_get, if_neg create]
    refine ⟨fun _ => trivial, fun _ => ⟨fun _ => trivial, fun _ => ⟨fun _ => trivial, fun _ => ?_⟩⟩⟩
    refine post_rtsGetInode (fun inode _ present => ?_) (fun _ => trivial)
    refine ⟨fun _ => trivial, fun _ => ⟨fun _ => trivial, fun access => ?_⟩⟩
    have direct : ∀ fs₁ : FileSystem codec,
        ((openDescriptor name pid now >>= fun fd => pure (Progress.done fd)) fs₁).Post
          (fun progress fs' => progress = .waiting → flags.testBit 1 = true ∧
            fs.Waits name pid .open fs') (fun _ _ => True) (fun _ => True) := by
      intro fs₁
      rw [post_bind]
      cases openDescriptor name pid now fs₁ with
      | ok fd fs' =>
          intro waits
          cases waits
      | error code fs' => trivial
      | fault why => trivial
    by_cases lock : flags.testBit 1 = true
    · rw [if_pos lock]
      by_cases own : inode.isFileLocked = asInt pid
      · rw [if_pos own]
        exact direct fs
      · have unlocked : inode.isFileLocked ≤ 0 := not_lt.mp fun locked => access ⟨locked, own⟩
        rw [if_neg own, post_bind]
        refine (rtsLockInode_performs fs name pid .open now).mono ?_ (fun _ _ _ => trivial)
          (fun _ _ => trivial)
        rintro (_ | _) fs₁ performed
        · exact direct fs₁
        · obtain ⟨generation, performed⟩ := performed
          exact fun _ => ⟨lock, .of_performs present unlocked performed⟩
    · rw [if_neg lock, post_bind, post_failIf]
      exact ⟨fun _ => trivial, fun _ => direct fs⟩

end FileSystem

end FileStorage
