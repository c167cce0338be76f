import FileStorage.Simfs.LockStates

/-! # Threads that wait for a file

A thread that waits for a file to be lockable has given the mutex back and keeps a
pointer to the inode. `Destroys` lists the steps that take a file away, and so the
inode that such a pointer leads to.
-/

namespace FileStorage

open Program FileSystem

variable {codec : Codec}

/-! ## The file behind a pointer -/

def View.Holds (v : View codec) (name : Filename) (generation : Nat) : Prop :=
  ∃ f, v.file name = some f ∧ f.generation = generation

namespace View

variable {v v' : View codec} {a : Action codec} {name : Filename} {generation : Nat}

theorem Holds.changeFile {other : Filename} {g : FileView → FileView}
    (holds : v.Holds name generation) (keeps : ∀ f, (g f).generation = f.generation) :
    (v.changeFile other g).Holds name generation := by
  obtain ⟨f, found, is⟩ := holds
  by_cases same : name = other
  · subst same
    exact ⟨g f, by simp [found], (keeps f).trans is⟩
  · exact ⟨f, by simpa [View.changeFile, same] using found, is⟩

theorem Holds.apply (holds : v.Holds name generation) (enabled : v.Enabled a)
    (stays : a ≠ .vanish name) : (v.apply a).Holds name generation := by
  cases a with
  | create other =>
      obtain ⟨f, found, is⟩ := holds
      have different : name ≠ other := by
        rintro rfl
        rw [enabled.2] at found
        cases found
      exact ⟨f, by simpa [View.apply, different] using found, is⟩
  | vanish other =>
      obtain ⟨f, found, is⟩ := holds
      have different : name ≠ other := by
        rintro rfl
        exact stays rfl
      exact ⟨f, by simpa [View.apply, different] using found, is⟩
  | request other | grant other pid | settle other | unlock other pid | release other pid
  | reread other new | spoil other | attach fd other pid => exact holds.changeFile fun _ => rfl
  | close fd =>
      simp only [View.apply]
      split
      · exact holds
      · exact holds.changeFile fun f => (released_keeps f _).1
  | flush fd new =>
      simp only [View.apply]
      split
      · exact holds
      · exact holds.changeFile (v := v) fun _ => rfl
  | tear fd =>
      simp only [View.apply]
      split <;> exact holds
  | leave pid =>
      obtain ⟨f, found, is⟩ := holds
      exact ⟨f.left pid, by simp [View.apply, found], is⟩
  | store fd bytes | forget pid | block waiter | unblock waiter => exact holds

theorem holds_iff_lockState : v.Holds name generation ↔
    ∃ state, v.lockState name = some state ∧ state.generation = generation := by
  cases found : v.file name <;> simp [Holds, View.lockState, found, FileView.lockState]

/-- Every thread that waits has a pointer to the file that is stored. -/
def Valid (v : View codec) : Prop :=
  ∀ waiter ∈ v.blocked, v.Holds waiter.name waiter.generation

theorem blocked_apply (a : Action codec) : (v.apply a).blocked = match a with
    | .block waiter => v.blocked ++ [waiter]
    | .unblock waiter => v.blocked.erase waiter
    | _ => v.blocked := by
  cases a with
  | close fd | flush fd new | tear fd =>
      simp only [View.apply]
      split <;> rfl
  | _ => rfl

theorem blocked_trace {acts : List (Action codec)} (trace : (viewSystem codec).Trace v acts v')
    (others : ∀ a ∈ acts, ∀ waiter, a ≠ .block waiter ∧ a ≠ .unblock waiter) :
    v'.blocked = v.blocked := by
  induction trace with
  | nil v => rfl
  | @cons v a acts t _ _ ih =>
      obtain ⟨first, rest⟩ := List.forall_mem_cons.mp others
      refine (ih rest).trans ((blocked_apply a).trans ?_)
      cases a with
      | block waiter => exact absurd rfl (first waiter).1
      | unblock waiter => exact absurd rfl (first waiter).2
      | _ => rfl

theorem Valid.apply (valid : v.Valid) (enabled : v.Enabled a)
    (spares : ∀ waiter ∈ v.blocked, a ≠ .vanish waiter.name) : (v.apply a).Valid := by
  intro waiter waits
  rw [blocked_apply] at waits
  cases a with
  | block new =>
      rcases List.mem_append.mp waits with old | is
      · exact (valid waiter old).apply enabled nofun
      · obtain rfl := List.mem_singleton.mp is
        obtain ⟨f, found, is, -⟩ := enabled
        exact ⟨f, found, is⟩
  | unblock woken => exact valid waiter (List.mem_of_mem_erase waits)
  | _ => exact (valid waiter waits).apply enabled (spares waiter waits)

end View

/-! ## The steps -/

namespace Event

variable {fs fs' : FileSystem codec} {event : Event}

/-- The steps that take a file away: a write that evicts it, and a removal by the
    owner of its lock. -/
def Destroys (fs : FileSystem codec) (name : Filename) : Event → Prop
  | .write _ buf _ now => name ∈ fs.evictedBy buf now
  | .remove removed pid => name = removed ∧ fs.lockedBy name pid = true ∧ asInt pid ≠ 0 ∧
      asInt pid ≠ -1
  | _ => False

instance (fs : FileSystem codec) (name : Filename) : (event : Event) →
    Decidable (event.Destroys fs name)
  | .write _ buf _ now => inferInstanceAs (Decidable (name ∈ fs.evictedBy buf now))
  | .remove _ _ => inferInstanceAs (Decidable (_ ∧ _))
  | .open .. | .read .. | .close .. | .lock .. | .unlock .. | .removeSession .. | .wake .. =>
      inferInstanceAs (Decidable False)

/-- Only files that nobody waits for are taken away. -/
def SparesAwaited (fs : FileSystem codec) (event : Event) : Prop :=
  ∀ waiter ∈ fs.blocked, ¬ event.Destroys fs waiter.name

instance (fs : FileSystem codec) (event : Event) : Decidable (SparesAwaited fs event) :=
  inferInstanceAs (Decidable (∀ waiter ∈ fs.blocked, ¬ event.Destroys fs waiter.name))

/-- An owner whose pid is -1 as an `int` is taken for an error. -/
theorem remove_error {name : Filename} {pid : Pid} (error : asInt pid = -1) {inode : Inode}
    (present : fs.file name = some inode) (own : inode.locked = pid)
    (result : ((Event.remove name pid).call fs).state? = some fs') : fs' = fs := by
  refine Outcome.Post.of_state (I := (· = fs)) (F := fun _ => True) ?_ result
  refine post_of_actions (fun _ => ⟨_, rfl⟩) ?_
  simp only [fileSystemRemove, post_bind, post_failIf]
  refine ⟨fun _ => trivial, fun _ => post_rtsGetInode (fun found _ stored => ?_) (fun _ => rfl)⟩
  obtain rfl := Option.some.inj (present.symm.trans stored)
  have locked : inode.isFileLocked = -1 := by
    rw [Inode.isFileLocked, own, error]
  exact ⟨fun _ => rfl, fun other => absurd locked other⟩

theorem destroys_of_vanish {name : Filename} {pid : Pid}
    (result : ((Event.remove name pid).call fs).state? = some fs')
    (own : ∃ f, fs.view.file name = some f ∧ f.locked = pid ∧ f.locked ≠ 0) :
    fs' = fs ∨ (Event.remove name pid).Destroys fs name := by
  obtain ⟨f, found, rfl, nonzero⟩ := own
  obtain ⟨inode, present, rfl⟩ := Option.map_eq_some_iff.mp found
  by_cases error : asInt inode.locked = -1
  · exact .inl (remove_error error present rfl result)
  · refine .inr ⟨rfl, ?_, ?_, error⟩
    · simp [lockedBy, present, FileView.of]
    · exact fun zero => nonzero (asInt_inj.mp (zero.trans asInt_zero.symm))

theorem valid_call (valid : fs.view.Valid) (possible : event.Possible fs)
    (spares : SparesAwaited fs event) (result : (event.call fs).state? = some fs') :
    fs'.view.Valid := by
  obtain ⟨acts, does, performs⟩ := Step.performed possible result
  have may := does.mayDo
  have keeps : (∀ a ∈ acts, ∀ name, a ≠ .vanish name) → fs'.view.Valid := by
    intro stays
    have meets : (viewSystem codec).Meets (fun v a => ∀ waiter ∈ v.blocked, a ≠ .vanish waiter.name)
        fs.view acts :=
      .of_forall fun v a member waiter _ => stays a member waiter.name
    exact performs.keeps (I := View.Valid) (fun _ _ valid enabled spares => valid.apply enabled spares)
      meets valid
  cases event with
  | write fd buf pid now =>
      have blocked : fs'.view.blocked = fs.view.blocked := by
        refine View.blocked_trace performs fun a member waiter => ?_
        cases may a member <;> simp
      intro waiter waits
      rw [blocked] at waits
      rw [View.holds_iff_lockState, lockState_write result (spares waiter waits),
        ← View.holds_iff_lockState]
      exact valid waiter waits
  | remove name pid =>
      obtain rfl | ⟨own, rfl⟩ := does
      · exact keeps nofun
      rcases destroys_of_vanish result own with rfl | destroys
      · exact valid
      · rw [performs.view_single]
        obtain _ | ⟨enabled, -⟩ := performs
        refine valid.apply enabled fun waiter waits is => ?_
        obtain rfl : name = waiter.name := Action.vanish.inj is
        exact spares waiter waits destroys
  | _ =>
      refine keeps fun a member name => ?_
      cases may a member <;> simp

end Event

/-- Along steps that take away only files that nobody waits for, a thread that waits
    does so on the inode that is stored under its name. -/
theorem awaited_file_stored {fs : FileSystem codec} (reached : Reachable Event.SparesAwaited fs)
    {waiter : Waiter} (waits : waiter ∈ fs.blocked) :
    ∃ inode, fs.file waiter.name = some inode ∧ inode.generation = waiter.generation := by
  have valid : fs.view.Valid := by
    refine Reachable.invariant (I := fun fs => fs.view.Valid) ?_ ?_ reached
    · intro memoryLimit filesLimit policy waiter waits
      cases waits
    · intro fs fs' event valid spares possible result
      exact Event.valid_call valid possible spares result
  obtain ⟨f, found, is⟩ := valid waiter waits
  obtain ⟨inode, present, rfl⟩ := Option.map_eq_some_iff.mp found
  exact ⟨inode, present, is⟩

/-- The thread of pid 2 while it waits for the first file. -/
def lockWaiter : Waiter := { pid := 2, name := [102], generation := 0, call := .lock }

theorem awaited_file_stored_two : ∃ fs : FileSystem huffmanCodec,
    Reachable Event.SparesAwaited fs ∧ lockWaiter ∈ fs.blocked ∧
      ∃ inode, fs.file [102] = some inode ∧ inode.generation = 0 := by
  obtain ⟨fs, reached, waits⟩ := Reachable.of_runs
    (Event.SparesAwaited : FileSystem huffmanCodec → Event → Prop) 1 4 .fifo
    (fun fs : FileSystem huffmanCodec => lockWaiter ∈ fs.blocked)
    [.open [102] 1 1 0, .open [102] 0 2 1, .lock 1 2 2, .write 0 (some [97, 98]) 1 3]
    (by decide +kernel)
  have waits : lockWaiter ∈ fs.blocked := of_decide_eq_true waits
  exact ⟨fs, reached, waits, awaited_file_stored reached waits⟩

/-- Steps after which a file holds more than 4096 MB have room for, as the `int` it
    is computed in: the bytes that a failed write leaves in the buffer of a descriptor
    are flushed with the next one. -/
def stuffing : List Event :=
  [.open [102] 3 1 0, .remove [102] 1, .write 0 (some (List.replicate 40 97)) 1 1,
    .open [102] 1 1 2, .write 0 (some [98]) 1 3]

/-- A write evicts the file that another thread waits for. -/
theorem awaited_file_evicted : ∃ (fs : FileSystem huffmanCodec) (waiter : Waiter),
    Reachable AnyEvent fs ∧ waiter ∈ fs.blocked ∧
      ¬ ∃ inode, fs.file waiter.name = some inode ∧ inode.generation = waiter.generation := by
  obtain ⟨fs, reached, ends⟩ := Reachable.of_runs
    (AnyEvent : FileSystem huffmanCodec → Event → Prop) 4096 4 .fifo
    (fun fs : FileSystem huffmanCodec =>
      { lockWaiter with generation := 1 } ∈ fs.blocked ∧ fs.file [102] = none)
    (stuffing ++ [.open [102] 0 2 4, .lock 2 2 5, .write 1 (some [97]) 1 6]) (by decide +kernel)
  obtain ⟨waits, gone⟩ := of_decide_eq_true ends
  refine ⟨fs, _, reached, waits, ?_⟩
  rintro ⟨inode, present, -⟩
  cases gone.symm.trans present

end FileStorage
