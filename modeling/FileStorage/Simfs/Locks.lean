import FileStorage.Simfs.Sessions

/-! # Lock exclusion

A lock is granted as soon as the requesting pid finds no other pid among the
references, but a pid without a reference of its own is not made to look. Where
only pids that refer to a file, or find it without references, ask for its lock,
all references and descriptors of a locked file belong to the pid that locks it.
-/

namespace FileStorage

open FileSystem Program

variable {codec : Codec}

/-- The pid that makes a step. -/
def Event.pid : Event → Pid
  | .open _ _ pid _ | .write _ _ pid _ | .read _ pid _ | .close _ pid _ | .remove _ pid
  | .lock _ pid _ | .unlock _ pid _ | .removeSession pid _ => pid
  | .wake waiter _ => waiter.pid

def PositivePids (_ : FileSystem codec) (event : Event) : Prop := 0 < asInt event.pid

instance (fs : FileSystem codec) (event : Event) : Decidable (PositivePids fs event) :=
  inferInstanceAs (Decidable (0 < asInt event.pid))

/-- A free file is locked by an open, or by a thread that wakes up, only if the
    pid refers to the file or nobody does. -/
def RefersToLock (fs : FileSystem codec) : Event → Prop
  | .open name flags pid _ => flags.testBit 0 = false → flags.testBit 1 = true →
      ∀ inode, fs.file name = some inode → inode.locked = 0 → inode.pendingLocks = 0 →
        pid ∈ inode.referenceList ∨ inode.referenceList = []
  | .wake waiter _ => ∀ inode, fs.file waiter.name = some inode → inode.locked = 0 →
      waiter.pid ∈ inode.referenceList ∨ inode.referenceList = []
  | _ => True

/-- The order of calls that keeps locks exclusive. -/
def LockOrder (fs : FileSystem codec) (event : Event) : Prop :=
  PositivePids fs event ∧ RetiredNames fs event ∧ RefersToLock fs event

instance (fs : FileSystem codec) : (event : Event) → Decidable (RefersToLock fs event)
  | .open name flags pid _ =>
      haveI := decidableOfFile fs name fun inode => inode.locked = 0 → inode.pendingLocks = 0 →
        pid ∈ inode.referenceList ∨ inode.referenceList = []
      inferInstanceAs (Decidable (flags.testBit 0 = false → flags.testBit 1 = true → _))
  | .wake waiter _ => decidableOfFile fs waiter.name fun inode => inode.locked = 0 →
      waiter.pid ∈ inode.referenceList ∨ inode.referenceList = []
  | .write .. | .read .. | .close .. | .remove .. | .lock .. | .unlock .. | .removeSession .. =>
      inferInstanceAs (Decidable True)

instance (fs : FileSystem codec) (event : Event) : Decidable (LockOrder fs event) :=
  inferInstanceAs (Decidable (_ ∧ _))

/-! ## The invariant -/

/-- A locked file is referred to by its owner only. -/
def Exclusive (v : View codec) : Prop :=
  ∀ name f, v.file name = some f → f.locked ≠ 0 →
    0 < asInt f.locked ∧ ∀ pid ∈ f.referenceList, pid = f.locked

/-- The lock of a free file goes to a pid that refers to it or finds no references. -/
def GrantedRightly (v : View codec) : Action codec → Prop
  | .grant name pid => 0 < asInt pid ∧ ∀ f, v.file name = some f → f.locked = 0 →
      pid ∈ f.referenceList ∨ f.referenceList = []
  | _ => True

theorem FileView.alone_of_not_mustWait {f : FileView} {pid : Pid}
    (counted : f.referenceCount = f.referenceList.length) (ready : ¬ f.MustWait pid)
    (refers : pid ∈ f.referenceList ∨ f.referenceList = []) :
    ∀ other ∈ f.referenceList, other = pid := by
  intro other member
  rcases refers with refers | empty
  · by_contra different
    exact ready ⟨counted ▸ List.length_pos_of_mem refers, refers, other, member, different⟩
  · rw [empty] at member
    cases member

theorem FileView.mem_of_released {f : FileView} {pid other : Pid}
    (member : other ∈ (f.released pid).referenceList) : other ∈ f.referenceList := by
  unfold released at member
  split at member
  · exact List.mem_of_mem_erase member
  · exact member

theorem Exclusive.changeFile {v : View codec} (exclusive : Exclusive v) {name : Filename}
    {g : FileView → FileView}
    (changed : ∀ f, v.file name = some f → (g f).locked ≠ 0 →
      0 < asInt (g f).locked ∧ ∀ pid ∈ (g f).referenceList, pid = (g f).locked) :
    Exclusive (v.changeFile name g) := by
  intro other f' stored locked
  obtain ⟨f, found, rfl⟩ := View.file_of_changeFile stored
  split at locked
  · rename_i this
    rw [if_pos this]
    exact changed f (this ▸ found) locked
  · rename_i different
    rw [if_neg different]
    exact exclusive other f found locked

theorem Exclusive.apply {v : View codec} (exclusive : Exclusive v) (counted : Counted v)
    {a : Action codec} (enabled : v.Enabled a) (right : GrantedRightly v a) :
    Exclusive (v.apply a) := by
  cases a with
  | create created =>
      intro name f' stored locked
      by_cases this : name = created
      · subst this
        obtain rfl := Option.some.inj ((Function.update_self _ _ v.file).symm.trans stored)
        exact absurd rfl locked
      · exact exclusive name f' (by simpa [View.apply, this] using stored) locked
  | grant name pid =>
      obtain ⟨f₀, found₀, free, ready⟩ := enabled
      refine exclusive.changeFile fun f found _ => ⟨right.1, ?_⟩
      obtain rfl := Option.some.inj (found₀.symm.trans found)
      by_cases held : f₀.locked = 0
      · exact FileView.alone_of_not_mustWait (counted name f₀ found) ready (right.2 f₀ found held)
      · rcases free with free | own
        · exact absurd free held
        · exact own ▸ (exclusive name f₀ found held).2
  | attach fd name pid =>
      obtain ⟨-, -, f₀, found₀, access⟩ := enabled
      refine exclusive.changeFile fun f found locked => ?_
      obtain rfl := Option.some.inj (found₀.symm.trans found)
      obtain ⟨positive, alone⟩ := exclusive name f₀ found locked
      refine ⟨positive, fun other member => ?_⟩
      rcases List.mem_cons.mp member with rfl | member
      · by_contra different
        exact access ⟨positive, Ne.symm different⟩
      · exact alone other member
  | close fd =>
      simp only [View.apply]
      split
      · exact exclusive
      · rename_i s live
        refine exclusive.changeFile fun f found locked => ?_
        have same := (View.released_keeps f s.owner).2.1
        rw [same] at locked ⊢
        obtain ⟨positive, alone⟩ := exclusive s.name f found locked
        exact ⟨positive, fun other member => alone other (FileView.mem_of_released member)⟩
  | release name pid =>
      refine exclusive.changeFile fun f found locked => ?_
      obtain ⟨positive, alone⟩ := exclusive name f found locked
      exact ⟨positive, fun other member => alone other (List.mem_of_mem_erase member)⟩
  | unlock name pid => exact exclusive.changeFile fun f found locked => absurd rfl locked
  | leave pid =>
      intro name f' stored locked
      obtain ⟨f, found, rfl⟩ := Option.map_eq_some_iff.mp stored
      simp only [FileView.left] at locked ⊢
      split at locked
      · exact absurd rfl locked
      · rename_i different
        rw [if_neg different]
        obtain ⟨positive, alone⟩ := exclusive name f found locked
        exact ⟨positive, fun other member => alone other (List.mem_filter.mp member).1⟩
  | _ =>
      intro name f' stored locked
      obtain ⟨f, found, -, references, locks, -⟩ := View.file_of_apply rfl stored
      rw [(references rfl).1, locks rfl]
      exact exclusive name f found (locks rfl ▸ locked)

/-! ## Granting in order -/

theorem grantedRightly_of_not_grant (v : View codec) {a : Action codec} (other : a.grants = false) :
    GrantedRightly v a := by
  cases a with
  | grant name pid => cases other
  | _ => trivial

theorem meets_without_grant {v : View codec} {acts : List (Action codec)}
    (others : ∀ a ∈ acts, a.grants = false) : (viewSystem codec).Meets GrantedRightly v acts :=
  .of_forall fun v a member => grantedRightly_of_not_grant v (others a member)

/-- Actions without a grant, or a request that is granted at once. -/
def GrantsOnce (name : Filename) (pid : Pid) (acts : List (Action codec)) : Prop :=
  (∀ a ∈ acts, a.grants = false) ∨ ∃ rest, acts = .request name :: .grant name pid :: rest ∧
    ∀ a ∈ rest, a.grants = false

theorem GrantsOnce.of_requested {name : Filename} {pid : Pid} {acts : List (Action codec)}
    (requested : Requested name pid acts) : GrantsOnce name pid acts := by
  rcases requested with rfl | rfl | rfl | rfl
  · exact .inl nofun
  · exact .inl (by simp [Action.grants])
  · exact .inr ⟨[], rfl, nofun⟩
  · exact .inr ⟨_, rfl, by simp [Action.grants]⟩

theorem GrantsOnce.meets {v w : View codec} {name : Filename} {pid : Pid}
    {acts : List (Action codec)} (once : GrantsOnce name pid acts) (positive : 0 < asInt pid)
    (refers : ∀ f, v.file name = some f → f.locked = 0 → f.pendingLocks = 0 →
      pid ∈ f.referenceList ∨ f.referenceList = [])
    (trace : (viewSystem codec).Trace v acts w) :
    (viewSystem codec).Meets GrantedRightly v acts := by
  rcases once with others | ⟨rest, rfl, others⟩
  · exact meets_without_grant others
  · obtain _ | ⟨⟨f₀, found₀, none_⟩, -⟩ := trace
    refine ⟨trivial, ⟨positive, fun f' stored free => ?_⟩, meets_without_grant others⟩
    obtain ⟨f, found, rfl⟩ := View.file_of_changeFile stored
    rw [if_pos rfl] at free ⊢
    obtain rfl := Option.some.inj (found₀.symm.trans found)
    exact refers f₀ found₀ free none_

theorem GrantsOnce.of_openRest {name : Filename} {flags : Nat} {pid : Pid}
    {acts : List (Action codec)} (rest : Event.OpenRest name flags pid acts) :
    GrantsOnce name pid acts := by
  rcases rest with rfl | ⟨fd, rfl⟩ | ⟨-, requested | ⟨fd, rfl⟩ | ⟨generation, rfl⟩⟩
  · exact .inl nofun
  · exact .inl (by simp [Action.grants])
  · exact .of_requested requested
  · exact .inr ⟨_, rfl, by simp [Action.grants]⟩
  · exact .inl (by simp [Action.grants])

theorem Referenced.mem {v : View codec} (referenced : Referenced v) {fd : Nat} {s : SlotView}
    (live : v.slot fd = some s) {f : FileView} (stored : v.file s.name = some f) :
    s.owner ∈ f.referenceList := by
  rw [← List.count_pos_iff, referenced.listed s.name f stored, Finset.card_pos]
  exact ⟨fd, View.mem_held.mpr ⟨referenced.inside fd s live, s, live, rfl, rfl⟩⟩

theorem meets_grantedRightly {fs fs' : FileSystem codec} {event : Event}
    {acts : List (Action codec)} (referenced : Referenced fs.view) (guarded : LockOrder fs event)
    (does : event.Does fs fs' acts) (performs : fs.Performs acts fs') :
    (viewSystem codec).Meets GrantedRightly fs.view acts := by
  obtain ⟨positive, -, refers⟩ := guarded
  cases event with
  | «open» name flags pid now =>
      obtain rfl | ⟨pre, rest, opening, does, rfl⟩ := does
      · trivial
      · rcases opening with ⟨old, rfl⟩ | ⟨-, rfl⟩
        · by_cases lock : flags.testBit 1 = true
          · refine (GrantsOnce.of_openRest does).meets positive (fun f found free none_ => ?_) performs
            obtain ⟨inode, present, rfl⟩ := Option.map_eq_some_iff.mp found
            exact refers old lock inode present free none_
          · rcases does with rfl | ⟨fd, rfl⟩ | ⟨flag, -⟩
            · trivial
            · exact ⟨trivial, trivial⟩
            · exact absurd flag lock
        · obtain _ | ⟨-, trace⟩ := performs
          refine ⟨trivial, (GrantsOnce.of_openRest does).meets positive (fun f found _ _ => ?_) trace⟩
          obtain rfl := Option.some.inj ((Function.update_self _ _ fs.view.file).symm.trans found)
          exact .inr rfl
  | lock fd pid now =>
      obtain rfl | ⟨s, live, rfl, does⟩ := does
      · trivial
      · have once : GrantsOnce s.name s.owner acts := by
          rcases does with requested | ⟨generation, rfl⟩
          · exact .of_requested requested
          · exact .inl (by simp [Action.grants])
        exact once.meets positive (fun f found _ _ => .inl (referenced.mem live found)) performs
  | wake waiter now =>
      obtain rfl | ⟨rest, rfl, grants⟩ := does
      · trivial
      · have right : GrantedRightly (fs.view.apply (.unblock waiter))
            (.grant waiter.name waiter.pid) := by
          refine ⟨positive, fun f found free => ?_⟩
          obtain ⟨inode, present, rfl⟩ := Option.map_eq_some_iff.mp found
          exact refers inode present free
        refine ⟨trivial, ?_⟩
        rcases grants with rfl | rfl | rfl | ⟨fd, rfl⟩
        · trivial
        · exact ⟨right, trivial⟩
        · exact ⟨right, trivial, trivial⟩
        · exact ⟨right, trivial, trivial, trivial⟩
  | _ =>
      refine meets_without_grant fun a member => ?_
      cases does.mayDo a member <;> rfl

theorem exclusive_of_reachable {fs : FileSystem codec} (reached : Reachable LockOrder fs) :
    Referenced fs.view ∧ Exclusive fs.view :=
  Reachable.orderly_invariant Exclusive GrantedRightly (fun _ _ guarded => guarded.2.1) nofun
    (fun _ _ _ _ _ referenced guarded does performs =>
      meets_grantedRightly referenced guarded does performs)
    (fun _ _ referenced exclusive => exclusive.apply referenced.counted trivial trivial)
    (fun _ _ exclusive referenced enabled _ right =>
      exclusive.apply referenced.counted enabled right) reached

/-! ## Exclusion -/

/-- A call of the pid about the file with the name. -/
def Event.ActsOn (fs : FileSystem codec) (name : Filename) (pid : Pid) : Event → Prop
  | .open other _ caller _ | .remove other caller => other = name ∧ caller = pid
  | .write fd _ caller _ | .read fd caller _ | .lock fd caller _ | .unlock fd caller _ =>
      caller = pid ∧ ∃ entry, fs.slot (toUnsigned32 fd) = some entry ∧ entry.inode.name = name
  | .wake waiter _ => waiter.name = name ∧ waiter.pid = pid ∧ waiter ∈ fs.blocked
  | .close .. | .removeSession .. => False

theorem not_enabled_grant {v : View codec} {name : Filename} {pid : Pid} {f : FileView}
    (stored : v.file name = some f) (locked : f.locked ≠ 0) (other : pid ≠ f.locked) :
    ¬ v.Enabled (.grant name pid) := by
  rintro ⟨f', stored', free | own, -⟩
  · obtain rfl := Option.some.inj (stored.symm.trans stored')
    exact locked free
  · obtain rfl := Option.some.inj (stored.symm.trans stored')
    exact other own.symm

theorem fileSystemOpen_excluded {fs : FileSystem codec} {name : Filename} {f : FileView}
    (stored : fs.view.file name = some f) (positive : 0 < asInt f.locked) (locked : f.locked ≠ 0)
    {pid : Pid} (other : pid ≠ f.locked) (flags : Nat) (now : Int) :
    (fileSystemOpen name flags pid now fs).Post (fun progress _ => progress = .waiting)
      (fun _ _ => True) (fun _ => True) := by
  refine (fileSystemOpen_performs fs name flags pid now).mono ?_ (fun _ _ _ => trivial)
    (fun _ _ => trivial)
  rintro (fd | _) fs' returns
  · obtain ⟨pre, lock, opening, locks, performs⟩ := returns
    rcases opening with ⟨-, rfl⟩ | ⟨-, rfl⟩
    · rcases locks with rfl | ⟨-, rfl⟩
      · obtain _ | ⟨⟨-, -, f', stored', access⟩, -⟩ := performs
        obtain rfl := Option.some.inj (stored.symm.trans stored')
        exact absurd ⟨positive, Ne.symm other⟩ access
      · obtain _ | ⟨-, _ | ⟨granted, -⟩⟩ := performs
        refine absurd granted (not_enabled_grant (f := { f with
          pendingLocks := f.pendingLocks + 1 }) ?_ locked other)
        exact (View.changeFile_self _ _ _).trans (by rw [stored]; rfl)
    · obtain _ | ⟨⟨-, absent⟩, -⟩ := performs
      cases stored.symm.trans absent
  · rfl

/-- In every run in order, a locked file has descriptors and references of its
    owner only, and no call of another pid about it succeeds. -/
theorem lock_exclusive {fs : FileSystem codec} (reached : Reachable LockOrder fs) {name : Filename}
    {inode : Inode} (stored : fs.file name = some inode) (locked : inode.locked ≠ 0) :
    (∀ fd entry, fs.slot fd = some entry → entry.inode.name = name →
      entry.owner = inode.locked) ∧
    (∀ pid ∈ inode.referenceList, pid = inode.locked) ∧
    ∀ (event : Event) (pid : Pid), pid ≠ inode.locked → event.ActsOn fs name pid →
      ∀ reply, (event.call fs).value? = some reply → reply = .waiting := by
  obtain ⟨referenced, exclusive⟩ := exclusive_of_reachable reached
  obtain ⟨positive, alone⟩ := exclusive name _ (view_file stored) locked
  have descriptors : ∀ fd entry, fs.slot fd = some entry → entry.inode.name = name →
      entry.owner = inode.locked := by
    rintro fd entry live rfl
    exact alone _ (referenced.mem (view_slot live) (view_file stored))
  refine ⟨descriptors, alone, fun event pid other acts reply returned => ?_⟩
  suffices post : (event.call fs).Post (fun reply _ => reply = .waiting) (fun _ _ => True)
      (fun _ => True) by
    obtain ⟨-, waiting⟩ := post.of_value returned
    exact waiting
  -- a call through a descriptor of another pid finds none
  have foreign : ∀ fd copy, (∃ entry, fs.slot fd = some entry ∧ entry.inode.name = name) →
      fs.slot fd = some { owner := pid, inode := copy } → False := by
    rintro fd copy ⟨entry, live, named⟩ own
    obtain rfl := Option.some.inj (live.symm.trans own)
    exact other (descriptors fd _ live named)
  cases event with
  | «open» opened flags caller now =>
      obtain ⟨rfl, rfl⟩ := acts
      simp only [Event.call, post_bind]
      refine (fileSystemOpen_excluded (view_file stored) positive locked other flags now).mono ?_
        (fun _ _ _ => trivial) (fun _ _ => trivial)
      rintro _ fs' rfl
      rfl
  | write fd buf caller now =>
      obtain ⟨rfl, named⟩ := acts
      have writes := fileSystemWrite_performs { fileSystem := fs, evictedList := [] } fd buf caller now
      change (Event.writeCall fd buf caller now fs).Post _ _ _
      unfold Event.writeCall
      split
      · rename_i done
        rw [done] at writes
        obtain ⟨-, -, -, -, -, ⟨s, live, own⟩, -⟩ := writes
        obtain ⟨entry, live', rfl⟩ := Option.map_eq_some_iff.mp live
        obtain rfl : entry.owner = caller := own
        exact (foreign _ entry.inode named live').elim
      · trivial
      · trivial
  | read fd caller now =>
      obtain ⟨rfl, named⟩ := acts
      simp only [Event.call, post_bind]
      refine (fileSystemRead_performs fs fd caller now).mono ?_ (fun _ _ _ => trivial)
        (fun _ _ => trivial)
      rintro - fs' ⟨copy, -, -, -, live, -⟩
      exact (foreign _ copy named live).elim
  | close fd caller now | removeSession caller now => exact acts.elim
  | remove removed caller =>
      obtain ⟨rfl, rfl⟩ := acts
      simp only [Event.call, post_bind]
      refine (fileSystemRemove_performs fs removed caller).mono ?_ (fun _ _ _ => trivial)
        (fun _ _ => trivial)
      rintro - fs' ⟨⟨inode', stored', own, -⟩, -⟩
      obtain rfl := Option.some.inj (stored.symm.trans stored')
      exact absurd own.symm other
  | lock fd caller now =>
      obtain ⟨rfl, named⟩ := acts
      simp only [Event.call, post_bind]
      refine (fileSystemLock_performs fs fd caller now).mono ?_ (fun _ _ _ => trivial)
        (fun _ h => h.elim)
      rintro - fs' ⟨copy, live, -⟩
      exact (foreign _ copy named live).elim
  | unlock fd caller now =>
      obtain ⟨rfl, named⟩ := acts
      simp only [Event.call, post_bind]
      refine (fileSystemUnlock_performs fs fd caller now).mono ?_ (fun _ _ _ => trivial)
        (fun _ h => h.elim)
      rintro - fs' ⟨copy, live, -⟩
      exact (foreign _ copy named live).elim
  | wake waiter now =>
      obtain ⟨rfl, rfl, waits⟩ := acts
      have refused : ∀ {acts w}, ¬ (viewSystem codec).Trace fs.view
          (.unblock waiter :: .grant waiter.name waiter.pid :: acts) w := by
        rintro acts w (_ | ⟨-, _ | ⟨granted, -⟩⟩)
        exact not_enabled_grant (f := FileView.of inode) (view_file stored) locked other granted
      simp only [Event.call, post_bind]
      refine (wakeUp_performs waits now).mono ?_ (fun _ _ _ => trivial) (fun _ _ => trivial)
      rintro ((_ | fd) | _) fs' ⟨wakes, -⟩
      · exact (refused wakes).elim
      · exact (refused wakes).elim
      · rfl

/-- A file that two pids have had open is locked by the second of them. -/
theorem lock_exclusive_two : ∃ (fs : FileSystem huffmanCodec) (inode : Inode),
    (Reachable LockOrder fs ∧ fs.file [102] = some inode ∧ inode.locked = 2) ∧
    (∀ fd entry, fs.slot fd = some entry → entry.inode.name = [102] → entry.owner = 2) ∧
    ∀ reply, (Event.call (.open [102] 0 1 5) fs).value? = some reply → reply = .waiting := by
  obtain ⟨fs, reached, checked⟩ := Reachable.of_runs
    (LockOrder : FileSystem huffmanCodec → Event → Prop) 1 4 .fifo
    (fun fs : FileSystem huffmanCodec => (fs.file [102]).any fun inode : Inode =>
      inode.locked = 2)
    [.open [102] 1 1 0, .open [102] 0 2 1, .lock 1 2 2, .close 0 1 3,
      .wake { pid := 2, name := [102], generation := 0, call := .lock } 4] (by decide +kernel)
  obtain ⟨inode, stored, two⟩ := (Option.any_eq_true _ _).mp checked
  have two : inode.locked = 2 := of_decide_eq_true two
  have locked : inode.locked ≠ 0 := by
    rw [two]
    decide
  obtain ⟨descriptors, -, excluded⟩ := lock_exclusive reached stored locked
  refine ⟨fs, inode, ⟨reached, stored, two⟩, two ▸ descriptors, excluded (.open [102] 0 1 5) 1 ?_
    ⟨rfl, rfl⟩⟩
  rw [two]
  decide

/-- A pid without a reference takes the lock of a file that another pid has open. -/
theorem lock_not_exclusive : ∃ (fs : FileSystem huffmanCodec) (inode : Inode) (entry : Entry),
    Reachable PositivePids fs ∧ fs.file [102] = some inode ∧ inode.locked = 2 ∧
      fs.slot 0 = some entry ∧ entry.inode.name = [102] ∧ entry.owner = 1 ∧
      (Event.call (.write 0 (some [97, 98]) 1 2) fs).value? = some .success := by
  obtain ⟨fs, reached, checked⟩ := Reachable.of_runs
    (PositivePids : FileSystem huffmanCodec → Event → Prop) 1 4 .fifo
    (fun fs : FileSystem huffmanCodec => (fs.file [102]).any fun inode : Inode =>
      (fs.slot 0).any fun entry : Entry => decide (inode.locked = 2 ∧ entry.inode.name = [102] ∧
        entry.owner = 1 ∧ (Event.call (.write 0 (some [97, 98]) 1 2) fs).value? = some .success))
    [.open [102] 1 1 0, .open [102] 2 2 1] (by decide +kernel)
  obtain ⟨inode, stored, checked⟩ := (Option.any_eq_true _ _).mp checked
  obtain ⟨entry, live, checked⟩ := (Option.any_eq_true _ _).mp checked
  obtain ⟨locked, named, own, writes⟩ := of_decide_eq_true checked
  exact ⟨fs, inode, entry, reached, stored, locked, live, named, own, writes⟩

end FileStorage
