import FileStorage.Simfs.Run

/-! # Descriptors and generations of files

A descriptor remembers its file by name only. A name that is removed and created
again stands for a different file, and an old descriptor then leads to it. Where
no name is created while a descriptor of an earlier file of that name is live,
every descriptor leads to the file it was opened on or to none.
-/

namespace FileStorage

open FileSystem

variable {codec : Codec}

/-- The descriptors and the files of `w` are among those of `v`. -/
structure View.Shrinks (v w : View codec) : Prop where
  slots : ∀ fd s', w.slot fd = some s' → ∃ s, v.slot fd = some s ∧ s'.key = s.key
  files : ∀ name f', w.file name = some f' → ∃ f, v.file name = some f ∧
    f'.generation = f.generation

theorem View.apply_shrinks (v : View codec) (a : Action codec) (old : a.creates = false)
    (closed : a.attaches = false) : v.Shrinks (v.apply a) := by
  refine ⟨fun fd s' live => ?_, fun name f' stored => ?_⟩
  · cases a with
    | attach fd name pid => cases closed
    | close fd₀ =>
        obtain ⟨-, found⟩ := slot_of_close live
        exact ⟨s', found, rfl⟩
    | forget pid | leave pid => exact ⟨s', (Option.filter_eq_some_iff.mp live).1, rfl⟩
    | _ => exact slot_of_apply rfl live
  · obtain ⟨f, found, generation, -⟩ := file_of_apply old stored
    exact ⟨f, found, generation⟩

/-! ## Names that are retired -/

/-- A file is created only where no descriptor has its name. -/
def RetiredNames (fs : FileSystem codec) : Event → Prop
  | .open name flags _ _ => flags.testBit 0 = true → fs.file name = none →
      ∀ fd entry, fs.slot fd = some entry → entry.inode.name ≠ name
  | _ => True

/-- The same for one action. -/
def RetiredName (v : View codec) : Action codec → Prop
  | .create name => ∀ fd s, v.slot fd = some s → s.name ≠ name
  | _ => True

/-- Only an open creates a file, and it begins with it. -/
theorem Event.Does.creates {event : Event} {fs fs' : FileSystem codec} {acts : List (Action codec)}
    (does : event.Does fs fs' acts) : (∀ a ∈ acts, a.creates = false) ∨
      ∃ name flags pid now rest, event = .open name flags pid now ∧ flags.testBit 0 = true ∧
        acts = .create name :: rest ∧ ∀ a ∈ rest, a.creates = false := by
  cases event with
  | «open» name flags pid now =>
      obtain rfl | ⟨pre, rest, opening, does, rfl⟩ := does
      · exact .inl nofun
      have old : ∀ a ∈ rest, a.creates = false := by
        rcases does with rfl | ⟨fd, rfl⟩ | ⟨-, requested | ⟨fd, rfl⟩ | ⟨generation, rfl⟩⟩
        · nofun
        · simp [Action.creates]
        · rcases requested with rfl | rfl | rfl | rfl <;> simp [Action.creates]
        · simp [Action.creates]
        · simp [Action.creates]
      rcases opening with ⟨-, rfl⟩ | ⟨flag, rfl⟩
      · exact .inl old
      · exact .inr ⟨name, flags, pid, now, rest, rfl, flag, rfl, old⟩
  | _ =>
      left
      intro a member
      cases does.mayDo a member <;> rfl

theorem retiredName_of_old (v : View codec) {a : Action codec} (old : a.creates = false) :
    RetiredName v a := by
  cases a with
  | create name => cases old
  | _ => trivial

theorem meets_retiredName {fs fs' : FileSystem codec} {event : Event} {acts : List (Action codec)}
    (guarded : RetiredNames fs event) (does : event.Does fs fs' acts)
    (performs : fs.Performs acts fs') : (viewSystem codec).Meets RetiredName fs.view acts := by
  rcases does.creates with none_ | ⟨name, flags, pid, now, rest, rfl, flag, rfl, none_⟩
  · exact .of_forall fun v a member => retiredName_of_old v (none_ a member)
  · refine ⟨?_, .of_forall fun v a member => retiredName_of_old v (none_ a member)⟩
    obtain _ | ⟨⟨-, absent⟩, -⟩ := performs
    intro fd s live
    obtain ⟨entry, found, rfl⟩ := Option.map_eq_some_iff.mp live
    exact guarded flag (Option.map_eq_none_iff.mp absent) fd entry found

/-! ## Generations -/

/-- Every descriptor leads to the file it was opened on, or to none. -/
def SameGenerations (v : View codec) : Prop :=
  ∀ fd s, v.slot fd = some s → ∀ f, v.file s.name = some f → f.generation = s.generation

theorem SameGenerations.shrinks {v w : View codec} (same : SameGenerations v)
    (shrinks : v.Shrinks w) : SameGenerations w := by
  intro fd s' live f' stored
  obtain ⟨s, was, key⟩ := shrinks.slots fd s' live
  obtain ⟨-, name, generation⟩ := SlotView.key_eq.mp key
  obtain ⟨f, found, generation'⟩ := shrinks.files s'.name f' stored
  rw [generation', generation]
  exact same fd s was f (name ▸ found)

theorem SameGenerations.apply {v : View codec} {a : Action codec} (same : SameGenerations v)
    (enabled : v.Enabled a) (retired : RetiredName v a) : SameGenerations (v.apply a) := by
  cases a with
  | create name =>
      intro fd s live f stored
      have other : s.name ≠ name := retired fd s live
      exact same fd s live f (by simpa [View.apply, other] using stored)
  | attach fd name pid =>
      obtain ⟨-, -, f₀, stored₀, -⟩ := enabled
      intro other s live f stored
      obtain ⟨f₁, stored₁, rfl⟩ := View.file_of_changeFile stored
      by_cases this : other = fd
      · subst this
        obtain ⟨f₂, stored₂, rfl⟩ := Option.map_eq_some_iff.mp
          ((Function.update_self other _ v.slot).symm.trans live)
        obtain rfl := Option.some.inj (stored₁.symm.trans stored₂)
        split <;> rfl
      · have live : v.slot other = some s := by simpa [View.apply, this] using live
        have generation := same other s live f₁ stored₁
        split <;> exact generation
  | _ => exact same.shrinks (View.apply_shrinks v _ rfl rfl)

theorem sameGenerations_of_reachable {fs : FileSystem codec} (reached : Reachable RetiredNames fs) :
    SameGenerations fs.view := by
  refine Reachable.view_invariant SameGenerations RetiredName nofun ?_ ?_ reached
  · exact fun fs fs' event acts _ guarded does performs => meets_retiredName guarded does performs
  · exact fun v a same enabled retired => same.apply enabled retired

def Event.descriptor : Event → Option Nat
  | .write fd _ _ _ | .read fd _ _ | .close fd _ _ | .lock fd _ _ | .unlock fd _ _ =>
      some (toUnsigned32 fd)
  | _ => none

/-- The call goes through a descriptor of a file that is gone, and it changes the
    different file that now has the name, or returns its content. -/
def Crosses (fs : FileSystem codec) (event : Event) : Prop :=
  ∃ fd entry inode, event.descriptor = some fd ∧ fs.slot fd = some entry ∧
    fs.file entry.inode.name = some inode ∧ inode.generation ≠ entry.inode.generation ∧
    ((∃ bytes, (event.call fs).value? = some (.data bytes)) ∨
      ∃ fs', (event.call fs).state? = some fs' ∧ fs'.file entry.inode.name ≠ some inode)

/-- Where a name is created only after all descriptors of its earlier files are
    closed, no call ever crosses over to a later file. -/
theorem not_crosses_of_retired {fs : FileSystem codec} (reached : Reachable RetiredNames fs)
    (event : Event) : ¬ Crosses fs event := by
  rintro ⟨fd, entry, inode, -, live, stored, different, -⟩
  exact different (sameGenerations_of_reachable reached fd _ (view_slot live) _ (view_file stored))

instance (fs : FileSystem codec) : (event : Event) → Decidable (RetiredNames fs event)
  | .open name flags _ _ =>
      decidable_of_iff (flags.testBit 0 = true → fs.file name = none →
        fs.fileDescriptorTable.1.allSlots (fun entry => entry.inode.name ≠ name) = true)
        (by simp only [FileDescriptorTable.allSlots_iff, decide_eq_true_eq, RetiredNames, slot])
  | .write .. | .read .. | .close .. | .remove .. | .lock .. | .unlock .. | .removeSession ..
  | .wake .. => inferInstanceAs (Decidable True)

/-- A file is removed, its descriptor closed, and the name created again. -/
theorem not_crosses_after_close : ∃ fs : FileSystem huffmanCodec,
    (Reachable RetiredNames fs ∧ fs.file [102] ≠ none) ∧ ¬ Crosses fs (.read 0 2 4) := by
  obtain ⟨fs, reached, stored⟩ := Reachable.of_runs
    (RetiredNames : FileSystem huffmanCodec → Event → Prop) 1 4 .fifo
    (fun fs => decide (fs.file [102] ≠ none))
    [.open [102] 3 1 0, .remove [102] 1, .close 0 1 1, .open [102] 1 2 2, .write 0 (some [97, 98]) 2 3]
    (by decide +kernel)
  exact ⟨fs, ⟨reached, of_decide_eq_true stored⟩, not_crosses_of_retired reached _⟩

/-- A read through an old descriptor returns the content of the later file. -/
theorem crosses_after_remove : ∃ (fs : FileSystem huffmanCodec) (event : Event),
    Reachable AnyEvent fs ∧ Crosses fs event := by
  obtain ⟨fs, reached, checked⟩ := Reachable.of_runs
    (AnyEvent : FileSystem huffmanCodec → Event → Prop) 1 4 .fifo
    (fun fs : FileSystem huffmanCodec => (fs.slot 0).any fun entry : Entry =>
      (fs.file entry.inode.name).any fun inode : Inode => decide (inode.generation ≠ entry.inode.generation ∧
        (Event.call (.read 0 1 4) fs).value? = some (.data [97, 98])))
    [.open [102] 3 1 0, .remove [102] 1, .open [102] 1 2 2, .write 1 (some [97, 98]) 2 3]
    (by decide +kernel)
  obtain ⟨entry, live, checked⟩ := (Option.any_eq_true _ _).mp checked
  obtain ⟨inode, stored, checked⟩ := (Option.any_eq_true _ _).mp checked
  obtain ⟨different, returned⟩ := of_decide_eq_true checked
  exact ⟨fs, .read 0 1 4, reached, 0, entry, inode, by decide +kernel, live, stored, different,
    .inl ⟨_, returned⟩⟩

end FileStorage
