import FileStorage.Simfs.Run

/-! # Contents and artifacts

Every artifact is made for one file name, and only that file and its descriptors
point to it. A read compresses the content of a file anew, and a flush works on
the copy of a descriptor, so a copy may be left with an artifact that is freed.
Where a write finds the pointer of its file in its copy, or none at all, and a
read finds nothing to flush, no freed artifact is ever decoded.
-/

namespace FileStorage

open FileSystem Program

variable {codec : Codec}

/-! ## Whose artifact it is -/

/-- A pointer of a file with the name, or of a descriptor of one: its artifact
    exists and was made for the name. Without content there is no size. -/
def Placed (owner : Nat → Filename) (length : Nat) (name : Filename) (ptr : DirectPtr)
    (size : Nat) : Prop :=
  (∀ id, ptr = .artifact id → id < length ∧ owner id = name) ∧ (ptr = .null → size = 0)

structure Owned (owner : Nat → Filename) (v : View codec) : Prop where
  files : ∀ name f, v.file name = some f →
    Placed owner v.memory.length name f.directPtr f.size
  slots : ∀ fd s, v.slot fd = some s →
    Placed owner v.memory.length s.name s.directPtr s.size

namespace Placed

variable {owner : Nat → Filename} {length : Nat} {name : Filename} {ptr : DirectPtr} {size : Nat}

theorem null (owner : Nat → Filename) (length : Nat) (name : Filename) :
    Placed owner length name .null 0 := ⟨nofun, fun _ => rfl⟩

theorem fresh (owner : Nat → Filename) (length : Nat) (name : Filename) (size : Nat) :
    Placed (Function.update owner length name) (length + 1) name (.artifact length) size := by
  refine ⟨fun id same => ?_, nofun⟩
  obtain rfl := DirectPtr.artifact.inj same
  exact ⟨Nat.lt_succ_self _, Function.update_self ..⟩

theorem older (placed : Placed owner length name ptr size) (maker : Filename) :
    Placed (Function.update owner length maker) (length + 1) name ptr size := by
  refine ⟨fun id same => ?_, placed.2⟩
  obtain ⟨inside, own⟩ := placed.1 id same
  exact ⟨Nat.lt_succ_of_lt inside, by rw [Function.update_of_ne inside.ne, own]⟩

theorem ofBytes (owner : Nat → Filename) (length : Nat) (name : Filename) (bytes : List UInt8) :
    Placed owner length name (.ofBytes bytes) bytes.length := by
  cases bytes with
  | nil => exact null owner length name
  | cons byte rest => exact ⟨nofun, nofun⟩

theorem apart {other : Filename} {ptr' : DirectPtr} {size' : Nat}
    (placed : Placed owner length name ptr size) (placed' : Placed owner length other ptr' size')
    (different : name ≠ other) : ∀ id, ptr = .artifact id → ptr' ≠ .artifact id := by
  intro id same same'
  exact different ((placed.1 id same).2.symm.trans (placed'.1 id same').2)

end Placed

def Action.encodes : Action codec → Bool
  | .reread .. | .flush .. => true
  | _ => false

theorem View.length_memory_apply (v : View codec) {a : Action codec} (same : a.encodes = false) :
    (v.apply a).memory.length = v.memory.length := by
  cases a with
  | reread name new | flush fd new => cases same
  | vanish name | spoil name =>
      simp only [apply]
      cases v.file name <;> simp
  | close fd | tear fd =>
      simp only [apply]
      split <;> simp [changeFile]
  | _ => rfl

theorem Owned.apply {owner : Nat → Filename} {v : View codec} (owned : Owned owner v)
    {a : Action codec} (enabled : v.Enabled a) : ∃ owner', Owned owner' (v.apply a) := by
  cases a with
  | create created =>
      refine ⟨owner, fun name f stored => ?_, owned.slots⟩
      by_cases this : name = created
      · subst this
        obtain rfl := Option.some.inj ((Function.update_self _ _ v.file).symm.trans stored)
        exact .null owner _ name
      · exact owned.files name f (by simpa [View.apply, this] using stored)
  | attach fd opened pid =>
      refine ⟨owner, fun name f' stored => ?_, fun fd' s live => ?_⟩
      · obtain ⟨f, found, -, -, -, contents⟩ := View.file_of_apply rfl stored
        obtain ⟨ptr, size⟩ := contents rfl
        rw [ptr, size]
        exact owned.files name f found
      · by_cases this : fd' = fd
        · subst this
          obtain ⟨f, found, rfl⟩ := Option.map_eq_some_iff.mp
            ((Function.update_self fd' _ v.slot).symm.trans live)
          exact owned.files opened f found
        · exact owned.slots fd' s (by simpa [View.apply, this] using live)
  | reread other new =>
      obtain ⟨f₀, old, found₀, -⟩ := enabled
      have length : (v.apply (.reread other new)).memory.length = v.memory.length + 1 := by
        simp [View.apply, found₀]
      refine ⟨Function.update owner v.memory.length other, fun name f' stored => ?_,
        fun fd s live => length ▸ (owned.slots fd s live).older other⟩
      rw [length]
      obtain ⟨f, found, rfl⟩ := View.file_of_changeFile stored
      split
      · rename_i this
        exact this ▸ .fresh owner _ name _
      · exact (owned.files name f found).older other
  | spoil other =>
      have length := v.length_memory_apply (a := .spoil other) rfl
      refine ⟨owner, fun name f' stored => ?_, fun fd s live => length ▸ owned.slots fd s live⟩
      rw [length]
      obtain ⟨f, found, rfl⟩ := View.file_of_changeFile stored
      split
      · exact .null owner _ name
      · exact owned.files name f found
  | flush fd new =>
      obtain ⟨s₀, -, live₀, -⟩ := enabled
      have length : (v.apply (.flush fd new)).memory.length = v.memory.length + 1 := by
        simp [View.apply, live₀]
      refine ⟨Function.update owner v.memory.length s₀.name, fun name f' stored => ?_,
        fun fd' s live => ?_⟩
      · rw [length]
        simp only [View.apply, live₀] at stored
        obtain ⟨f, found, rfl⟩ := View.file_of_changeFile (g := fun f => { f with
          directPtr := .artifact v.memory.length
          size := toUnsigned32 (f.size + toInt32 (codec.size new - toInt32 s₀.size)) }) stored
        split
        · rename_i this
          exact this ▸ .fresh owner _ name _
        · exact (owned.files name f found).older s₀.name
      · rw [length]
        simp only [View.apply, live₀] at live
        by_cases this : fd' = fd
        · subst this
          obtain rfl := Option.some.inj ((Function.update_self _ _ v.slot).symm.trans live)
          exact .fresh owner _ s₀.name _
        · exact (owned.slots fd' s (by simpa [this] using live)).older s₀.name
  | tear fd =>
      obtain ⟨s₀, -, live₀, -⟩ := enabled
      have length := v.length_memory_apply (a := .tear fd) rfl
      refine ⟨owner, fun name f stored => ?_, fun fd' s live => ?_⟩
      · rw [length]
        simp only [View.apply, live₀] at stored
        exact owned.files name f stored
      · rw [length]
        simp only [View.apply, live₀] at live
        by_cases this : fd' = fd
        · subst this
          obtain rfl := Option.some.inj ((Function.update_self _ _ v.slot).symm.trans live)
          exact .ofBytes owner _ s₀.name _
        · exact owned.slots fd' s (by simpa [this] using live)
  | _ =>
      refine ⟨owner, fun name f' stored => ?_, fun fd s' live => ?_⟩
      · obtain ⟨f, found, -, -, -, contents⟩ := View.file_of_apply rfl stored
        obtain ⟨ptr, size⟩ := contents rfl
        rw [ptr, size, View.length_memory_apply v rfl]
        exact owned.files name f found
      · obtain ⟨s, found, named, ptr, size⟩ := View.copy_of_apply rfl live
        rw [named, ptr, size, View.length_memory_apply v rfl]
        exact owned.slots fd s found

/-- In every run the artifacts belong to names. -/
theorem owned_of_reachable {guard : FileSystem codec → Event → Prop} {fs : FileSystem codec}
    (reached : Reachable guard fs) : ∃ owner, Owned owner fs.view :=
  Reachable.view_invariant (fun v => ∃ owner, Owned owner v) (fun _ _ => True)
    ⟨fun _ => [], nofun, nofun⟩ (fun _ _ _ _ _ _ _ _ => .of_forall fun _ _ _ => trivial)
    (fun _ _ ⟨_, owned⟩ enabled _ => owned.apply enabled) reached

/-! ## What happens to the content of one file -/

def Action.Touches (v : View codec) (name : Filename) : Action codec → Prop
  | .create other | .vanish other | .reread other _ | .spoil other => other = name
  | .flush fd _ | .tear fd => ∃ s, v.slot fd = some s ∧ s.name = name
  | _ => False

/-- If the file is there in `w`, it was there in `v` with the same content. -/
def SameContent (name : Filename) (v w : View codec) : Prop :=
  ∀ f', w.file name = some f' → ∃ f, v.file name = some f ∧ f'.directPtr = f.directPtr ∧
    Memory.at? w.memory f.directPtr = Memory.at? v.memory f.directPtr

theorem SameContent.refl (name : Filename) (v : View codec) : SameContent name v v :=
  fun f' stored => ⟨f', stored, rfl, rfl⟩

theorem SameContent.trans {name : Filename} {u v w : View codec} (first : SameContent name u v)
    (second : SameContent name v w) : SameContent name u w := by
  intro f'' stored
  obtain ⟨f', stored', ptr', at'⟩ := second f'' stored
  obtain ⟨f, stored, ptr, at_⟩ := first f' stored'
  exact ⟨f, stored, ptr'.trans ptr, by rw [← at_, ← ptr, at']⟩

variable {owner : Nat → Filename} {v w : View codec} {a : Action codec} {name : Filename}

theorem SameContent.apply (owned : Owned owner v) (enabled : v.Enabled a)
    (untouched : ¬ a.Touches v name) : SameContent name v (v.apply a) := by
  intro f' stored
  cases a with
  | create other =>
      have different : name ≠ other := fun same => untouched same.symm
      exact ⟨f', by simpa [View.apply, different] using stored, rfl, rfl⟩
  | vanish other =>
      have different : name ≠ other := fun same => untouched same.symm
      obtain ⟨g, found, -⟩ := enabled
      have stored : v.file name = some f' := by simpa [View.apply, different] using stored
      refine ⟨f', stored, rfl, ?_⟩
      simp only [View.apply, found, Option.elim_some]
      exact Memory.at?_free ((owned.files other g found).apart (owned.files name f' stored)
        (Ne.symm different))
  | spoil other =>
      have different : name ≠ other := fun same => untouched same.symm
      obtain ⟨g, -, found, -⟩ := enabled
      obtain ⟨f, kept, rfl⟩ := View.file_of_changeFile stored
      rw [if_neg different]
      refine ⟨f, kept, rfl, ?_⟩
      simp only [View.apply, found, Option.elim_some]
      exact Memory.at?_free ((owned.files other g found).apart (owned.files name f kept)
        (Ne.symm different))
  | reread other new =>
      have different : name ≠ other := fun same => untouched same.symm
      obtain ⟨g, -, found, -⟩ := enabled
      obtain ⟨f, kept, rfl⟩ := View.file_of_changeFile stored
      rw [if_neg different]
      refine ⟨f, kept, rfl, ?_⟩
      have placed := owned.files name f kept
      simp only [View.apply, found, Option.elim_some]
      rw [Memory.at?_append fun id same => by simpa using (placed.1 id same).1]
      exact Memory.at?_free ((owned.files other g found).apart placed (Ne.symm different))
  | flush fd new =>
      obtain ⟨s, -, live, -⟩ := enabled
      have different : name ≠ s.name := fun same => untouched ⟨s, live, same.symm⟩
      simp only [View.apply, live] at stored ⊢
      have stored : v.file name = some f' := by simpa [different] using stored
      refine ⟨f', stored, rfl, ?_⟩
      have placed := owned.files name f' stored
      rw [Memory.at?_append fun id same => by simpa using (placed.1 id same).1]
      exact Memory.at?_free ((owned.slots fd s live).apart placed (Ne.symm different))
  | tear fd =>
      obtain ⟨s, -, live, -⟩ := enabled
      have different : name ≠ s.name := fun same => untouched ⟨s, live, same.symm⟩
      simp only [View.apply, live] at stored ⊢
      refine ⟨f', stored, rfl, ?_⟩
      exact Memory.at?_free ((owned.slots fd s live).apart (owned.files name f' stored)
        (Ne.symm different))
  | close fd =>
      obtain ⟨f, found, -, -, -, contents⟩ := View.file_of_apply rfl stored
      refine ⟨f, found, (contents rfl).1, ?_⟩
      simp only [View.apply]
      split <;> rfl
  | _ =>
      obtain ⟨f, found, -, -, -, contents⟩ := View.file_of_apply rfl stored
      exact ⟨f, found, (contents rfl).1, rfl⟩

/-- A file that survives some evictions keeps its content. -/
theorem FileSystem.Evictions.sameContent {evs : List (Action codec)} (evictions : Evictions evs)
    (owned : Owned owner v) (trace : (viewSystem codec).Trace v evs w) (name : Filename) :
    SameContent name v w ∧ ∃ owner', Owned owner' w := by
  induction evictions generalizing v owner with
  | nil =>
      cases trace
      exact ⟨.refl name _, owner, owned⟩
  | cons evicted new _ ih =>
      obtain _ | ⟨rereads, _ | ⟨vanishes, rest⟩⟩ := trace
      obtain ⟨owner₁, owned₁⟩ := owned.apply (a := .reread evicted new) rereads
      obtain ⟨owner₂, owned₂⟩ := owned₁.apply (a := .vanish evicted) vanishes
      obtain ⟨same, owned'⟩ := ih owned₂ rest
      refine ⟨?_, owned'⟩
      by_cases this : evicted = name
      · subst this
        intro f' stored
        obtain ⟨f, gone, -⟩ := same f' stored
        cases (Function.update_self _ _ _).symm.trans gone
      · exact ((SameContent.apply (a := .reread evicted new) owned rereads this).trans
          (SameContent.apply (a := .vanish evicted) owned₁ vanishes this)).trans same

/-! ## Live contents -/

/-- Every stored file has no content yet or an artifact that is not freed. -/
def Live (v : View codec) : Prop :=
  ∀ name f, v.file name = some f →
    f.directPtr = .null ∨ ∃ artifact, Memory.at? v.memory f.directPtr = some artifact

theorem Live.of_same (live : Live v) (same : SameContent name v w) {f' : FileView}
    (stored : w.file name = some f') :
    f'.directPtr = .null ∨ ∃ artifact, Memory.at? w.memory f'.directPtr = some artifact := by
  obtain ⟨f, found, ptr, at_⟩ := same f' stored
  rw [ptr, at_]
  exact live name f found

def NoTear : Action codec → Prop
  | .tear _ => False
  | _ => True

theorem Live.apply (live : Live v) (owned : Owned owner v) (enabled : v.Enabled a)
    (whole : NoTear a) : Live (v.apply a) := by
  intro name f' stored
  by_cases touched : a.Touches v name
  · cases a with
    | create other =>
        obtain rfl : other = name := touched
        obtain rfl := Option.some.inj ((Function.update_self _ _ v.file).symm.trans stored)
        exact .inl rfl
    | vanish other =>
        obtain rfl : other = name := touched
        cases (Function.update_self _ _ v.file).symm.trans stored
    | spoil other =>
        obtain rfl : other = name := touched
        obtain ⟨f, -, rfl⟩ := View.file_of_changeFile stored
        exact .inl (by simp)
    | reread other new =>
        obtain rfl : other = name := touched
        obtain ⟨f, found, rfl⟩ := View.file_of_changeFile stored
        rw [if_pos rfl]
        simp only [View.apply, found, Option.elim_some]
        exact .inr ⟨new, Memory.at?_append_self _ new (Memory.length_free _ _)⟩
    | flush fd new =>
        obtain ⟨s, found, rfl⟩ := touched
        simp only [View.apply, found] at stored ⊢
        obtain ⟨f, -, rfl⟩ := Option.map_eq_some_iff.mp
          ((Function.update_self s.name _ v.file).symm.trans stored)
        exact .inr ⟨new, Memory.at?_append_self _ new (Memory.length_free _ _)⟩
    | tear fd => exact whole.elim
    | _ => exact touched.elim
  · exact live.of_same (.apply owned enabled touched) stored

/-! ## Artifacts are decoded once -/

/-- The bytes an original inode holds; none if its artifact is freed. -/
def FileSystem.content (fs : FileSystem codec) (inode : Inode) : List UInt8 :=
  (Memory.at? fs.memory inode.directPtr).elim [] codec.decode

/-- A write finds the pointer of its file, or none, in its copy, and room for the
    bytes; a read finds no bytes to flush, or a copy without content. -/
def FreshCopies (fs : FileSystem codec) : Event → Prop
  | .write fd buf pid _ => ∀ copy,
      fs.slot (toUnsigned32 fd) = some { owner := pid, inode := copy } →
      ∀ inode, fs.file copy.name = some inode → copy.directPtr = .null ∨
        copy.directPtr = inode.directPtr ∧
          (fs.content inode ++ (copy.buffer ++ buf.getD [])).length < 2 ^ 31
  | .read fd pid _ => ∀ copy,
      fs.slot (toUnsigned32 fd) = some { owner := pid, inode := copy } →
      fs.file copy.name ≠ none → copy.buffer = [] ∨ copy.directPtr = .null
  | _ => True

instance (fs : FileSystem codec) : (event : Event) → Decidable (FreshCopies fs event)
  | .write fd buf pid _ =>
      haveI := fun copy : Inode => decidableOfFile fs copy.name fun inode =>
        copy.directPtr = .null ∨ copy.directPtr = inode.directPtr ∧
          (fs.content inode ++ (copy.buffer ++ buf.getD [])).length < 2 ^ 31
      decidableOfSlot fs (toUnsigned32 fd) pid fun copy =>
        ∀ inode, fs.file copy.name = some inode → copy.directPtr = .null ∨
          copy.directPtr = inode.directPtr ∧
            (fs.content inode ++ (copy.buffer ++ buf.getD [])).length < 2 ^ 31
  | .read fd pid _ => decidableOfSlot fs (toUnsigned32 fd) pid fun copy =>
      fs.file copy.name ≠ none → copy.buffer = [] ∨ copy.directPtr = .null
  | .open .. | .close .. | .remove .. | .lock .. | .unlock .. | .removeSession .. | .wake .. =>
      inferInstanceAs (Decidable True)

theorem written_slot {fd : Nat} {pid : Pid} {bytes : List UInt8} {evs : List (Action codec)}
    {t u : View codec} (owned : Owned owner v) (evictions : Evictions evs)
    (evicted : (viewSystem codec).Trace v evs t) (owns : Owns v fd pid)
    (stores : (viewSystem codec).Trace t [.store fd bytes] u) :
    ∃ s, v.slot fd = some s ∧ s.owner = pid ∧
      u.slot fd = some { s with buffer := s.buffer ++ bytes } ∧
      SameContent s.name v u := by
  obtain ⟨s, live, own⟩ := owns
  obtain _ | ⟨-, _ | _⟩ := stores
  refine ⟨s, live, own, ?_, (evictions.sameContent owned evicted s.name).1⟩
  have live' : t.slot fd = some s := by rw [evictions.slot_eq evicted, live]
  exact (Function.update_self _ _ t.slot).trans (by rw [live']; rfl)

theorem Evictions.noTear {evs : List (Action codec)} (evictions : Evictions evs) :
    ∀ a ∈ evs, NoTear a := by
  induction evictions with
  | nil => nofun
  | cons name new _ ih =>
      simp only [List.forall_mem_cons]
      exact ⟨trivial, trivial, ih⟩

theorem guarded_write {fs : FileSystem codec} {fd : Int} {buf : Option (List UInt8)} {now : Int}
    {s : SlotView} {u : View codec} (guarded : FreshCopies fs (.write fd buf s.owner now))
    (live : fs.view.slot (toUnsigned32 fd) = some s) (same : SameContent s.name fs.view u)
    (stored : u.file s.name ≠ none) :
    s.directPtr = .null ∨ ∃ f, fs.view.file s.name = some f ∧ s.directPtr = f.directPtr ∧
      Memory.at? u.memory s.directPtr = Memory.at? fs.memory s.directPtr ∧
      ((Memory.at? fs.memory s.directPtr).elim [] codec.decode ++
        (s.buffer ++ buf.getD [])).length < 2 ^ 31 := by
  obtain ⟨entry, found, rfl⟩ := Option.map_eq_some_iff.mp live
  obtain ⟨f', stored'⟩ := Option.ne_none_iff_exists'.mp stored
  obtain ⟨f, viewed, -, at_⟩ := same f' stored'
  obtain ⟨inode, present, rfl⟩ := Option.map_eq_some_iff.mp viewed
  rcases guarded entry.inode found inode present with null | ⟨ptr, small⟩
  · exact .inl null
  · refine .inr ⟨_, viewed, ptr, ?_, ?_⟩
    · exact (congrArg _ ptr).trans (at_.trans (congrArg _ ptr.symm))
    · rw [show (SlotView.of entry).directPtr = inode.directPtr from ptr]
      exact small

theorem View.at?_of_reread {f : FileView} {new old : codec.Artifact} {id : Nat}
    (stored : v.file name = some f) (inside : id < v.memory.length)
    (found : Memory.at? (v.apply (.reread name new)).memory (.artifact id) = some old) :
    Memory.at? v.memory (.artifact id) = some old := by
  simp only [View.apply, stored, Option.elim_some] at found
  rw [Memory.at?_append fun other same => by
    obtain rfl := DirectPtr.artifact.inj same
    rwa [Memory.length_free]] at found
  exact Memory.at?_of_free found

theorem View.at?_of_vanish {ptr : DirectPtr} {old : codec.Artifact}
    (found : Memory.at? (v.apply (.vanish name)).memory ptr = some old) :
    Memory.at? v.memory ptr = some old := by
  cases stored : v.file name with
  | none => simpa only [View.apply, stored, Option.elim_none] using found
  | some f =>
      simp only [View.apply, stored, Option.elim_some] at found
      exact Memory.at?_of_free found

theorem FileSystem.Evictions.at?_older {evs : List (Action codec)} (evictions : Evictions evs)
    (trace : (viewSystem codec).Trace v evs w) {id : Nat} (inside : id < v.memory.length)
    {old : codec.Artifact} (found : Memory.at? w.memory (.artifact id) = some old) :
    Memory.at? v.memory (.artifact id) = some old := by
  induction evictions generalizing v with
  | nil =>
      cases trace
      exact found
  | cons evicted new _ ih =>
      obtain _ | ⟨⟨f, live, stored, -⟩, _ | ⟨vanishes, rest⟩⟩ := trace
      have longer : id < ((v.apply (.reread evicted new)).apply (.vanish evicted)).memory.length := by
        rw [View.length_memory_apply _ rfl]
        simp only [View.apply, stored, Option.elim_some, List.length_append, Memory.length_free]
        omega
      exact View.at?_of_reread stored inside (View.at?_of_vanish (ih rest longer))

/-- What a copy leads to, its buffer and the bytes that a write adds to it can be
    flushed together. -/
def Untorn (fs : FileSystem codec) : Event → Prop
  | .write fd buf pid _ => ∀ copy,
      fs.slot (toUnsigned32 fd) = some { owner := pid, inode := copy } → fs.file copy.name ≠ none →
      ∀ old ∈ Memory.at? fs.memory copy.directPtr,
        (codec.decode old ++ (copy.buffer ++ buf.getD [])).length < 2 ^ 31
  | .read fd pid _ => ∀ copy,
      fs.slot (toUnsigned32 fd) = some { owner := pid, inode := copy } → fs.file copy.name ≠ none →
      ∀ old ∈ Memory.at? fs.memory copy.directPtr,
        (codec.decode old ++ copy.buffer).length < 2 ^ 31
  | _ => True

instance (fs : FileSystem codec) : (event : Event) → Decidable (Untorn fs event)
  | .write fd buf pid _ => decidableOfSlot fs (toUnsigned32 fd) pid fun copy =>
      fs.file copy.name ≠ none → ∀ old ∈ Memory.at? fs.memory copy.directPtr,
        (codec.decode old ++ (copy.buffer ++ buf.getD [])).length < 2 ^ 31
  | .read fd pid _ => decidableOfSlot fs (toUnsigned32 fd) pid fun copy =>
      fs.file copy.name ≠ none → ∀ old ∈ Memory.at? fs.memory copy.directPtr,
        (codec.decode old ++ copy.buffer).length < 2 ^ 31
  | .open .. | .close .. | .remove .. | .lock .. | .unlock .. | .removeSession .. | .wake .. =>
      inferInstanceAs (Decidable True)

theorem noTear_of_untorn {fs fs' : FileSystem codec} {event : Event} {acts : List (Action codec)}
    (owned : Owned owner fs.view) (untorn : Untorn fs event) (does : event.Does fs fs' acts)
    (performs : fs.Performs acts fs') : ∀ a ∈ acts, NoTear a := by
  cases event with
  | write fd buf pid now =>
      obtain ⟨evs, rest, evictions, rfl, does⟩ := does
      rw [List.forall_mem_append]
      refine ⟨Evictions.noTear evictions, ?_⟩
      rcases does with (fails | ⟨bytes, rfl, fails, owns⟩) | ⟨bytes, new, -, -, rfl⟩
      · rcases fails with rfl | ⟨name, rfl | ⟨new, rfl | rfl⟩⟩ <;> simp [NoTear]
      · rcases fails with rfl | ⟨rfl, -⟩ | rfl | ⟨new, rfl, -⟩
        · simp
        · simp [NoTear]
        · obtain ⟨t, evicted, _ | ⟨stores, _ | ⟨⟨s', old, live', stored, found, big⟩, -⟩⟩⟩ :=
            ActionSystem.Trace.of_append performs
          have found : Memory.at? t.memory s'.directPtr = some old := found
          obtain ⟨s, live, rfl, written, same⟩ :=
            written_slot owned evictions evicted owns (.cons stores (.nil _))
          obtain rfl := Option.some.inj (written.symm.trans live')
          obtain ⟨entry, slot, rfl⟩ := Option.map_eq_some_iff.mp live
          obtain ⟨f', stored'⟩ := Option.ne_none_iff_exists'.mp stored
          obtain ⟨f, viewed, -⟩ := same f' stored'
          obtain ⟨inode, present, -⟩ := Option.map_eq_some_iff.mp viewed
          cases ptr : (SlotView.of entry).directPtr with
          | null | bytes raw =>
              rw [ptr] at found
              cases found
          | artifact id =>
              have placed := (owned.slots _ _ live).1 id ptr
              rw [ptr] at found
              have before := evictions.at?_older evicted placed.1 found
              rw [← ptr] at before
              have small := untorn entry.inode slot (Option.ne_none_iff_exists'.mpr ⟨_, present⟩)
                old before
              exact absurd small (Nat.not_lt.mpr big)
        · simp [NoTear]
      · simp [NoTear]
  | read fd pid now =>
      rcases does with rfl | ⟨s, live, rfl, rfl | ⟨new, rfl | rfl | ⟨flushed, rfl⟩⟩⟩
      · simp
      · simp [NoTear]
      · simp [NoTear]
      · obtain _ | ⟨⟨f, -, viewed, -⟩, _ | ⟨⟨s', old, live', stored, found, big⟩, -⟩⟩ := performs
        obtain rfl := Option.some.inj (live.symm.trans live')
        obtain ⟨entry, slot, rfl⟩ := Option.map_eq_some_iff.mp live
        obtain ⟨inode, present, -⟩ := Option.map_eq_some_iff.mp viewed
        cases ptr : (SlotView.of entry).directPtr with
        | null | bytes raw =>
            rw [ptr] at found
            cases found
        | artifact id =>
            have placed := (owned.slots _ _ live).1 id ptr
            rw [ptr] at found
            have before := View.at?_of_reread viewed placed.1 found
            rw [← ptr] at before
            have small := untorn entry.inode slot (Option.ne_none_iff_exists'.mpr ⟨_, present⟩)
              old before
            exact absurd small (Nat.not_lt.mpr big)
      · simp [NoTear]
  | _ =>
      intro a member
      cases does.mayDo a member <;> trivial

theorem FreshCopies.untorn {fs : FileSystem codec} {event : Event} (fresh : FreshCopies fs event) :
    Untorn fs event := by
  cases event with
  | write fd buf pid now =>
      intro copy slot stored old found
      obtain ⟨inode, present⟩ := Option.ne_none_iff_exists'.mp stored
      rcases fresh copy slot inode present with null | ⟨ptr, small⟩
      · rw [null] at found
        cases found
      · rw [ptr] at found
        rwa [content, Option.mem_def.mp found] at small
  | read fd pid now =>
      intro copy slot stored old found
      rcases fresh copy slot stored with empty | null
      · rw [empty, List.append_nil]
        exact codec.decode_small old
      · rw [null] at found
        cases found
  | _ => trivial

theorem live_of_untorn {fs : FileSystem codec} (reached : Reachable Untorn fs) :
    (∃ owner, Owned owner fs.view) ∧ Live fs.view := by
  refine Reachable.view_invariant (fun v => (∃ owner, Owned owner v) ∧ Live v)
    (fun _ a => NoTear a) ⟨⟨fun _ => [], nofun, nofun⟩, nofun⟩ ?_ ?_ reached
  · rintro fs fs' event acts ⟨⟨owner, owned⟩, -⟩ guarded does performs
    exact .of_forall fun _ a member => noTear_of_untorn owned guarded does performs a member
  · rintro v a ⟨⟨owner, owned⟩, live⟩ enabled whole
    exact ⟨owned.apply enabled, live.apply owned enabled whole⟩

theorem live_of_reachable {fs : FileSystem codec} (reached : Reachable FreshCopies fs) :
    (∃ owner, Owned owner fs.view) ∧ Live fs.view :=
  live_of_untorn (Reachable.mono (fun _ _ fresh => FreshCopies.untorn fresh) reached)

theorem Live.not_freedFile (live : Live v) (name : Filename) : ¬ FreedFile v name := by
  rintro ⟨f, id, stored, ptr, freed⟩
  rcases live name f stored with null | ⟨artifact, found⟩
  · cases ptr.symm.trans null
  · cases freed.symm.trans found

theorem FileSystem.Evictions.live {evs : List (Action codec)} (evictions : Evictions evs)
    (owned : Owned owner v) (live : Live v) (trace : (viewSystem codec).Trace v evs w) : Live w :=
  fun _ _ stored => live.of_same (evictions.sameContent owned trace _).1 stored

attribute [local simp] Program.post_bind

/-- Where copies are fresh, no step of a run decodes an artifact that has been
    decoded or removed before. -/
theorem not_decodeFreed_of_fresh {fs : FileSystem codec} (reached : Reachable FreshCopies fs)
    {event : Event} (possible : event.Possible fs) (fresh : FreshCopies fs event) :
    (event.call fs).fault? ≠ some .decodeFreed := by
  obtain ⟨⟨owner, owned⟩, live⟩ := live_of_reachable reached
  suffices post : (event.call fs).Post (fun _ _ => True) (fun _ _ => True)
      (fun why => why ≠ .decodeFreed) from fun freed => post.of_fault freed rfl
  cases event with
  | «open» name flags pid now =>
      simp only [Event.call, post_bind]
      refine (fileSystemOpen_performs fs name flags pid now).mono ?_ (fun _ _ _ => trivial)
        (fun _ h => h.elim)
      rintro (_ | _) fs' - <;> trivial
  | write fd buf pid now =>
      have writes := fileSystemWrite_performs { fileSystem := fs, evictedList := [] } fd buf pid now
      change (Event.writeCall fd buf pid now fs).Post _ _ _
      unfold Event.writeCall
      split
      · trivial
      · trivial
      · rename_i faults
        rw [faults] at writes
        intro is
        obtain ⟨evs, t, evictions, evicted, ⟨name, freed⟩ | ⟨owns, bytes, u, stores, freed⟩⟩ :=
          writes is
        · exact (evictions.live owned live evicted).not_freedFile name freed
        · obtain ⟨s, found, rfl, written, same⟩ :=
            written_slot owned evictions evicted owns stores
          obtain ⟨s', id, found', ptr, gone, -, stored⟩ := freed
          obtain rfl := Option.some.inj (written.symm.trans found')
          rcases guarded_write fresh found same stored with null | ⟨f, viewed, ptr', at_, -⟩
          · cases ptr.symm.trans null
          · rcases live s.name f viewed with null | ⟨artifact, kept⟩
            · cases ptr.symm.trans (ptr'.trans null)
            · rw [← ptr'] at kept
              cases gone.symm.trans (at_.trans kept)
  | read fd pid now =>
      simp only [Event.call, post_bind]
      refine (fileSystemRead_performs fs fd pid now).mono (fun _ _ _ => trivial)
        (fun _ _ _ => trivial) (fun why freed is => ?_)
      obtain ⟨copy, slot, freed | ⟨new, fs₁, rereads, s, id, found, ptr, -, some_, stored⟩⟩ := freed is
      · exact live.not_freedFile copy.name freed
      · have viewed := rereads.view_single
        rw [viewed] at found stored
        obtain rfl := Option.some.inj ((view_slot slot).symm.trans found)
        obtain _ | ⟨⟨f, -, present, -⟩, -⟩ := rereads
        obtain ⟨inode, present, -⟩ := Option.map_eq_some_iff.mp present
        rcases fresh copy slot (by rw [present]; nofun) with empty | null
        · exact some_ empty
        · cases ptr.symm.trans null
  | close fd pid now =>
      simp only [Event.call, post_bind]
      exact (fileSystemClose_performs fs fd pid now).mono (fun _ _ _ => trivial)
        (fun _ _ _ => trivial) (fun _ h => h.elim)
  | remove name pid =>
      simp only [Event.call, post_bind]
      exact (fileSystemRemove_performs fs name pid).mono (fun _ _ _ => trivial)
        (fun _ _ _ => trivial) (fun _ other => other)
  | lock fd pid now =>
      simp only [Event.call, post_bind]
      refine (fileSystemLock_performs fs fd pid now).mono ?_ (fun _ _ _ => trivial)
        (fun _ h => h.elim)
      rintro (_ | _) fs' - <;> trivial
  | unlock fd pid now =>
      simp only [Event.call, post_bind]
      exact (fileSystemUnlock_performs fs fd pid now).mono (fun _ _ _ => trivial)
        (fun _ _ _ => trivial) (fun _ h => h.elim)
  | removeSession pid now =>
      simp only [Event.call, post_bind]
      refine (fileSystemRemoveSession_performs fs pid now).mono (fun _ _ _ => trivial)
        (fun _ _ _ => trivial) ?_
      rintro _ rfl
      nofun
  | wake waiter now =>
      simp only [Event.call, post_bind]
      refine (wakeUp_performs possible now).mono ?_ (fun _ _ _ => trivial) ?_
      · rintro ((_ | _) | _) fs' - <;> trivial
      · rintro _ rfl
        nofun

/-- A file is written twice and read, and written again through a new descriptor. -/
theorem not_decodeFreed_reopened : ∃ fs : FileSystem huffmanCodec,
    (Reachable FreshCopies fs ∧ FreshCopies fs (.write 1 (some [99, 100]) 1 5)) ∧
      (Event.call (.write 1 (some [99, 100]) 1 5) fs).fault? ≠ some .decodeFreed := by
  obtain ⟨fs, reached, checked⟩ := Reachable.of_runs
    (FreshCopies : FileSystem huffmanCodec → Event → Prop) 1 4 .fifo
    (fun fs => decide (FreshCopies fs (.write 1 (some [99, 100]) 1 5)))
    [.open [102] 1 1 0, .write 0 (some [97, 98]) 1 1, .write 0 (some [98]) 1 2, .read 0 1 3,
      .open [102] 0 1 4] (by decide +kernel)
  have fresh := of_decide_eq_true checked
  exact ⟨fs, ⟨reached, fresh⟩, not_decodeFreed_of_fresh reached trivial fresh⟩

/-- A write, a read and a write through one descriptor decode an artifact twice. -/
theorem decodeFreed_after_read : ∃ (fs : FileSystem huffmanCodec) (event : Event),
    Reachable AnyEvent fs ∧ event.Possible fs ∧ (event.call fs).fault? = some .decodeFreed := by
  obtain ⟨fs, reached, checked⟩ := Reachable.of_runs
    (AnyEvent : FileSystem huffmanCodec → Event → Prop) 1 4 .fifo
    (fun fs : FileSystem huffmanCodec =>
      decide ((Event.call (.write 0 (some [99, 100]) 1 3) fs).fault? = some .decodeFreed))
    [.open [102] 1 1 0, .write 0 (some [97, 98]) 1 1, .read 0 1 2] (by decide +kernel)
  exact ⟨fs, .write 0 (some [99, 100]) 1 3, reached, trivial, of_decide_eq_true checked⟩

end FileStorage
