import FileStorage.Simfs.FileSystem
import FileStorage.Lib.Trace
import Mathlib.Logic.Function.Basic

/-! # An abstract view of the file system

What the calls are about, without the trees, heaps, counters and times: which
files are stored, who locks them, who refers to them, which artifact holds their
content, and what every descriptor remembers of its file. `Action` lists the
atomic changes of this view; every call is a trace of them.
-/

namespace FileStorage

structure FileView where
  generation : Nat
  locked : Pid
  pendingLocks : Nat
  referenceCount : Nat
  referenceList : List Pid
  directPtr : DirectPtr
  size : Nat

/-- A live descriptor with what its private copy holds. -/
structure SlotView where
  owner : Pid
  name : Filename
  generation : Nat
  locked : Pid
  directPtr : DirectPtr
  size : Nat
  buffer : List UInt8

@[ext] structure View (codec : Codec) where
  file : Filename → Option FileView
  slot : Nat → Option SlotView
  memory : Memory codec
  blocked : List Waiter
  created : Nat

def FileView.of (inode : Inode) : FileView where
  generation := inode.generation
  locked := inode.locked
  pendingLocks := inode.pendingLocks
  referenceCount := inode.referenceCount
  referenceList := inode.referenceList
  directPtr := inode.directPtr
  size := inode.size

def SlotView.of (entry : Entry) : SlotView where
  owner := entry.owner
  name := entry.inode.name
  generation := entry.inode.generation
  locked := entry.inode.locked
  directPtr := entry.inode.directPtr
  size := entry.inode.size
  buffer := entry.inode.buffer

variable {codec : Codec}

def FileSystem.view (fs : FileSystem codec) : View codec where
  file := fun name => (fs.file name).map FileView.of
  slot := fun fd => (fs.slot fd).map SlotView.of
  memory := fs.memory
  blocked := fs.blocked
  created := fs.created

def FileView.new (generation : Nat) : FileView where
  generation
  locked := 0
  pendingLocks := 0
  referenceCount := 0
  referenceList := []
  directPtr := .null
  size := 0

def FileView.MustWait (f : FileView) (pid : Pid) : Prop :=
  0 < f.referenceCount ∧ pid ∈ f.referenceList ∧ ∃ other ∈ f.referenceList, other ≠ pid

/-- The file after a pid gives back a reference that it may not have. -/
def FileView.released (f : FileView) (pid : Pid) : FileView :=
  if f.referenceCount ≠ 0 ∧ pid ∈ f.referenceList then { f with
    referenceList := f.referenceList.erase pid
    referenceCount := f.referenceCount - 1 }
  else f

/-- The file after a pid has given up its lock and all of its references. -/
def FileView.left (f : FileView) (pid : Pid) : FileView := { f with
  locked := if f.locked = pid then 0 else f.locked
  referenceList := f.referenceList.filter (· ≠ pid)
  referenceCount := f.referenceCount - f.referenceList.count pid }

def Memory.at? (memory : Memory codec) : DirectPtr → Option codec.Artifact
  | .artifact id => memory.getD id none
  | _ => none

def Memory.free (memory : Memory codec) : DirectPtr → Memory codec
  | .artifact id => memory.set id none
  | _ => memory

/-- The bytes a flush would compress: what the pointer leads to and then the
    buffer. `none` if the artifact has been freed. -/
def Memory.appended (memory : Memory codec) (ptr : DirectPtr) (buffer : List UInt8) :
    Option (List UInt8) :=
  match ptr with
  | .null => some buffer
  | ptr => (Memory.at? memory ptr).map fun artifact => codec.decode artifact ++ buffer

/-- The atomic changes. -/
inductive Action (codec : Codec) where
  /-- a file is put into the file table -/
  | create (name : Filename)
  /-- a lock request is counted as pending -/
  | request (name : Filename)
  /-- the lock is taken -/
  | grant (name : Filename) (pid : Pid)
  /-- a lock request is no longer pending -/
  | settle (name : Filename)
  /-- a descriptor is opened and counted as a reference -/
  | attach (fd : Nat) (name : Filename) (pid : Pid)
  /-- a descriptor is closed, and its reference given back if it is counted -/
  | close (fd : Nat)
  /-- one reference is given back -/
  | release (name : Filename) (pid : Pid)
  | unlock (name : Filename) (pid : Pid)
  /-- a file is removed or evicted, its artifact destroyed -/
  | vanish (name : Filename)
  /-- the content is decompressed and compressed again -/
  | reread (name : Filename) (artifact : codec.Artifact)
  /-- the content is decompressed to nothing, which cannot be compressed -/
  | spoil (name : Filename)
  /-- bytes are added to the buffer of a descriptor -/
  | store (fd : Nat) (bytes : List UInt8)
  /-- the buffer of a descriptor is flushed into its file -/
  | flush (fd : Nat) (artifact : codec.Artifact)
  /-- the copy at a descriptor is decompressed, but its buffer does not fit -/
  | tear (fd : Nat)
  /-- all descriptors of a pid are closed -/
  | forget (pid : Pid)
  /-- all descriptors, references and locks of a pid are given up -/
  | leave (pid : Pid)
  | block (waiter : Waiter)
  | unblock (waiter : Waiter)

namespace View

def changeFile (v : View codec) (name : Filename) (f : FileView → FileView) : View codec :=
  { v with file := Function.update v.file name ((v.file name).map f) }

def changeSlot (v : View codec) (fd : Nat) (f : SlotView → SlotView) : View codec :=
  { v with slot := Function.update v.slot fd ((v.slot fd).map f) }

def apply (v : View codec) : Action codec → View codec
  | .create name => { v with
      file := Function.update v.file name (some (.new v.created))
      created := v.created + 1 }
  | .request name => v.changeFile name fun f => { f with pendingLocks := f.pendingLocks + 1 }
  | .grant name pid => v.changeFile name fun f => { f with locked := pid }
  | .settle name => v.changeFile name fun f => { f with pendingLocks := f.pendingLocks - 1 }
  | .attach fd name pid =>
      { v.changeFile name (fun f => { f with
          referenceList := pid :: f.referenceList
          referenceCount := f.referenceCount + 1 }) with
        slot := Function.update v.slot fd ((v.file name).map fun f => {
          owner := pid
          name
          generation := f.generation
          locked := f.locked
          directPtr := f.directPtr
          size := f.size
          buffer := [] }) }
  | .close fd =>
      match v.slot fd with
      | none => v
      | some s => { v.changeFile s.name (fun f => f.released s.owner) with
          slot := Function.update v.slot fd none }
  | .release name pid => v.changeFile name fun f => { f with
      referenceList := f.referenceList.erase pid
      referenceCount := f.referenceCount - 1 }
  | .unlock name _ => v.changeFile name fun f => { f with locked := 0 }
  | .vanish name => { v with
      file := Function.update v.file name none
      memory := (v.file name).elim v.memory fun f => Memory.free v.memory f.directPtr }
  | .reread name artifact =>
      { v.changeFile name (fun f => { f with
          directPtr := .artifact v.memory.length, size := codec.size artifact }) with
        memory := ((v.file name).elim v.memory fun f => Memory.free v.memory f.directPtr) ++
          [some artifact] }
  | .spoil name =>
      { v.changeFile name (fun f => { f with directPtr := .null, size := 0 }) with
        memory := (v.file name).elim v.memory fun f => Memory.free v.memory f.directPtr }
  | .store fd bytes => v.changeSlot fd fun s => { s with buffer := s.buffer ++ bytes }
  | .flush fd artifact =>
      match v.slot fd with
      | none => v
      | some s => { v with
          slot := Function.update v.slot fd (some { s with
            directPtr := .artifact v.memory.length, size := codec.size artifact, buffer := [] })
          file := Function.update v.file s.name ((v.file s.name).map fun f => { f with
            directPtr := .artifact v.memory.length
            size := toUnsigned32 (f.size + toInt32 (codec.size artifact - toInt32 s.size)) })
          memory := Memory.free v.memory s.directPtr ++ [some artifact] }
  | .tear fd =>
      match v.slot fd with
      | none => v
      | some s => { v with
          slot := Function.update v.slot fd (some { s with
            directPtr := .ofBytes ((Memory.at? v.memory s.directPtr).elim [] codec.decode)
            size := ((Memory.at? v.memory s.directPtr).elim [] codec.decode).length })
          memory := Memory.free v.memory s.directPtr }
  | .forget pid => { v with slot := fun fd => (v.slot fd).filter fun s => s.owner ≠ pid }
  | .leave pid => { v with
      slot := fun fd => (v.slot fd).filter fun s => s.owner ≠ pid
      file := fun name => (v.file name).map fun f => f.left pid }
  | .block waiter => { v with blocked := v.blocked ++ [waiter] }
  | .unblock waiter => { v with blocked := v.blocked.erase waiter }

/-- When an action can happen. -/
def Enabled (v : View codec) : Action codec → Prop
  | .create name => name ≠ [] ∧ v.file name = none
  | .request name => ∃ f, v.file name = some f ∧ f.pendingLocks = 0
  | .grant name pid => ∃ f, v.file name = some f ∧ (f.locked = 0 ∨ f.locked = pid) ∧
      ¬ f.MustWait pid
  | .settle name => ∃ f, v.file name = some f ∧ f.pendingLocks ≠ 0
  | .attach fd name pid => v.slot fd = none ∧ fd < maxOpenFiles ∧ ∃ f, v.file name = some f ∧
      ¬ (0 < asInt f.locked ∧ f.locked ≠ pid)
  | .close fd => v.slot fd ≠ none
  | .release name pid => ∃ f, v.file name = some f ∧ f.referenceCount ≠ 0 ∧ pid ∈ f.referenceList
  | .unlock name pid => ∃ f, v.file name = some f ∧ f.locked = pid
  | .vanish name => ∃ f, v.file name = some f ∧
      (f.directPtr = .null ∨ ∃ artifact, Memory.at? v.memory f.directPtr = some artifact)
  | .reread name artifact => ∃ f old, v.file name = some f ∧
      Memory.at? v.memory f.directPtr = some old ∧ codec.encode (codec.decode old) = some artifact
  | .spoil name => ∃ f old, v.file name = some f ∧ Memory.at? v.memory f.directPtr = some old ∧
      codec.decode old = []
  | .store fd bytes => bytes ≠ [] ∧ ∃ s, v.slot fd = some s ∧ (s.buffer ++ bytes).length < 2 ^ 31
  | .flush fd artifact => ∃ s content, v.slot fd = some s ∧ v.file s.name ≠ none ∧
      s.buffer ≠ [] ∧ Memory.appended v.memory s.directPtr s.buffer = some content ∧
      content.length < 2 ^ 31 ∧ codec.encode content = some artifact
  | .tear fd => ∃ s old, v.slot fd = some s ∧ v.file s.name ≠ none ∧
      Memory.at? v.memory s.directPtr = some old ∧
      2 ^ 31 ≤ (codec.decode old ++ s.buffer).length
  | .forget _ => True
  | .leave _ => True
  | .block waiter => ∃ f, v.file waiter.name = some f ∧ f.generation = waiter.generation ∧
      f.MustWait waiter.pid
  | .unblock waiter => waiter ∈ v.blocked

end View

/-! ## What actions leave alone -/

/-- What a descriptor keeps as long as it is live. -/
def SlotView.key (s : SlotView) : Pid × Filename × Nat := (s.owner, s.name, s.generation)

theorem SlotView.key_eq {s t : SlotView} :
    s.key = t.key ↔ s.owner = t.owner ∧ s.name = t.name ∧ s.generation = t.generation := by
  simp [key]

namespace Action

def creates : Action codec → Bool
  | .create _ => true
  | _ => false

def attaches : Action codec → Bool
  | .attach .. => true
  | _ => false

/-- The action opens or closes descriptors. -/
def movesSlots : Action codec → Bool
  | .attach .. | .close _ | .forget _ | .leave _ => true
  | _ => false

/-- The action changes the references of files. -/
def movesReferences : Action codec → Bool
  | .attach .. | .close _ | .release .. | .leave _ => true
  | _ => false

/-- The action takes or gives back locks. -/
def movesLocks : Action codec → Bool
  | .grant .. | .unlock .. | .leave _ => true
  | _ => false

/-- The action changes what files hold. -/
def movesContents : Action codec → Bool
  | .reread .. | .spoil _ | .flush .. => true
  | _ => false

/-- The action changes what copies of inodes hold. -/
def movesCopies : Action codec → Bool
  | .attach .. | .flush .. | .tear _ => true
  | _ => false

def grants : Action codec → Bool
  | .grant .. => true
  | _ => false

/-- The action is a part of the end of a session. -/
def leavesPartly : Action codec → Bool
  | .release .. | .forget _ => true
  | _ => false

end Action

namespace View

variable {v : View codec} {a : Action codec} {name other : Filename} {fd fd' : Nat}

@[simp] theorem changeFile_self (v : View codec) (name : Filename) (g : FileView → FileView) :
    (v.changeFile name g).file name = (v.file name).map g := Function.update_self _ _ _

theorem slot_of_changeSlot {g : SlotView → SlotView} {s' : SlotView}
    (live : (v.changeSlot fd g).slot fd' = some s') :
    ∃ s, v.slot fd' = some s ∧ s' = if fd' = fd then g s else s := by
  by_cases same : fd' = fd
  · subst same
    obtain ⟨s, found, rfl⟩ := Option.map_eq_some_iff.mp
      ((Function.update_self fd' _ v.slot).symm.trans live)
    exact ⟨s, found, (if_pos rfl).symm⟩
  · exact ⟨s', by simpa [changeSlot, same] using live, (if_neg same).symm⟩

theorem file_of_changeFile {g : FileView → FileView} {f' : FileView}
    (stored : (v.changeFile name g).file other = some f') :
    ∃ f, v.file other = some f ∧ f' = if other = name then g f else f := by
  by_cases same : other = name
  · subst same
    obtain ⟨f, found, rfl⟩ := Option.map_eq_some_iff.mp
      ((Function.update_self other _ v.file).symm.trans stored)
    exact ⟨f, found, (if_pos rfl).symm⟩
  · exact ⟨f', by simpa [changeFile, same] using stored, (if_neg same).symm⟩

theorem slot_apply (same : a.movesSlots = false) (fd : Nat) :
    ((v.apply a).slot fd).map SlotView.key = (v.slot fd).map SlotView.key := by
  cases a with
  | attach fd name pid | close fd | forget pid | leave pid => cases same
  | store fd' bytes =>
      simp only [apply, changeSlot, Function.update_apply]
      split
      · rename_i this
        rw [this, Option.map_map]
        rfl
      · rfl
  | flush fd' new | tear fd' =>
      simp only [apply]
      split
      · rfl
      · rename_i s live
        simp only [Function.update_apply]
        split
        · rename_i this
          rw [this, live]
          rfl
        · rfl
  | _ => rfl

theorem slot_of_apply {s' : SlotView} (same : a.movesSlots = false)
    (live : (v.apply a).slot fd = some s') : ∃ s, v.slot fd = some s ∧ s'.key = s.key := by
  have keys := slot_apply (v := v) same fd
  rw [live, Option.map_some, eq_comm, Option.map_eq_some_iff] at keys
  obtain ⟨s, found, key⟩ := keys
  exact ⟨s, found, key.symm⟩

theorem slot_of_close {s' : SlotView} (live : (v.apply (.close fd)).slot fd' = some s') :
    fd' ≠ fd ∧ v.slot fd' = some s' := by
  simp only [apply] at live
  split at live
  · rename_i dead
    refine ⟨fun same => ?_, live⟩
    rw [same, dead] at live
    cases live
  · by_cases same : fd' = fd
    · simp [same] at live
    · exact ⟨same, by simpa [same] using live⟩

theorem copy_of_apply {s' : SlotView} (same : a.movesCopies = false)
    (live : (v.apply a).slot fd = some s') :
    ∃ s, v.slot fd = some s ∧ s'.name = s.name ∧ s'.directPtr = s.directPtr ∧ s'.size = s.size := by
  cases a with
  | attach fd name pid | flush fd new | tear fd => cases same
  | close fd' =>
      obtain ⟨-, found⟩ := slot_of_close live
      exact ⟨s', found, rfl, rfl, rfl⟩
  | store fd' bytes =>
      obtain ⟨s, found, rfl⟩ := slot_of_changeSlot live
      refine ⟨s, found, ?_⟩
      split <;> exact ⟨rfl, rfl, rfl⟩
  | forget pid | leave pid =>
      exact ⟨s', (Option.filter_eq_some_iff.mp live).1, rfl, rfl, rfl⟩
  | _ => exact ⟨s', live, rfl, rfl, rfl⟩

theorem released_keeps (f : FileView) (pid : Pid) :
    (f.released pid).generation = f.generation ∧ (f.released pid).locked = f.locked ∧
      (f.released pid).directPtr = f.directPtr ∧ (f.released pid).size = f.size := by
  unfold FileView.released
  split <;> exact ⟨rfl, rfl, rfl, rfl⟩

theorem file_of_apply {f' : FileView} (old : a.creates = false)
    (stored : (v.apply a).file name = some f') :
    ∃ f, v.file name = some f ∧ f'.generation = f.generation ∧
      (a.movesReferences = false →
        f'.referenceList = f.referenceList ∧ f'.referenceCount = f.referenceCount) ∧
      (a.movesLocks = false → f'.locked = f.locked) ∧
      (a.movesContents = false → f'.directPtr = f.directPtr ∧ f'.size = f.size) := by
  cases a with
  | create name => cases old
  | request other | grant other pid | settle other | unlock other pid | release other pid
  | reread other new | spoil other | attach fd other pid =>
      obtain ⟨f, found, rfl⟩ := file_of_changeFile stored
      refine ⟨f, found, ?_⟩
      split <;> simp [Action.movesReferences, Action.movesLocks, Action.movesContents]
  | close fd =>
      simp only [apply] at stored
      split at stored
      · exact ⟨f', stored, rfl, fun _ => ⟨rfl, rfl⟩, fun _ => rfl, fun _ => ⟨rfl, rfl⟩⟩
      · obtain ⟨f, found, rfl⟩ := file_of_changeFile stored
        refine ⟨f, found, ?_⟩
        split <;> simp [Action.movesReferences, released_keeps]
  | flush fd new =>
      simp only [apply] at stored
      split at stored
      · exact ⟨f', stored, rfl, fun _ => ⟨rfl, rfl⟩, fun _ => rfl, fun _ => ⟨rfl, rfl⟩⟩
      · rename_i s live
        obtain ⟨f, found, rfl⟩ := file_of_changeFile (g := fun f => { f with
          directPtr := .artifact v.memory.length
          size := toUnsigned32 (f.size + toInt32 (codec.size new - toInt32 s.size)) }) stored
        refine ⟨f, found, ?_⟩
        split <;> simp [Action.movesContents]
  | tear fd =>
      simp only [apply] at stored
      split at stored <;>
        exact ⟨f', stored, rfl, fun _ => ⟨rfl, rfl⟩, fun _ => rfl, fun _ => ⟨rfl, rfl⟩⟩
  | vanish other =>
      by_cases same : name = other
      · simp [apply, same] at stored
      · exact ⟨f', by simpa [apply, same] using stored, rfl, fun _ => ⟨rfl, rfl⟩, fun _ => rfl,
          fun _ => ⟨rfl, rfl⟩⟩
  | leave pid =>
      obtain ⟨f, found, rfl⟩ := Option.map_eq_some_iff.mp stored
      exact ⟨f, found, rfl, by simp [Action.movesReferences], by simp [Action.movesLocks],
        fun _ => ⟨rfl, rfl⟩⟩
  | store fd bytes | forget pid | block waiter | unblock waiter =>
      exact ⟨f', stored, rfl, fun _ => ⟨rfl, rfl⟩, fun _ => rfl, fun _ => ⟨rfl, rfl⟩⟩

end View

def viewSystem (codec : Codec) : ActionSystem (View codec) (Action codec) where
  Enabled := View.Enabled
  apply := View.apply

/-- The change from one state to the other is the trace of the given actions. -/
def FileSystem.Performs (fs : FileSystem codec) (acts : List (Action codec))
    (fs' : FileSystem codec) : Prop :=
  (viewSystem codec).Trace fs.view acts fs'.view

end FileStorage
