import FileStorage.Simfs.View

/-! # The runtime support as traces of actions

One lemma for each function below the calls: what it can return and which actions
of the view it performs on the way, also when it fails in the middle.
-/

namespace FileStorage

open Program

variable {codec : Codec}

/-! ## Memory -/

namespace Memory

variable {memory : Memory codec} {ptr other : DirectPtr} {artifact : codec.Artifact}

@[simp] theorem length_free (memory : Memory codec) (ptr : DirectPtr) :
    (Memory.free memory ptr).length = memory.length := by
  cases ptr <;> simp [Memory.free]

theorem at?_free (apart : ∀ id, ptr = .artifact id → other ≠ .artifact id) :
    Memory.at? (Memory.free memory ptr) other = Memory.at? memory other := by
  cases ptr with
  | null | bytes raw => rfl
  | artifact id =>
      cases other with
      | null | bytes raw => rfl
      | artifact id' =>
          have different : id ≠ id' := fun same => apart id rfl (same ▸ rfl)
          simp [Memory.at?, Memory.free, List.getElem?_set_ne different]

theorem at?_free_self (memory : Memory codec) (ptr : DirectPtr) :
    Memory.at? (Memory.free memory ptr) ptr = none := by
  cases ptr with
  | null | bytes raw => rfl
  | artifact id =>
      simp only [Memory.at?, Memory.free, List.getD_eq_getElem?_getD, List.getElem?_set_self']
      cases memory[id]? <;> rfl

theorem at?_of_free (found : Memory.at? (Memory.free memory ptr) other = some artifact) :
    Memory.at? memory other = some artifact := by
  by_cases same : other = ptr
  · rw [same, at?_free_self] at found
    cases found
  · rwa [at?_free fun id is other_ => same (other_.trans is.symm)] at found

theorem at?_append (inside : ∀ id, ptr = .artifact id → id < memory.length) :
    Memory.at? (memory ++ [some artifact]) ptr = Memory.at? memory ptr := by
  cases ptr with
  | null | bytes raw => rfl
  | artifact id =>
      simp [Memory.at?, List.getElem?_append_left (inside id rfl)]

theorem at?_append_none (memory : Memory codec) (ptr : DirectPtr) :
    Memory.at? (memory ++ [none]) ptr = Memory.at? memory ptr := by
  cases ptr with
  | null | bytes raw => rfl
  | artifact id =>
      simp only [Memory.at?, List.getD_eq_getElem?_getD, List.getElem?_append]
      split
      · rfl
      · rename_i beyond
        rw [List.getElem?_eq_none (not_lt.mp beyond)]
        cases rest : [(none : Option codec.Artifact)][id - memory.length]? with
        | none => rfl
        | some last => exact List.mem_singleton.mp (List.mem_of_getElem? rest)

theorem at?_append_self (memory : Memory codec) (artifact : codec.Artifact) {length : Nat}
    (same : memory.length = length) :
    Memory.at? (memory ++ [some artifact]) (.artifact length) = some artifact := by
  subst same
  simp [Memory.at?]

theorem appended_of_live {old : codec.Artifact} (found : Memory.at? memory ptr = some old)
    (buffer : List UInt8) :
    Memory.appended memory ptr buffer = some (codec.decode old ++ buffer) := by
  cases ptr with
  | null => cases found
  | artifact id | bytes raw => simp [Memory.appended, found]

theorem appended_of_freed {id : Nat} (gone : Memory.at? memory (.artifact id) = none)
    (buffer : List UInt8) : Memory.appended memory (.artifact id) buffer = none := by
  simp [Memory.appended, gone]

end Memory

/-! ## The inode functions -/

namespace InodeState

theorem post_decompress {s : InodeState codec} {Q : Unit → InodeState codec → Prop}
    {E : Errno → InodeState codec → Prop} {F : Fault → Prop}
    (null : s.inode.directPtr = .null → E .EINVAL s)
    (raw : ∀ data, s.inode.directPtr = .bytes data → F .notArtifact)
    (freed : ∀ id, s.inode.directPtr = .artifact id →
      Memory.at? s.memory s.inode.directPtr = none → F .decodeFreed)
    (live : ∀ old, Memory.at? s.memory s.inode.directPtr = some old → Q () {
      inode := { s.inode with
        size := (codec.decode old).length, directPtr := .ofBytes (codec.decode old) }
      memory := Memory.free s.memory s.inode.directPtr }) :
    (decompress s).Post Q E F := by
  simp only [decompress, post_bind, post_get]
  cases ptr : s.inode.directPtr with
  | null => exact null ptr
  | bytes data => exact raw data ptr
  | artifact id =>
      cases found : s.memory.getD id none with
      | none =>
          simp only [found]
          exact freed id ptr (by rw [ptr]; exact found)
      | some old =>
          have result := live old (by rw [ptr]; exact found)
          rw [ptr] at result
          simp only [found]
          exact result

theorem post_compress {s : InodeState codec} {Q : Unit → InodeState codec → Prop}
    {E : Errno → InodeState codec → Prop} {F : Fault → Prop} (data : List UInt8)
    (ptr : s.inode.directPtr = .ofBytes data) (small : data.length < 2 ^ 31)
    (empty : data = [] → E .EINVAL s)
    (full : ∀ new, data ≠ [] → codec.encode data = some new → Q () {
      inode := { s.inode with
        size := codec.size new, directPtr := .artifact s.memory.length }
      memory := s.memory ++ [some new] }) :
    (compress s).Post Q E F := by
  simp only [compress, post_bind, post_get, ptr]
  cases data with
  | nil => exact empty rfl
  | cons byte rest =>
      obtain ⟨new, encodes⟩ := Option.isSome_iff_exists.mp
        (codec.encode_isSome (byte :: rest) (by simp) small)
      simp only [DirectPtr.ofBytes, encodes]
      exact full new (by simp) encodes

theorem post_read {s : InodeState codec} {Q : List UInt8 → InodeState codec → Prop}
    {E : Errno → InodeState codec → Prop} {F : Fault → Prop} {now : Int}
    (null : s.inode.directPtr = .null → E .EINVAL s)
    (raw : ∀ data, s.inode.directPtr = .bytes data → F .notArtifact)
    (freed : ∀ id, s.inode.directPtr = .artifact id →
      Memory.at? s.memory s.inode.directPtr = none → F .decodeFreed)
    (empty : ∀ old, Memory.at? s.memory s.inode.directPtr = some old → codec.decode old = [] →
      E .EINVAL {
        inode := { s.inode with size := 0, directPtr := .null, atime := now, ctime := now }
        memory := Memory.free s.memory s.inode.directPtr })
    (full : ∀ old new, Memory.at? s.memory s.inode.directPtr = some old → codec.decode old ≠ [] →
      codec.encode (codec.decode old) = some new → Q (codec.decode old) {
        inode := { s.inode with
          size := codec.size new, directPtr := .artifact s.memory.length
          atime := now, ctime := now }
        memory := Memory.free s.memory s.inode.directPtr ++ [some new] }) :
    (read now s).Post Q E F := by
  simp only [read, post_bind]
  apply post_decompress null raw freed
  intro old live
  simp only [post_get, post_modify, DirectPtr.raw_ofBytes, post_pure]
  refine post_compress (codec.decode old) rfl (codec.decode_small old) ?_ ?_
  · intro nothing
    simpa only [nothing, List.length_nil, DirectPtr.ofBytes] using empty old live nothing
  · intro new some_ encodes
    simpa only [Memory.length_free] using full old new live some_ encodes

theorem post_appendBuffer {s : InodeState codec} {Q : Unit → InodeState codec → Prop}
    {E : Errno → InodeState codec → Prop} {F : Fault → Prop} {now : Int} (data : List UInt8)
    (ptr : s.inode.directPtr = .ofBytes data) (sized : data.length ≤ s.inode.size)
    (buffered : s.inode.buffer ≠ [])
    (big : 2 ^ 31 ≤ s.inode.size + s.inode.buffer.length → E .ENOMEM s)
    (full : ∀ new, s.inode.size + s.inode.buffer.length < 2 ^ 31 →
      codec.encode (data ++ s.inode.buffer) = some new → Q () {
        inode := { s.inode with
          size := codec.size new, directPtr := .artifact s.memory.length
          buffer := [], mtime := now, ctime := now }
        memory := s.memory ++ [some new] }) :
    (appendBuffer now s).Post Q E F := by
  simp only [appendBuffer, post_bind, post_get, post_failIf, post_modify]
  refine ⟨big, fun fits => ?_⟩
  have some_ : data ++ s.inode.buffer ≠ [] := by simp [buffered]
  have small : (data ++ s.inode.buffer).length < 2 ^ 31 := by
    rw [List.length_append]
    omega
  refine post_compress (data ++ s.inode.buffer) ?_ small
    (fun nothing => absurd nothing some_) fun new _ encodes => full new (by omega) encodes
  rw [ptr, DirectPtr.raw_ofBytes]
  cases content : data ++ s.inode.buffer with
  | nil => exact absurd content some_
  | cons => rfl

theorem post_fflush {s : InodeState codec} {Q : Unit → InodeState codec → Prop}
    {E : Errno → InodeState codec → Prop} {F : Fault → Prop} {now : Int}
    (buffered : s.inode.buffer ≠ [])
    (raw : ∀ data, s.inode.directPtr = .bytes data → F .notArtifact)
    (freed : ∀ id, s.inode.directPtr = .artifact id →
      Memory.at? s.memory s.inode.directPtr = none → F .decodeFreed)
    (nullBig : s.inode.directPtr = .null → 2 ^ 31 ≤ s.inode.size + s.inode.buffer.length →
      E .ENOMEM s)
    (big : ∀ old, Memory.at? s.memory s.inode.directPtr = some old →
      2 ^ 31 ≤ (codec.decode old ++ s.inode.buffer).length → E .ENOMEM {
        inode := { s.inode with
          size := (codec.decode old).length, directPtr := .ofBytes (codec.decode old) }
        memory := Memory.free s.memory s.inode.directPtr })
    (full : ∀ content new,
      Memory.appended s.memory s.inode.directPtr s.inode.buffer = some content →
      content.length < 2 ^ 31 → codec.encode content = some new →
      (s.inode.directPtr = .null → s.inode.size + s.inode.buffer.length < 2 ^ 31) → Q () {
        inode := { s.inode with
          size := codec.size new, directPtr := .artifact s.memory.length
          buffer := [], mtime := now, ctime := now }
        memory := Memory.free s.memory s.inode.directPtr ++ [some new] }) :
    (fflush now s).Post Q E F := by
  simp only [fflush, post_bind, post_get]
  by_cases null : s.inode.directPtr = .null
  · rw [if_neg (not_not.mpr null)]
    refine post_appendBuffer [] null (Nat.zero_le _) buffered (nullBig null) ?_
    intro new fits encodes
    have small : s.inode.buffer.length < 2 ^ 31 := by omega
    have result := full s.inode.buffer new (by rw [null]; rfl) small encodes fun _ => fits
    rw [null] at result
    exact result
  · rw [if_pos null, post_bind]
    refine post_decompress (fun none_ => absurd none_ null) raw freed fun old live => ?_
    have appended := Memory.appended_of_live live s.inode.buffer
    refine post_appendBuffer (codec.decode old) rfl (Nat.le_refl _) buffered ?_ ?_
    · intro tooBig
      exact big old live (by rw [List.length_append]; exact tooBig)
    · intro new fits encodes
      have small : (codec.decode old ++ s.inode.buffer).length < 2 ^ 31 := by
        rw [List.length_append]
        exact fits
      simpa only [Memory.length_free] using full _ new appended small encodes fun none_ => absurd none_ null

end InodeState

/-! ## Views of changed states -/

namespace FileSystem

variable {fs fs' fs'' : FileSystem codec} {name : Filename} {fd : Nat}

@[simp] theorem file_updateFile (fs : FileSystem codec) (name : Filename) (f : Inode → Inode)
    (other : Filename) : (fs.updateFile name f).file other = if other = name then
      (fs.file name).map (fun inode => { f inode with name }) else fs.file other :=
  fs.fileTable.get_update name f other

@[simp] theorem slot_updateSlot (fs : FileSystem codec) (fd : Nat) (f : Inode → Inode)
    (other : Nat) : (fs.updateSlot fd f).slot other = if other = fd then
      (fs.slot fd).map (fun entry => { entry with inode := f entry.inode }) else fs.slot other :=
  fs.fileDescriptorTable.1.slot_update fd f other

@[simp] theorem slot_updateFile (fs : FileSystem codec) (name : Filename) (f : Inode → Inode)
    (fd : Nat) : (fs.updateFile name f).slot fd = fs.slot fd := rfl

@[simp] theorem file_updateSlot (fs : FileSystem codec) (fd : Nat) (f : Inode → Inode)
    (name : Filename) : (fs.updateSlot fd f).file name = fs.file name := rfl

theorem view_file {inode : Inode} (present : fs.file name = some inode) :
    fs.view.file name = some (FileView.of inode) := by
  simp [view, present]

theorem view_slot {entry : Entry} (live : fs.slot fd = some entry) :
    fs.view.slot fd = some (SlotView.of entry) := by
  simp [view, live]

theorem view_updateFile {f : Inode → Inode} {g : FileView → FileView}
    (agrees : ∀ inode, fs.file name = some inode → FileView.of (f inode) = g (FileView.of inode)) :
    (fs.updateFile name f).view = fs.view.changeFile name g := by
  refine View.ext ?_ rfl rfl rfl rfl
  funext other
  by_cases same : other = name
  · subst same
    cases present : fs.file other with
    | none => simp [view, View.changeFile, present]
    | some inode => simpa [view, View.changeFile, present, FileView.of] using agrees inode present
  · simp [view, View.changeFile, same]

theorem view_updateSlot {f : Inode → Inode} {g : SlotView → SlotView}
    (agrees : ∀ entry, fs.slot fd = some entry →
      SlotView.of { entry with inode := f entry.inode } = g (SlotView.of entry)) :
    (fs.updateSlot fd f).view = fs.view.changeSlot fd g := by
  refine View.ext rfl ?_ rfl rfl rfl
  funext other
  by_cases same : other = fd
  · subst same
    cases live : fs.slot other with
    | none => simp [view, View.changeSlot, live]
    | some entry => simpa [view, View.changeSlot, live] using agrees entry live
  · simp [view, View.changeSlot, same]

@[simp] theorem file_putFile (fs : FileSystem codec) (name : Filename) (s : InodeState codec)
    (other : Filename) : (fs.putFile name s).file other = if other = name then
      (fs.file name).map (fun _ => { s.inode with name }) else fs.file other :=
  fs.fileTable.get_update name _ other

@[simp] theorem slot_putSlot (fs : FileSystem codec) (fd : Nat) (s : InodeState codec)
    (other : Nat) : (fs.putSlot fd s).slot other = if other = fd then
      (fs.slot fd).map (fun entry => { entry with inode := s.inode }) else fs.slot other :=
  fs.fileDescriptorTable.1.slot_update fd _ other

@[simp] theorem slot_putFile (fs : FileSystem codec) (name : Filename) (s : InodeState codec)
    (fd : Nat) : (fs.putFile name s).slot fd = fs.slot fd := rfl

@[simp] theorem file_putSlot (fs : FileSystem codec) (fd : Nat) (s : InodeState codec)
    (name : Filename) : (fs.putSlot fd s).file name = fs.file name := rfl

@[simp] theorem slot_takeOver (fs : FileSystem codec) (flushed : Inode) (bytesAdded : Int)
    (fd : Nat) : (fs.takeOver flushed bytesAdded).slot fd = fs.slot fd := rfl

theorem view_putFile {inode : Inode} {s : InodeState codec} (g : FileView → FileView)
    (present : fs.file name = some inode) (agrees : FileView.of s.inode = g (FileView.of inode)) :
    (fs.putFile name s).view = { fs.view.changeFile name g with memory := s.memory } := by
  have changed : (fs.updateFile name fun _ => s.inode).view = fs.view.changeFile name g :=
    view_updateFile fun other found => by
      obtain rfl : inode = other := Option.some.inj (present.symm.trans found)
      exact agrees
  exact congrArg (fun v : View codec => { v with memory := s.memory }) changed

theorem view_putSlot {entry : Entry} {s : InodeState codec} (g : SlotView → SlotView)
    (live : fs.slot fd = some entry)
    (agrees : SlotView.of { entry with inode := s.inode } = g (SlotView.of entry)) :
    (fs.putSlot fd s).view = { fs.view.changeSlot fd g with memory := s.memory } := by
  have changed : (fs.updateSlot fd fun _ => s.inode).view = fs.view.changeSlot fd g :=
    view_updateSlot fun other found => by
      obtain rfl : entry = other := Option.some.inj (live.symm.trans found)
      exact agrees
  exact congrArg (fun v : View codec => { v with memory := s.memory }) changed

theorem view_takeOver (fs : FileSystem codec) (flushed : Inode) (bytesAdded : Int) :
    (fs.takeOver flushed bytesAdded).view = fs.view.changeFile flushed.name fun f => { f with
      directPtr := flushed.directPtr, size := toUnsigned32 (f.size + bytesAdded) } :=
  view_updateFile fun _ _ => rfl

theorem changeFile_id (v : View codec) (name : Filename) : v.changeFile name id = v := by
  simp [View.changeFile]

theorem changeSlot_id (v : View codec) (fd : Nat) : v.changeSlot fd id = v := by
  simp [View.changeSlot]

theorem Performs.nil : fs.Performs [] fs := ActionSystem.Trace.nil _

theorem Performs.of_view (same : fs'.view = fs.view) : fs.Performs [] fs' := by
  rw [Performs, same]
  exact .nil _

theorem Performs.view_eq (performed : fs.Performs [] fs') : fs'.view = fs.view := by
  rw [Performs] at performed
  generalize fs'.view = v at performed ⊢
  cases performed
  rfl

theorem Performs.view_single {action : Action codec} (performed : fs.Performs [action] fs') :
    fs'.view = fs.view.apply action := by
  rw [Performs] at performed
  generalize fs'.view = v at performed ⊢
  obtain _ | ⟨-, _ | _⟩ := performed
  rfl

theorem Performs.trans {acts rest : List (Action codec)} (first : fs.Performs acts fs')
    (second : fs'.Performs rest fs'') : fs.Performs (acts ++ rest) fs'' :=
  ActionSystem.Trace.append first second

theorem Performs.single {action : Action codec} (enabled : fs.view.Enabled action)
    (changed : fs'.view = fs.view.apply action) : fs.Performs [action] fs' := by
  rw [Performs, changed]
  exact .cons enabled (.nil _)

/-! ## Building blocks -/

variable {Q : Unit → FileSystem codec → Prop} {E : Errno → FileSystem codec → Prop}
  {F : Fault → Prop}

theorem post_ofExcept {α : Type} {x : Except Errno α} {R : α → FileSystem codec → Prop}
    (returned : ∀ a, x = .ok a → R a fs) (failed : ∀ e, x = .error e → E e fs) :
    (ofExcept x fs).Post R E F := by
  cases x with
  | ok a => exact returned a rfl
  | error e => exact failed e rfl

theorem post_changeFile {f : Inode → Except Errno Inode} {inode : Inode}
    (present : fs.file name = some inode)
    (returned : ∀ changed, f inode = .ok changed → Q () (fs.updateFile name fun _ => changed))
    (failed : ∀ e, f inode = .error e → E e fs) :
    (changeFile name f fs).Post Q E F := by
  simp only [changeFile, post_bind, post_get, present]
  exact post_ofExcept returned failed

theorem post_onFile {α : Type} {p : Program Errno Fault (InodeState codec) α} {inode : Inode}
    {R : α → FileSystem codec → Prop} (present : fs.file name = some inode)
    (inner : (p { inode, memory := fs.memory }).Post
      (fun a s => R a (fs.putFile name s)) (fun e s => E e (fs.putFile name s)) F) :
    (onFile name p fs).Post R E F := by
  simp only [onFile, post_bind, post_get, present, post_zoom]
  exact inner

theorem post_onSlot {α : Type} {p : Program Errno Fault (InodeState codec) α} {entry : Entry}
    {R : α → FileSystem codec → Prop} (live : fs.slot fd = some entry)
    (inner : (p { inode := entry.inode, memory := fs.memory }).Post
      (fun a s => R a (fs.putSlot fd s)) (fun e s => E e (fs.putSlot fd s)) F) :
    (onSlot fd p fs).Post R E F := by
  simp only [onSlot, post_bind, post_get, live, post_zoom]
  exact inner

/-! ## Contents -/

def FreedFile (v : View codec) (name : Filename) : Prop :=
  ∃ f id, v.file name = some f ∧ f.directPtr = .artifact id ∧ Memory.at? v.memory f.directPtr = none

def FreedSlot (v : View codec) (fd : Nat) : Prop :=
  ∃ s id, v.slot fd = some s ∧ s.directPtr = .artifact id ∧
    Memory.at? v.memory s.directPtr = none ∧ s.buffer ≠ [] ∧ v.file s.name ≠ none

/-- The buffer of a descriptor cannot be flushed: its file is gone, or there is
    too much to flush. -/
def Unflushable (v : View codec) (fd : Nat) : Prop :=
  ∃ s, v.slot fd = some s ∧ (v.file s.name = none ∨
    s.directPtr = .null ∧ 2 ^ 31 ≤ s.size + s.buffer.length)

theorem rtsReadInode_performs (fs : FileSystem codec) (name : Filename) (now : Int) :
    (rtsReadInode name now fs).Post
      (fun data fs' => ∃ f old new, fs.view.file name = some f ∧
        Memory.at? fs.memory f.directPtr = some old ∧ data = codec.decode old ∧ data ≠ [] ∧
        fs.Performs [.reread name new] fs')
      (fun _ fs' => fs.Performs [] fs' ∨ fs.Performs [.spoil name] fs')
      (fun why => why = .decodeFreed → FreedFile fs.view name) := by
  simp only [rtsReadInode, post_bind, post_get, post_failIf]
  refine ⟨fun _ => .inl .nil, fun stored => ?_⟩
  obtain ⟨inode, present⟩ := Option.ne_none_iff_exists'.mp stored
  have viewed := view_file present
  apply post_onFile present
  apply InodeState.post_read
  · intro null
    left
    exact .of_view ((view_putFile id present rfl).trans (changeFile_id fs.view name))
  · exact fun data raw impossible => by cases impossible
  · exact fun id ptr freed _ => ⟨_, id, viewed, ptr, freed⟩
  · intro old live nothing
    right
    refine .single ⟨_, old, viewed, live, nothing⟩ ?_
    rw [view_putFile (fun f => { f with directPtr := .null, size := 0 }) present rfl]
    simp only [View.apply, viewed]
    rfl
  · intro old new live some_ encodes
    refine ⟨_, old, new, viewed, live, rfl, some_, .single ⟨_, old, viewed, live, encodes⟩ ?_⟩
    rw [view_putFile (fun f => { f with
      directPtr := .artifact fs.memory.length, size := codec.size new }) present rfl]
    simp only [View.apply, viewed]
    rfl

theorem rtsReadInode_keeps_slots (fs : FileSystem codec) (name : Filename) (now : Int) (fd : Nat) :
    (rtsReadInode name now fs).Post (fun _ fs' => fs'.slot fd = fs.slot fd)
      (fun _ fs' => fs'.slot fd = fs.slot fd) (fun _ => True) := by
  simp only [rtsReadInode, post_bind, post_get, post_failIf]
  refine ⟨fun _ => trivial, fun stored => ?_⟩
  obtain ⟨inode, present⟩ := Option.ne_none_iff_exists'.mp stored
  apply post_onFile present
  exact InodeState.post_read (fun _ => rfl) (fun _ _ => trivial) (fun _ _ _ => trivial)
    (fun _ _ _ => rfl) (fun _ _ _ _ _ => rfl)

/-- An assignment to fields that the view does not show. -/
theorem Performs.updateFile_same {f : Inode → Inode}
    (same : ∀ inode, FileView.of (f inode) = FileView.of inode) :
    fs.Performs [] (fs.updateFile name f) :=
  .of_view ((view_updateFile (g := id) fun inode _ => same inode).trans (changeFile_id fs.view name))

theorem Performs.counted {acts : List (Action codec)} (performed : fs.Performs acts fs')
    (monitor : Monitor) : fs.Performs acts { fs' with monitor } := performed

theorem fileTableFflushBytes_performs {entry : Entry} (live : fs.slot fd = some entry)
    (stored : fs.file entry.inode.name ≠ none) (buffered : entry.inode.buffer ≠ []) (now : Int) :
    (fileTableFflushBytes fd entry.inode now fs).Post
      (fun _ fs' => (∃ flushed, fs'.slot fd = some flushed) ∧ ∃ new, fs.Performs [.flush fd new] fs')
      (fun _ fs' => fs.Performs [] fs' ∧ Unflushable fs.view fd ∨ fs.Performs [.tear fd] fs')
      (fun why => why = .decodeFreed → FreedSlot fs.view fd) := by
  have viewed := view_slot live
  have storedView : fs.view.file entry.inode.name ≠ none := by
    simpa [view] using stored
  simp only [fileTableFflushBytes, post_bind]
  apply post_onSlot live
  apply InodeState.post_fflush buffered
  · exact fun data raw impossible => by cases impossible
  · exact fun id ptr freed _ => ⟨_, id, viewed, ptr, freed, buffered, storedView⟩
  · intro null big
    left
    exact ⟨.of_view ((view_putSlot id live rfl).trans (changeSlot_id fs.view fd)),
      _, viewed, .inr ⟨null, big⟩⟩
  · intro old found big
    right
    refine .single ⟨_, old, viewed, storedView, found, big⟩ ?_
    rw [view_putSlot (fun s => { s with
      directPtr := .ofBytes (codec.decode old), size := (codec.decode old).length }) live rfl]
    have decoded : Memory.at? fs.view.memory (SlotView.of entry).directPtr = some old := found
    simp only [View.apply, viewed, decoded]
    simp only [View.changeSlot, viewed]
    rfl
  · intro content new appended small encodes _
    simp only [post_get, post_orFail, post_modify, slot_putSlot, if_true, live, Option.map_some,
      reduceCtorEq, false_implies, Option.some.injEq, forall_eq', true_and, slot_takeOver]
    refine ⟨⟨_, rfl⟩, new, .single
      ⟨_, content, viewed, storedView, buffered, appended, small, encodes⟩ ?_⟩
    rw [view_takeOver, view_putSlot (fun s => { s with
      directPtr := .artifact fs.memory.length, size := codec.size new, buffer := [] }) live rfl]
    simp only [View.apply, viewed]
    simp only [View.changeFile, View.changeSlot, viewed]
    rfl

theorem fileTableFflush_performs {entry : Entry} (live : fs.slot fd = some entry) (now : Int) :
    (fileTableFflush fd now fs).Post
      (fun _ fs' => (∃ flushed, fs'.slot fd = some flushed) ∧
        (fs.Performs [] fs' ∧ entry.inode.buffer = [] ∨
          ∃ new, fs.Performs [.flush fd new] fs'))
      (fun _ fs' => fs.Performs [] fs' ∧ Unflushable fs.view fd ∨ fs.Performs [.tear fd] fs')
      (fun why => why = .decodeFreed → FreedSlot fs.view fd) := by
  -- the assignment of the times at the end, from either branch
  have stamp : ∀ (fs' : FileSystem codec) (flushed : Entry) (acts : List (Action codec)),
      fs.Performs acts fs' → fs.Performs acts (fs'.updateFile entry.inode.name fun inode =>
        { inode with atime := flushed.inode.atime, mtime := flushed.inode.mtime, ctime := now }) := by
    intro fs' flushed acts performed
    rw [← List.append_nil acts]
    exact performed.trans (Performs.updateFile_same fun _ => rfl)
  simp only [fileTableFflush, post_bind, post_get, live, post_orFail, reduceCtorEq, false_implies,
    Option.some.injEq, forall_eq', true_and, post_failIf]
  refine ⟨fun absent => .inl ⟨.nil, _, view_slot live, .inl ?_⟩, fun stored => ?_⟩
  · simp [view, SlotView.of, absent]
  by_cases buffered : 0 < entry.inode.buffer.length
  · rw [if_pos buffered, post_bind]
    have flushes := fileTableFflushBytes_performs live stored (List.length_pos_iff.mp buffered) now
    refine flushes.mono (fun _ fs' done => ?_) (fun _ _ failed => failed) (fun _ freed => freed)
    obtain ⟨⟨flushed, found⟩, new, performed⟩ := done
    simp only [post_bind, post_get, post_orFail, found, reduceCtorEq, false_implies,
      Option.some.injEq, forall_eq', true_and, post_modify, slot_updateFile]
    exact ⟨⟨flushed, rfl⟩, .inr ⟨new, stamp fs' flushed _ performed⟩⟩
  · rw [if_neg buffered]
    have empty : entry.inode.buffer = [] := by simpa using buffered
    simp only [post_bind, post_get, post_orFail, live, reduceCtorEq, false_implies,
      Option.some.injEq, forall_eq', true_and, post_modify, slot_updateFile]
    exact ⟨⟨entry, rfl⟩, .inl ⟨stamp fs entry _ .nil, empty⟩⟩

def Oversized (fs : FileSystem codec) : Prop := toInt32 fs.fileTable.size = -1

theorem post_fileTableSize {R : Int → FileSystem codec → Prop}
    (returned : ∀ size, R size fs) (failed : Oversized fs → E .bubbled fs) :
    (fileTableSize fs).Post R E F := by
  simp only [fileTableSize, post_bind, post_get, post_failIf, post_pure]
  exact ⟨failed, fun _ => returned _⟩

theorem rtsFflushInode_performs {entry : Entry} (live : fs.slot fd = some entry) (now : Int) :
    (rtsFflushInode fd now fs).Post
      (fun _ fs' => fs.Performs [] fs' ∧ entry.inode.buffer = [] ∨
        ∃ new, fs.Performs [.flush fd new] fs')
      (fun _ fs' => fs.Performs [] fs' ∧ (Unflushable fs.view fd ∨ entry.inode.buffer = []) ∨
        fs.Performs [.tear fd] fs' ∨ ∃ new, fs.Performs [.flush fd new] fs' ∧ Oversized fs')
      (fun why => why = .decodeFreed → FreedSlot fs.view fd) := by
  simp only [rtsFflushInode, post_bind, post_get, live, post_orFail, reduceCtorEq, false_implies,
    Option.some.injEq, forall_eq', true_and]
  refine (fileTableFflush_performs live now).mono (fun _ fs' done => ?_)
    (fun _ _ failed => failed.elim (fun same => .inl ⟨same.1, .inl same.2⟩) (.inr ∘ .inl))
    (fun _ freed => freed)
  obtain ⟨⟨flushed, found⟩, performed⟩ := done
  simp only [found, post_modify, reduceCtorEq, false_implies, Option.some.injEq, forall_eq',
    true_and, post_pure]
  rcases performed with ⟨performed, empty⟩ | ⟨new, performed⟩
  · exact post_fileTableSize (fun _ => .inl ⟨performed.counted _, empty⟩)
      (fun _ => .inl ⟨performed.counted _, .inr empty⟩)
  · exact post_fileTableSize (fun _ => .inr ⟨new, performed.counted _⟩)
      (fun oversized => .inr (.inr ⟨new, performed.counted _, oversized⟩))

/-! ## Removal -/

theorem fileTableRemove_performs {inode : Inode} (present : fs.file name = some inode) :
    (fileTableRemove name fs).Post
      (fun _ fs' => fs.Performs [.vanish name] fs')
      (fun _ _ => False)
      (fun why => why ≠ .decodeFreed) := by
  have viewed := view_file present
  obtain ⟨fileTable, removed⟩ := FileTable.remove_isSome present
  have gone : ∀ memory : Memory codec,
      ({ fs with fileTable, memory } : FileSystem codec).view = { fs.view with
        file := Function.update fs.view.file name none, memory } := by
    intro memory
    refine View.ext ?_ rfl rfl rfl rfl
    funext other
    by_cases same : other = name <;> simp [view, file, FileTable.get_remove removed, same]
  simp only [fileTableRemove, destroyArtifact, post_bind, post_get, present, post_orFail,
    reduceCtorEq, false_implies, Option.some.injEq, forall_eq', true_and]
  cases ptr : inode.directPtr with
  | null =>
      simp only [post_pure, removed, reduceCtorEq, false_implies, Option.some.injEq, forall_eq',
        true_and, post_modify]
      refine .single ⟨_, viewed, .inl ptr⟩ ?_
      rw [gone fs.memory]
      simp only [View.apply, viewed, Option.elim_some]
      rw [show (FileView.of inode).directPtr = .null from ptr]
      rfl
  | bytes data => simp
  | artifact id =>
      cases found : fs.memory.getD id none with
      | none => simp only [found, post_fault]; simp
      | some old =>
          simp only [found, post_modify, removed, reduceCtorEq, false_implies, Option.some.injEq,
            forall_eq', true_and]
          have ptrView : (FileView.of inode).directPtr = .artifact id := ptr
          refine .single ⟨_, viewed, .inr ⟨old, by rw [ptrView]; exact found⟩⟩ ?_
          rw [gone (fs.memory.set id none)]
          simp only [View.apply, viewed, Option.elim_some, ptrView]
          rfl

theorem rtsRemoveInode_performs (fs : FileSystem codec) (name : Filename) :
    (rtsRemoveInode name fs).Post
      (fun _ fs' => fs.Performs [.vanish name] fs')
      (fun _ fs' => fs.Performs [] fs' ∨ fs.Performs [.vanish name] fs')
      (fun why => why ≠ .decodeFreed) := by
  simp only [rtsRemoveInode, rtsGetInode, post_bind, post_failIf, post_get, post_orFail]
  refine ⟨fun _ => .inl .nil, fun _ => ⟨fun _ => .inl .nil, fun inode present => ?_⟩⟩
  refine (fileTableRemove_performs present).mono (fun _ fs' performed => ?_)
    (fun _ _ impossible => impossible.elim) (fun _ other => other)
  refine post_ofExcept (fun monitor _ => ?_) (fun _ _ => .inr performed)
  simp only [post_modify]
  refine post_ofExcept (fun monitor' _ => ?_) (fun _ _ => .inr (performed.counted _))
  exact post_fileTableSize (fun _ => performed.counted _) (fun _ => .inr (performed.counted _))

/-! ## Locks -/

theorem mustWait_iff (inode : Inode) (pid : Pid) :
    mustWait inode pid = true ↔ (FileView.of inode).MustWait pid := by
  simp only [mustWait, Inode.hasRefs, Inode.hasOtherPidRefs, FileView.MustWait, FileView.of]
  by_cases member : pid ∈ inode.referenceList <;> simp [member]

theorem Performs.changed {inode changed : Inode} {action : Action codec} {g : FileView → FileView}
    (present : fs.file name = some inode) (agrees : FileView.of changed = g (FileView.of inode))
    (enabled : fs.view.Enabled action) (acts : fs.view.apply action = fs.view.changeFile name g) :
    fs.Performs [action] (fs.updateFile name fun _ => changed) := by
  refine .single enabled ?_
  rw [acts]
  refine view_updateFile fun other found => ?_
  obtain rfl : inode = other := Option.some.inj (present.symm.trans found)
  exact agrees

theorem grantLock_performs {inode : Inode} {pid : Pid} (present : fs.file name = some inode)
    (ready : mustWait inode pid = false) (now : Int) :
    (grantLock name pid now fs).Post
      (fun _ fs' => fs.Performs [.grant name pid, .settle name] fs')
      (fun _ fs' => fs.Performs [] fs' ∨ fs.Performs [.grant name pid] fs')
      (fun _ => False) := by
  have notWaiting : ¬ (FileView.of inode).MustWait pid := by
    rw [← mustWait_iff, ready]
    simp
  simp only [grantLock, post_bind]
  refine post_changeFile present (fun locked lock => ?_) (fun _ _ => .inl .nil)
  -- taking the lock a second time changes nothing
  obtain ⟨free, taken⟩ : (inode.locked = 0 ∨ inode.locked = pid) ∧
      FileView.of locked = { FileView.of inode with locked := pid } := by
    unfold Inode.fileLock at lock
    split at lock
    · rename_i own
      cases lock
      exact ⟨.inr own, by simp [FileView.of, own]⟩
    · split at lock
      · cases lock
      · rename_i unlocked
        cases lock
        exact ⟨.inl (not_not.mp unlocked), rfl⟩
  have first : fs.Performs [.grant name pid] (fs.updateFile name fun _ => locked) :=
    .changed present taken ⟨_, view_file present, free, notWaiting⟩ rfl
  have present' : (fs.updateFile name fun _ => locked).file name = some { locked with name } := by
    simp [present]
  refine post_changeFile present' (fun settled settle => ?_) (fun _ _ => .inr first)
  unfold Inode.decreasePendingLocks at settle
  split at settle
  · cases settle
  · rename_i pending
    cases settle
    exact first.trans (.changed present'
      (g := fun f => { f with pendingLocks := f.pendingLocks - 1 }) rfl
      ⟨_, view_file present', pending⟩ rfl)

theorem post_rtsGetInode {R : Inode → FileSystem codec → Prop}
    (found : ∀ inode, name ≠ [] → fs.file name = some inode → R inode fs)
    (failed : ∀ e, E e fs) : (rtsGetInode name fs).Post R E F := by
  simp only [rtsGetInode, post_bind, post_failIf, post_get, post_orFail]
  exact ⟨fun _ => failed _, fun nonempty => ⟨fun _ => failed _, fun inode => found inode nonempty⟩⟩

theorem file_nil (fs : FileSystem codec) : fs.file [] = none := rfl

def Requested (name : Filename) (pid : Pid) (acts : List (Action codec)) : Prop :=
  acts = [] ∨ acts = [.request name] ∨ acts = [.request name, .grant name pid] ∨
    acts = [.request name, .grant name pid, .settle name]

theorem rtsLockInode_performs (fs : FileSystem codec) (name : Filename) (pid : Pid)
    (call : WaitingCall) (now : Int) :
    (rtsLockInode name pid call now fs).Post
      (fun progress fs' => match progress with
        | .done _ => fs.Performs [.request name, .grant name pid, .settle name] fs'
        | .waiting => ∃ generation,
            fs.Performs [.request name, .block { pid, name, generation, call }] fs')
      (fun _ fs' => ∃ acts, Requested name pid acts ∧ fs.Performs acts fs')
      (fun _ => False) := by
  have nothing : ∃ acts, Requested name pid acts ∧ fs.Performs acts fs := ⟨[], .inl rfl, .nil⟩
  simp only [rtsLockInode, post_bind]
  refine post_rtsGetInode (fun inode nonempty present => ?_) (fun _ => nothing)
  simp only [post_failIf]
  refine ⟨fun _ => nothing, fun free => ?_⟩
  have noPending : inode.pendingLocks = 0 := by simpa [Inode.hasPendingLocks] using free
  have first : fs.Performs [.request name]
      (fs.updateFile name fun _ => inode.increasePendingLocks now) :=
    .changed present (g := fun f => { f with pendingLocks := f.pendingLocks + 1 }) rfl
      ⟨_, view_file present, noPending⟩ rfl
  have partly : ∃ acts, Requested name pid acts ∧ fs.Performs acts
      (fs.updateFile name fun _ => inode.increasePendingLocks now) :=
    ⟨_, .inr (.inl rfl), first⟩
  refine post_changeFile present (fun changed increase => ?_) (fun _ failed => by cases failed)
  obtain rfl := Except.ok.inj increase
  refine ⟨fun _ => partly, fun _ => ⟨fun _ => partly, fun _ => ?_⟩⟩
  have present' : (fs.updateFile name fun _ => inode.increasePendingLocks now).file name =
      some { inode.increasePendingLocks now with name } := by simp [present]
  by_cases wait : mustWait inode pid
  · rw [if_pos wait]
    simp only [post_bind, post_modify, post_pure]
    refine ⟨inode.generation, first.trans (.single ⟨_, view_file present', rfl, ?_⟩ rfl)⟩
    exact (mustWait_iff inode pid).mp wait
  · rw [if_neg wait, post_bind]
    have ready : mustWait { inode.increasePendingLocks now with name } pid = false :=
      Bool.eq_false_iff.mpr wait
    refine (grantLock_performs present' ready now).mono
      (fun _ fs' performed => first.trans performed) (fun _ fs' performed => ?_) (fun _ h => h)
    rcases performed with performed | performed
    · exact ⟨_, .inr (.inl rfl), by simpa using first.trans performed⟩
    · exact ⟨_, .inr (.inr (.inl rfl)), first.trans performed⟩

theorem locked_of_settled {v : View codec} {pid : Pid}
    (trace : (viewSystem codec).Trace v [.grant name pid, .settle name] fs.view) :
    ∃ inode, fs.file name = some inode ∧ inode.locked = pid := by
  have locked : ∃ f, fs.view.file name = some f ∧ f.locked = pid := by
    generalize fs.view = w at trace ⊢
    obtain _ | ⟨⟨f, found, -⟩, _ | ⟨-, _ | -⟩⟩ := trace
    simp [viewSystem, View.apply, View.changeFile, found]
  simp only [view, Option.map_eq_some_iff] at locked
  obtain ⟨_, ⟨inode, present, rfl⟩, own⟩ := locked
  exact ⟨inode, present, own⟩

/-! ## Descriptors -/

theorem openDescriptor_performs {inode : Inode} {pid : Pid} (present : fs.file name = some inode)
    (access : ¬ (0 < asInt inode.locked ∧ inode.locked ≠ pid)) (now : Int) :
    (openDescriptor name pid now fs).Post
      (fun fd fs' => fs.Performs [.attach fd name pid] fs')
      (fun _ fs' => fs.Performs [] fs')
      (fun _ => False) := by
  simp only [openDescriptor, post_bind, post_get, present, post_orFail, reduceCtorEq, false_implies,
    Option.some.injEq, forall_eq', true_and]
  refine post_ofExcept (fun added put => ?_) (fun _ _ => .nil)
  obtain ⟨fd, table⟩ := added
  obtain ⟨free, limit, slots⟩ := FileDescriptorTable.put_spec put
  have limited := limit.trans fs.fileDescriptorTable.2
  simp only [post_modify, dif_pos limited]
  refine post_changeFile (show _ = some inode from present) (fun changed increase => ?_)
    (fun _ failed => by cases failed)
  obtain rfl := Except.ok.inj increase
  have inside : fd < maxOpenFiles := by
    have live : table.slot fd = some { owner := pid, inode := inode.copy now } := by
      rw [slots, if_pos rfl]
    have small := FileDescriptorTable.slot_inside live
    have bounded := table.bounded
    omega
  refine .single ⟨by simp [view, slot, free], inside, _, view_file present, access⟩ ?_
  have named : inode.name = name := fs.fileTable.named name inode present
  refine View.ext ?_ ?_ rfl rfl rfl
  · have changed : (fs.updateFile name fun _ => inode.increaseRefs pid now).view =
        fs.view.changeFile name fun f => { f with
          referenceList := pid :: f.referenceList, referenceCount := f.referenceCount + 1 } :=
      view_updateFile fun other found => by
        obtain rfl : inode = other := Option.some.inj (present.symm.trans found)
        rfl
    have files := congrArg View.file changed
    exact files
  · funext other
    have viewed := view_file present
    simp only [View.apply, viewed, Option.map_some]
    have stored : table.slot other = _ := slots other
    by_cases same : other = fd
    · subst same
      simp [view, slot, updateFile, stored, SlotView.of, Inode.copy, FileView.of, named]
    · simp [view, slot, updateFile, stored, same]

end FileSystem

end FileStorage
