import FileStorage.Simfs.Evictions
import FileStorage.Simfs.Outcomes

/-! # The times of the files

A run with a clock. A read stamps the original inode, but the flush behind it puts the
access and modification times of the descriptor's copy over those of the file; the
access time of a copy is the one the file had when the descriptor was opened. Where
the flushes only put times that are not older, no time of a file goes back.
-/

namespace FileStorage

open Program FileSystem

variable {codec : Codec}

/-- The file system at some second of the clock. -/
structure Moment (codec : Codec) where
  clock : Nat
  fileSystem : FileSystem codec

def Event.At (event : Event) (clock : Nat) : Prop := ∀ now ∈ event.time, now = clock

instance (event : Event) (clock : Nat) : Decidable (event.At clock) :=
  inferInstanceAs (Decidable (∀ now ∈ event.time, now = clock))

/-- A step of a run with a clock that does not go back. -/
def Tick (guard : FileSystem codec → Event → Prop) (m m' : Moment codec) : Prop :=
  m.clock ≤ m'.clock ∧ ∃ event : Event, event.At m'.clock ∧ event.Possible m.fileSystem ∧
    guard m.fileSystem event ∧ (event.call m.fileSystem).state? = some m'.fileSystem

/-- The moments of the runs with a clock whose steps all meet the guard. -/
def Clocked (guard : FileSystem codec → Event → Prop) (m : Moment codec) : Prop :=
  ∃ start memoryLimit filesLimit policy,
    Relation.ReflTransGen (Tick guard) ⟨start, .init memoryLimit filesLimit policy⟩ m

/-- Run a list of steps, each at its second, if each of them can happen then. -/
def ticks (guard : FileSystem codec → Event → Prop) [∀ fs event, Decidable (guard fs event)] :
    List (Nat × Event) → Moment codec → Option (Moment codec)
  | [], m => some m
  | (clock, event) :: events, m =>
      if m.clock ≤ clock ∧ event.At clock ∧ event.Possible m.fileSystem ∧
          guard m.fileSystem event then
        (event.call m.fileSystem).state?.bind fun fileSystem =>
          ticks guard events { clock, fileSystem }
      else none

variable {guard : FileSystem codec → Event → Prop} {m m' : Moment codec}

theorem ticks_steps [∀ fs event, Decidable (guard fs event)] {events : List (Nat × Event)}
    (ran : ticks guard events m = some m') : Relation.ReflTransGen (Tick guard) m m' := by
  induction events generalizing m with
  | nil =>
      obtain rfl := Option.some.inj ran
      exact .refl
  | cons step events ih =>
      obtain ⟨clock, event⟩ := step
      rw [ticks] at ran
      split at ran
      · rename_i allowed
        obtain ⟨later, timed, possible, guarded⟩ := allowed
        obtain ⟨fs, result, rest⟩ := Option.bind_eq_some_iff.mp ran
        exact .head ⟨later, event, timed, possible, guarded, result⟩ (ih rest)
      · cases ran

structure Inode.NotEarlier (old inode : Inode) : Prop where
  atime : old.atime ≤ inode.atime
  mtime : old.mtime ≤ inode.mtime
  ctime : old.ctime ≤ inode.ctime

theorem Inode.NotEarlier.refl (inode : Inode) : inode.NotEarlier inode :=
  ⟨le_refl _, le_refl _, le_refl _⟩

theorem Inode.NotEarlier.trans {old inode later : Inode} (first : old.NotEarlier inode)
    (second : inode.NotEarlier later) : old.NotEarlier later :=
  ⟨first.atime.trans second.atime, first.mtime.trans second.mtime, first.ctime.trans second.ctime⟩

structure Inode.Past (now : Int) (inode : Inode) : Prop where
  atime : inode.atime ≤ now
  mtime : inode.mtime ≤ now
  ctime : inode.ctime ≤ now

namespace FileSystem

/-! ## Flushes that put no older times -/

def Legible (fs : FileSystem codec) (inode : Inode) : Prop :=
  ∃ old ∈ Memory.at? fs.memory inode.directPtr, codec.decode old ≠ []

def Flushable (fs : FileSystem codec) (copy : Inode) : Prop :=
  copy.buffer = [] ∨
    ∀ content ∈ Memory.appended fs.memory copy.directPtr copy.buffer, content.length < 2 ^ 31

/-- A read that comes to its flush does so through a copy that remembers the present
    second as the access time and no modification older than the file's, a write
    through one that remembers no access older than the file's. -/
def UpToDate (fs : FileSystem codec) : Event → Prop
  | .read fd pid now => ∀ copy, fs.slot (toUnsigned32 fd) = some { owner := pid, inode := copy } →
      ∀ inode ∈ fs.file copy.name, ¬ ShutOut copy pid → Legible fs inode → Flushable fs copy →
        copy.atime = now ∧ (copy.buffer = [] → inode.mtime ≤ copy.mtime)
  | .write fd buf pid now => ∀ gs ∈ fs.roomFor buf now, ∀ bytes ∈ buf, ∀ copy,
      gs.slot (toUnsigned32 fd) = some { owner := pid, inode := copy } →
        ∀ inode ∈ gs.file copy.name, ¬ ShutOut copy pid →
          Flushable gs (copy.appended bytes now) → inode.atime ≤ copy.atime
  | _ => True

instance (fs : FileSystem codec) (inode : Inode) : Decidable (Legible fs inode) := by
  unfold Legible
  infer_instance

instance (fs : FileSystem codec) (copy : Inode) : Decidable (Flushable fs copy) := by
  unfold Flushable
  infer_instance

instance (fs : FileSystem codec) : (event : Event) → Decidable (UpToDate fs event)
  | .read fd pid now => decidableOfSlot fs (toUnsigned32 fd) pid fun copy =>
      ∀ inode ∈ fs.file copy.name, ¬ ShutOut copy pid → Legible fs inode → Flushable fs copy →
        copy.atime = now ∧ (copy.buffer = [] → inode.mtime ≤ copy.mtime)
  | .write fd buf pid now =>
      haveI (gs : FileSystem codec) (bytes : List UInt8) :
          Decidable (∀ copy, gs.slot (toUnsigned32 fd) = some { owner := pid, inode := copy } →
            ∀ inode ∈ gs.file copy.name, ¬ ShutOut copy pid →
              Flushable gs (copy.appended bytes now) → inode.atime ≤ copy.atime) :=
        decidableOfSlot gs (toUnsigned32 fd) pid _
      inferInstanceAs (Decidable (∀ gs ∈ fs.roomFor buf now, ∀ bytes ∈ buf, _))
  | .open .. | .close .. | .remove .. | .lock .. | .unlock .. | .removeSession .. | .wake .. =>
      inferInstanceAs (Decidable True)

theorem Flushes.flushable {fs fs' : FileSystem codec} {fd : Nat} {copy : Inode} {now : Int}
    (flushes : Flushes fs fd copy now fs') : Flushable fs copy := by
  cases flushes with
  | empty empty => exact .inl empty
  | full _ appended small _ =>
      refine .inr fun content found => ?_
      obtain rfl := Option.some.inj (appended.symm.trans found)
      exact small

theorem appended_reread {memory : Memory codec} {ptr freed : DirectPtr} {new : codec.Artifact}
    {buffer content content' : List UInt8} (before : Memory.appended memory ptr buffer = some content)
    (after : Memory.appended (Memory.free memory freed ++ [some new]) ptr buffer = some content') :
    content' = content := by
  cases ptr with
  | null => exact (Option.some.inj after).symm.trans (Option.some.inj before)
  | bytes raw => cases before
  | artifact id =>
      obtain ⟨old, found, rfl⟩ := Option.map_eq_some_iff.mp before
      obtain ⟨old', found', rfl⟩ := Option.map_eq_some_iff.mp after
      have inside : ∀ other, DirectPtr.artifact id = .artifact other →
          other < (Memory.free memory freed).length := by
        rintro _ ⟨⟩
        rw [Memory.length_free]
        by_contra outside
        rw [Memory.at?, List.getD_eq_getElem?_getD,
          List.getElem?_eq_none (not_lt.mp outside)] at found
        cases found
      rw [Memory.at?_append inside] at found'
      rw [Option.some.inj (found.symm.trans (Memory.at?_of_free found'))]

theorem Reads.flushable {fs fs₁ fs' : FileSystem codec} {fd : Nat} {inode copy : Inode} {now : Int}
    (reads : Reads fs inode now true fs₁) (flushes : Flushes fs₁ fd copy now fs') :
    Flushable fs copy := by
  cases reads with
  | reread =>
      cases flushes with
      | empty empty => exact .inl empty
      | full _ after small _ =>
          exact .inr fun content before => appended_reread before after ▸ small

theorem Reads.stamps {fs fs₁ : FileSystem codec} {inode : Inode} {name : Filename} {now : Int}
    (reads : Reads fs inode now true fs₁) (present : fs.file name = some inode) :
    Legible fs inode ∧ (∀ fd, fs₁.slot fd = fs.slot fd) ∧
      ∃ inode₁, fs₁.file name = some inode₁ ∧ inode₁.atime = now ∧
        inode₁.mtime = inode.mtime := by
  obtain rfl : inode.name = name := fs.fileTable.named name inode present
  cases reads with
  | @reread old new found some_ encodes =>
      exact ⟨⟨old, found, some_⟩, fun _ => rfl, _, file_reread present new now, rfl, rfl⟩

/-! ## The invariant -/

/-- What the steps since `origin` have done to the times: no file is dated after `now`,
    and a file that was there at first has not become older. -/
structure Ages (origin : FileSystem codec) (now : Int) (fs : FileSystem codec) : Prop where
  created : origin.created ≤ fs.created
  numbered : ∀ name inode, fs.file name = some inode → inode.generation < fs.created
  past : ∀ name inode, fs.file name = some inode → inode.Past now
  kept : ∀ name inode, fs.file name = some inode → origin.created ≤ inode.generation ∨
    ∃ old, origin.file name = some old ∧ old.generation = inode.generation ∧ old.NotEarlier inode
  copies : ∀ fd entry, fs.slot fd = some entry →
    entry.inode.atime ≤ now ∧ entry.inode.mtime ≤ now

namespace Ages

variable {origin fs fs' : FileSystem codec} {now later : Int} {name : Filename}
  {inode copy : Inode} {fd : Nat} {pid : Pid}

theorem refl (ages : Ages origin now fs) : Ages fs now fs where
  created := le_refl _
  numbered := ages.numbered
  past := ages.past
  kept _ inode present := .inr ⟨inode, present, rfl, .refl inode⟩
  copies := ages.copies

theorem mono (ages : Ages origin now fs) (after : now ≤ later) : Ages origin later fs where
  created := ages.created
  numbered := ages.numbered
  past name inode present := by
    obtain ⟨atime, mtime, ctime⟩ := ages.past name inode present
    exact ⟨atime.trans after, mtime.trans after, ctime.trans after⟩
  kept := ages.kept
  copies fd entry live := by
    obtain ⟨atime, mtime⟩ := ages.copies fd entry live
    exact ⟨atime.trans after, mtime.trans after⟩

theorem init (memoryLimit filesLimit : UInt32) (policy : ReplacementPolicy) (now : Int) :
    Ages (.init memoryLimit filesLimit policy : FileSystem codec) now
      (.init memoryLimit filesLimit policy) := by
  have nothing (name : Filename) :
      (FileSystem.init memoryLimit filesLimit policy : FileSystem codec).file name = none := by
    cases name <;> rfl
  constructor
  · exact le_refl _
  · intro name inode present
    cases (nothing name).symm.trans present
  · intro name inode present
    cases (nothing name).symm.trans present
  · intro name inode present
    cases (nothing name).symm.trans present
  · intro fd entry live
    cases live

theorem of_files (ages : Ages origin now fs) (created : fs'.created = fs.created)
    (files : ∀ name inode', fs'.file name = some inode' → ∃ inode, fs.file name = some inode ∧
      inode'.generation = inode.generation ∧ inode.NotEarlier inode' ∧ inode'.Past now)
    (copies : ∀ fd entry, fs'.slot fd = some entry →
      entry.inode.atime ≤ now ∧ entry.inode.mtime ≤ now) : Ages origin now fs' where
  created := created ▸ ages.created
  numbered := by
    intro name inode' present'
    obtain ⟨inode, present, same, -⟩ := files name inode' present'
    rw [same, created]
    exact ages.numbered name inode present
  past name inode' present' := (files name inode' present').choose_spec.2.2.2
  kept := by
    intro name inode' present'
    obtain ⟨inode, present, same, onward, -⟩ := files name inode' present'
    rw [same]
    refine (ages.kept name inode present).imp_right ?_
    rintro ⟨old, found, number, before⟩
    exact ⟨old, found, number, before.trans onward⟩
  copies := copies

theorem of_file (ages : Ages origin now fs) (changed : Inode) (present : fs.file name = some inode)
    (created : fs'.created = fs.created)
    (files : ∀ other, fs'.file other = if other = name then some changed else fs.file other)
    (same : changed.generation = inode.generation) (onward : inode.NotEarlier changed)
    (past : changed.Past now) (copies : ∀ fd entry, fs'.slot fd = some entry →
      entry.inode.atime ≤ now ∧ entry.inode.mtime ≤ now) : Ages origin now fs' := by
  refine ages.of_files created (fun other inode' present' => ?_) copies
  rw [files] at present'
  split at present'
  · rename_i this
    cases present'
    exact ⟨inode, this ▸ present, same, onward, past⟩
  · exact ⟨inode', present', rfl, .refl inode', ages.past other inode' present'⟩

theorem withstands (origin : FileSystem codec) (now : Int) :
    Withstands now (Ages origin now) where
  inode := by
    intro fs name inode changed ages present managed
    obtain ⟨atime, mtime, ctime⟩ := ages.past name inode present
    obtain ⟨access, modification⟩ := managed.times
    refine ages.of_file { changed with name } present rfl (fun other => ?_)
      (congrArg Charge.generation managed.charge) ?_ ?_ ages.copies
    · rw [file_updateFile, present, Option.map_some]
    · refine ⟨access.ge, modification.ge, ?_⟩
      rcases managed.ctime with same | is
      · exact same.ge
      · exact ctime.trans is.ge
    · refine ⟨access.le.trans atime, modification.le.trans mtime, ?_⟩
      rcases managed.ctime with same | is
      · exact same.le.trans ctime
      · exact is.le
  descriptors := by
    intro fs table ages draws
    refine ages.of_files rfl (fun name inode present => ?_) fun fd entry live => ?_
    · exact ⟨inode, present, rfl, .refl inode, ages.past name inode present⟩
    · rcases draws fd entry live with old | ⟨name, inode, present, is⟩
      · exact ages.copies fd entry old
      · rw [is]
        exact ⟨(ages.past name inode present).atime, (ages.past name inode present).mtime⟩
  blocked ages := ages.of_files rfl
    (fun name inode present => ⟨inode, present, rfl, .refl inode, ages.past name inode present⟩)
    ages.copies

/-- A file is read; `access` says that its access time may become the present one. -/
theorem reads (ages : Ages origin now fs) (present : fs.file inode.name = some inode) {done : Bool}
    (reads : Reads fs inode now done fs') : Ages origin now fs' := by
  obtain ⟨atime, mtime, ctime⟩ := ages.past inode.name inode present
  have stamped : inode.NotEarlier { inode with atime := now, ctime := now } ∧
      Inode.Past now { inode with atime := now, ctime := now } :=
    ⟨⟨atime, le_refl _, ctime⟩, ⟨le_refl _, mtime, le_refl _⟩⟩
  have written : ∀ s : InodeState codec, s.inode.generation = inode.generation →
      inode.NotEarlier s.inode → s.inode.Past now → Ages origin now (fs.putFile inode.name s) := by
    intro s same onward past
    refine ages.of_file { s.inode with name := inode.name } present rfl (fun other => ?_) same
      ⟨onward.atime, onward.mtime, onward.ctime⟩ ⟨past.atime, past.mtime, past.ctime⟩ ages.copies
    rw [file_putFile, present, Option.map_some]
  cases reads with
  | null => exact written _ rfl (.refl inode) ⟨atime, mtime, ctime⟩
  | spoiled | reread =>
      exact written _ rfl ⟨atime, le_refl _, ctime⟩ ⟨le_refl _, mtime, le_refl _⟩

theorem removes (ages : Ages origin now fs) (present : fs.file inode.name = some inode)
    {done : Bool} (removes : Removes fs inode done fs') : Ages origin now fs' := by
  refine ages.of_files removes.same.1 (fun name inode' present' => ?_) fun fd entry live => ?_
  · rw [removes.file present] at present'
    split at present'
    · cases present'
    · exact ⟨inode', present', rfl, .refl inode', ages.past name inode' present'⟩
  · rw [removes.same.2] at live
    exact ages.copies fd entry live

theorem slot (ages : Ages origin now fs) (files : ∀ name, fs'.file name = fs.file name)
    (created : fs'.created = fs.created) (slots : ∀ other, fs'.slot other =
      if other = fd then (fs.slot fd).map fun entry => { entry with inode := copy }
      else fs.slot other)
    (past : copy.atime ≤ now ∧ copy.mtime ≤ now) : Ages origin now fs' := by
  refine ages.of_files created (fun name inode present => ?_) fun other entry live => ?_
  · rw [files] at present
    exact ⟨inode, present, rfl, .refl inode, ages.past name inode present⟩
  · rw [slots] at live
    split at live
    · obtain ⟨old, -, rfl⟩ := Option.map_eq_some_iff.mp live
      exact past
    · exact ages.copies other entry live

theorem tears (ages : Ages origin now fs) (live : fs.slot fd = some { owner := pid, inode := copy })
    (tears : Tears fs fd copy fs') : Ages origin now fs' := by
  have past := ages.copies fd _ live
  cases tears with
  | null =>
      refine ages.slot ?_ rfl (slot_putSlot fs fd _) past
      exact fun _ => rfl
  | live =>
      refine ages.slot ?_ rfl (slot_putSlot fs fd _) ?_
      · exact fun _ => rfl
      · exact past

theorem recorded (ages : Ages origin now fs) (present : fs.file copy.name = some inode)
    (past : copy.atime ≤ now ∧ copy.mtime ≤ now) (access : inode.atime ≤ copy.atime)
    (modification : inode.mtime ≤ copy.mtime) (bytesAdded : Nat) :
    Ages origin now (fs.recorded copy bytesAdded now) := by
  refine ages.of_file { inode with
    name := copy.name, atime := copy.atime, mtime := copy.mtime, ctime := now } present rfl
    (fun other => ?_) rfl ⟨access, modification, (ages.past _ inode present).ctime⟩
    ⟨past.1, past.2, le_refl _⟩ ages.copies
  rw [file_recorded, present, Option.map_some]

theorem flushes (ages : Ages origin now fs) (live : fs.slot fd = some { owner := pid, inode := copy })
    (present : fs.file copy.name = some inode) (access : inode.atime ≤ copy.atime)
    (modification : copy.buffer = [] → inode.mtime ≤ copy.mtime)
    (flushes : Flushes fs fd copy now fs') : Ages origin now fs' := by
  have past := ages.copies fd _ live
  cases flushes with
  | empty empty => exact ages.recorded present past access (modification empty) 0
  | @full content new buffered appended small encodes =>
      obtain ⟨added, files⟩ := file_flushed fs fd copy new now
      refine ages.of_file { inode with
        name := copy.name, directPtr := .artifact fs.memory.length
        size := toUnsigned32 (inode.size + added)
        atime := copy.atime, mtime := now, ctime := now } present rfl (fun other => ?_) rfl
        ⟨access, (ages.past _ inode present).mtime, (ages.past _ inode present).ctime⟩
        ⟨past.1, le_refl _, le_refl _⟩ fun other entry found => ?_
      · rw [files, present, Option.map_some]
      · rw [slots_flushed] at found
        split at found
        · rw [live] at found
          cases found
          exact ⟨past.1, le_refl _⟩
        · exact ages.copies other entry found

theorem evict (s : WriteState codec) (ages : Ages origin now s.fileSystem) :
    (WriteState.rtsEvict now s).Post (fun _ s' => Ages origin now s'.fileSystem)
      (fun _ s' => Ages origin now s'.fileSystem) (fun _ => True) := by
  refine WriteState.keeps_rtsEvict (fun fs ages => ?_) ?_ ?_ s ages
  · exact ages.of_files rfl
      (fun name inode present => ⟨inode, present, rfl, .refl inode, ages.past name inode present⟩)
      ages.copies
  · exact fun _ _ _ _ ages present reads => ages.reads present reads
  · exact fun _ _ _ _ ages present removes => ages.removes present removes

theorem rtsCreateInode (origin : FileSystem codec) (name : Filename) (clock : Nat) :
    Keeps (Ages origin clock) (rtsCreateInode name clock : Call codec Unit) := by
  refine keeps_rtsCreateInode (fun fs table ages created => ?_) fun fs ages => ?_
  · have added : ∀ other, table.get other = if other = name then
        some (Inode.init name fs.created clock) else fs.file other := FileTable.create_spec created
    have stored : ∀ other inode, table.get other = some inode →
        inode = .init name fs.created clock ∨ fs.file other = some inode := by
      intro other inode present
      rw [added] at present
      split at present
      · exact .inl (Option.some.inj present).symm
      · exact .inr present
    refine ⟨ages.created.trans (Nat.le_succ _), ?_, ?_, ?_, ages.copies⟩
    · intro other inode present
      rcases stored other inode present with rfl | old
      · exact Nat.lt_succ_self _
      · exact (ages.numbered other inode old).trans (Nat.lt_succ_self _)
    · intro other inode present
      rcases stored other inode present with rfl | old
      · exact ⟨Int.natCast_nonneg clock, Int.natCast_nonneg clock, le_refl _⟩
      · exact ages.past other inode old
    · intro other inode present
      rcases stored other inode present with rfl | old
      · exact .inl ages.created
      · exact ages.kept other inode old
  · exact ages.of_files rfl
      (fun name inode present => ⟨inode, present, rfl, .refl inode, ages.past name inode present⟩)
      ages.copies

theorem writeDescriptor (ages : Ages origin now fs) {fd : Int} {bytes : List UInt8}
    (upToDate : ∀ copy, fs.slot (toUnsigned32 fd) = some { owner := pid, inode := copy } →
      ∀ inode ∈ fs.file copy.name, ¬ ShutOut copy pid →
        Flushable fs (copy.appended bytes now) → inode.atime ≤ copy.atime) :
    (writeDescriptor fd (some bytes) pid now fs).Post (fun _ => Ages origin now)
      (fun _ => Ages origin now) (fun _ => True) := by
  have buffered : ∀ copy, fs.slot (toUnsigned32 fd) = some { owner := pid, inode := copy } →
      Ages origin now (fs.updateSlot (toUnsigned32 fd) fun _ => copy.appended bytes now) := by
    intro copy live
    have slots := slot_updateSlot fs (toUnsigned32 fd) fun _ => copy.appended bytes now
    exact ages.slot (fun _ => rfl) rfl slots (ages.copies _ _ live)
  have live' : ∀ copy, fs.slot (toUnsigned32 fd) = some { owner := pid, inode := copy } →
      (fs.updateSlot (toUnsigned32 fd) fun _ => copy.appended bytes now).slot (toUnsigned32 fd) =
        some { owner := pid, inode := copy.appended bytes now } := by
    intro copy live
    rw [slot_updateSlot, if_pos rfl, live, Option.map_some]
  have flush : ∀ (copy : Inode) fs', fs.slot (toUnsigned32 fd) = some ⟨pid, copy⟩ →
      ¬ ShutOut copy pid → fs.file copy.name ≠ none → bytes ≠ [] →
      Flushes (fs.updateSlot (toUnsigned32 fd) fun _ => copy.appended bytes now) (toUnsigned32 fd)
        (copy.appended bytes now) now fs' → Ages origin now fs' := by
    intro copy fs' live allowed stored some_ flushes
    obtain ⟨inode, present⟩ := Option.ne_none_iff_exists'.mp stored
    refine (buffered copy live).flushes (live' copy live) present
      (upToDate copy live inode present allowed flushes.flushable) (fun empty => ?_) flushes
    exact absurd (List.append_eq_nil_iff.mp empty).2 some_
  refine (writeDescriptor_flushes fs fd bytes pid now).mono ?_ ?_ (fun _ _ => trivial)
  · rintro - fs' ⟨copy, live, allowed, some_, stored, flushes, -⟩
    exact flush copy fs' live allowed stored some_ flushes
  · rintro - fs' (rfl | ⟨copy, live, allowed, some_, ⟨-, rfl⟩ | ⟨stored, ⟨flushes, -⟩ | torn⟩⟩)
    · exact ages
    · exact buffered copy live
    · exact flush copy fs' live allowed stored some_ flushes
    · exact (buffered copy live).tears (live' copy live) torn

/-- A read stamps the file, and the flush behind it must not take the stamp back. -/
theorem fileSystemRead (ages : Ages origin now fs) {fd : Int}
    (upToDate : UpToDate fs (.read fd pid now)) :
    (fileSystemRead fd pid now fs).Post (fun _ => Ages origin now) (fun _ => Ages origin now)
      (fun _ => True) := by
  have read : ∀ (copy : Inode) inode fs₁ done, fs.file copy.name = some inode →
      Reads fs inode now done fs₁ → Ages origin now fs₁ := by
    intro copy inode fs₁ done present reads
    rw [← fs.fileTable.named copy.name inode present] at present
    exact ages.reads present reads
  have flush : ∀ (copy : Inode) inode fs₁ fs', fs.slot (toUnsigned32 fd) = some ⟨pid, copy⟩ →
      ¬ ShutOut copy pid → fs.file copy.name = some inode → Reads fs inode now true fs₁ →
      Flushes fs₁ (toUnsigned32 fd) copy now fs' → Ages origin now fs' := by
    intro copy inode fs₁ fs' live allowed present reads flushes
    obtain ⟨legible, slots, inode₁, present₁, atime, mtime⟩ := reads.stamps present
    obtain ⟨access, modification⟩ :=
      upToDate copy live inode present allowed legible (reads.flushable flushes)
    refine (read copy inode fs₁ true present reads).flushes ((slots _).trans live) present₁ ?_ ?_
      flushes
    · rw [atime, access]
    · rw [mtime]
      exact modification
  refine (fileSystemRead_reads fs fd pid now).mono ?_ ?_ (fun _ _ => trivial)
  · rintro - fs' ⟨copy, inode, fs₁, live, allowed, present, reads, flushes, -⟩
    exact flush copy inode fs₁ fs' live allowed present reads flushes
  · rintro - fs' (⟨-, rfl⟩ | ⟨copy, inode, live, allowed, present, reads | ⟨fs₁, reads, fails⟩⟩)
    · exact ages
    · exact read copy inode fs' false present reads
    · rcases fails with ⟨flushes, -⟩ | ⟨-, torn⟩
      · exact flush copy inode fs₁ fs' live allowed present reads flushes
      · have live₁ := ((reads.stamps present).2.1 _).trans live
        exact (read copy inode fs₁ true present reads).tears live₁ torn

theorem step {clock : Nat} (ages : Ages origin clock fs) {event : Event} (timed : event.At clock)
    (upToDate : UpToDate fs event) (result : (event.call fs).state? = some fs') :
    Ages origin clock fs' := by
  have returned (post : (event.call fs).Post (fun _ => Ages origin clock)
      (fun _ => Ages origin clock) (fun _ => True)) : Ages origin clock fs' := post.of_state result
  cases event with
  | «open» name flags pid now =>
      obtain rfl : now = clock := timed now rfl
      exact returned (Event.post_of_actions (by rintro (_ | _) <;> exact ⟨_, rfl⟩)
        ((withstands origin clock).fileSystemOpen (rtsCreateInode origin name clock) flags pid fs ages))
  | write fd buf pid now =>
      obtain rfl : now = clock := timed now rfl
      refine returned (write_call (G := fun _ => True) (fun s ages _ => evict s ages)
        (fun _ _ => trivial) ages (fun _ ages => ages) ?_)
      rintro gs bytes rfl room ages
      exact ages.writeDescriptor (upToDate gs room bytes rfl)
  | read fd pid now =>
      obtain rfl : now = clock := timed now rfl
      exact returned (Event.post_of_actions (fun _ => ⟨_, rfl⟩) (ages.fileSystemRead upToDate))
  | remove name pid =>
      refine returned (Event.post_of_actions (fun _ => ⟨_, rfl⟩) ?_)
      have gone : ∀ inode done fs', fs.file name = some inode → Removes fs inode done fs' →
          Ages origin clock fs' := by
        intro inode done fs' present removes
        rw [← fs.fileTable.named name inode present] at present
        exact ages.removes present removes
      refine (fileSystemRemove_removes fs name pid).mono ?_ ?_ (fun _ _ => trivial)
      · rintro - fs' ⟨inode, present, -, removes⟩
        exact gone inode true fs' present removes
      · rintro - fs' (⟨-, rfl⟩ | ⟨inode, present, -, -, removes⟩)
        · exact ages
        · exact gone inode false fs' present removes
  | close | lock | unlock | removeSession | wake =>
      have is := timed _ rfl
      subst is
      exact Event.withstands_call (withstands origin clock) rfl rfl ages result

end Ages

/-! ## What a step stamps -/

theorem Flushes.times {fs fs' : FileSystem codec} {fd : Nat} {copy inode : Inode} {now : Int}
    (flushes : Flushes fs fd copy now fs') (present : fs.file copy.name = some inode) :
    ∃ inode', fs'.file copy.name = some inode' ∧ inode'.atime = copy.atime ∧
      (copy.buffer ≠ [] → inode'.mtime = now) := by
  cases flushes with
  | empty empty =>
      have after := file_recorded fs copy 0 now copy.name
      rw [if_pos rfl, present, Option.map_some] at after
      exact ⟨_, after, rfl, absurd empty⟩
  | @full content new _ _ _ _ =>
      obtain ⟨added, files⟩ := file_flushed fs fd copy new now
      have after := files copy.name
      rw [if_pos rfl, present, Option.map_some] at after
      exact ⟨_, after, rfl, fun _ => rfl⟩

/-- A read leaves its time as the access time of the file, a write its time as the
    modification time. -/
def Stamps (fs fs' : FileSystem codec) : Event → Prop
  | .read fd pid now => ∀ copy, fs.slot (toUnsigned32 fd) = some { owner := pid, inode := copy } →
      ∃ inode, fs'.file copy.name = some inode ∧ inode.atime = now
  | .write fd _ pid now => ∀ copy, fs.slot (toUnsigned32 fd) = some { owner := pid, inode := copy } →
      ∃ inode, fs'.file copy.name = some inode ∧ inode.mtime = now
  | _ => True

variable {fs fs' : FileSystem codec} {fd : Int} {pid : Pid} {now : Int} {reply : Reply}

theorem stamps_read (upToDate : UpToDate fs (.read fd pid now))
    (returned : (Event.read fd pid now).call fs = .ok reply fs') :
    Stamps fs fs' (.read fd pid now) := by
  have post : ((Event.read fd pid now).call fs).Post
      (fun _ fs' => Stamps fs fs' (.read fd pid now)) (fun _ _ => True) (fun _ => True) := by
    refine Event.post_of_actions (fun _ => ⟨_, rfl⟩) ?_
    refine (fileSystemRead_reads fs fd pid now).mono ?_ (fun _ _ _ => trivial) (fun _ _ => trivial)
    rintro - fs' ⟨copy, inode, fs₁, live, allowed, present, reads, flushes, -⟩ other found
    cases live.symm.trans found
    obtain ⟨legible, -, inode₁, present₁, -⟩ := reads.stamps present
    obtain ⟨inode', present', atime, -⟩ := flushes.times present₁
    have access := (upToDate copy live inode present allowed legible (reads.flushable flushes)).1
    exact ⟨inode', present', atime.trans access⟩
  rw [returned] at post
  exact post

theorem slots_rtsEvict (origin : FileSystem codec) (s : WriteState codec)
    (same : ∀ fd, s.fileSystem.slot fd = origin.slot fd) :
    (WriteState.rtsEvict now s).Post (fun _ s' => ∀ fd, s'.fileSystem.slot fd = origin.slot fd)
      (fun _ s' => ∀ fd, s'.fileSystem.slot fd = origin.slot fd) (fun _ => True) := by
  refine WriteState.keeps_rtsEvict (I := fun fs => ∀ fd, fs.slot fd = origin.slot fd) ?_ ?_ ?_ s same
  · exact fun _ same fd => same fd
  · intro fs inode done fs' same _ reads fd
    cases reads <;> exact same fd
  · exact fun fs inode done fs' same _ removes fd => (removes.same.2 fd).trans (same fd)

theorem stamps_write {buf : Option (List UInt8)}
    (returned : (Event.write fd buf pid now).call fs = .ok reply fs') :
    Stamps fs fs' (.write fd buf pid now) := by
  have post : ((Event.write fd buf pid now).call fs).Post
      (fun _ fs' => Stamps fs fs' (.write fd buf pid now)) (fun _ _ => True) (fun _ => True) := by
    refine write_call (I := fun gs => ∀ fd, gs.slot fd = fs.slot fd) (G := fun _ => True)
      (fun s same _ => slots_rtsEvict fs s same) (fun _ _ => trivial) (fun _ => rfl)
      (fun _ _ => trivial) ?_
    rintro gs bytes rfl - same
    refine (writeDescriptor_flushes gs fd bytes pid now).mono ?_ (fun _ _ _ => trivial)
      (fun _ _ => trivial)
    rintro - fs' ⟨copy, live, -, some_, stored, flushes, -⟩ other found
    cases ((same _).symm.trans live).symm.trans found
    obtain ⟨inode, present⟩ := Option.ne_none_iff_exists'.mp stored
    have present : (gs.updateSlot (toUnsigned32 fd) fun _ => copy.appended bytes now).file
        (copy.appended bytes now).name = some inode := present
    obtain ⟨inode', present', -, mtime⟩ := flushes.times present
    refine ⟨inode', present', mtime fun empty => ?_⟩
    exact some_ (List.append_eq_nil_iff.mp empty).2
  rw [returned] at post
  exact post

/-- No file that is still there is dated earlier than it was. -/
def Forward (fs fs' : FileSystem codec) : Prop :=
  ∀ name inode inode', fs.file name = some inode → fs'.file name = some inode' →
    inode'.generation = inode.generation → inode.NotEarlier inode'

theorem Ages.forward {origin : FileSystem codec} (ages : Ages origin now fs)
    (numbered : ∀ name inode, origin.file name = some inode → inode.generation < origin.created) :
    Forward origin fs := by
  intro name inode inode' present present' same
  rcases ages.kept name inode' present' with new | ⟨old, found, -, onward⟩
  · have number := numbered name inode present
    omega
  · obtain rfl := Option.some.inj (present.symm.trans found)
    exact onward

theorem Ages.ticks {m m' : Moment codec} {origin : FileSystem codec}
    (ages : Ages origin m.clock m.fileSystem)
    (run : Relation.ReflTransGen (Tick UpToDate) m m') : Ages origin m'.clock m'.fileSystem := by
  induction run with
  | refl => exact ages
  | tail _ next ih =>
      obtain ⟨later, event, timed, -, upToDate, result⟩ := next
      exact (ih.mono (Int.ofNat_le.mpr later)).step timed upToDate result

/-- Along flushes that put no older times, the times of every file go forward, and reads
    and writes that succeed leave their time. -/
theorem times_forward {m m' : Moment codec} (run : Clocked UpToDate m)
    (rest : Relation.ReflTransGen (Tick UpToDate) m m') :
    Forward m.fileSystem m'.fileSystem ∧
      ∀ event reply fs, UpToDate m'.fileSystem event →
        event.call m'.fileSystem = .ok reply fs → Stamps m'.fileSystem fs event := by
  constructor
  · obtain ⟨start, memoryLimit, filesLimit, policy, run⟩ := run
    have ages := Ages.ticks (Ages.init memoryLimit filesLimit policy start) run
    exact (Ages.ticks ages.refl rest).forward ages.numbered
  · intro event reply fs upToDate returned
    cases event with
    | read fd pid now => exact stamps_read upToDate returned
    | write fd buf pid now => exact stamps_write returned
    | _ => trivial

def readAtOnce : List (Nat × Event) :=
  [(0, .open [102] 1 1 0), (0, .write 0 (some [97, 98]) 1 0), (0, .read 0 1 0)]

theorem times_forward_rewritten : ∃ m m' : Moment huffmanCodec, Clocked UpToDate m ∧
    Relation.ReflTransGen (Tick UpToDate) m m' ∧ m'.clock = 7 ∧
    Forward m.fileSystem m'.fileSystem ∧ ∀ event reply fs, UpToDate m'.fileSystem event →
      event.call m'.fileSystem = .ok reply fs → Stamps m'.fileSystem fs event := by
  have ran : (ticks UpToDate readAtOnce (⟨0, .init 1 4 .fifo⟩ : Moment huffmanCodec)).any
      fun m => (ticks UpToDate [(3, .open [102] 0 1 3), (7, .write 1 (some [99]) 1 7)] m).any
        fun m' => m'.clock = 7 := by
    decide +kernel
  obtain ⟨m, first, rest⟩ := (Option.any_eq_true _ _).mp ran
  obtain ⟨m', second, clock⟩ := (Option.any_eq_true _ _).mp rest
  have run : Clocked UpToDate m := ⟨0, 1, 4, .fifo, ticks_steps first⟩
  have later := ticks_steps second
  exact ⟨m, m', run, later, of_decide_eq_true clock, times_forward run later⟩

def writtenBetween : List (Nat × Event) :=
  [(1, .open [102] 1 1 1), (2, .open [102] 0 1 2), (5, .write 0 (some [97, 98]) 1 5)]

/-- A read at the descriptor 1 returns, but its file has the access time 0. -/
def readUnstamped (fs : FileSystem huffmanCodec) : Bool :=
  match fs.slot (toUnsigned32 1), (Event.read 1 1 6).call fs with
  | some entry, .ok _ fs' =>
      entry.owner = 1 ∧ (fs'.file entry.inode.name).map Inode.atime = some 0
  | _, _ => false

/-- A file is written through one descriptor and read through another one, which was
    opened before: its modification time goes back, and the read is not recorded. -/
theorem times_back : ¬ (∀ m m' : Moment huffmanCodec, Clocked AnyEvent m →
      Relation.ReflTransGen (Tick AnyEvent) m m' → Forward m.fileSystem m'.fileSystem) ∧
    ¬ ∀ (m : Moment huffmanCodec) event reply fs, Clocked AnyEvent m →
      (∀ now ∈ event.time, (m.clock : Int) ≤ now) → event.call m.fileSystem = .ok reply fs →
        Stamps m.fileSystem fs event := by
  constructor
  · intro all
    have ran : (ticks AnyEvent writtenBetween (⟨0, .init 1 4 .fifo⟩ : Moment huffmanCodec)).any
        fun m => (m.fileSystem.file [102]).any fun inode =>
          (ticks AnyEvent [(6, .read 1 1 6)] m).any fun m' =>
            (m'.fileSystem.file [102]).any fun inode' =>
              inode'.generation = inode.generation ∧ inode'.mtime < inode.mtime := by
      decide +kernel
    obtain ⟨m, first, rest⟩ := (Option.any_eq_true _ _).mp ran
    obtain ⟨inode, present, rest⟩ := (Option.any_eq_true _ _).mp rest
    obtain ⟨m', second, rest⟩ := (Option.any_eq_true _ _).mp rest
    obtain ⟨inode', present', goes⟩ := (Option.any_eq_true _ _).mp rest
    obtain ⟨same, back⟩ := of_decide_eq_true goes
    have forward := all m m' ⟨0, 1, 4, .fifo, ticks_steps first⟩ (ticks_steps second)
    exact not_lt.mpr (forward [102] inode inode' present present' same).mtime back
  · intro all
    have ran : (ticks AnyEvent writtenBetween (⟨0, .init 1 4 .fifo⟩ : Moment huffmanCodec)).any
        fun m => m.clock = 5 ∧ readUnstamped m.fileSystem = true := by
      decide +kernel
    obtain ⟨m, first, rest⟩ := (Option.any_eq_true _ _).mp ran
    obtain ⟨clock, unstamped⟩ := of_decide_eq_true rest
    have later : ∀ now ∈ (Event.read 1 1 6).time, (m.clock : Int) ≤ now := by
      rintro _ ⟨⟩
      rw [clock]
      decide
    unfold readUnstamped at unstamped
    split at unstamped
    · rename_i entry reply fs live returned
      obtain ⟨own, atime⟩ := of_decide_eq_true unstamped
      obtain ⟨owner, copy⟩ := entry
      subst own
      obtain ⟨inode, present, now⟩ :=
        all m (.read 1 1 6) reply fs ⟨0, 1, 4, .fifo, ticks_steps first⟩ later returned copy live
      rw [present, Option.map_some, now] at atime
      cases atime
    · cases unstamped

end FileSystem

end FileStorage
