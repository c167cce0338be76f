import FileStorage.Simfs.Contents

/-! # Appends

What a read returns is compared with the bytes that were written. A write appends
to the content its own copy leads to and makes the result the content of the
file, so bytes are lost where the copy is out of date. Where every write finds
the pointer of its file in its copy, and the coder is lossless, a read returns
all bytes written since the file was created.
-/

namespace FileStorage

open FileSystem Program

variable {codec : Codec}

/-! ## Runs with a log -/

/-- The bytes a step writes to the file with the name: those of a write through a
    descriptor of the file that returns with success. -/
def Event.written (fs : FileSystem codec) (name : Filename) : Event → List UInt8
  | .write fd (some bytes) pid now =>
      if (fs.slot (toUnsigned32 fd)).any (fun entry => entry.inode.name = name) ∧
          (writeCall fd (some bytes) pid now fs).value? = some .success then bytes
      else []
  | _ => []

/-- The runs that never remove or evict the file with the name, with the bytes
    written to it. -/
inductive Logged (guard : FileSystem codec → Event → Prop) (name : Filename) :
    FileSystem codec → List UInt8 → Prop where
  | init (memoryLimit filesLimit policy) : Logged guard name (.init memoryLimit filesLimit policy) []
  | step {fs fs' log} {event : Event} : Logged guard name fs log → event.Possible fs →
      guard fs event → (event.call fs).state? = some fs' →
      (fs.file name ≠ none → fs'.file name ≠ none) →
      Logged guard name fs' (log ++ event.written fs name)

/-- A write to the file finds the pointer of the file in its copy, and the size of
    the file table does not look like an error. -/
def CurrentCopies (name : Filename) (fs : FileSystem codec) (event : Event) : Prop :=
  ¬ Oversized fs ∧ match event with
    | .write fd _ pid _ => ∀ copy,
        fs.slot (toUnsigned32 fd) = some { owner := pid, inode := copy } → copy.name = name →
        ∀ inode, fs.file name = some inode → copy.directPtr = inode.directPtr
    | _ => True

instance (name : Filename) (fs : FileSystem codec) :
    (event : Event) → Decidable (CurrentCopies name fs event)
  | .write fd _ pid _ =>
      haveI := fun copy : Inode => decidableOfFile fs name fun inode =>
        copy.directPtr = inode.directPtr
      haveI := decidableOfSlot fs (toUnsigned32 fd) pid fun copy => copy.name = name →
        ∀ inode, fs.file name = some inode → copy.directPtr = inode.directPtr
      inferInstanceAs (Decidable (¬ toInt32 fs.fileTable.size = -1 ∧ _))
  | .open .. | .read .. | .close .. | .remove .. | .lock .. | .unlock .. | .removeSession ..
  | .wake .. => inferInstanceAs (Decidable (¬ toInt32 fs.fileTable.size = -1 ∧ True))

def runsLogged (guard : FileSystem codec → Event → Prop) [∀ fs event, Decidable (guard fs event)]
    (name : Filename) : List Event → FileSystem codec → List UInt8 →
      Option (FileSystem codec × List UInt8)
  | [], fs, log => some (fs, log)
  | event :: events, fs, log =>
      if event.Possible fs ∧ guard fs event then
        match (event.call fs).state? with
        | none => none
        | some fs' =>
            if fs.file name ≠ none → fs'.file name ≠ none then
              runsLogged guard name events fs' (log ++ event.written fs name)
            else none
      else none

theorem Logged.of_steps {guard : FileSystem codec → Event → Prop}
    [∀ fs event, Decidable (guard fs event)] {name : Filename} {events : List Event}
    {fs fs' : FileSystem codec} {log log' : List UInt8} (logged : Logged guard name fs log)
    (ran : runsLogged guard name events fs log = some (fs', log')) : Logged guard name fs' log' := by
  induction events generalizing fs log with
  | nil =>
      cases ran
      exact logged
  | cons event events ih =>
      rw [runsLogged] at ran
      split at ran
      · rename_i allowed
        split at ran
        · cases ran
        · rename_i next result
          split at ran
          · rename_i kept
            exact ih (logged.step allowed.1 allowed.2 result kept) ran
          · cases ran
      · cases ran

theorem Logged.of_runs (guard : FileSystem codec → Event → Prop)
    [∀ fs event, Decidable (guard fs event)] (memoryLimit filesLimit : UInt32)
    (policy : ReplacementPolicy) (check : FileSystem codec × List UInt8 → Bool) (name : Filename)
    (events : List Event)
    (checked : (runsLogged guard name events (.init memoryLimit filesLimit policy) []).any check =
      true) : ∃ fs log, Logged guard name fs log ∧ check (fs, log) = true := by
  obtain ⟨⟨fs, log⟩, ran, holds⟩ := (Option.any_eq_true _ _).mp checked
  exact ⟨fs, log, (Logged.init memoryLimit filesLimit policy).of_steps ran, holds⟩

/-! ## The log and the content -/

def HoldsLog (v : View codec) (f : FileView) (log : List UInt8) : Prop :=
  f.directPtr = .null ∧ log = [] ∨ log ≠ [] ∧ ∃ artifact,
    Memory.at? v.memory f.directPtr = some artifact ∧ codec.decode artifact = log

/-- The content of the file with the name is the log, and no bytes wait in its
    descriptors. A file whose artifact is freed cannot be read any more. -/
structure Records (name : Filename) (log : List UInt8) (v : View codec) : Prop where
  absent : v.file name = none → log = [] ∧ ∀ fd s, v.slot fd = some s → s.name ≠ name
  stored : ∀ f, v.file name = some f → FreedFile v name ∨ HoldsLog v f log
  buffers : ∀ fd s, v.slot fd = some s → s.name = name →
    s.buffer = [] ∨ FreedFile v name ∧ ∃ raw, s.directPtr = .bytes raw

/-- The action neither removes the file nor writes to it. -/
def Steady (name : Filename) (v : View codec) : Action codec → Prop
  | .vanish other => other ≠ name
  | .store fd _ => ∀ s, v.slot fd = some s → s.name ≠ name
  | _ => True

variable {owner : Nat → Filename} {v w : View codec} {a : Action codec} {name : Filename}
  {log : List UInt8}

theorem View.changeFile_stays (stored : v.file name ≠ none) (other : Filename)
    (g : FileView → FileView) : (v.changeFile other g).file name ≠ none := by
  by_cases this : name = other
  · subst this
    simpa using stored
  · simpa [changeFile, this] using stored

theorem View.file_stays (stored : v.file name ≠ none) (stays : a ≠ .vanish name) :
    (v.apply a).file name ≠ none := by
  cases a with
  | create other =>
      by_cases this : name = other
      · simp [apply, this]
      · simpa [apply, this] using stored
  | request other | grant other pid | settle other | attach fd other pid | release other pid
  | unlock other pid | reread other new | spoil other => exact changeFile_stays stored other _
  | close fd =>
      simp only [apply]
      split
      · exact stored
      · exact changeFile_stays stored _ _
  | vanish other =>
      have different : name ≠ other := fun same => stays (same ▸ rfl)
      simpa [apply, different] using stored
  | flush fd new =>
      simp only [apply]
      split
      · exact stored
      · rename_i s _
        exact changeFile_stays stored s.name fun f => { f with
          directPtr := .artifact v.memory.length
          size := toUnsigned32 (f.size + toInt32 (codec.size new - toInt32 s.size)) }
  | tear fd =>
      simp only [apply]
      split <;> exact stored
  | leave pid => simpa [apply] using stored
  | store fd bytes | forget pid | block waiter | unblock waiter => exact stored

theorem FreedFile.of_same (freed : FreedFile v name) (same : SameContent name v w)
    (stored : w.file name ≠ none) : FreedFile w name := by
  obtain ⟨f', stored'⟩ := Option.ne_none_iff_exists'.mp stored
  obtain ⟨f, found, ptr, at_⟩ := same f' stored'
  obtain ⟨f₀, id, found₀, isArtifact, gone⟩ := freed
  obtain rfl := Option.some.inj (found₀.symm.trans found)
  exact ⟨f', id, stored', ptr.trans isArtifact, by rw [ptr, at_, gone]⟩

theorem Records.of_same (records : Records name log v) (same : SameContent name v w)
    (kept : v.file name ≠ none → w.file name ≠ none)
    (slots : ∀ fd s', w.slot fd = some s' → s'.name = name →
      s'.buffer = [] ∧ w.file name ≠ none ∨ ∃ s, v.slot fd = some s ∧ s.name = name ∧
        s'.buffer = s.buffer ∧ s'.directPtr = s.directPtr) : Records name log w where
  absent := by
    intro gone
    have absent : v.file name = none := by
      by_contra stored
      exact kept stored gone
    refine ⟨(records.absent absent).1, fun fd s' live named => ?_⟩
    rcases slots fd s' live named with ⟨-, stored⟩ | ⟨s, found, named, -⟩
    · exact stored gone
    · exact (records.absent absent).2 fd s found named
  stored := by
    intro f' stored
    obtain ⟨f, found, ptr, at_⟩ := same f' stored
    refine (records.stored f found).imp (fun freed => ?_) fun holds => ?_
    · exact FreedFile.of_same freed same (by rw [stored]; nofun)
    · rcases holds with ⟨null, empty⟩ | ⟨some_, artifact, live, decodes⟩
      · exact .inl ⟨ptr.trans null, empty⟩
      · exact .inr ⟨some_, artifact, by rw [ptr, at_, live], decodes⟩
  buffers := by
    intro fd s' live named
    rcases slots fd s' live named with ⟨empty, -⟩ | ⟨s, found, named, buffer, ptr⟩
    · exact .inl empty
    · rw [buffer, ptr]
      refine (records.buffers fd s found named).imp_right fun ⟨freed, raw⟩ => ⟨?_, raw⟩
      refine FreedFile.of_same freed same (kept ?_)
      obtain ⟨f, -, stored, -⟩ := freed
      rw [stored]
      nofun

theorem Steady.slots (steady : Steady name v a) (enabled : v.Enabled a)
    (untouched : ¬ a.Touches v name) {fd : Nat} {s' : SlotView}
    (live : (v.apply a).slot fd = some s') (named : s'.name = name) :
    s'.buffer = [] ∧ (v.apply a).file name ≠ none ∨ ∃ s, v.slot fd = some s ∧ s.name = name ∧
      s'.buffer = s.buffer ∧ s'.directPtr = s.directPtr := by
  cases a with
  | attach opened other pid =>
      obtain ⟨-, -, f, stored, -⟩ := enabled
      by_cases this : fd = opened
      · subst this
        obtain ⟨f', found, rfl⟩ := Option.map_eq_some_iff.mp
          ((Function.update_self fd _ v.slot).symm.trans live)
        refine .inl ⟨rfl, ?_⟩
        obtain rfl : other = name := named
        exact View.file_stays (by rw [stored]; nofun) nofun
      · exact .inr ⟨s', by simpa [View.apply, this] using live, named, rfl, rfl⟩
  | close closed =>
      obtain ⟨-, found⟩ := View.slot_of_close live
      exact .inr ⟨s', found, named, rfl, rfl⟩
  | store written bytes =>
      obtain ⟨s, found, rfl⟩ := View.slot_of_changeSlot live
      split at named
      · rename_i this
        exact absurd named (steady s (this ▸ found))
      · rename_i other
        rw [if_neg other]
        exact .inr ⟨s, found, named, rfl, rfl⟩
  | flush flushed new | tear flushed =>
      obtain ⟨s₀, -, live₀, -⟩ := enabled
      simp only [View.apply, live₀] at live
      by_cases this : fd = flushed
      · subst this
        obtain rfl := Option.some.inj ((Function.update_self fd _ v.slot).symm.trans live)
        exact absurd ⟨s₀, live₀, named⟩ untouched
      · exact .inr ⟨s', by simpa [this] using live, named, rfl, rfl⟩
  | forget pid | leave pid =>
      exact .inr ⟨s', (Option.filter_eq_some_iff.mp live).1, named, rfl, rfl⟩
  | _ => exact .inr ⟨s', live, named, rfl, rfl⟩

theorem Records.live (records : Records name log v) {f : FileView} (stored : v.file name = some f)
    {old : codec.Artifact} (found : Memory.at? v.memory f.directPtr = some old) :
    log ≠ [] ∧ codec.decode old = log ∧ ∀ fd s, v.slot fd = some s → s.name = name →
      s.buffer = [] := by
  have readable : ¬ FreedFile v name := by
    rintro ⟨f', id, stored', -, gone⟩
    obtain rfl := Option.some.inj (stored.symm.trans stored')
    cases found.symm.trans gone
  have buffers : ∀ fd s, v.slot fd = some s → s.name = name → s.buffer = [] :=
    fun fd s live named => (records.buffers fd s live named).resolve_right fun both => readable both.1
  rcases (records.stored f stored).resolve_left readable with ⟨null, -⟩ |
    ⟨some_, artifact, live, decodes⟩
  · rw [null] at found
    cases found
  · obtain rfl := Option.some.inj (live.symm.trans found)
    exact ⟨some_, decodes, buffers⟩

theorem Records.apply (lossless : codec.Lossless) (owned : Owned owner v)
    (records : Records name log v) (enabled : v.Enabled a) (steady : Steady name v a) :
    Records name log (v.apply a) := by
  by_cases touched : a.Touches v name
  · cases a with
    | create other =>
        obtain rfl : other = name := touched
        obtain ⟨rfl, none_⟩ := records.absent enabled.2
        have made : (v.apply (.create other)).file other = some (.new v.created) :=
          Function.update_self ..
        refine ⟨fun gone => ?_, fun f stored => .inr (.inl ⟨?_, rfl⟩), fun fd s live named => ?_⟩
        · cases made.symm.trans gone
        · obtain rfl := Option.some.inj (made.symm.trans stored)
          rfl
        · exact absurd named (none_ fd s live)
    | vanish other => exact absurd touched steady
    | spoil other =>
        obtain rfl : other = name := touched
        obtain ⟨f, old, stored, live, empty⟩ := enabled
        obtain ⟨some_, decodes, -⟩ := records.live stored live
        exact absurd (decodes.symm.trans empty) some_
    | reread other new =>
        obtain rfl : other = name := touched
        obtain ⟨f, old, stored, live, encodes⟩ := enabled
        obtain ⟨some_, decodes, buffers⟩ := records.live stored live
        have made : (v.apply (.reread other new)).file other = some { f with
            directPtr := .artifact v.memory.length, size := codec.size new } :=
          (View.changeFile_self _ _ _).trans (by rw [stored]; rfl)
        refine ⟨fun gone => ?_, fun f' stored' => .inr (.inr ⟨some_, new, ?_, ?_⟩),
          fun fd s live named => .inl (buffers fd s live named)⟩
        · cases made.symm.trans gone
        · obtain rfl := Option.some.inj (made.symm.trans stored')
          simp only [View.apply, stored, Option.elim_some]
          exact Memory.at?_append_self _ new (Memory.length_free _ _)
        · exact (lossless _ _ encodes).trans decodes
    | flush fd new =>
        obtain ⟨s, found, named⟩ := touched
        obtain ⟨s', content, found', -, some_, appended, -⟩ := enabled
        obtain rfl := Option.some.inj (found.symm.trans found')
        rcases records.buffers fd s found named with empty | ⟨-, raw, ptr⟩
        · exact absurd empty some_
        · rw [ptr] at appended
          cases appended
    | tear fd =>
        obtain ⟨s, found, named⟩ := touched
        obtain ⟨s', old, found', -, live, big⟩ := enabled
        obtain rfl := Option.some.inj (found.symm.trans found')
        rcases records.buffers fd s found named with empty | ⟨-, raw, ptr⟩
        · rw [empty, List.append_nil] at big
          exact absurd (codec.decode_small old) (Nat.not_lt.mpr big)
        · rw [ptr] at live
          cases live
    | _ => exact touched.elim
  · refine records.of_same (.apply owned enabled touched) (fun stored => ?_)
      fun fd s' live named => steady.slots enabled touched live named
    refine View.file_stays stored ?_
    rintro rfl
    exact touched rfl

/-! ## Writing -/

section Write

variable {fd : Nat} {s : SlotView} {f : FileView} {bytes : List UInt8} {new : codec.Artifact}

structure Current (v : View codec) (fd : Nat) (s : SlotView) (f : FileView) (name : Filename) :
    Prop where
  slot : v.slot fd = some s
  named : s.name = name
  file : v.file name = some f
  ptr : s.directPtr = f.directPtr

theorem Current.buffer_nil (current : Current v fd s f name) (records : Records name log v) :
    s.buffer = [] := by
  refine (records.buffers fd s current.slot current.named).resolve_right ?_
  rintro ⟨⟨f', id, stored, isArtifact, -⟩, raw, isRaw⟩
  obtain rfl := Option.some.inj (current.file.symm.trans stored)
  cases isRaw.symm.trans (current.ptr.trans isArtifact)

structure Buffered (v : View codec) (fd : Nat) (s : SlotView) (bytes : List UInt8)
    (u : View codec) : Prop where
  file : u.file = v.file
  memory : u.memory = v.memory
  slot : u.slot fd = some { s with buffer := bytes }
  others : ∀ other, other ≠ fd → u.slot other = v.slot other

theorem Current.store (current : Current v fd s f name) (records : Records name log v)
    (bytes : List UInt8) : Buffered v fd s bytes (v.apply (.store fd bytes)) where
  file := rfl
  memory := rfl
  slot := by
    refine (Function.update_self fd _ v.slot).trans ?_
    rw [current.slot, Option.map_some, current.buffer_nil records, List.nil_append]
  others := fun other different => Function.update_of_ne different ..

theorem Current.appended (current : Current v fd s f name) (records : Records name log v)
    {content : List UInt8}
    (appended : Memory.appended v.memory s.directPtr bytes = some content) :
    ¬ FreedFile v name ∧ content = log ++ bytes := by
  rw [current.ptr] at appended
  have readable : ¬ FreedFile v name := by
    rintro ⟨f', id, stored, isArtifact, gone⟩
    obtain rfl := Option.some.inj (current.file.symm.trans stored)
    rw [isArtifact] at gone appended
    cases (Memory.appended_of_freed gone bytes).symm.trans appended
  refine ⟨readable, ?_⟩
  rcases (records.stored f current.file).resolve_left readable with ⟨null, rfl⟩ |
    ⟨-, old, live, decodes⟩
  · rw [null] at appended
    exact (Option.some.inj appended).symm
  · rw [Memory.appended_of_live live] at appended
    exact (Option.some.inj appended).symm.trans (by rw [decodes])

/-- The flush of a current copy appends the bytes to the log. -/
theorem Records.flush (lossless : codec.Lossless) (records : Records name log v)
    (current : Current v fd s f name) {u : View codec} (buffered : Buffered v fd s bytes u)
    (enabled : u.Enabled (.flush fd new)) : Records name (log ++ bytes) (u.apply (.flush fd new)) := by
  obtain ⟨s', content, found, -, some_, appended, -, encodes⟩ := enabled
  obtain rfl := Option.some.inj (buffered.slot.symm.trans found)
  rw [buffered.memory] at appended
  obtain ⟨readable, rfl⟩ := current.appended records appended
  obtain rfl := current.named
  have made : (u.apply (.flush fd new)).file s.name = some { f with
      directPtr := .artifact u.memory.length
      size := toUnsigned32 (f.size + toInt32 (codec.size new - toInt32 s.size)) } := by
    simp only [View.apply, buffered.slot, Function.update_self, buffered.file, current.file]
    rfl
  refine ⟨fun gone => ?_, fun f' stored => .inr (.inr ⟨?_, new, ?_, lossless _ _ encodes⟩),
    fun other s' live named => .inl ?_⟩
  · cases made.symm.trans gone
  · exact fun empty => some_ (List.append_eq_nil_iff.mp empty).2
  · obtain rfl := Option.some.inj (made.symm.trans stored)
    simp only [View.apply, buffered.slot]
    exact Memory.at?_append_self _ new (Memory.length_free _ _)
  · simp only [View.apply, buffered.slot] at live
    by_cases this : other = fd
    · subst this
      obtain rfl := Option.some.inj ((Function.update_self other _ _).symm.trans live)
      rfl
    · have kept : v.slot other = some s' := by
        rw [← buffered.others other this]
        simpa [this] using live
      exact (records.buffers other s' kept named).resolve_right fun both => readable both.1

/-- A flush that fails half way frees the artifact of the file. -/
theorem Records.tear (records : Records name log v) (current : Current v fd s f name)
    {u : View codec} (buffered : Buffered v fd s bytes u) (enabled : u.Enabled (.tear fd)) :
    Records name log (u.apply (.tear fd)) := by
  obtain ⟨s', old, found, -, live, -⟩ := enabled
  obtain rfl := Option.some.inj (buffered.slot.symm.trans found)
  obtain rfl := current.named
  have live : Memory.at? v.memory f.directPtr = some old := by
    rw [← current.ptr, ← buffered.memory]
    exact live
  obtain ⟨some_, decodes, empty⟩ := records.live current.file live
  have freed : FreedFile (u.apply (.tear fd)) s.name := by
    obtain ⟨id, isArtifact⟩ : ∃ id, f.directPtr = .artifact id := by
      cases ptr : f.directPtr with
      | artifact id => exact ⟨id, rfl⟩
      | null | bytes raw =>
          rw [ptr] at live
          cases live
    simp only [View.apply, buffered.slot]
    refine ⟨f, id, by rw [buffered.file, current.file], isArtifact, ?_⟩
    rw [current.ptr]
    exact Memory.at?_free_self _ _
  refine ⟨fun gone => ?_, fun f' stored => .inl freed, fun other s' live' named => ?_⟩
  · obtain ⟨f', -, stored, -⟩ := freed
    cases stored.symm.trans gone
  · simp only [View.apply, buffered.slot] at live'
    by_cases this : other = fd
    · subst this
      obtain rfl := Option.some.inj ((Function.update_self other _ _).symm.trans live')
      refine .inr ⟨freed, ?_⟩
      rw [current.ptr, buffered.memory, live, Option.elim_some, decodes]
      obtain ⟨byte, rest, rfl⟩ := List.exists_cons_of_ne_nil some_
      exact ⟨_, rfl⟩
    · refine .inl (empty other s' ?_ named)
      rw [← buffered.others other this]
      simpa [this] using live'

end Write

/-! ## The log of a run -/

theorem Records.trace (lossless : codec.Lossless) {acts : List (Action codec)}
    (owned : Owned owner v) (records : Records name log v)
    (trace : (viewSystem codec).Trace v acts w)
    (steady : (viewSystem codec).Meets (Steady name) v acts) : Records name log w := by
  refine (ActionSystem.Trace.keeps (S := viewSystem codec)
    (I := fun v => (∃ owner, Owned owner v) ∧ Records name log v) ?_ trace steady
    ⟨⟨owner, owned⟩, records⟩).2
  rintro v a ⟨⟨owner, owned⟩, records⟩ enabled steady
  exact ⟨owned.apply enabled, records.apply lossless owned enabled steady⟩

theorem file_none_of_trace {acts : List (Action codec)} (old : ∀ a ∈ acts, a.creates = false)
    (trace : (viewSystem codec).Trace v acts w) (absent : v.file name = none) :
    w.file name = none := by
  induction trace with
  | nil v => exact absent
  | cons _ _ ih =>
      rw [List.forall_mem_cons] at old
      refine ih old.2 ?_
      by_contra stored
      obtain ⟨f', stored⟩ := Option.ne_none_iff_exists'.mp stored
      obtain ⟨f, found, -⟩ := View.file_of_apply old.1 stored
      cases absent.symm.trans found

theorem Records.evictions {evs rest : List (Action codec)} (owned : Owned owner v)
    (records : Records name log v) (evictions : Evictions evs) {t : View codec}
    (evicted : (viewSystem codec).Trace v evs t) (trace : (viewSystem codec).Trace t rest w)
    (old : ∀ a ∈ rest, a.creates = false) (kept : v.file name ≠ none → w.file name ≠ none) :
    Records name log t := by
  refine records.of_same (evictions.sameContent owned evicted name).1 (fun stored gone => ?_)
    fun fd s live named => .inr ⟨s, ?_, named, rfl, rfl⟩
  · exact kept stored (file_none_of_trace old trace gone)
  · rw [← evictions.slot_eq evicted]
    exact live

variable {fs fs' : FileSystem codec}

theorem current_of_guarded {fd : Int} {buf : Option (List UInt8)} {pid : Pid} {now : Int}
    (guarded : CurrentCopies name fs (.write fd buf pid now)) {t : View codec} {s : SlotView}
    (live : fs.view.slot (toUnsigned32 fd) = some s) (own : s.owner = pid) (named : s.name = name)
    (slots : t.slot = fs.view.slot) (same : SameContent name fs.view t)
    (records : Records name log t) : ∃ f, Current t (toUnsigned32 fd) s f name := by
  have live' : t.slot (toUnsigned32 fd) = some s := by rw [slots, live]
  cases stored : t.file name with
  | none => exact absurd named ((records.absent stored).2 _ s live')
  | some f' =>
      obtain ⟨f, viewed, ptr, -⟩ := same f' stored
      obtain ⟨inode, present, rfl⟩ := Option.map_eq_some_iff.mp viewed
      obtain ⟨entry, found, rfl⟩ := Option.map_eq_some_iff.mp live
      obtain rfl : entry.owner = pid := own
      refine ⟨f', live', named, stored, ?_⟩
      exact (guarded.2 entry.inode found named inode present).trans ptr.symm

theorem slot_any_iff {fd : Nat} {s : SlotView} (live : fs.view.slot fd = some s) :
    (fs.slot fd).any (fun entry => entry.inode.name = name) = true ↔ s.name = name := by
  obtain ⟨entry, found, rfl⟩ := Option.map_eq_some_iff.mp live
  simp [found, SlotView.of]

section Step

variable {fd : Int} {buf : Option (List UInt8)} {pid : Pid} {now : Int}
  {evs : List (Action codec)}

theorem Records.write_ok (lossless : codec.Lossless) (owned : Owned owner fs.view)
    (records : Records name log fs.view)
    (guarded : CurrentCopies name fs (.write fd buf pid now)) (evictions : Evictions evs)
    (owns : Owns fs.view (toUnsigned32 fd) pid) {bytes : List UInt8} {new : codec.Artifact}
    (performs : fs.Performs
      (evs ++ [.store (toUnsigned32 fd) bytes, .flush (toUnsigned32 fd) new]) fs')
    (kept : fs.view.file name ≠ none → fs'.view.file name ≠ none) :
    Records name (log ++ if (fs.slot (toUnsigned32 fd)).any (fun entry => entry.inode.name = name)
      then bytes else []) fs'.view := by
  obtain ⟨t, evicted, trace⟩ := ActionSystem.Trace.of_append performs
  have recorded := records.evictions owned evictions evicted trace (by simp [Action.creates]) kept
  obtain ⟨same, owner', owned'⟩ := evictions.sameContent owned evicted name
  have slots := evictions.slot_eq evicted
  obtain ⟨s, live, own⟩ := owns
  simp only [slot_any_iff live]
  by_cases named : s.name = name
  · rw [if_pos named]
    obtain ⟨f, current⟩ := current_of_guarded guarded live own named slots same recorded
    obtain _ | ⟨-, _ | ⟨flushes, last⟩⟩ := trace
    generalize fs'.view = w at last
    cases last
    exact recorded.flush lossless current (current.store recorded bytes) flushes
  · rw [if_neg named, List.append_nil]
    refine recorded.trace lossless owned' trace ⟨fun s' live' => ?_, trivial, trivial⟩
    rw [slots, live] at live'
    exact Option.some.inj live' ▸ named

/-- A write that fails leaves the content as it was, or the file unreadable. -/
theorem Records.write_error (lossless : codec.Lossless) (owned : Owned owner fs.view)
    (records : Records name log fs.view)
    (guarded : CurrentCopies name fs (.write fd buf pid now)) (evictions : Evictions evs)
    {acts : List (Action codec)} (fails : WriteFails fs fs' (toUnsigned32 fd) buf pid acts)
    (performs : fs.Performs (evs ++ acts) fs')
    (kept : fs.view.file name ≠ none → fs'.view.file name ≠ none) (sized : ¬ Oversized fs') :
    Records name log fs'.view := by
  obtain ⟨t, evicted, trace⟩ := ActionSystem.Trace.of_append performs
  have old : ∀ a ∈ acts, a.creates = false := by
    rcases fails with (rfl | ⟨m, rfl | ⟨new, rfl | rfl⟩⟩) |
      ⟨bytes, -, rfl | ⟨rfl, -⟩ | rfl | ⟨new, rfl, -⟩, -⟩ <;> simp [Action.creates]
  have recorded := records.evictions owned evictions evicted trace old kept
  obtain ⟨same, owner', owned'⟩ := evictions.sameContent owned evicted name
  have slots := evictions.slot_eq evicted
  rcases fails with fails | ⟨bytes, rfl, fails, s, live, own⟩
  · refine recorded.trace lossless owned' trace ?_
    rcases fails with rfl | ⟨m, rfl | ⟨new, rfl | rfl⟩⟩
    · trivial
    · exact ⟨trivial, trivial⟩
    · exact ⟨trivial, trivial⟩
    · refine ⟨trivial, ?_, trivial⟩
      rintro rfl
      obtain _ | ⟨⟨f', -, stored, -⟩, _ | ⟨-, last⟩⟩ := trace
      obtain ⟨f, found, -⟩ := same f' stored
      refine kept (by rw [found]; nofun) ?_
      generalize fs'.view = w at last
      cases last
      exact Function.update_self ..
  · by_cases named : s.name = name
    · obtain ⟨f, current⟩ := current_of_guarded guarded live own named slots same recorded
      rcases fails with rfl | ⟨rfl, unflushable⟩ | rfl | ⟨new, -, oversized⟩
      · exact recorded.trace lossless owned' trace trivial
      · obtain _ | ⟨⟨-, s', live', small⟩, last⟩ := trace
        obtain rfl := Option.some.inj (current.slot.symm.trans live')
        have buffered := current.store recorded bytes
        generalize fs'.view = w at last unflushable
        cases last
        obtain ⟨s'', live'', unflushable⟩ := unflushable
        obtain rfl := Option.some.inj (buffered.slot.symm.trans live'')
        rcases unflushable with gone | ⟨null, big⟩
        · have gone : t.file s.name = none := gone
          rw [named] at gone
          cases current.file.symm.trans gone
        · have empty := (owned'.slots _ s current.slot).2 null
          rw [current.buffer_nil recorded, List.nil_append] at small
          simp only [empty, Nat.zero_add] at big
          exact absurd small (Nat.not_lt.mpr big)
      · obtain _ | ⟨-, _ | ⟨tears, last⟩⟩ := trace
        generalize fs'.view = w at last
        cases last
        exact recorded.tear current (current.store recorded bytes) tears
      · exact absurd oversized sized
    · have other : ∀ s', t.slot (toUnsigned32 fd) = some s' → s'.name ≠ name := by
        intro s' live'
        rw [slots, live] at live'
        exact Option.some.inj live' ▸ named
      refine recorded.trace lossless owned' trace ?_
      rcases fails with rfl | ⟨rfl, -⟩ | rfl | ⟨new, rfl, -⟩
      · trivial
      · exact ⟨other, trivial⟩
      · exact ⟨other, trivial, trivial⟩
      · exact ⟨other, trivial, trivial⟩

theorem Records.step (lossless : codec.Lossless) {event : Event} (possible : event.Possible fs)
    (guarded : CurrentCopies name fs event) (owned : Owned owner fs.view)
    (records : Records name log fs.view) (result : (event.call fs).state? = some fs')
    (kept : fs.file name ≠ none → fs'.file name ≠ none) (sized : ¬ Oversized fs') :
    Records name (log ++ event.written fs name) fs'.view := by
  have kept : fs.view.file name ≠ none → fs'.view.file name ≠ none := by
    simpa [view] using kept
  cases event with
  | write fd buf pid now =>
      have writes := fileSystemWrite_performs { fileSystem := fs, evictedList := [] } fd buf pid now
      change (Event.writeCall fd buf pid now fs).state? = some fs' at result
      cases done : fileSystemWrite fd buf pid now { fileSystem := fs, evictedList := [] } with
      | ok value s' =>
          have call : Event.writeCall fd buf pid now fs = .ok .success s'.fileSystem := by
            simp [Event.writeCall, done]
          rw [done] at writes
          rw [call] at result
          obtain rfl := Option.some.inj result
          obtain ⟨evs, bytes, new, rfl, evictions, owns, performs⟩ := writes
          have written := records.write_ok lossless owned guarded evictions owns performs kept
          simpa only [Event.written, call, Outcome.value?, and_true] using written
      | error code s' =>
          have call : Event.writeCall fd buf pid now fs = .error code s'.fileSystem := by
            simp [Event.writeCall, done]
          rw [done] at writes
          rw [call] at result
          obtain rfl := Option.some.inj result
          obtain ⟨evs, acts, evictions, fails, performs⟩ := writes
          have nothing : Event.written fs name (.write fd buf pid now) = [] := by
            cases buf with
            | none => rfl
            | some bytes => simp [Event.written, call, Outcome.value?]
          rw [nothing, List.append_nil]
          exact records.write_error lossless owned guarded evictions fails performs kept sized
      | fault why =>
          have call : Event.writeCall fd buf pid now fs = .fault why := by
            simp [Event.writeCall, done]
          rw [call] at result
          cases result
  | remove removed pid =>
      rw [show Event.written fs name (.remove removed pid) = [] from rfl, List.append_nil]
      obtain ⟨acts, does, performs⟩ := Step.performed possible result
      refine records.trace lossless owned performs ?_
      rcases does with rfl | ⟨⟨f, stored, -⟩, rfl⟩
      · trivial
      · refine ⟨?_, trivial⟩
        rintro rfl
        refine kept (by simp [stored]) ?_
        rw [performs.view_single]
        exact Function.update_self ..
  | _ =>
      refine (List.append_nil log).symm ▸ ?_
      obtain ⟨acts, does, performs⟩ := Step.performed possible result
      refine records.trace lossless owned performs (.of_forall fun v a member => ?_)
      cases does.mayDo a member <;> trivial

end Step

theorem records_of_logged (lossless : codec.Lossless)
    (logged : Logged (CurrentCopies name) name fs log) :
    (∃ owner, Owned owner fs.view) ∧ (¬ Oversized fs → Records name log fs.view) := by
  induction logged with
  | init memoryLimit filesLimit policy =>
      rw [init_view]
      exact ⟨⟨fun _ => [], nofun, nofun⟩, fun _ => ⟨fun _ => ⟨rfl, nofun⟩, nofun, nofun⟩⟩
  | step _ possible guarded result kept ih =>
      obtain ⟨⟨owner, owned⟩, records⟩ := ih
      obtain ⟨acts, -, performs⟩ := Step.performed possible result
      refine ⟨?_, (records guarded.1).step lossless possible guarded owned result kept⟩
      have step : ∀ (v : View codec) (a : Action codec), (∃ owner, Owned owner v) →
          v.Enabled a → True → ∃ owner, Owned owner (v.apply a) :=
        fun _ _ ⟨_, owned⟩ enabled _ => owned.apply enabled
      exact ActionSystem.Trace.keeps (S := viewSystem codec) step performs
        (.of_forall fun _ _ _ => trivial) ⟨owner, owned⟩

/-- Where every write to a file finds the pointer of the file in its copy, a read
    returns all bytes written since the file was created. -/
theorem read_returns_log (lossless : codec.Lossless)
    (logged : Logged (CurrentCopies name) name fs log) {fd : Int} {pid : Pid} {now : Int}
    (guarded : CurrentCopies name fs (.read fd pid now)) {entry : Entry}
    (live : fs.slot (toUnsigned32 fd) = some entry) (named : entry.inode.name = name)
    {data : List UInt8} (returned : (Event.call (.read fd pid now) fs).value? = some (.data data)) :
    data = log := by
  have records := (records_of_logged lossless logged).2 guarded.1
  suffices post : (Event.call (.read fd pid now) fs).Post
      (fun reply _ => reply = .data log) (fun _ _ => True) (fun _ => True) by
    obtain ⟨-, same⟩ := post.of_value returned
    exact Reply.data.inj same
  simp only [Event.call, post_bind]
  refine (fileSystemRead_performs fs fd pid now).mono ?_ (fun _ _ _ => trivial) (fun _ _ => trivial)
  rintro _ fs₁ ⟨copy, f, old, -, live', stored, found, rfl, -⟩
  obtain rfl := Option.some.inj (live.symm.trans live')
  obtain rfl : copy.name = name := named
  exact congrArg Reply.data (records.live stored found).2.1

/-- Two writes, the second through a descriptor opened after the first one. -/
theorem read_returns_both : ∃ (fs : FileSystem losslessCodec) (log : List UInt8),
    (Logged (CurrentCopies [102]) [102] fs log ∧ log = [97, 98, 99]) ∧
    (∃ data, (Event.call (.read 0 1 4) fs).value? = some (.data data)) ∧
    ∀ data, (Event.call (.read 0 1 4) fs).value? = some (.data data) → data = log := by
  obtain ⟨fs, log, logged, checked⟩ := Logged.of_runs
    (CurrentCopies [102] : FileSystem losslessCodec → Event → Prop) 1 4 .fifo
    (fun state => decide (state.2 = [97, 98, 99] ∧
      CurrentCopies [102] state.1 (.read 0 1 4) ∧
      (Event.call (.read 0 1 4) state.1).value? = some (.data [97, 98, 99])) &&
      (state.1.slot (toUnsigned32 0)).any fun entry : Entry => entry.inode.name = [102]) [102]
    [.open [102] 1 1 0, .write 0 (some [97, 98]) 1 1, .open [102] 0 2 2, .write 1 (some [99]) 2 3]
    (by decide +kernel)
  rw [Bool.and_eq_true, decide_eq_true_eq, Option.any_eq_true] at checked
  obtain ⟨⟨both, guarded, returned⟩, entry, live, named⟩ := checked
  exact ⟨fs, log, ⟨logged, both⟩, ⟨_, returned⟩, fun data returned =>
    read_returns_log losslessCodec_lossless logged guarded live (of_decide_eq_true named) returned⟩

/-- The second of two descriptors opened before the first write overwrites it. -/
theorem read_loses_first : ∃ (fs : FileSystem losslessCodec) (log data : List UInt8),
    Logged AnyEvent [102] fs log ∧
      (Event.call (.read 0 1 4) fs).value? = some (.data data) ∧
      (∃ entry, fs.slot (toUnsigned32 0) = some entry ∧ entry.inode.name = [102]) ∧ data ≠ log := by
  obtain ⟨fs, log, logged, checked⟩ := Logged.of_runs
    (AnyEvent : FileSystem losslessCodec → Event → Prop) 1 4 .fifo
    (fun state => decide (state.2 = [97, 98, 99, 100] ∧
      (Event.call (.read 0 1 4) state.1).value? = some (.data [99, 100])) &&
      (state.1.slot (toUnsigned32 0)).any fun entry : Entry => entry.inode.name = [102]) [102]
    [.open [102] 1 1 0, .open [102] 0 2 1, .write 0 (some [97, 98]) 1 2,
      .write 1 (some [99, 100]) 2 3] (by decide +kernel)
  rw [Bool.and_eq_true, decide_eq_true_eq, Option.any_eq_true] at checked
  obtain ⟨⟨written, returned⟩, entry, live, named⟩ := checked
  refine ⟨fs, log, _, logged, returned, ⟨entry, live, of_decide_eq_true named⟩, ?_⟩
  rw [show log = _ from written]
  decide

end FileStorage
