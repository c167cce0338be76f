import FileStorage.Simfs.Outcomes

/-! # Making room for a write

A write evicts one file after the other until its bytes fit, and puts them behind what
its copy of the inode leads to. `Lands` lists the states from which it returns with
the bytes at the end of the file: every victim on the way can be read and taken off, and
the descriptor that takes the bytes in the end is up to date.
-/

namespace FileStorage

open Program FileSystem

variable {codec : Codec}

namespace FileSystem

def contentOf (fs : FileSystem codec) (name : Filename) : List UInt8 :=
  ((fs.stored name).bind Stored.content).getD []

/-- The descriptor takes the bytes, and what its copy leads to, its buffer and they are
    read back as the wanted content. -/
def Takes (fs : FileSystem codec) (fd : Nat) (bytes : List UInt8) (pid : Pid)
    (wanted : List UInt8) : Prop :=
  ∃ copy content new, fs.slot fd = some { owner := pid, inode := copy } ∧ ¬ ShutOut copy pid ∧
    copy.buffer.length + bytes.length < 2 ^ 31 ∧
    ¬ Unfit fs { copy with buffer := copy.buffer ++ bytes } ∧
    Memory.appended fs.memory copy.directPtr (copy.buffer ++ bytes) = some content ∧
    codec.encode content = some new ∧ codec.decode new = wanted

/-- The evictions of a write go through until there is room, and the descriptor then
    takes the bytes. -/
inductive Lands (fd : Nat) (bytes : List UInt8) (pid : Pid) (now count : Int)
    (wanted : List UInt8) : FileSystem codec → Prop where
  | takes {fs} : count ≤ rtsAvailableBytes fs → Takes fs fd bytes pid wanted →
      Lands fd bytes pid now count wanted fs
  | evict {fs inode new} : Evicting fs count → Readable fs inode new →
      Counted fs (codec.size new) → Lands fd bytes pid now count wanted (fs.evicted inode new now) →
      Lands fd bytes pid now count wanted fs

variable {fs : FileSystem codec} {fd : Nat} {bytes wanted : List UInt8} {pid : Pid}
  {now count : Int} {inode copy : Inode} {new : codec.Artifact}

theorem lands_of_room (room : count ≤ rtsAvailableBytes fs) :
    Lands fd bytes pid now count wanted fs ↔ Takes fs fd bytes pid wanted := by
  constructor
  · rintro (⟨-, takes⟩ | ⟨evicting, -⟩)
    · exact takes
    · exact absurd room (not_le.mpr evicting.1)
  · exact .takes room

theorem not_lands (roomless : rtsAvailableBytes fs < count)
    (stuck : Evicting fs count → ∀ inode new, Readable fs inode new → ¬ Counted fs (codec.size new)) :
    ¬ Lands fd bytes pid now count wanted fs := by
  rintro (⟨room, -⟩ | ⟨evicting, readable, counted, -⟩)
  · exact absurd room (not_le.mpr roomless)
  · exact stuck evicting _ _ readable counted

theorem lands_of_evicted (evicting : Evicting fs count) (readable : Readable fs inode new)
    (counted : Counted fs (codec.size new)) :
    Lands fd bytes pid now count wanted fs ↔
      Lands fd bytes pid now count wanted (fs.evicted inode new now) := by
  constructor
  · rintro (⟨room, -⟩ | ⟨-, other, -, lands⟩)
    · exact absurd room (not_le.mpr evicting.1)
    · obtain ⟨rfl, rfl⟩ := readable.unique other
      exact lands
  · exact .evict evicting readable counted

theorem Lands.short (lands : Lands fd bytes pid now count wanted fs) : bytes.length < 2 ^ 31 := by
  induction lands with
  | takes _ takes =>
      obtain ⟨copy, content, new, -, -, short, -⟩ := takes
      omega
  | evict _ _ _ _ ih => exact ih

/-! ## The end of a write -/

theorem directPtr_flushed (stored : fs.file copy.name ≠ none) (fd : Nat) (new : codec.Artifact)
    (now : Int) :
    ((fs.flushed fd copy new now).file copy.name).map Inode.directPtr =
      some (.artifact fs.memory.length) := by
  obtain ⟨inode, present⟩ := Option.ne_none_iff_exists'.mp stored
  obtain ⟨added, files⟩ := file_flushed fs fd copy new now
  rw [files, if_pos rfl, present]
  rfl

theorem contentOf_flushed (stored : fs.file copy.name ≠ none) (fd : Nat) (new : codec.Artifact)
    (now : Int) :
    (fs.flushed fd copy new now).contentOf copy.name = codec.decode new := by
  obtain ⟨after, found, ptr⟩ := Option.map_eq_some_iff.mp (directPtr_flushed stored fd new now)
  have live : Memory.at? (fs.flushed fd copy new now).memory (.artifact fs.memory.length) =
      some new := Memory.at?_append_self _ new (Memory.length_free _ _)
  rw [contentOf, FileSystem.stored, found, Option.map_some, Option.bind_some, ptr, live]
  rfl

/-- The write returns with the wanted content exactly if the descriptor takes the bytes. -/
theorem writeDescriptor_takes (some_ : bytes ≠ []) (sized : toInt32 fs.fileTable.size ≠ -1)
    {fd : Int} (live : fs.slot (toUnsigned32 fd) = some { owner := pid, inode := copy })
    (now : Int) (wanted : List UInt8) :
    (writeDescriptor fd (some bytes) pid now fs).Post
      (fun _ fs' => Takes fs (toUnsigned32 fd) bytes pid wanted ↔ fs'.contentOf copy.name = wanted)
      (fun _ _ => ¬ Takes fs (toUnsigned32 fd) bytes pid wanted)
      (fun _ => ¬ Takes fs (toUnsigned32 fd) bytes pid wanted) := by
  have unique : ∀ other, fs.slot (toUnsigned32 fd) = some { owner := pid, inode := other } →
      other = copy := by
    intro other found
    cases live.symm.trans found
    rfl
  refine ((writeDescriptor_exact some_ sized fd pid now).and
    (writeDescriptor_flushes fs fd bytes pid now)).mono ?_ ?_ ?_
  · rintro - fs' ⟨⟨taken, fits⟩, copy', live', allowed, -, stored, flushes, -⟩
    obtain rfl := unique copy' live'
    cases flushes with
    | empty nothing => exact absurd (List.append_eq_nil_iff.mp nothing).2 some_
    | @full content new buffered appended small encodes =>
        have stored' : (fs.updateSlot (toUnsigned32 fd) fun _ => copy'.appended bytes now).file
            (copy'.appended bytes now).name ≠ none := stored
        have after := contentOf_flushed stored' (toUnsigned32 fd) new now
        rw [show (copy'.appended bytes now).name = copy'.name from rfl] at after
        rw [after]
        constructor
        · rintro ⟨other, content', new', found, -, -, -, appended', encodes', is⟩
          obtain rfl := unique other found
          obtain rfl := Option.some.inj (appended.symm.trans appended')
          obtain rfl := Option.some.inj (encodes.symm.trans encodes')
          exact is
        · intro is
          have short : copy'.buffer.length + bytes.length < 2 ^ 31 := by
            by_contra long
            refine taken fun other found => .inr ?_
            obtain rfl := unique other found
            exact not_lt.mp long
          refine ⟨copy', content, new, live, allowed, short, fun unfit => ?_, appended, encodes, is⟩
          exact fits ⟨copy', live, allowed, short, unfit⟩
  · rintro - fs' ⟨fails, -⟩ ⟨other, content, new, found, allowed, short, fits, -⟩
    obtain rfl := unique other found
    rcases fails with ⟨refused, -⟩ | ⟨⟨other, found', -, -, unfit⟩, -⟩
    · exact (refused other live).elim allowed (not_le.mpr short)
    · obtain rfl := unique other found'
      exact fits unfit
  · rintro - ⟨-, other, found, pointed, freed⟩ ⟨other', content, new, found', -, -, -, appended, -⟩
    obtain rfl := unique other found
    obtain rfl := unique other' found'
    cases ptr : other'.directPtr with
    | null => exact pointed ptr
    | artifact id =>
        rw [ptr] at appended freed
        rw [Memory.appended_of_freed freed] at appended
        cases appended
    | bytes raw =>
        rw [ptr] at appended
        cases appended

/-! ## The loop -/

theorem makeRoom_lands (some_ : bytes ≠ []) (counts : 0 ≤ count) {fd : Int} (now : Int)
    (wanted : List UInt8) (bound : Nat) (s : WriteState codec)
    (bounded : s.fileSystem.fileTable.presenceList.length < bound)
    (live : s.fileSystem.slot (toUnsigned32 fd) = some { owner := pid, inode := copy }) :
    ((WriteState.makeRoom count now bound >>= fun _ =>
      WriteState.onFileSystem (writeDescriptor fd (some bytes) pid now)) s).Post
      (fun _ s' => Lands (toUnsigned32 fd) bytes pid now count wanted s.fileSystem ↔
        s'.fileSystem.contentOf copy.name = wanted)
      (fun _ _ => ¬ Lands (toUnsigned32 fd) bytes pid now count wanted s.fileSystem)
      (fun _ => ¬ Lands (toUnsigned32 fd) bytes pid now count wanted s.fileSystem) := by
  induction bound generalizing s with
  | zero => cases bounded
  | succ bound ih =>
      simp only [WriteState.makeRoom, post_bind, post_get]
      by_cases roomless : rtsAvailableBytes s.fileSystem < count
      · rw [if_pos roomless]
        simp only [post_bind, post_failIf]
        refine ⟨fun minus => not_lands roomless fun evicting => absurd minus evicting.2.1,
          fun available => ⟨fun policy => not_lands roomless fun evicting =>
            absurd policy evicting.2.2, fun policy => ?_⟩⟩
        have evicting : Evicting s.fileSystem count := ⟨roomless, available, policy⟩
        refine (rtsEvict_exact s now).mono ?_ ?_ ?_
        · rintro - s₁ ⟨inode, new, readable, counted, after, -⟩
          rw [lands_of_evicted evicting readable counted, ← after, ← post_bind]
          have shorter := presenceList_evicted (file_of_chosen readable.choose_spec.1) new now
          rw [← after] at shorter
          refine ih s₁ (by omega) ?_
          rw [after]
          exact live
        · rintro - s₁ (⟨null, -⟩ | ⟨spoilt, -⟩ | ⟨⟨inode, new, readable, uncounted⟩, -⟩)
          · refine not_lands roomless fun _ inode new readable _ => ?_
            refine (not_readable_of fun other taken => ?_).2 inode new readable
            rw [null other taken]
            rfl
          · exact not_lands roomless fun _ inode new readable _ => readable.not_spoilt spoilt
          · refine not_lands roomless fun _ inode' new' readable' counted => ?_
            obtain ⟨rfl, rfl⟩ := readable.unique readable'
            exact uncounted counted
        · rintro - ⟨inode, taken, pointed, freed⟩
          refine not_lands roomless fun _ inode' new readable _ => ?_
          refine (not_readable_of fun other is => ?_).2 inode' new readable
          obtain rfl := Option.some.inj (taken.symm.trans is)
          exact freed
      · rw [if_neg roomless]
        simp only [post_pure, WriteState.onFileSystem, post_zoom]
        have room := not_lt.mp roomless
        have sized : toInt32 s.fileSystem.fileTable.size ≠ -1 := by
          intro oversized
          simp only [rtsAvailableBytes, oversized, if_true] at room
          omega
        rw [lands_of_room room]
        exact writeDescriptor_takes some_ sized live now wanted

end FileSystem

/-- A write of bytes that fit into the memory returns with them at the end of its file
    exactly if the evictions go through and the descriptor takes them. -/
theorem write_appends_iff {fs : FileSystem codec} {fd : Int} {pid : Pid} {copy : Inode}
    (live : fs.slot (toUnsigned32 fd) = some { owner := pid, inode := copy }) {bytes : List UInt8}
    (some_ : bytes ≠ []) {artifact : codec.Artifact} (encodes : codec.encode bytes = some artifact)
    (fits : codec.size artifact ≤ fs.memoryLimit) (now : Int) :
    (∃ done s', fileSystemWrite fd (some bytes) pid now { fileSystem := fs, evictedList := [] } =
        .ok done s' ∧ s'.fileSystem.contentOf copy.name = fs.contentOf copy.name ++ bytes) ↔
      Lands (toUnsigned32 fd) bytes pid now (codec.size artifact)
        (fs.contentOf copy.name ++ bytes) fs := by
  apply Outcome.Post.returns_iff
  simp only [fileSystemWrite, encodeBuffer, WriteState.onFileSystem, post_bind, post_zoom,
    post_orFail, Option.some.injEq, reduceCtorEq, false_implies, true_and, forall_eq']
  rw [post_ite]
  refine ⟨fun big lands => absurd lands.short (not_lt.mpr big), fun _ => ?_⟩
  simp only [post_orFail, encodes, reduceCtorEq, false_implies, true_and, Option.some.injEq,
    forall_eq', post_get, post_failIf]
  refine ⟨fun large => absurd fits (not_le.mpr large), fun _ => ?_⟩
  have lands := makeRoom_lands some_ (Int.natCast_nonneg (codec.size artifact)) now
    (fs.contentOf copy.name ++ bytes) _ { fileSystem := fs, evictedList := [] }
    (Nat.lt_succ_self _) live
  rw [post_bind] at lands
  simpa only [WriteState.onFileSystem, post_zoom] using lands

/-- What a write of pid 1 through descriptor 0 or 1 makes of the content of its file. -/
def writtenContent (fs : FileSystem huffmanCodec) (fd : Int) (bytes : List UInt8) (name : Filename) :
    Option (List UInt8) :=
  match fileSystemWrite fd (some bytes) 1 3 { fileSystem := fs, evictedList := [] } with
  | .ok _ s' => some (s'.fileSystem.contentOf name)
  | _ => none

theorem writtenContent_eq_some {fs : FileSystem huffmanCodec} {fd : Int}
    {bytes content : List UInt8} {name : Filename} (written : writtenContent fs fd bytes name = some content) :
    ∃ done s', fileSystemWrite fd (some bytes) 1 3 { fileSystem := fs, evictedList := [] } =
      .ok done s' ∧ s'.fileSystem.contentOf name = content := by
  unfold writtenContent at written
  split at written
  · rename_i done s' returned
    exact ⟨done, s', returned, Option.some.inj written⟩
  · cases written

/-- A second write to a file for which another file has to go first. -/
theorem write_appends_evicting : ∃ (fs : FileSystem huffmanCodec) (count : Nat),
    Reachable AnyEvent fs ∧ rtsAvailableBytes { fs with memoryLimit := 2 } < count ∧
    Lands 1 [99, 100] 1 3 count (fs.contentOf [103] ++ [99, 100])
      { fs with memoryLimit := 2 } := by
  obtain ⟨fs, reached, checked⟩ := Reachable.of_runs
    (AnyEvent : FileSystem huffmanCodec → Event → Prop) 1 4 .fifo
    (fun fs => (fs.slot 1).any fun entry => entry.owner = 1 ∧ entry.inode.name = [103] ∧
      (huffmanCodec.encode [99, 100]).any fun artifact =>
        rtsAvailableBytes { fs with memoryLimit := 2 } < huffmanCodec.size artifact ∧
          huffmanCodec.size artifact ≤ 2 ∧
          writtenContent { fs with memoryLimit := 2 } 1 [99, 100] [103] =
            some (fs.contentOf [103] ++ [99, 100]))
    [.open [102] 1 1 0, .write 0 (some [97, 98]) 1 1, .open [103] 1 1 1,
      .write 1 (some [97, 98]) 1 2] (by decide +kernel)
  obtain ⟨⟨owner, copy⟩, live, checked⟩ := (Option.any_eq_true _ _).mp checked
  obtain ⟨rfl, named, checked⟩ := of_decide_eq_true checked
  obtain ⟨artifact, encodes, checked⟩ := (Option.any_eq_true _ _).mp checked
  obtain ⟨full, fits, content⟩ := of_decide_eq_true checked
  refine ⟨fs, huffmanCodec.size artifact, reached, full, ?_⟩
  have named : copy.name = [103] := named
  have one : toUnsigned32 1 = 1 := by decide +kernel
  have slot : FileSystem.slot { fs with memoryLimit := 2 } (toUnsigned32 1) =
      some { owner := 1, inode := copy } := by
    rw [one]
    exact live
  have lands := (write_appends_iff slot (by decide) encodes fits 3).mp
  rw [named, one] at lands
  exact lands (writtenContent_eq_some content)

/-- A write through a descriptor that was opened before the file was written through
    another one: it returns, and the file holds its bytes alone. -/
theorem write_not_appended : ∃ (fs : FileSystem huffmanCodec) (copy inode : Inode)
    (artifact : huffmanCodec.Artifact), Reachable AnyEvent fs ∧ fs.replacementPolicy ≠ .none ∧
    fs.memoryLimit < 2 ^ 31 ∧ fs.slot 1 = some { owner := 1, inode := copy } ∧
    fs.file copy.name = some inode ∧ inode.locked = 0 ∧
    huffmanCodec.encode [99, 100] = some artifact ∧ huffmanCodec.size artifact ≤ fs.memoryLimit ∧
    ¬ ∃ done s', fileSystemWrite 1 (some [99, 100]) 1 3 { fileSystem := fs, evictedList := [] } =
        .ok done s' ∧
      s'.fileSystem.contentOf copy.name = fs.contentOf copy.name ++ [99, 100] := by
  obtain ⟨fs, reached, checked⟩ := Reachable.of_runs
    (AnyEvent : FileSystem huffmanCodec → Event → Prop) 1 4 .fifo
    (fun fs => fs.replacementPolicy ≠ .none ∧ fs.memoryLimit < 2 ^ 31 ∧
      (fs.slot 1).any fun entry => entry.owner = 1 ∧
        (fs.file entry.inode.name).any fun inode => inode.locked = 0 ∧
          (huffmanCodec.encode [99, 100]).any fun artifact =>
            huffmanCodec.size artifact ≤ fs.memoryLimit ∧
              writtenContent fs 1 [99, 100] entry.inode.name ≠
                some (fs.contentOf entry.inode.name ++ [99, 100]))
    [.open [102] 1 1 0, .open [102] 0 1 1, .write 0 (some [97, 98]) 1 2] (by decide +kernel)
  obtain ⟨policy, small, checked⟩ := of_decide_eq_true checked
  obtain ⟨⟨owner, copy⟩, live, checked⟩ := (Option.any_eq_true _ _).mp checked
  obtain ⟨rfl, checked⟩ := of_decide_eq_true checked
  obtain ⟨inode, present, checked⟩ := (Option.any_eq_true _ _).mp checked
  obtain ⟨free, checked⟩ := of_decide_eq_true checked
  obtain ⟨artifact, encodes, checked⟩ := (Option.any_eq_true _ _).mp checked
  obtain ⟨fits, content⟩ := of_decide_eq_true checked
  refine ⟨fs, copy, inode, artifact, reached, policy, small, live, present, free, encodes, fits, ?_⟩
  rintro ⟨done, s', returned, is⟩
  rw [writtenContent, returned] at content
  exact content (congrArg some is)

end FileStorage
