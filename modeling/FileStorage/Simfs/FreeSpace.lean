import FileStorage.Simfs.Refusals
import FileStorage.Simfs.Run

/-! # The free space

`gnl_simfs_rts_available_bytes` computes the free space in the types of the source
and returns it as an `int`. It is exact as long as the free space is one, and the
size of the file table does not look like an error.
-/

namespace FileStorage

open Program FileSystem

variable {codec : Codec}

namespace FileSystem

theorem toInt32_eq_minusOne (n : Nat) : toInt32 n = -1 ↔ n % 2 ^ 32 = 2 ^ 32 - 1 := by
  unfold toInt32
  rw [Int.bmod_def]
  split <;> omega

theorem toInt32_sub_toInt32 (limit size : Nat) :
    toInt32 (limit - toInt32 size) = toInt32 (limit - size) := by
  unfold toInt32
  rw [Int.sub_bmod_bmod]

/-- The free space is an `int`, and the size is not the value of an error. -/
def Representable (limit size : Nat) : Prop :=
  limit - size < 2 ^ 31 ∧ size % 2 ^ 32 ≠ 2 ^ 32 - 1

instance (limit size : Nat) : Decidable (Representable limit size) := by
  unfold Representable
  infer_instance

theorem rtsAvailableBytes_eq_iff {fs : FileSystem codec}
    (inside : fs.fileTable.size ≤ fs.memoryLimit) :
    rtsAvailableBytes fs = fs.memoryLimit - fs.fileTable.size ↔
      Representable fs.memoryLimit fs.fileTable.size := by
  have error := toInt32_eq_minusOne fs.fileTable.size
  unfold rtsAvailableBytes Representable
  by_cases wrong : toInt32 fs.fileTable.size = -1
  · simp only [wrong, if_true]
    omega
  · have sized : fs.fileTable.size % 2 ^ 32 ≠ 2 ^ 32 - 1 := fun is => wrong (error.mpr is)
    simp only [if_neg wrong, toInt32_sub_toInt32, sized, ne_eq, not_false_eq_true, and_true]
    have range := toInt32_range (fs.memoryLimit - fs.fileTable.size)
    constructor
    · intro exact_
      omega
    · intro small
      exact toInt32_of_range (by omega) (by omega)

theorem makeRoom_of_room {s : WriteState codec} {finalCount : Int}
    (room : finalCount ≤ rtsAvailableBytes s.fileSystem) (now : Int) (bound : Nat) :
    WriteState.makeRoom finalCount now (bound + 1) s = .ok () s := by
  rw [WriteState.makeRoom, bind_run]
  change (if rtsAvailableBytes s.fileSystem < finalCount then _ else pure () : Program _ _ _ _) s = _
  rw [if_neg (not_lt.mpr room)]
  rfl

theorem post_write_of_room {fs : FileSystem codec} {bytes : List UInt8}
    {artifact : codec.Artifact} {fd : Int} {pid : Pid} {now : Int} {list : List EvictedFile}
    {Q : Unit → WriteState codec → Prop} {E : Errno → WriteState codec → Prop} {F : Fault → Prop}
    (encodes : codec.encode bytes = some artifact) (fits : codec.size artifact ≤ fs.memoryLimit)
    (room : (codec.size artifact : Int) ≤ rtsAvailableBytes fs)
    (long : 2 ^ 31 ≤ bytes.length → F .overflow)
    (post : (writeDescriptor fd (some bytes) pid now fs).Post
      (fun _ fs' => Q () { fileSystem := fs', evictedList := list })
      (fun code fs' => E code { fileSystem := fs', evictedList := list }) F) :
    (fileSystemWrite fd (some bytes) pid now { fileSystem := fs, evictedList := list }).Post Q E F := by
  simp only [fileSystemWrite, encodeBuffer, WriteState.onFileSystem, post_bind, post_zoom,
    post_orFail]
  refine ⟨fun absent => absurd absent (Option.some_ne_none _), fun source is => ?_⟩
  obtain rfl := Option.some.inj is
  rw [post_ite]
  refine ⟨long, fun _ => ?_⟩
  simp only [post_orFail, post_get, post_failIf]
  refine ⟨fun absent => ?_, fun made same => ⟨fun large => ?_, fun _ => ?_⟩⟩
  · rw [encodes] at absent
    cases absent
  · obtain rfl := Option.some.inj (encodes.symm.trans same)
    exact absurd fits (not_le.mpr large)
  · obtain rfl := Option.some.inj (encodes.symm.trans same)
    rw [makeRoom_of_room room]
    exact post

theorem writeDescriptor_avoids (fd : Int) (buf : Option (List UInt8)) (pid : Pid) (now : Int) :
    Avoids .EDQUOT (writeDescriptor fd buf pid now : Call codec Unit) := by
  have found : ∀ fs : FileSystem codec, Avoids .EDQUOT
      (ofExcept (fs.fileDescriptorTable.1.get (toUnsigned32 fd) pid) : Call codec Inode) := by
    intro fs
    refine ofExcept_avoids ?_
    unfold FileDescriptorTable.get
    split
    · nofun
    · split <;> nofun
  exact .bind (.bind .get found) fun copy => .bind (.failIf nofun) fun _ =>
    .bind (.failIf nofun) fun _ => .bind (write_avoids (by decide) copy buf now) fun _ =>
      .bind (.modify _) fun _ => rtsFflushInode_avoids (by decide) _ now

/-- The writes whose compressed buffer fits into the free space evict nothing and do
    not report that the space is used up. -/
def Undisturbed (fs : FileSystem codec) : Prop :=
  ∀ (fd : Int) (bytes : List UInt8) (artifact : codec.Artifact) (pid : Pid) (now : Int)
    (list : List EvictedFile), codec.encode bytes = some artifact →
    codec.size artifact ≤ fs.memoryLimit - fs.fileTable.size →
    (fileSystemWrite fd (some bytes) pid now { fileSystem := fs, evictedList := list }).Post
      (fun _ s => s.evictedList = list) (fun code s => s.evictedList = list ∧ code ≠ .EDQUOT)
      (fun _ => True)

theorem undisturbed {fs : FileSystem codec} (inside : fs.fileTable.size ≤ fs.memoryLimit)
    (exact_ : rtsAvailableBytes fs = fs.memoryLimit - fs.fileTable.size) : Undisturbed fs := by
  intro fd bytes artifact pid now list encodes fits
  refine post_write_of_room encodes (by omega) (by rw [exact_]; omega) (fun _ => trivial) ?_
  exact (writeDescriptor_avoids fd (some bytes) pid now fs).mono (fun _ _ _ => rfl)
    (fun _ _ other => ⟨rfl, other⟩) (fun _ _ => trivial)

/-- The free space is computed exactly, so that a write that fits is not disturbed,
    exactly if it is an `int` and the size of the file table is no error value. -/
theorem available_exact_iff {fs : FileSystem codec}
    (inside : fs.fileTable.size ≤ fs.memoryLimit) :
    (rtsAvailableBytes fs = fs.memoryLimit - fs.fileTable.size ∧ Undisturbed fs) ↔
      Representable fs.memoryLimit fs.fileTable.size := by
  rw [← rtsAvailableBytes_eq_iff inside]
  exact ⟨fun both => both.1, fun exact_ => ⟨exact_, undisturbed inside exact_⟩⟩

theorem available_exact_stored : ∃ fs : FileSystem huffmanCodec, Reachable AnyEvent fs ∧
    fs.fileTable.size = 1 ∧ rtsAvailableBytes fs = fs.memoryLimit - fs.fileTable.size ∧
    Undisturbed fs := by
  obtain ⟨fs, reached, checked⟩ := Reachable.of_runs
    (AnyEvent : FileSystem huffmanCodec → Event → Prop) 128 10 .fifo
    (fun fs => fs.fileTable.size = 1 ∧ fs.memoryLimit = 134217728)
    [.open [102] 1 1 0, .write 0 (some [97, 98]) 1 1] (by decide +kernel)
  obtain ⟨stored, limit⟩ := of_decide_eq_true checked
  have inside : fs.fileTable.size ≤ fs.memoryLimit := by omega
  have representable : Representable fs.memoryLimit fs.fileTable.size := by
    rw [stored, limit]
    decide
  exact ⟨fs, reached, stored, (available_exact_iff inside).mpr representable⟩

/-- An empty file system of 2048 MB has 2^31 bytes of free space: as an `int` this is
    negative, and a write of two bytes fails for want of room. -/
theorem available_inexact :
    ¬ ∀ (capacity files : UInt32) (policy : ReplacementPolicy) (fileTable : FileTable),
      let fs : FileSystem huffmanCodec := { FileSystem.init capacity files policy with fileTable }
      fileTable.size ≤ fs.memoryLimit →
      rtsAvailableBytes fs = fs.memoryLimit - fileTable.size ∧ Undisturbed fs := by
  intro claimed
  have wrong := (claimed 2048 10 .none .init (Nat.zero_le _)).1
  exact absurd ((rtsAvailableBytes_eq_iff (Nat.zero_le _)).mp wrong) (by decide)

end FileSystem

end FileStorage
