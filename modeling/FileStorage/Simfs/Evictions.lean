import FileStorage.Simfs.FailedWrite
import FileStorage.Simfs.Frames

/-! # The evictions of a write

A write that finds no room evicts one file after the other. `evictions` lists the
states in which an eviction begins, so that a condition on each of them can be asked
for before the write starts.
-/

namespace FileStorage

open Program FileSystem

variable {codec : Codec}

theorem Event.post_writeCall {I E : FileSystem codec → Prop} {fs : FileSystem codec} {fd : Int}
    {buf : Option (List UInt8)} {pid : Pid} {now : Int}
    (post : (fileSystemWrite fd buf pid now { fileSystem := fs, evictedList := [] }).Post
      (fun _ s => I s.fileSystem) (fun _ s => E s.fileSystem) (fun _ => True)) :
    ((Event.write fd buf pid now).call fs).Post (fun _ => I) (fun _ => E) (fun _ => True) := by
  change (Event.writeCall fd buf pid now fs).Post _ _ _
  unfold Event.writeCall
  split
  · rename_i done
    rw [done] at post
    exact post
  · rename_i failed
    rw [failed] at post
    exact post
  · trivial

namespace WriteState

/-- The states in which `makeRoom` begins an eviction, in this order. -/
def evictions (finalCount : Int) (now : Int) :
    (bound : Nat) → WriteState codec → List (FileSystem codec)
  | 0, _ => []
  | bound + 1, s =>
      let available := rtsAvailableBytes s.fileSystem
      if available < finalCount ∧ available ≠ -1 ∧ s.fileSystem.replacementPolicy ≠ .none then
        s.fileSystem :: match rtsEvict now s with
          | .ok _ s => evictions finalCount now bound s
          | _ => []
      else []

variable {I G : FileSystem codec → Prop} {finalCount now : Int}

theorem makeRoom_keeps (evict : ∀ s : WriteState codec, I s.fileSystem → G s.fileSystem →
      (rtsEvict now s).Post (fun _ s' => I s'.fileSystem) (fun _ s' => I s'.fileSystem)
        (fun _ => True))
    (bound : Nat) (s : WriteState codec) (allowed : ∀ gs ∈ evictions finalCount now bound s, G gs)
    (holds : I s.fileSystem) :
    (makeRoom finalCount now bound s).Post (fun _ s' => I s'.fileSystem)
      (fun _ s' => I s'.fileSystem) (fun _ => True) := by
  induction bound generalizing s with
  | zero => trivial
  | succ bound ih =>
      rw [makeRoom, post_bind, post_get, post_ite]
      refine ⟨fun roomless => ?_, fun _ => holds⟩
      simp only [post_bind, post_failIf]
      refine ⟨fun _ => holds, fun sized => ⟨fun _ => holds, fun policy => ?_⟩⟩
      rw [evictions, if_pos ⟨roomless, sized, policy⟩, List.forall_mem_cons] at allowed
      have kept := evict s holds allowed.1
      cases evicted : rtsEvict now s with
      | ok done s₁ =>
          rw [evicted] at kept allowed
          exact ih s₁ allowed.2 kept
      | error code s₁ =>
          rw [evicted] at kept
          exact kept
      | fault why => trivial

/-- An invariant that the evictions keep holds in each state an eviction begins in. -/
theorem holds_of_evictions (evict : ∀ s : WriteState codec, I s.fileSystem → G s.fileSystem →
      (rtsEvict now s).Post (fun _ s' => I s'.fileSystem) (fun _ _ => True) (fun _ => True))
    (bound : Nat) (s : WriteState codec) (allowed : ∀ gs ∈ evictions finalCount now bound s, G gs)
    (holds : I s.fileSystem) : ∀ gs ∈ evictions finalCount now bound s, I gs := by
  induction bound generalizing s with
  | zero => nofun
  | succ bound ih =>
      rw [evictions] at allowed ⊢
      split
      · rename_i begins
        rw [if_pos begins, List.forall_mem_cons] at allowed
        rw [List.forall_mem_cons]
        refine ⟨holds, ?_⟩
        have kept := evict s holds allowed.1
        cases evicted : rtsEvict now s with
        | ok done s₁ =>
            rw [evicted] at kept allowed
            exact ih s₁ allowed.2 kept
        | error code s₁ => nofun
        | fault why => nofun
      · nofun

end WriteState

namespace FileSystem

def evictions (fs : FileSystem codec) (buf : Option (List UInt8)) (now : Int) :
    List (FileSystem codec) :=
  match buf.bind codec.encode with
  | none => []
  | some artifact =>
      if fs.memoryLimit < codec.size artifact then []
      else WriteState.evictions (codec.size artifact) now (fs.fileTable.presenceList.length + 1)
        { fileSystem := fs, evictedList := [] }

/-- The state in which a write has made room, if it comes that far. -/
def roomFor (fs : FileSystem codec) (buf : Option (List UInt8)) (now : Int) :
    Option (FileSystem codec) :=
  match buf.bind codec.encode with
  | none => none
  | some artifact =>
      if fs.memoryLimit < codec.size artifact then none
      else
        match WriteState.makeRoom (codec.size artifact) now (fs.fileTable.presenceList.length + 1)
          { fileSystem := fs, evictedList := [] } with
        | .ok _ s => some s.fileSystem
        | _ => none

variable {I J E G : FileSystem codec → Prop} {fs : FileSystem codec} {fd : Int}
  {buf : Option (List UInt8)} {pid : Pid} {now : Int}

/-- What the evictions keep and the end of the write turns into `J`, or into `E` if the
    write fails. -/
theorem write_call (evict : ∀ s : WriteState codec, I s.fileSystem → G s.fileSystem →
      (WriteState.rtsEvict now s).Post (fun _ s' => I s'.fileSystem) (fun _ s' => I s'.fileSystem)
        (fun _ => True))
    (allowed : ∀ gs ∈ fs.evictions buf now, G gs) (holds : I fs) (weaker : ∀ gs, I gs → E gs)
    (write : ∀ gs bytes, buf = some bytes → gs ∈ fs.roomFor buf now → I gs →
      (writeDescriptor fd buf pid now gs).Post (fun _ => J) (fun _ => E) (fun _ => True)) :
    ((Event.write fd buf pid now).call fs).Post (fun _ => J) (fun _ => E) (fun _ => True) := by
  apply Event.post_writeCall
  simp only [fileSystemWrite, encodeBuffer, WriteState.onFileSystem, post_bind, post_zoom,
    post_orFail]
  refine ⟨fun _ => weaker fs holds, ?_⟩
  rintro bytes rfl
  rw [post_ite]
  refine ⟨fun _ => trivial, fun _ => ?_⟩
  simp only [post_orFail, post_get, post_failIf]
  refine ⟨fun _ => weaker fs holds, fun artifact encodes => ⟨fun _ => weaker fs holds,
    fun fits => ?_⟩⟩
  simp only [evictions, Option.bind_some, encodes, if_neg fits] at allowed
  have kept := WriteState.makeRoom_keeps evict _ _ allowed holds
  simp only [roomFor, Option.bind_some, encodes, if_neg fits] at write
  cases made : WriteState.makeRoom (codec.size artifact) now
      (fs.fileTable.presenceList.length + 1) { fileSystem := fs, evictedList := [] } with
  | ok done s =>
      rw [made] at kept write
      exact write s.fileSystem bytes rfl rfl kept
  | error code s =>
      rw [made] at kept
      exact weaker _ kept
  | fault why => trivial

end FileSystem

end FileStorage
