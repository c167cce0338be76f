import FileStorage.Simfs.Victims
import FileStorage.Simfs.FreeSpace
import FileStorage.Simfs.FailedCalls
import FileStorage.DataStructures.HuffmanOptimal

/-! # The loop of evictions

The loop that makes room for a write takes one file off the table in each turn, so it
ends at the latest when the table is empty. It goes wrong only at a file whose artifact
has been freed; a flush that does not fit into an `int` leaves such a file behind.
-/

namespace FileStorage

open Program FileSystem

variable {codec : Codec}

theorem FileSystem.Spared.refl (s : WriteState codec) : Spared s s := ⟨rfl, rfl⟩

/-- Files are taken off the table and reported one after the other, each while the
    bytes available are too few. -/
inductive Evicts (finalCount : Int) :
    WriteState codec → List EvictedFile → WriteState codec → Prop where
  | stop {s s'} : Spared s s' → Evicts finalCount s [] s'
  | evict {s s₁ s' inode added} : rtsAvailableBytes s.fileSystem < finalCount →
      Expelled s inode s₁ → Evicts finalCount s₁ added s' →
      Evicts finalCount s
        ({ name := inode.name, bytes := s.fileSystem.contentOf inode.name } :: added) s'

structure EvictsNeeded (finalCount : Int) (s : WriteState codec) (added : List EvictedFile)
    (s' : WriteState codec) : Prop where
  steps : Evicts finalCount s added s'
  few : added.length ≤ s.fileSystem.fileTable.count
  reported : s'.evictedList = added.reverse ++ s.evictedList
  once : (added.map EvictedFile.name).Nodup
  removed : ∀ name, name ∈ added.map EvictedFile.name ↔
    s.fileSystem.file name ≠ none ∧ s'.fileSystem.file name = none

namespace Evicts

variable {finalCount : Int} {s s' : WriteState codec} {added : List EvictedFile}

theorem reported (evicts : Evicts finalCount s added s') :
    s'.evictedList = added.reverse ++ s.evictedList := by
  induction evicts with
  | stop spared => exact spared.reported
  | evict _ expelled _ ih =>
      rw [ih, expelled.reported, List.reverse_cons, List.append_assoc]
      rfl

theorem listed (evicts : Evicts finalCount s added s') :
    (added.map EvictedFile.name ++ s'.fileSystem.fileTable.presenceList).Perm
      s.fileSystem.fileTable.presenceList := by
  induction evicts with
  | stop spared =>
      rw [spared.listed]
      exact List.Perm.refl _
  | @evict s s₁ s' inode added _ expelled _ ih =>
      have member : inode.name ∈ s.fileSystem.fileTable.presenceList :=
        FileTable.mem_presenceList.mpr ⟨inode, file_of_chosen expelled.chosen⟩
      rw [expelled.listed] at ih
      exact (ih.cons inode.name).trans (List.perm_cons_erase member).symm

theorem needed (evicts : Evicts finalCount s added s') (regular : Regular s.fileSystem) :
    EvictsNeeded finalCount s added s' := by
  have perm := evicts.listed
  have nodup := perm.nodup_iff.mpr s.fileSystem.fileTable.nodup
  obtain ⟨once, -, apart⟩ := List.nodup_append.mp nodup
  have stored : ∀ (t : WriteState codec) name, t.fileSystem.file name ≠ none ↔
      name ∈ t.fileSystem.fileTable.presenceList := by
    intro t name
    rw [FileTable.mem_presenceList, Option.ne_none_iff_exists']
    rfl
  refine ⟨evicts, ?_, evicts.reported, once, fun name => ?_⟩
  · have length := perm.length_eq
    rw [List.length_append, List.length_map] at length
    rw [regular.listed]
    omega
  · rw [stored, ← not_not (a := s'.fileSystem.file name = none), ← ne_eq, stored, ← perm.mem_iff,
      List.mem_append]
    constructor
    · exact fun member => ⟨.inl member, fun kept => apart name member name kept rfl⟩
    · exact fun both => both.1.resolve_right both.2

end Evicts

/-- The loop of a write ends, with an error or with room, and the files that it takes
    off the table on the way are needed and reported. -/
def LoopEnds (finalCount now : Int) (s : WriteState codec) : Prop :=
  (WriteState.makeRoom finalCount now (s.fileSystem.fileTable.presenceList.length + 1) s).Post
    (fun _ s' => finalCount ≤ rtsAvailableBytes s'.fileSystem ∧
      ∃ added, EvictsNeeded finalCount s added s')
    (fun _ s' => ∃ added, EvictsNeeded finalCount s added s') (fun _ => False)

theorem makeRoom_evicts (finalCount now : Int) (bound : Nat) (s : WriteState codec)
    {owner : Nat → Filename} (owned : Owned owner s.fileSystem.view) (live : Live s.fileSystem.view)
    (enough : s.fileSystem.fileTable.presenceList.length < bound) :
    (WriteState.makeRoom finalCount now bound s).Post
      (fun _ s' => finalCount ≤ rtsAvailableBytes s'.fileSystem ∧
        ∃ added, Evicts finalCount s added s')
      (fun _ s' => ∃ added, Evicts finalCount s added s') (fun _ => False) := by
  induction bound generalizing s owner with
  | zero => cases enough
  | succ bound ih =>
      rw [WriteState.makeRoom, post_bind, post_get, post_ite]
      refine ⟨fun roomless => ?_, fun room => ⟨not_lt.mp room, [], .stop (.refl s)⟩⟩
      simp only [post_bind, post_failIf]
      refine ⟨fun _ => ⟨[], .stop (.refl s)⟩, fun _ => ⟨fun _ => ⟨[], .stop (.refl s)⟩, fun _ => ?_⟩⟩
      refine ((rtsEvict_reports s now).and (rtsEvict_performs s now)).mono ?_ ?_ ?_
      · rintro - s₁ ⟨⟨inode, expelled⟩, name, new, performs⟩
        have evictions : Evictions [.reread name new, .vanish name] := .cons name new .nil
        obtain ⟨owner', owned'⟩ := (evictions.sameContent owned performs name).2
        have member : inode.name ∈ s.fileSystem.fileTable.presenceList :=
          FileTable.mem_presenceList.mpr ⟨inode, file_of_chosen expelled.chosen⟩
        have some_ := List.length_pos_of_mem member
        have shorter := List.length_erase_of_mem member
        rw [← expelled.listed] at shorter
        refine (ih s₁ owned' (evictions.live owned live performs) (by omega)).mono ?_ ?_
          (fun _ h => h)
        · rintro - s' ⟨room, added, evicts⟩
          exact ⟨room, _, .evict roomless expelled evicts⟩
        · rintro - s' ⟨added, evicts⟩
          exact ⟨_, .evict roomless expelled evicts⟩
      · rintro - s₁ ⟨spared | ⟨inode, expelled⟩, -⟩
        · exact ⟨[], .stop spared⟩
        · exact ⟨_, .evict roomless expelled (.stop (.refl s₁))⟩
      · rintro - ⟨⟨inode, taken, dangling⟩, -⟩
        have present := file_of_chosen taken
        rcases live inode.name _ (view_file present) with null | ⟨artifact, kept⟩
        · exact dangling.1 null
        · cases dangling.2.symm.trans kept

/-- In a run in which no flush is torn the loop of a write ends, whatever it is to
    make room for. -/
theorem loop_ends {fs : FileSystem codec} (reached : Reachable Untorn fs) (finalCount now : Int)
    (list : List EvictedFile) : LoopEnds finalCount now { fileSystem := fs, evictedList := list } := by
  obtain ⟨⟨owner, owned⟩, live⟩ := live_of_untorn reached
  have regular := Regular.of_reachable reached
  refine (makeRoom_evicts finalCount now _ _ owned live (Nat.lt_succ_self _)).mono ?_ ?_ (fun _ h => h)
  · rintro - s' ⟨room, added, evicts⟩
    exact ⟨room, added, evicts.needed regular⟩
  · rintro - s' ⟨added, evicts⟩
    exact ⟨added, evicts.needed regular⟩

theorem loop_ends_two : ∃ fs : FileSystem huffmanCodec,
    (Reachable Untorn fs ∧ fs.fileTable.count = 2) ∧
      LoopEnds 1048577 9 { fileSystem := fs, evictedList := [] } := by
  obtain ⟨fs, reached, checked⟩ := Reachable.of_runs
    (Untorn : FileSystem huffmanCodec → Event → Prop) 1 4 .lru
    (fun fs => decide (fs.fileTable.count = 2))
    [.open [102] 1 1 0, .open [103] 1 2 1, .write 0 (some [97, 98]) 1 2,
      .write 1 (some [99, 100]) 2 3] (by decide +kernel)
  exact ⟨fs, ⟨reached, of_decide_eq_true checked⟩, loop_ends reached 1048577 9 []⟩

/-! ## A torn flush -/

theorem Event.write_state {I : FileSystem codec → Prop} {fs : FileSystem codec} {fd : Int}
    {buf : Option (List UInt8)} {pid : Pid} {now : Int}
    (post : (fileSystemWrite fd buf pid now { fileSystem := fs, evictedList := [] }).Post
      (fun _ s => I s.fileSystem) (fun _ s => I s.fileSystem) (fun _ => False)) :
    ∃ fs', ((Event.write fd buf pid now).call fs).state? = some fs' ∧ I fs' := by
  change ∃ fs', (Event.writeCall fd buf pid now fs).state? = some fs' ∧ _
  unfold Event.writeCall
  split
  · rename_i done
    rw [done] at post
    exact ⟨_, rfl, post⟩
  · rename_i failed
    rw [failed] at post
    exact ⟨_, rfl, post⟩
  · rename_i faults
    rw [faults] at post
    exact post.elim

/-- One file of 65 MB of memory is stored, and the table is charged with the bytes. -/
structure OneFile (fs : FileSystem codec) (name : Filename) (charged : Nat) : Prop where
  listed : fs.fileTable.presenceList = [name]
  size : fs.fileTable.size = charged
  limit : fs.memoryLimit = 68157440
  policy : fs.replacementPolicy = .fifo

structure Leads (fs : FileSystem codec) (name : Filename) (copy : Inode) : Prop where
  slot : fs.slot 0 = some { owner := 1, inode := copy }
  named : copy.name = name
  unlocked : copy.locked = 0
  buffer : copy.buffer = []
  stored : fs.file name ≠ none

section Torn

variable {fs : FileSystem codec} {name : Filename} {copy : Inode} {bytes : List UInt8}
  {artifact : codec.Artifact}

theorem toUnsigned32_zero : toUnsigned32 0 = 0 := by
  unfold toUnsigned32
  rfl

theorem Leads.not_shutOut (leads : Leads fs name copy) : ¬ ShutOut copy 1 := by
  unfold ShutOut Inode.isFileLocked
  rw [leads.unlocked]
  decide

theorem OneFile.available {charged : Nat} (one : OneFile fs name charged)
    (fits : charged ≤ 68157440) : rtsAvailableBytes fs = 68157440 - charged := by
  unfold rtsAvailableBytes
  rw [one.size, one.limit, toInt32_of_small (by omega), if_neg (by omega)]
  exact toInt32_of_range (by omega) (by omega)

theorem OneFile.sized {charged : Nat} (one : OneFile fs name charged) (fits : charged ≤ 68157440) :
    toInt32 fs.fileTable.size ≠ -1 := by
  rw [one.size, toInt32_of_small (by omega)]
  omega

theorem charged_first {size : Nat} (fits : size ≤ 68157440) :
    toUnsigned64 ((0 : Nat) + toInt32 (size - toInt32 (0 : Nat))) = size := by
  rw [toInt32_of_small (by decide), Nat.cast_zero, sub_zero, zero_add,
    toInt32_of_small (by omega), toUnsigned64_of_nat (by omega)]

theorem first_write (one : OneFile fs name 0) (leads : Leads fs name copy)
    (empty : copy.directPtr = .null) (none_ : copy.size = 0) (some_ : bytes ≠ [])
    (short : bytes.length < 2 ^ 31) (encodes : codec.encode bytes = some artifact)
    (fits : codec.size artifact ≤ 68157440) :
    ∃ fs', ((Event.write 0 (some bytes) 1 1).call fs).state? = some fs' ∧
      OneFile fs' name (codec.size artifact) ∧ ∃ copy' id, Leads fs' name copy' ∧
        copy'.directPtr = .artifact id ∧ (fs'.file name).map Inode.directPtr = some (.artifact id) ∧
        Memory.at? fs'.memory (.artifact id) = some artifact := by
  have appended : Memory.appended fs.memory copy.directPtr (copy.buffer ++ bytes) = some bytes := by
    rw [empty, leads.buffer]
    rfl
  have unique : ∀ {other}, fs.slot 0 = some { owner := 1, inode := other } → other = copy := by
    intro other found
    cases leads.slot.symm.trans found
    rfl
  refine Event.write_state (I := fun fs' => OneFile fs' name (codec.size artifact) ∧ _) ?_
  refine post_write_of_room encodes (by rw [one.limit]; exact fits)
    (by rw [one.available (by omega)]; omega) (fun long => absurd short (not_lt.mpr long)) ?_
  refine ((writeDescriptor_exact some_ (one.sized (by omega)) 0 1 1).and
    (writeDescriptor_flushes fs 0 bytes 1 1)).mono ?_ ?_ ?_
  · rintro - fs' ⟨-, other, slot, -, -, stored, flushes, -⟩
    rw [toUnsigned32_zero] at slot flushes
    obtain rfl := unique slot
    cases flushes with
    | empty nothing => exact absurd (List.append_eq_nil_iff.mp nothing).2 some_
    | @full content new _ appended' _ encodes' =>
        obtain rfl := Option.some.inj (appended.symm.trans appended')
        obtain rfl := Option.some.inj (encodes.symm.trans encodes')
        obtain ⟨listed, -, size, -⟩ := counts_flushed
          (fs.updateSlot 0 fun _ => other.appended bytes 1) 0 (other.appended bytes 1) artifact 1
        have stored' : (fs.updateSlot 0 fun _ => other.appended bytes 1).file
            (other.appended bytes 1).name ≠ none := stored
        have ptr := directPtr_flushed stored' 0 artifact 1
        have charged : (other.appended bytes 1).size = 0 := none_
        have before : (fs.updateSlot 0 fun _ => other.appended bytes 1).fileTable.size = 0 := one.size
        rw [charged, before, charged_first fits] at size
        have buffered : (fs.updateSlot 0 fun _ => other.appended bytes 1).slot 0 =
            some { owner := 1, inode := other.appended bytes 1 } := by
          simp [slot]
        obtain ⟨inode, found, pointed⟩ := Option.map_eq_some_iff.mp ptr
        have found : (FileSystem.flushed _ 0 (other.appended bytes 1) artifact 1).file name =
            some inode := leads.named ▸ found
        refine ⟨⟨listed.trans one.listed, size, one.limit, one.policy⟩, _, fs.memory.length,
          ⟨slot_flushed buffered artifact 1, leads.named, leads.unlocked, rfl, ?_⟩, rfl, ?_, ?_⟩
        · rw [found]
          nofun
        · rw [found, Option.map_some, pointed]
          rfl
        · exact Memory.at?_append_self _ artifact (Memory.length_free _ _)
  · rintro - fs' ⟨⟨refused, -⟩ | ⟨stuck, -⟩, -⟩
    · rw [toUnsigned32_zero] at refused
      rcases refused copy leads.slot with shut | large
      · exact (leads.not_shutOut shut).elim
      · rw [leads.buffer, List.length_nil, zero_add] at large
        exact absurd short (not_lt.mpr large)
    · rw [toUnsigned32_zero] at stuck
      obtain ⟨other, slot, -, -, absent | (⟨-, large⟩ | ⟨old, found, -⟩) |
        ⟨content, new, appended', encodes', oversized⟩⟩ := stuck
      all_goals obtain rfl := unique slot
      · exact (leads.stored (leads.named ▸ absent)).elim
      · rw [leads.buffer, none_, List.nil_append, zero_add] at large
        exact absurd short (not_lt.mpr large)
      · rw [show _ = DirectPtr.null from empty] at found
        cases found
      · obtain rfl := Option.some.inj (appended.symm.trans appended')
        obtain rfl := Option.some.inj (encodes.symm.trans encodes')
        rw [show (_ : Inode).size = 0 from none_, one.size, charged_first fits,
          toInt32_of_small (by omega)] at oversized
        omega
  · rintro - ⟨-, other, slot, pointed, -⟩
    rw [toUnsigned32_zero] at slot
    rw [unique slot] at pointed
    exact pointed empty

theorem torn_write {id : Nat} (one : OneFile fs name (codec.size artifact))
    (leads : Leads fs name copy) (ptr : copy.directPtr = .artifact id)
    (shared : (fs.file name).map Inode.directPtr = some (.artifact id))
    (live : Memory.at? fs.memory (.artifact id) = some artifact)
    (fits : codec.size artifact ≤ 68157440)
    (long : 2 ^ 31 ≤ (codec.decode artifact).length + 1) {last : codec.Artifact}
    (encodes : codec.encode [97] = some last) (nothing : codec.size last = 0) :
    ∃ fs', ((Event.write 0 (some [97]) 1 2).call fs).state? = some fs' ∧
      OneFile fs' name (codec.size artifact) ∧
      ∃ inode, fs'.file name = some inode ∧ Dangling fs' inode := by
  have unique : ∀ {other}, fs.slot 0 = some { owner := 1, inode := other } → other = copy := by
    intro other found
    cases leads.slot.symm.trans found
    rfl
  have live' : Memory.at? fs.memory copy.directPtr = some artifact := ptr ▸ live
  have unflushable : ∀ fs', ¬ Flushes (fs.updateSlot 0 fun _ => copy.appended [97] 2) 0
      (copy.appended [97] 2) 2 fs' := by
    intro fs' flushes
    cases flushes with
    | empty nothing => exact List.cons_ne_nil _ _ (List.append_eq_nil_iff.mp nothing).2
    | full _ appended small _ =>
        have whole := Memory.appended_of_live live' (copy.buffer ++ [97])
        obtain rfl := Option.some.inj (whole.symm.trans appended)
        rw [leads.buffer, List.nil_append, List.length_append, List.length_singleton] at small
        omega
  refine Event.write_state (I := fun fs' => OneFile fs' name (codec.size artifact) ∧ _) ?_
  refine post_write_of_room encodes (by omega) (by rw [one.available fits]; omega)
    (fun long => absurd long (by decide)) ?_
  refine ((writeDescriptor_exact (List.cons_ne_nil _ _) (one.sized fits) 0 1 2).and
    (writeDescriptor_flushes fs 0 [97] 1 2)).mono ?_ ?_ ?_
  · rintro - fs' ⟨-, other, slot, -, -, -, flushes, -⟩
    rw [toUnsigned32_zero] at slot flushes
    obtain rfl := unique slot
    exact (unflushable fs' flushes).elim
  · rintro - fs' ⟨failed, rfl | ⟨other, slot, -, -, rest⟩⟩
    · -- a descriptor that takes the byte is changed
      rw [toUnsigned32_zero] at failed
      rcases failed with ⟨refused, -⟩ | ⟨-, changed | ⟨other, changed⟩⟩
      · rcases refused copy leads.slot with shut | large
        · exact (leads.not_shutOut shut).elim
        · rw [leads.buffer] at large
          exact absurd large (by decide)
      · exact absurd rfl changed
      · exact absurd rfl changed
    · rw [toUnsigned32_zero] at slot rest
      obtain rfl := unique slot
      rcases rest with ⟨absent, -⟩ | ⟨-, ⟨flushes, -⟩ | tears⟩
      · exact (leads.stored (leads.named ▸ absent)).elim
      · exact (unflushable fs' flushes).elim
      · cases tears with
        | null none_ _ =>
            cases ptr.symm.trans none_
        | live =>
            obtain ⟨inode, present, pointed⟩ := Option.map_eq_some_iff.mp shared
            refine ⟨⟨one.listed, one.size, one.limit, one.policy⟩, inode, present, ?_, ?_⟩
            · rw [pointed]
              nofun
            · change Memory.at? (Memory.free fs.memory other.directPtr) inode.directPtr = none
              rw [pointed, ← ptr]
              exact Memory.at?_free_self _ _
  · rintro - ⟨-, other, slot, -, freed⟩
    rw [toUnsigned32_zero] at slot
    rw [unique slot, live'] at freed
    cases freed

theorem not_loopEnds {charged : Nat} {inode : Inode} {now : Int} {list : List EvictedFile}
    (one : OneFile fs name charged) (fits : charged ≤ 68157440) (half : 68157440 < 2 * charged)
    (present : fs.file name = some inode) (dangling : Dangling fs inode) :
    ¬ LoopEnds charged now { fileSystem := fs, evictedList := list } := by
  intro ends
  have available := one.available fits
  have taken : fs.chosen = some inode := by
    have policy : fs.replacementPolicy ≠ .none := by
      rw [one.policy]
      nofun
    obtain ⟨victim, selected⟩ := victim_isOk policy (by rw [one.listed]; nofun)
    have stored := victim_stored selected
    have member : victim.name ∈ fs.fileTable.presenceList :=
      FileTable.mem_presenceList.mpr ⟨victim, stored⟩
    rw [one.listed, List.mem_singleton] at member
    rw [chosen_eq selected, member, present]
  unfold LoopEnds at ends
  rw [WriteState.makeRoom, post_bind, post_get] at ends
  change (ite (rtsAvailableBytes fs < charged) _ _ : Program _ _ _ _) _ |>.Post _ _ _ at ends
  rw [if_pos (by omega)] at ends
  simp only [post_bind, post_failIf] at ends
  have ends := (ends.2 (by omega)).2 (by rw [one.policy]; nofun)
  have exact_ := rtsEvict_exact { fileSystem := fs, evictedList := list } now
  cases evicted : WriteState.rtsEvict now { fileSystem := fs, evictedList := list } with
  | ok done s' =>
      rw [evicted] at exact_
      obtain ⟨other, new, ⟨old, taken', live, -⟩, -⟩ := exact_
      obtain rfl := Option.some.inj (taken.symm.trans taken')
      cases dangling.2.symm.trans live
  | error code s' =>
      rw [evicted] at exact_
      rcases exact_ with ⟨null, -⟩ | ⟨⟨other, old, taken', live, -⟩, -⟩ |
        ⟨⟨other, new, ⟨old, taken', live, -⟩, -⟩, -⟩
      · exact dangling.1 (null inode taken)
      · obtain rfl := Option.some.inj (taken.symm.trans taken')
        cases dangling.2.symm.trans live
      · obtain rfl := Option.some.inj (taken.symm.trans taken')
        cases dangling.2.symm.trans live
  | fault why =>
      rw [evicted] at ends
      exact ends

end Torn

def twoKinds (n : Nat) : List UInt8 := List.replicate n 97 ++ [98]

theorem length_twoKinds (n : Nat) : (twoKinds n).length = n + 1 := by
  rw [twoKinds, List.length_append, List.length_replicate, List.length_singleton]

theorem encode_twoKinds {n : Nat} (some_ : 0 < n) (short : n + 1 < 2 ^ 31) :
    ∃ artifact, huffmanCodec.encode (twoKinds n) = some artifact ∧
      huffmanCodec.decode artifact = twoKinds n ∧ huffmanCodec.size artifact = (n + 32) / 32 := by
  have length := length_twoKinds n
  have nonempty : twoKinds n ≠ [] := List.ne_nil_of_length_pos (by omega)
  obtain ⟨made, is⟩ :=
    Option.isSome_iff_exists.mp (HuffmanTree.encoded_isSome nonempty (by omega))
  obtain ⟨encodes, bytes⟩ := HuffmanTree.encoded_spec is
  have kinds : (twoKinds n).toFinset = {97, 98} := by
    rw [twoKinds, List.toFinset_append, List.toFinset_replicate_of_ne_zero (by omega)]
    rfl
  obtain ⟨merges, words⟩ := HuffmanTree.encode_merges encodes
  have bits := merges.cost_two (by rw [Multiset.card_map, ← Finset.card_def, kinds]; rfl)
  rw [HuffmanTree.sum_count, length] at bits
  refine ⟨made, is, bytes.trans (if_pos ?_), ?_⟩
  · refine ⟨97, ?_, 98, ?_, by decide⟩ <;> rw [← List.mem_toFinset, kinds] <;> decide
  · change made.artifact.size = _
    rw [words, bits]

/-- 2^31 - 1 bytes are written into a new file and then another one: the flush of the
    last byte frees the artifact and fails, and the next write that has to evict the
    file does not return. -/
theorem loop_does_not_end : ∃ (fs : FileSystem huffmanCodec) (bytes : List UInt8)
    (artifact : huffmanCodec.Artifact), Reachable AnyEvent fs ∧ bytes.length < 2 ^ 31 ∧
    huffmanCodec.encode bytes = some artifact ∧ huffmanCodec.size artifact ≤ fs.memoryLimit ∧
    ¬ LoopEnds (huffmanCodec.size artifact) 3 { fileSystem := fs, evictedList := [] } := by
  obtain ⟨artifact, encodes, decodes, size⟩ :=
    encode_twoKinds (n := 2 ^ 31 - 2) (by decide) (by decide)
  have length := length_twoKinds (2 ^ 31 - 2)
  generalize twoKinds (2 ^ 31 - 2) = bytes at *
  obtain ⟨fs, reached, checked⟩ := Reachable.of_runs
    (AnyEvent : FileSystem huffmanCodec → Event → Prop) 65 4 .fifo
    (fun fs => decide (fs.fileTable.presenceList = [[102]] ∧ fs.fileTable.size = 0 ∧
      fs.memoryLimit = 68157440 ∧ fs.replacementPolicy = .fifo ∧ fs.file [102] ≠ none) &&
      (fs.slot 0).any fun entry => entry.owner = 1 ∧ entry.inode.name = [102] ∧
        entry.inode.locked = 0 ∧ entry.inode.buffer = [] ∧ entry.inode.directPtr = .null ∧
        entry.inode.size = 0)
    [.open [102] 1 1 0] (by decide +kernel)
  rw [Bool.and_eq_true, Option.any_eq_true] at checked
  obtain ⟨table, ⟨owner, copy⟩, slot, checked⟩ := checked
  obtain ⟨listed, empty, limit, policy, stored⟩ := of_decide_eq_true table
  obtain ⟨rfl, named, unlocked, buffer, null, none_⟩ := of_decide_eq_true checked
  have size : huffmanCodec.size artifact = 67108864 := size
  obtain ⟨fs₁, first, one₁, copy₁, id, leads₁, ptr, shared, live⟩ := first_write
    ⟨listed, empty, limit, policy⟩ ⟨slot, named, unlocked, buffer, stored⟩ null none_
    (List.ne_nil_of_length_pos (by omega)) (by omega) encodes (by omega)
  have single : (huffmanCodec.encode [97]).any fun last => huffmanCodec.size last = 0 := by
    decide +kernel
  obtain ⟨last, encodes', nothing⟩ := (Option.any_eq_true _ _).mp single
  obtain ⟨fs₂, second, one₂, inode, present, dangling⟩ := torn_write one₁ leads₁ ptr shared live
    (by omega) (by rw [decodes]; omega) encodes' (of_decide_eq_true nothing)
  obtain ⟨memoryLimit, filesLimit, policy_, run⟩ := reached
  have toFirst : Step AnyEvent fs fs₁ :=
    ⟨.write 0 (some bytes) 1 1, trivial, trivial, first⟩
  have toSecond : Step AnyEvent fs₁ fs₂ :=
    ⟨.write 0 (some [97]) 1 2, trivial, trivial, second⟩
  refine ⟨fs₂, bytes, artifact, ⟨memoryLimit, filesLimit, policy_, (run.tail toFirst).tail toSecond⟩,
    by omega, encodes, ?_, not_loopEnds one₂ (by omega) (by omega) present dangling⟩
  rw [one₂.limit]
  omega

end FileStorage
