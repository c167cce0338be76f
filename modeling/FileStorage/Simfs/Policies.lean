import FileStorage.Simfs.Births
import FileStorage.Simfs.Uses

/-! # The replacement policies

A run with a record of when every file was last used and how often it was opened. FIFO
takes the oldest file in every run. The other policies take the file they are named after
as long as the numbers they order the files by agree with the record: the times of the
last change and the references of the files, or the births within a second.
-/

namespace FileStorage

open Program FileSystem

variable {codec : Codec}

/-! ## The condition -/

/-- The step keeps what the policy orders the files by. -/
def KeepsBooks (fs : FileSystem codec) (event : Event) : Prop :=
  match fs.replacementPolicy with
  | .none | .fifo => True
  | .lifo =>
      match event with
      | .write _ buf _ now => ∀ gs ∈ fs.evictions buf now, OneYoungest gs
      | _ => True
  | .lru | .mru => ∀ name ∈ fs.fileTable.presenceList, ∀ inode ∈ fs.file name,
      event.Misdates fs name inode → event.time = some inode.ctime
  | .lfu => ∀ name ∈ fs.fileTable.presenceList, ∀ inode ∈ fs.file name,
      ¬ event.GivesBack fs name inode

instance (fs : FileSystem codec) (event : Event) : Decidable (KeepsBooks fs event) := by
  unfold KeepsBooks
  cases fs.replacementPolicy with
  | none | fifo => exact inferInstanceAs (Decidable True)
  | lifo =>
      cases event with
      | write fd buf pid now => exact inferInstanceAs (Decidable (∀ gs ∈ fs.evictions buf now, _))
      | _ => exact inferInstanceAs (Decidable True)
  | lru | mru | lfu => exact inferInstanceAs (Decidable (∀ name ∈ fs.fileTable.presenceList, _))

/-! ## The record -/

/-- A moment of a run and its record: the last use and the opens of each file, by the
    number under which the file was created. -/
structure Chronicle (codec : Codec) extends Moment codec where
  lastUse : Nat → Nat
  opens : Nat → Nat

namespace Chronicle

def init (start : Nat) (memoryLimit filesLimit : UInt32) (policy : ReplacementPolicy) :
    Chronicle codec where
  clock := start
  fileSystem := .init memoryLimit filesLimit policy
  lastUse _ := 0
  opens _ := 0

/-- The file with this number has the name. -/
def Bears (fs : FileSystem codec) (used : Option Filename) (generation : Nat) : Prop :=
  ∃ name ∈ used, ∃ inode ∈ fs.file name, inode.generation = generation

instance (fs : FileSystem codec) (used : Option Filename) (generation : Nat) :
    Decidable (Bears fs used generation) :=
  inferInstanceAs (Decidable (∃ name ∈ used, _))

def record (c : Chronicle codec) (clock : Nat) (used : Option Filename) (counted : Nat)
    (fs : FileSystem codec) : Chronicle codec where
  clock
  fileSystem := fs
  lastUse generation := if Bears fs used generation then clock else c.lastUse generation
  opens generation :=
    if Bears fs used generation then c.opens generation + counted else c.opens generation

/-- A step is recorded when it returns. -/
def next (c : Chronicle codec) (clock : Nat) (event : Event) : Option (Chronicle codec) :=
  match event.call c.fileSystem with
  | .ok reply fs => some (c.record clock (event.uses c.fileSystem reply) reply.counted fs)
  | .error _ fs => some (c.record clock none 0 fs)
  | .fault _ => none

/-- A step of a run whose clock does not go back and is a time. -/
def Step (guard : FileSystem codec → Event → Prop) (c c' : Chronicle codec) : Prop :=
  c.clock ≤ c'.clock ∧ c'.clock < 2 ^ 31 ∧ ∃ event : Event, event.At c'.clock ∧
    event.Possible c.fileSystem ∧ guard c.fileSystem event ∧ c.next c'.clock event = some c'

/-- The chronicles of the runs whose steps all meet the guard. -/
def Run (guard : FileSystem codec → Event → Prop) (c : Chronicle codec) : Prop :=
  ∃ start memoryLimit filesLimit policy,
    Relation.ReflTransGen (Step guard) (init start memoryLimit filesLimit policy) c

/-- The file is one that the policy takes rather than the other. -/
def Prefers (c : Chronicle codec) (victim other : Inode) : Prop :=
  match c.fileSystem.replacementPolicy with
  | .none => False
  | .fifo => victim.generation ≤ other.generation
  | .lifo => other.generation ≤ victim.generation
  | .lru => c.lastUse victim.generation ≤ c.lastUse other.generation
  | .mru => c.lastUse other.generation ≤ c.lastUse victim.generation
  | .lfu => c.opens victim.generation ≤ c.opens other.generation

instance (c : Chronicle codec) (victim other : Inode) : Decidable (c.Prefers victim other) := by
  unfold Prefers
  cases c.fileSystem.replacementPolicy with
  | none => exact inferInstanceAs (Decidable False)
  | fifo | lifo | lru | mru | lfu => exact Nat.decLe _ _

/-- Run and record a list of steps, each at its second, if each of them can happen then. -/
def nexts (guard : FileSystem codec → Event → Prop) [∀ fs event, Decidable (guard fs event)] :
    List (Nat × Event) → Chronicle codec → Option (Chronicle codec)
  | [], c => some c
  | (clock, event) :: events, c =>
      if c.clock ≤ clock ∧ clock < 2 ^ 31 ∧ event.At clock ∧ event.Possible c.fileSystem ∧
          guard c.fileSystem event then
        (c.next clock event).bind (nexts guard events)
      else none

variable {guard : FileSystem codec → Event → Prop} {c c' : Chronicle codec}
  {fs : FileSystem codec} {event : Event} {clock counted : Nat} {used : Option Filename}
  {name : Filename} {inode changed : Inode}

theorem state_next (next : c.next clock event = some c') :
    (event.call c.fileSystem).state? = some c'.fileSystem := by
  unfold Chronicle.next at next
  split at next
  · rename_i returned
    obtain rfl := Option.some.inj next
    rw [returned]
    rfl
  · rename_i failed
    obtain rfl := Option.some.inj next
    rw [failed]
    rfl
  · cases next

theorem clock_next (next : c.next clock event = some c') : c'.clock = clock := by
  unfold Chronicle.next at next
  split at next
  · obtain rfl := Option.some.inj next
    rfl
  · obtain rfl := Option.some.inj next
    rfl
  · cases next

theorem nexts_steps [∀ fs event, Decidable (guard fs event)] {events : List (Nat × Event)}
    (ran : nexts guard events c = some c') : Relation.ReflTransGen (Step guard) c c' := by
  induction events generalizing c with
  | nil =>
      obtain rfl := Option.some.inj ran
      exact .refl
  | cons step events ih =>
      obtain ⟨clock, event⟩ := step
      rw [nexts] at ran
      split at ran
      · rename_i allowed
        obtain ⟨later, early, timed, possible, guarded⟩ := allowed
        obtain ⟨middle, next, rest⟩ := Option.bind_eq_some_iff.mp ran
        obtain rfl := clock_next next
        exact .head ⟨later, early, event, timed, possible, guarded, next⟩ (ih rest)
      · cases ran

theorem Run.reachable (run : Run guard c) : Reachable guard c.fileSystem := by
  obtain ⟨start, memoryLimit, filesLimit, policy, run⟩ := run
  refine ⟨memoryLimit, filesLimit, policy, ?_⟩
  induction run with
  | refl => exact .refl
  | tail _ next ih =>
      obtain ⟨-, -, event, -, possible, guarded, next⟩ := next
      exact ih.tail ⟨event, possible, guarded, state_next next⟩

theorem bears_iff (births : Births fs clock) (present : fs.file name = some inode) :
    Bears fs used inode.generation ↔ used = some name := by
  constructor
  · rintro ⟨other, is, inode', present', same⟩
    rw [births.eq_of_generation present present' same.symm]
    exact is
  · rintro rfl
    exact ⟨name, rfl, inode, present, rfl⟩

theorem not_bears (births : Births fs clock) {generation : Nat} (fresh : fs.created ≤ generation) :
    ¬ Bears fs used generation := by
  rintro ⟨name, -, inode, present, rfl⟩
  exact absurd (births.numbered name inode present) (not_lt.mpr fresh)

/-! ## The invariant -/

structure Booked (c : Chronicle codec) : Prop where
  births : Births c.fileSystem c.clock
  timely : Timely c.fileSystem
  dated : c.fileSystem.replacementPolicy = .lru ∨ c.fileSystem.replacementPolicy = .mru →
    ∀ name inode, c.fileSystem.file name = some inode → inode.ctime = c.lastUse inode.generation
  counted : c.fileSystem.replacementPolicy = .lfu →
    ∀ name inode, c.fileSystem.file name = some inode →
      inode.referenceCount = c.opens inode.generation
  fresh : ∀ generation, c.fileSystem.created ≤ generation → c.opens generation = 0

namespace Booked

theorem init (start : Nat) (memoryLimit filesLimit : UInt32) (policy : ReplacementPolicy) :
    Booked (.init start memoryLimit filesLimit policy : Chronicle codec) := by
  have nothing (name : Filename) :
      (FileSystem.init memoryLimit filesLimit policy : FileSystem codec).file name = none := by
    cases name <;> rfl
  refine ⟨.init memoryLimit filesLimit policy start, ?_, ?_, ?_, fun _ _ => rfl⟩
  · intro name inode present
    cases (nothing name).symm.trans present
  · intro _ name inode present
    cases (nothing name).symm.trans present
  · intro _ name inode present
    cases (nothing name).symm.trans present

theorem abs_clock (early : clock < 2 ^ 31) : |(clock : Int)| < 2 ^ 31 := by
  rw [abs_lt]
  omega

theorem leaves (booked : Booked c) (births : Births fs clock) (early : clock < 2 ^ 31)
    (more : c.fileSystem.created ≤ fs.created)
    (policy : fs.replacementPolicy = c.fileSystem.replacementPolicy)
    (timed : event.At clock) (keeps : KeepsBooks c.fileSystem event)
    (leaves : event.Leaves c.fileSystem used counted clock fs) :
    Booked (c.record clock used counted fs) where
  births := births
  timely name changed present := by
    obtain ⟨inode, before, follows⟩ := leaves name changed present
    obtain ⟨born, stamped⟩ := booked.timely name inode before
    rw [follows.btime]
    refine ⟨born, ?_⟩
    rcases follows.stamp with same | now
    · rwa [same]
    · rw [now]
      exact abs_clock early
  dated is name changed present := by
    obtain ⟨inode, before, follows⟩ := leaves name changed present
    have is : c.fileSystem.replacementPolicy = .lru ∨ c.fileSystem.replacementPolicy = .mru :=
      policy ▸ is
    have listed := FileTable.mem_presenceList.mpr ⟨inode, before⟩
    have kept : event.Misdates c.fileSystem name inode → event.time = some inode.ctime := by
      unfold KeepsBooks at keeps
      rcases is with is | is
      · rw [is] at keeps
        exact keeps name listed inode before
      · rw [is] at keeps
        exact keeps name listed inode before
    have same := booked.dated is name inode before
    change changed.ctime = ((if Bears fs used changed.generation then clock
      else c.lastUse changed.generation : Nat) : Int)
    rcases follows.ctime with ⟨misdates, late⟩ | ⟨hit, miss⟩
    · exact absurd (timed _ (kept misdates)) late
    · split
      · rename_i bears
        exact hit ((bears_iff births present).mp bears)
      · rename_i bears
        rw [miss fun is => bears ((bears_iff births present).mpr is), follows.generation, same]
  counted is name changed present := by
    obtain ⟨inode, before, follows⟩ := leaves name changed present
    have is : c.fileSystem.replacementPolicy = .lfu := policy ▸ is
    have same := booked.counted is name inode before
    unfold KeepsBooks at keeps
    rw [is] at keeps
    have kept := keeps name (FileTable.mem_presenceList.mpr ⟨inode, before⟩) inode before
    change changed.referenceCount = if Bears fs used changed.generation then
      c.opens changed.generation + counted else c.opens changed.generation
    rw [follows.references.resolve_left kept, follows.generation, same]
    have bears : Bears fs used inode.generation ↔ used = some name :=
      follows.generation ▸ bears_iff births present
    by_cases is : used = some name
    · rw [if_pos is, if_pos (bears.mpr is)]
    · rw [if_neg is, if_neg (fun b => is (bears.mp b)), Nat.add_zero]
  fresh generation beyond :=
    (if_neg (not_bears births beyond)).trans (booked.fresh generation (more.trans beyond))

theorem creates (booked : Booked c) (births : Births fs clock) (early : clock < 2 ^ 31)
    (policy : fs.replacementPolicy = c.fileSystem.replacementPolicy)
    (creates : Event.Creates c.fileSystem name counted clock fs) :
    Booked (c.record clock (some name) counted fs) := by
  obtain ⟨one, created, puts, uses⟩ := creates
  have stored : ∀ other inode, fs.file other = some inode →
      other = name ∧ inode = created ∨ other ≠ name ∧ c.fileSystem.file other = some inode := by
    intro other inode present
    rw [puts] at present
    split at present
    · rename_i this
      exact .inl ⟨this, (Option.some.inj present).symm⟩
    · rename_i different
      exact .inr ⟨different, present⟩
  refine ⟨births, fun other inode present => ?_, fun is other inode present => ?_,
    fun is other inode present => ?_, fun generation beyond => ?_⟩
  · rcases stored other inode present with ⟨rfl, rfl⟩ | ⟨-, old⟩
    · rw [uses.btime, uses.ctime]
      exact ⟨abs_clock early, abs_clock early⟩
    · exact booked.timely other inode old
  · change inode.ctime = ((if Bears fs (some name) inode.generation then clock
      else c.lastUse inode.generation : Nat) : Int)
    rcases stored other inode present with ⟨rfl, rfl⟩ | ⟨different, old⟩
    · rw [if_pos ((bears_iff births present).mpr rfl)]
      exact uses.ctime
    · rw [if_neg fun bears => different (Option.some.inj ((bears_iff births present).mp bears)).symm]
      exact booked.dated (policy ▸ is) other inode old
  · change inode.referenceCount = if Bears fs (some name) inode.generation then
      c.opens inode.generation + counted else c.opens inode.generation
    rcases stored other inode present with ⟨rfl, rfl⟩ | ⟨different, old⟩
    · rw [if_pos ((bears_iff births present).mpr rfl), uses.references, uses.generation]
      exact congrArg (· + counted) (booked.fresh _ (le_refl _)).symm
    · rw [if_neg fun bears => different (Option.some.inj ((bears_iff births present).mp bears)).symm]
      exact booked.counted (policy ▸ is) other inode old
  · refine (if_neg (not_bears births beyond)).trans (booked.fresh generation ?_)
    have beyond : fs.created ≤ generation := beyond
    omega

theorem step (booked : Booked c) {owner : Nat → Filename} (regular : Regular c.fileSystem)
    (backed : Backed c.fileSystem.view) (owned : Owned owner c.fileSystem.view)
    (step : Step KeepsBooks c c') : Booked c' := by
  obtain ⟨later, early, event, timed, possible, keeps, next⟩ := step
  have result := state_next next
  obtain ⟨-, more, -⟩ := Changes.descends regular (Changes.of_call result)
  have policy := Changes.policy regular (Changes.of_call result)
  have births := (booked.births.mono (Int.ofNat_le.mpr later)).step regular timed possible result
  have left := Event.leaves_call regular backed booked.timely owned timed
  unfold Chronicle.next at next
  split at next
  · rename_i reply fs returned
    have recorded := Option.some.inj next
    obtain rfl : fs = c'.fileSystem := congrArg (fun c => c.fileSystem) recorded
    rw [returned] at left
    rw [← recorded]
    rcases left with left | ⟨name, flags, pid, now, rfl, created⟩
    · exact booked.leaves births early more policy timed keeps left
    · exact booked.creates births early policy created
  · rename_i code fs failed
    have recorded := Option.some.inj next
    obtain rfl : fs = c'.fileSystem := congrArg (fun c => c.fileSystem) recorded
    rw [failed] at left
    rw [← recorded]
    exact booked.leaves births early more policy timed keeps left
  · cases next

theorem of_run (run : Run KeepsBooks c) : Booked c := by
  obtain ⟨start, memoryLimit, filesLimit, policy, steps⟩ := run
  induction steps with
  | refl => exact .init start memoryLimit filesLimit policy
  | tail before last ih =>
      have reached := Run.reachable ⟨start, memoryLimit, filesLimit, policy, before⟩
      obtain ⟨owner, owned⟩ := owned_of_reachable reached
      exact ih.step (.of_reachable reached) (backed_of_reachable reached) owned last

end Booked

/-! ## The victims -/

theorem victim_of_gone {s s' : WriteState codec} {now : Int}
    (evicts : (WriteState.rtsEvict now s).state? = some s')
    (stored : s.fileSystem.file name = some inode) (gone : s'.fileSystem.file name = none) :
    victim s.fileSystem = .ok inode := by
  have kept : ∀ {inode₀ : Inode} {done : Bool} {fs₁ : FileSystem codec},
      Reads s.fileSystem.started inode₀ now done fs₁ → fs₁.file name ≠ none := by
    intro inode₀ done fs₁ reads absent
    have listed : name ∈ s.fileSystem.started.fileTable.presenceList :=
      FileTable.mem_presenceList.mpr ⟨inode, stored⟩
    rw [← reads.sameCounts.presenceList] at listed
    obtain ⟨inode₁, present⟩ := FileTable.mem_presenceList.mp listed
    cases absent.symm.trans present
  have removed : ∀ {inode₀ : Inode} {done : Bool} {fs₁ fs' : FileSystem codec} {inode₁ : Inode},
      s.fileSystem.chosen = some inode₀ → Reads s.fileSystem.started inode₀ now true fs₁ →
      fs₁.file inode₀.name = some inode₁ → Removes fs₁ inode₁ done fs' → fs'.file name = none →
      s.fileSystem.chosen = some inode := by
    intro inode₀ done fs₁ fs' inode₁ taken reads found removes absent
    have named := fs₁.fileTable.named inode₀.name inode₁ found
    rw [removes.file (named ▸ found), named] at absent
    split at absent
    · rename_i this
      rw [this, file_of_chosen taken] at stored
      rw [taken, stored]
    · exact absurd absent (kept reads)
  have post : (WriteState.rtsEvict now s).Post
      (fun _ s' => s'.fileSystem.file name = none → s.fileSystem.chosen = some inode)
      (fun _ s' => s'.fileSystem.file name = none → s.fileSystem.chosen = some inode)
      (fun _ => True) := by
    refine (WriteState.rtsEvict_evicts s now).mono ?_ ?_ (fun _ _ => trivial)
    · exact fun _ s' ⟨_, _, _, taken, reads, found, removes⟩ => removed taken reads found removes
    · rintro - s' (same | ⟨inode₀, taken, reads | ⟨fs₁, inode₁, reads, found, removes⟩⟩) absent
      · rw [same] at absent
        cases absent.symm.trans stored
      · exact absurd absent (kept reads)
      · exact removed taken reads found removes absent
  exact victim_of_chosen (post.of_state evicts gone)

/-- Without a policy there is no victim. -/
theorem policy_of_victim (selected : victim fs = .ok inode) : fs.replacementPolicy ≠ .none := by
  intro policy
  obtain ⟨heap, root, heaps, inside, -⟩ := victim_heaps selected
  obtain ⟨rootName, -, keyed⟩ := heaps.keyed root inside
  rw [policy] at keyed
  cases keyed

theorem Booked.prefers {gs : FileSystem codec} (booked : Booked c)
    (remnant : Remnant c.fileSystem gs) (backed : Backed gs.view)
    (young : c.fileSystem.replacementPolicy = .lifo → OneYoungest gs) {other : Inode}
    (selected : victim gs = .ok inode) (stored : gs.file name = some other) :
    c.Prefers inode other := by
  have timely := remnant.timely booked.timely
  have births : Births gs c.clock := booked.births.descends
    ⟨remnant.listed, remnant.created, fun name inode present =>
      ⟨inode, remnant.files name inode present, rfl, rfl⟩⟩
  have before := remnant.files inode.name inode (victim_stored selected)
  have before' := remnant.files name other stored
  have least := victim_least backed timely selected stored
  have chosen := policy_of_victim selected
  unfold Prefers
  rw [remnant.policy] at least chosen
  cases policy : c.fileSystem.replacementPolicy with
  | none => exact absurd policy chosen
  | fifo => exact births.fifo (remnant.policy.trans policy) backed timely selected stored
  | lifo =>
      exact births.lifo (remnant.policy.trans policy) backed timely (young policy) selected stored
  | lru =>
      rw [policy] at least
      have least : inode.ctime ≤ other.ctime := least
      rw [booked.dated (.inl policy) _ inode before, booked.dated (.inl policy) _ other before'] at least
      exact Int.ofNat_le.mp least
  | mru =>
      rw [policy] at least
      have least : other.ctime ≤ inode.ctime := neg_le_neg_iff.mp least
      rw [booked.dated (.inr policy) _ inode before, booked.dated (.inr policy) _ other before'] at least
      exact Int.ofNat_le.mp least
  | lfu =>
      rw [policy] at least
      have least : (inode.referenceCount : Int) ≤ other.referenceCount := least
      rw [booked.counted policy _ inode before, booked.counted policy _ other before'] at least
      exact Int.ofNat_le.mp least

/-- In every run whose steps keep the books, each file that a write evicts is one that the
    policy prefers to all others. -/
theorem policies_honoured (run : Run KeepsBooks c) {fd : Int} {buf : Option (List UInt8)} {pid : Pid}
    {now : Int} (keeps : KeepsBooks c.fileSystem (.write fd buf pid now)) {s s' : WriteState codec}
    (begins : s.fileSystem ∈ c.fileSystem.evictions buf now)
    (evicts : (WriteState.rtsEvict now s).state? = some s') {evicted : Inode}
    (stored : s.fileSystem.file evicted.name = some evicted)
    (gone : s'.fileSystem.file evicted.name = none) :
    ∀ name other, s.fileSystem.file name = some other → c.Prefers evicted other := by
  intro name other stored'
  obtain ⟨remnant, backed⟩ := remnant_of_evictions (backed_of_reachable run.reachable) begins
  refine (Booked.of_run run).prefers remnant backed (fun lifo => ?_)
    (victim_of_gone evicts stored gone) stored'
  unfold KeepsBooks at keeps
  rw [lifo] at keeps
  exact keeps s.fileSystem begins

/-- A file with more content than there is room for: the bytes of a write that failed
    are flushed with the next one. -/
def overfull : List (Nat × Event) :=
  [(0, .open [102] 3 1 0), (0, .remove [102] 1), (1, .write 0 (some (List.replicate 40 97)) 1 1),
    (2, .open [102] 1 1 2), (3, .write 0 (some [98]) 1 3)]

/-- An eviction at the time 9 takes the first of the two files. -/
def takesFirst (gs : FileSystem huffmanCodec) : Bool :=
  (WriteState.rtsEvict 9 { fileSystem := gs, evictedList := [] }).state?.any fun s' =>
    s'.fileSystem.file [102] = none

/-- Under LRU the file goes that has not been used for longer. -/
theorem policies_honoured_lru : ∃ (c : Chronicle huffmanCodec) (gs : FileSystem huffmanCodec)
    (evicted : Inode), c.fileSystem.replacementPolicy = .lru ∧ gs ∈ c.fileSystem.evictions (some [97, 98]) 9 ∧
      gs.file [102] = some evicted ∧ gs.file [103] ≠ none ∧
      ∀ name other, gs.file name = some other → c.Prefers evicted other := by
  have ran : (nexts KeepsBooks (overfull ++ [(4, .open [103] 1 1 4)])
      (.init 0 4096 4 .lru : Chronicle huffmanCodec)).any fun c =>
        c.fileSystem.replacementPolicy = .lru ∧
        KeepsBooks c.fileSystem (.write 0 (some [97, 98]) 1 9) ∧
        ((c.fileSystem.evictions (some [97, 98]) 9).any fun gs =>
          takesFirst gs && (gs.file [102]).isSome && (gs.file [103]).isSome) = true := by
    decide +kernel
  obtain ⟨c, steps, rest⟩ := (Option.any_eq_true _ _).mp ran
  obtain ⟨policy, keeps, evictions⟩ := of_decide_eq_true rest
  obtain ⟨gs, begins, checked⟩ := List.any_eq_true.mp evictions
  simp only [Bool.and_eq_true, Option.isSome_iff_exists] at checked
  obtain ⟨⟨taken, evicted, stored⟩, other, stored'⟩ := checked
  obtain ⟨s', evicts, gone⟩ := (Option.any_eq_true _ _).mp taken
  have named : [102] = evicted.name := (gs.fileTable.named [102] evicted stored).symm
  refine ⟨c, gs, evicted, policy, begins, stored, Option.ne_none_iff_exists'.mpr ⟨other, stored'⟩, ?_⟩
  exact policies_honoured ⟨0, 4096, 4, .lru, nexts_steps steps⟩ keeps begins evicts
    (named ▸ stored) (named ▸ of_decide_eq_true gone)

/-- In every run with the policy each file that a write evicts is one that the policy
    prefers to all others. -/
def Honoured (codec : Codec) (policy : ReplacementPolicy) : Prop :=
  ∀ c : Chronicle codec, Run AnyEvent c → c.fileSystem.replacementPolicy = policy →
    ∀ (buf : Option (List UInt8)) (clock : Nat), c.clock ≤ clock → clock < 2 ^ 31 →
      ∀ s s' : WriteState codec, s.fileSystem ∈ c.fileSystem.evictions buf clock →
        (WriteState.rtsEvict clock s).state? = some s' → ∀ evicted : Inode,
          s.fileSystem.file evicted.name = some evicted → s'.fileSystem.file evicted.name = none →
            ∀ name other, s.fileSystem.file name = some other → c.Prefers evicted other

theorem Run.keepsBooks (run : Run AnyEvent c) (fifo : c.fileSystem.replacementPolicy = .fifo) :
    Run KeepsBooks c := by
  obtain ⟨start, memoryLimit, filesLimit, policy, steps⟩ := run
  refine ⟨start, memoryLimit, filesLimit, policy, ?_⟩
  induction steps with
  | refl => exact .refl
  | tail before last ih =>
      obtain ⟨later, early, event, timed, possible, -, next⟩ := last
      have regular : Regular _ := .of_reachable
        (Run.reachable ⟨start, memoryLimit, filesLimit, policy, before⟩)
      have same := Changes.policy regular (Changes.of_call (state_next next))
      have fifo := same.symm.trans fifo
      refine (ih fifo).tail ⟨later, early, event, timed, possible, ?_, next⟩
      unfold KeepsBooks
      rw [fifo]
      trivial

theorem fifo_honoured : Honoured codec .fifo := by
  intro c run policy buf clock _ _ s s' begins evicts evicted stored gone name other stored'
  obtain ⟨remnant, backed⟩ := remnant_of_evictions (backed_of_reachable run.reachable) begins
  refine (Booked.of_run (run.keepsBooks policy)).prefers remnant backed (fun lifo => ?_)
    (victim_of_gone evicts stored gone) stored'
  cases policy.symm.trans lifo

/-- Steps after which the policy takes the first of two files instead of the second one. -/
def misleading : ReplacementPolicy → List (Nat × Event)
  | .none | .fifo => []
  | .lifo => [(0, .open [102] 3 1 0), (0, .remove [102] 1),
      (1, .write 0 (some (List.replicate 40 97)) 1 1), (2, .open [102] 1 1 2),
      (2, .open [103] 1 1 2), (3, .write 0 (some [98]) 1 3)]
  | .lru => overfull ++ [(4, .lock 1 1 4), (5, .open [103] 1 1 5), (6, .lock 1 1 6)]
  | .mru => overfull ++ [(4, .open [103] 3 1 4), (5, .open [102] 0 1 5), (6, .lock 2 1 6)]
  | .lfu => overfull ++ [(4, .open [103] 1 1 4), (5, .open [102] 0 1 5), (6, .open [102] 0 1 6),
      (7, .close 1 1 7), (7, .close 3 1 7), (7, .close 4 1 7)]

def betrayed (policy : ReplacementPolicy) : Bool :=
  (nexts AnyEvent (misleading policy) (.init 0 4096 4 policy : Chronicle huffmanCodec)).any fun c =>
    c.fileSystem.replacementPolicy = policy ∧ c.clock ≤ 9 ∧
    (c.fileSystem.evictions (some [97, 98]) 9).any fun gs => takesFirst gs &&
      (gs.file [102]).any fun evicted => (gs.file [103]).any fun other => ¬ c.Prefers evicted other

theorem not_honoured {policy : ReplacementPolicy} (betrays : betrayed policy = true) :
    ¬ Honoured huffmanCodec policy := by
  intro honoured
  obtain ⟨c, steps, rest⟩ := (Option.any_eq_true _ _).mp betrays
  obtain ⟨same, later, evictions⟩ := of_decide_eq_true rest
  obtain ⟨gs, begins, checked⟩ := List.any_eq_true.mp evictions
  simp only [Bool.and_eq_true, Option.any_eq_true] at checked
  obtain ⟨taken, evicted, stored, other, stored', prefers⟩ := checked
  obtain ⟨s', evicts, gone⟩ := (Option.any_eq_true _ _).mp taken
  have named : [102] = evicted.name := (gs.fileTable.named [102] evicted stored).symm
  exact of_decide_eq_true prefers (honoured c ⟨0, 4096, 4, policy, nexts_steps steps⟩ same _ 9 later
    (by decide) _ s' begins evicts evicted (named ▸ stored) (named ▸ of_decide_eq_true gone) [103]
    other stored')

/-- LIFO takes the first of two files of one second. LRU and MRU miss the use of a file
    whose owner locks it again. LFU forgets the opens of a file that has been closed. -/
theorem policies_dishonoured : ¬ Honoured huffmanCodec .lifo ∧ ¬ Honoured huffmanCodec .lru ∧
    ¬ Honoured huffmanCodec .mru ∧ ¬ Honoured huffmanCodec .lfu :=
  ⟨not_honoured (by decide +kernel), not_honoured (by decide +kernel),
    not_honoured (by decide +kernel), not_honoured (by decide +kernel)⟩

end Chronicle

end FileStorage
