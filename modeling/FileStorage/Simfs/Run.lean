import FileStorage.Simfs.Calls
import Mathlib.Logic.Relation

/-! # Runs of the file system

The calls of any number of threads follow one another in any order, since the
mutex makes each of them one step; a call that waits takes a further step each
time its thread wakes up. `Reachable` collects the states of all runs whose steps
meet a guard, from any initial file system.
-/

namespace FileStorage

open Program FileSystem

variable {codec : Codec}

inductive Event where
  | open (name : Filename) (flags : Nat) (pid : Pid) (now : Int)
  | write (fd : Int) (buf : Option (List UInt8)) (pid : Pid) (now : Int)
  | read (fd : Int) (pid : Pid) (now : Int)
  | close (fd : Int) (pid : Pid) (now : Int)
  | remove (name : Filename) (pid : Pid)
  | lock (fd : Int) (pid : Pid) (now : Int)
  | unlock (fd : Int) (pid : Pid) (now : Int)
  | removeSession (pid : Pid) (now : Int)
  | wake (waiter : Waiter) (now : Int)

inductive Reply where
  | descriptor (fd : Nat)
  | data (bytes : List UInt8)
  | success
  | waiting
  deriving DecidableEq

namespace Event

def writeCall (fd : Int) (buf : Option (List UInt8)) (pid : Pid) (now : Int) : Call codec Reply :=
  fun fs =>
    match fileSystemWrite fd buf pid now { fileSystem := fs, evictedList := [] } with
    | .ok _ s => .ok .success s.fileSystem
    | .error code s => .error code s.fileSystem
    | .fault why => .fault why

def call : Event → Call codec Reply
  | .open name flags pid now => do
      match ← fileSystemOpen name flags pid now with
      | .done fd => pure (.descriptor fd)
      | .waiting => pure .waiting
  | .write fd buf pid now => writeCall fd buf pid now
  | .read fd pid now => do
      let bytes ← fileSystemRead fd pid now
      pure (.data bytes)
  | .close fd pid now => do
      fileSystemClose fd pid now
      pure .success
  | .remove name pid => do
      fileSystemRemove name pid
      pure .success
  | .lock fd pid now => do
      match ← fileSystemLock fd pid now with
      | .done _ => pure .success
      | .waiting => pure .waiting
  | .unlock fd pid now => do
      fileSystemUnlock fd pid now
      pure .success
  | .removeSession pid now => do
      fileSystemRemoveSession pid now
      pure .success
  | .wake waiter now => do
      match ← wakeUp waiter now with
      | .done (some fd) => pure (.descriptor fd)
      | .done none => pure .success
      | .waiting => pure .waiting

/-- Only a thread that waits can wake up. -/
def Possible (fs : FileSystem codec) : Event → Prop
  | .wake waiter _ => waiter ∈ fs.blocked
  | _ => True

/-- What an open does once its file is there. -/
def OpenRest (name : Filename) (flags : Nat) (pid : Pid) (acts : List (Action codec)) : Prop :=
  acts = [] ∨ (∃ fd, acts = [.attach fd name pid]) ∨ flags.testBit 1 = true ∧
    (Requested name pid acts ∨
      (∃ fd, acts = [.request name, .grant name pid, .settle name, .attach fd name pid]) ∨
      ∃ generation, acts = [.request name, .block { pid, name, generation, call := .open }])

/-- What a read of the descriptor `fd` of a file does. -/
def ReadActs (fd : Nat) (name : Filename) (acts : List (Action codec)) : Prop :=
  acts = [.spoil name] ∨ ∃ new, acts = [.reread name new] ∨ acts = [.reread name new, .tear fd] ∨
    ∃ flushed, acts = [.reread name new, .flush fd flushed]

/-- The actions a step from one state to the other can consist of. -/
def Does (fs fs' : FileSystem codec) : Event → List (Action codec) → Prop
  | .open name flags pid _, acts => acts = [] ∨ ∃ pre rest, Opening name flags pre ∧
      OpenRest name flags pid rest ∧ acts = pre ++ rest
  | .write fd buf pid _, acts => ∃ evs rest, Evictions evs ∧ acts = evs ++ rest ∧
      (WriteFails fs fs' (toUnsigned32 fd) buf pid rest ∨ ∃ bytes new, buf = some bytes ∧
        Owns fs.view (toUnsigned32 fd) pid ∧
        rest = [.store (toUnsigned32 fd) bytes, .flush (toUnsigned32 fd) new])
  | .read fd pid _, acts => acts = [] ∨ ∃ s, fs.view.slot (toUnsigned32 fd) = some s ∧ s.owner = pid ∧
      ReadActs (toUnsigned32 fd) s.name acts
  | .close fd pid _, acts => acts = [] ∨
      Owns fs.view (toUnsigned32 fd) pid ∧ acts = [.close (toUnsigned32 fd)]
  | .remove name pid, acts => acts = [] ∨
      (∃ f, fs.view.file name = some f ∧ f.locked = pid ∧ f.locked ≠ 0) ∧ acts = [.vanish name]
  | .lock fd pid _, acts => acts = [] ∨ ∃ s, fs.view.slot (toUnsigned32 fd) = some s ∧ s.owner = pid ∧
      (Requested s.name pid acts ∨ ∃ generation,
        acts = [.request s.name, .block { pid, name := s.name, generation, call := .lock }])
  | .unlock fd pid _, acts => acts = [] ∨ ∃ s, fs.view.slot (toUnsigned32 fd) = some s ∧
      s.owner = pid ∧ acts = [.unlock s.name pid]
  | .removeSession pid _, acts => ∃ rest, Leaving pid rest ∧
      (acts = rest ∨ acts = rest ++ [.forget pid])
  | .wake waiter _, acts => acts = [] ∨ ∃ rest, acts = .unblock waiter :: rest ∧
      (rest = [] ∨ rest = [.grant waiter.name waiter.pid] ∨
        rest = [.grant waiter.name waiter.pid, .settle waiter.name] ∨
        ∃ fd, rest = [.grant waiter.name waiter.pid, .settle waiter.name,
          .attach fd waiter.name waiter.pid])

/-- The kinds of actions each kind of step can contain. -/
inductive MayDo : Event → Action codec → Prop where
  | create {name flags pid now} : flags.testBit 0 = true →
      MayDo (.open name flags pid now) (.create name)
  | attach {name flags pid now} (fd) : MayDo (.open name flags pid now) (.attach fd name pid)
  | openRequest {name flags pid now} : flags.testBit 1 = true →
      MayDo (.open name flags pid now) (.request name)
  | openGrant {name flags pid now} : flags.testBit 1 = true →
      MayDo (.open name flags pid now) (.grant name pid)
  | openSettle {name flags pid now} : flags.testBit 1 = true →
      MayDo (.open name flags pid now) (.settle name)
  | openBlock {name flags pid now} (generation) : flags.testBit 1 = true →
      MayDo (.open name flags pid now) (.block { pid, name, generation, call := .open })
  | evictReread {fd buf pid now} (name new) : MayDo (.write fd buf pid now) (.reread name new)
  | evictSpoil {fd buf pid now} (name) : MayDo (.write fd buf pid now) (.spoil name)
  | evict {fd buf pid now} (name) : MayDo (.write fd buf pid now) (.vanish name)
  | store {fd buf pid now} (bytes) : MayDo (.write fd buf pid now) (.store (toUnsigned32 fd) bytes)
  | writeTear {fd buf pid now} : MayDo (.write fd buf pid now) (.tear (toUnsigned32 fd))
  | writeFlush {fd buf pid now} (new) :
      MayDo (.write fd buf pid now) (.flush (toUnsigned32 fd) new)
  | reread {fd pid now} (name new) : MayDo (.read fd pid now) (.reread name new)
  | spoil {fd pid now} (name) : MayDo (.read fd pid now) (.spoil name)
  | readTear {fd pid now} : MayDo (.read fd pid now) (.tear (toUnsigned32 fd))
  | readFlush {fd pid now} (new) : MayDo (.read fd pid now) (.flush (toUnsigned32 fd) new)
  | close {fd pid now} : MayDo (.close fd pid now) (.close (toUnsigned32 fd))
  | remove {name pid} : MayDo (.remove name pid) (.vanish name)
  | lockRequest {fd pid now} (name) : MayDo (.lock fd pid now) (.request name)
  | lockGrant {fd pid now} (name) : MayDo (.lock fd pid now) (.grant name pid)
  | lockSettle {fd pid now} (name) : MayDo (.lock fd pid now) (.settle name)
  | lockBlock {fd pid now} (name generation) :
      MayDo (.lock fd pid now) (.block { pid, name, generation, call := .lock })
  | unlock {fd pid now} (name) : MayDo (.unlock fd pid now) (.unlock name pid)
  | leaveRelease {pid now} (name) : MayDo (.removeSession pid now) (.release name pid)
  | leaveUnlock {pid now} (name) : MayDo (.removeSession pid now) (.unlock name pid)
  | forget {pid now} : MayDo (.removeSession pid now) (.forget pid)
  | unblock {waiter now} : MayDo (.wake waiter now) (.unblock waiter)
  | wakeGrant {waiter now} : MayDo (.wake waiter now) (.grant waiter.name waiter.pid)
  | wakeSettle {waiter now} : MayDo (.wake waiter now) (.settle waiter.name)
  | wakeAttach {waiter now} (fd) : MayDo (.wake waiter now) (.attach fd waiter.name waiter.pid)

theorem Evictions.mayDo {evs : List (Action codec)} (evictions : Evictions evs) (fd : Int)
    (buf : Option (List UInt8)) (pid : Pid) (now : Int) :
    ∀ a ∈ evs, MayDo (.write fd buf pid now) a := by
  induction evictions with
  | nil => nofun
  | cons name new _ ih =>
      simp only [List.forall_mem_cons]
      exact ⟨.evictReread name new, .evict name, ih⟩

theorem Does.mayDo {event : Event} {fs fs' : FileSystem codec} {acts : List (Action codec)}
    (does : event.Does fs fs' acts) : ∀ a ∈ acts, event.MayDo a := by
  cases event with
  | «open» name flags pid now =>
      obtain rfl | ⟨pre, rest, opening, does, rfl⟩ := does
      · nofun
      rw [List.forall_mem_append]
      constructor
      · rcases opening with ⟨-, rfl⟩ | ⟨flag, rfl⟩
        · nofun
        · simpa using .create flag
      · rcases does with rfl | ⟨fd, rfl⟩ | ⟨flag, requested | ⟨fd, rfl⟩ | ⟨generation, rfl⟩⟩
        · nofun
        · simpa using .attach fd
        · rcases requested with rfl | rfl | rfl | rfl <;>
            simp [MayDo.openRequest, MayDo.openGrant, MayDo.openSettle, flag]
        · simp [MayDo.openRequest, MayDo.openGrant, MayDo.openSettle, MayDo.attach, flag]
        · simp [MayDo.openRequest, MayDo.openBlock, flag]
  | write fd buf pid now =>
      obtain ⟨evs, rest, evictions, rfl, fails⟩ := does
      rw [List.forall_mem_append]
      refine ⟨Evictions.mayDo evictions fd buf pid now, ?_⟩
      rcases fails with (fails | ⟨bytes, -, fails, -⟩) | ⟨bytes, new, -, -, rfl⟩
      · rcases fails with rfl | ⟨name, rfl | ⟨new, rfl | rfl⟩⟩ <;>
          simp [MayDo.evictReread, MayDo.evictSpoil, MayDo.evict]
      · rcases fails with rfl | ⟨rfl, -⟩ | rfl | ⟨new, rfl, -⟩ <;>
          simp [MayDo.store, MayDo.writeTear, MayDo.writeFlush]
      · simp [MayDo.store, MayDo.writeFlush]
  | read fd pid now =>
      rcases does with rfl | ⟨s, -, -, rfl | ⟨new, rfl | rfl | ⟨flushed, rfl⟩⟩⟩ <;>
        simp [MayDo.reread, MayDo.spoil, MayDo.readTear, MayDo.readFlush]
  | close fd pid now => rcases does with rfl | ⟨-, rfl⟩ <;> simp [MayDo.close]
  | remove name pid => rcases does with rfl | ⟨-, rfl⟩ <;> simp [MayDo.remove]
  | lock fd pid now =>
      rcases does with rfl | ⟨s, -, -, (rfl | rfl | rfl | rfl) | ⟨generation, rfl⟩⟩ <;>
        simp [MayDo.lockRequest, MayDo.lockGrant, MayDo.lockSettle, MayDo.lockBlock]
  | unlock fd pid now => rcases does with rfl | ⟨s, -, -, rfl⟩ <;> simp [MayDo.unlock]
  | removeSession pid now =>
      obtain ⟨rest, leaving, is⟩ := does
      have may : ∀ a ∈ rest, MayDo (.removeSession pid now) a := by
        intro a member
        obtain ⟨name, rfl | rfl⟩ := leaving a member
        · exact .leaveRelease name
        · exact .leaveUnlock name
      rcases is with rfl | rfl
      · exact may
      · rw [List.forall_mem_append]
        exact ⟨may, by simp [MayDo.forget]⟩
  | wake waiter now =>
      rcases does with rfl | ⟨rest, rfl, rfl | rfl | rfl | ⟨fd, rfl⟩⟩ <;>
        simp [MayDo.unblock, MayDo.wakeGrant, MayDo.wakeSettle, MayDo.wakeAttach]

def Performed (event : Event) (fs fs' : FileSystem codec) : Prop :=
  ∃ acts, event.Does fs fs' acts ∧ fs.Performs acts fs'

theorem post_of_actions {α : Type} {p : Call codec α} {fs : FileSystem codec}
    {f : α → Call codec Reply} {I E : FileSystem codec → Prop} {F : Fault → Prop}
    (always : ∀ a, ∃ reply, f a = pure reply) (post : (p fs).Post (fun _ => I) (fun _ => E) F) :
    ((p >>= f) fs).Post (fun _ => I) (fun _ => E) F := by
  rw [post_bind]
  refine post.mono (fun a fs' kept => ?_) (fun _ _ kept => kept) (fun _ h => h)
  obtain ⟨reply, is⟩ := always a
  rw [is]
  exact kept

theorem performed (event : Event) (fs : FileSystem codec) (possible : event.Possible fs) :
    (event.call fs).Post (fun _ fs' => event.Performed fs fs')
      (fun _ fs' => event.Performed fs fs') (fun _ => True) := by
  cases event with
  | «open» name flags pid now =>
      refine post_of_actions (by rintro (_ | _) <;> exact ⟨_, rfl⟩) ?_
      refine (fileSystemOpen_performs fs name flags pid now).mono ?_ ?_ (fun _ _ => trivial)
      · rintro (fd | _) fs' returns
        · obtain ⟨pre, lock, opening, rfl | ⟨flag, rfl⟩, performs⟩ := returns
          · exact ⟨_, .inr ⟨pre, _, opening, .inr (.inl ⟨fd, rfl⟩), rfl⟩, performs⟩
          · exact ⟨_, .inr ⟨pre, _, opening, .inr (.inr ⟨flag, .inr (.inl ⟨fd, rfl⟩)⟩), rfl⟩,
              performs⟩
        · obtain ⟨pre, generation, opening, flag, performs⟩ := returns
          exact ⟨_, .inr ⟨pre, _, opening, .inr (.inr ⟨flag, .inr (.inr ⟨generation, rfl⟩)⟩), rfl⟩,
            performs⟩
      · rintro - fs' (performs | ⟨pre, acts, opening, rfl | ⟨flag, requested⟩, performs⟩)
        · exact ⟨_, .inl rfl, performs⟩
        · exact ⟨_, .inr ⟨pre, [], opening, .inl rfl, rfl⟩, performs⟩
        · exact ⟨_, .inr ⟨pre, acts, opening, .inr (.inr ⟨flag, .inl requested⟩), rfl⟩, performs⟩
  | write fd buf pid now =>
      have writes := fileSystemWrite_performs { fileSystem := fs, evictedList := [] } fd buf pid now
      change (writeCall fd buf pid now fs).Post _ _ _
      unfold writeCall
      split
      · rename_i done
        rw [done] at writes
        obtain ⟨evs, bytes, new, given, evictions, owns, performs⟩ := writes
        exact ⟨_, ⟨evs, _, evictions, rfl, .inr ⟨bytes, new, given, owns, rfl⟩⟩, performs⟩
      · rename_i failed
        rw [failed] at writes
        obtain ⟨evs, acts, evictions, fails, performs⟩ := writes
        exact ⟨_, ⟨evs, acts, evictions, rfl, .inl fails⟩, performs⟩
      · trivial
  | read fd pid now =>
      refine post_of_actions (fun _ => ⟨_, rfl⟩) ?_
      refine (fileSystemRead_performs fs fd pid now).mono ?_ ?_ (fun _ _ => trivial)
      · rintro data fs' ⟨copy, f, old, new, live, -, -, -, reads⟩
        rcases reads with ⟨performs, -⟩ | ⟨flushed, performs⟩
        · exact ⟨_, .inr ⟨_, view_slot live, rfl, .inr ⟨new, .inl rfl⟩⟩, performs⟩
        · exact ⟨_, .inr ⟨_, view_slot live, rfl, .inr ⟨new, .inr (.inr ⟨flushed, rfl⟩)⟩⟩, performs⟩
      · rintro - fs' (performs | ⟨copy, live, performs | ⟨new, fails⟩⟩)
        · exact ⟨_, .inl rfl, performs⟩
        · exact ⟨_, .inr ⟨_, view_slot live, rfl, .inl rfl⟩, performs⟩
        · rcases fails with performs | performs | ⟨flushed, performs⟩
          · exact ⟨_, .inr ⟨_, view_slot live, rfl, .inr ⟨new, .inl rfl⟩⟩, performs⟩
          · exact ⟨_, .inr ⟨_, view_slot live, rfl, .inr ⟨new, .inr (.inl rfl)⟩⟩, performs⟩
          · exact ⟨_, .inr ⟨_, view_slot live, rfl, .inr ⟨new, .inr (.inr ⟨flushed, rfl⟩)⟩⟩,
              performs⟩
  | close fd pid now =>
      refine post_of_actions (fun _ => ⟨_, rfl⟩) ?_
      refine (fileSystemClose_performs fs fd pid now).mono ?_ ?_ (fun _ _ => trivial)
      · exact fun _ fs' closes => ⟨_, .inr ⟨closes.1, rfl⟩, closes.2⟩
      · rintro - fs' (rfl | closes)
        · exact ⟨_, .inl rfl, .nil⟩
        · exact ⟨_, .inr ⟨closes.1, rfl⟩, closes.2⟩
  | remove name pid =>
      have found : ∀ inode, fs.file name = some inode → inode.locked = pid ∧ inode.locked ≠ 0 →
          ∃ f, fs.view.file name = some f ∧ f.locked = pid ∧ f.locked ≠ 0 :=
        fun inode present own => ⟨_, view_file present, own⟩
      refine post_of_actions (fun _ => ⟨_, rfl⟩) ?_
      refine (fileSystemRemove_performs fs name pid).mono ?_ ?_ (fun _ _ => trivial)
      · rintro - fs' ⟨⟨inode, present, own⟩, performs⟩
        exact ⟨_, .inr ⟨found inode present own, rfl⟩, performs⟩
      · rintro - fs' (performs | ⟨⟨inode, present, own⟩, performs⟩)
        · exact ⟨_, .inl rfl, performs⟩
        · exact ⟨_, .inr ⟨found inode present own, rfl⟩, performs⟩
  | lock fd pid now =>
      refine post_of_actions (by rintro (_ | _) <;> exact ⟨_, rfl⟩) ?_
      refine (fileSystemLock_performs fs fd pid now).mono ?_ ?_ (fun _ _ => trivial)
      · rintro (_ | _) fs' ⟨copy, live, locks⟩
        · rcases locks with rfl | performs
          · exact ⟨_, .inl rfl, .nil⟩
          · exact ⟨_, .inr ⟨_, view_slot live, rfl, .inl (.inr (.inr (.inr rfl)))⟩, performs⟩
        · obtain ⟨generation, performs⟩ := locks
          exact ⟨_, .inr ⟨_, view_slot live, rfl, .inr ⟨generation, rfl⟩⟩, performs⟩
      · rintro - fs' (rfl | ⟨copy, acts, live, requested, performs⟩)
        · exact ⟨_, .inl rfl, .nil⟩
        · exact ⟨acts, .inr ⟨_, view_slot live, rfl, .inl requested⟩, performs⟩
  | unlock fd pid now =>
      refine post_of_actions (fun _ => ⟨_, rfl⟩) ?_
      refine (fileSystemUnlock_performs fs fd pid now).mono ?_ ?_ (fun _ _ => trivial)
      · rintro - fs' ⟨copy, live, performs⟩
        exact ⟨_, .inr ⟨_, view_slot live, rfl, rfl⟩, performs⟩
      · rintro - fs' rfl
        exact ⟨_, .inl rfl, .nil⟩
  | removeSession pid now =>
      refine post_of_actions (fun _ => ⟨_, rfl⟩) ?_
      refine (fileSystemRemoveSession_performs fs pid now).mono ?_ ?_ (fun _ _ => trivial)
      · rintro - fs' ⟨acts, leaving, performs⟩
        exact ⟨_, ⟨acts, leaving, .inr rfl⟩, performs⟩
      · rintro - fs' ⟨acts, leaving, performs⟩
        exact ⟨_, ⟨acts, leaving, .inl rfl⟩, performs⟩
  | wake waiter now =>
      refine post_of_actions (by rintro ((_ | _) | _) <;> exact ⟨_, rfl⟩) ?_
      refine (wakeUp_performs possible now).mono ?_ ?_ (fun _ _ => trivial)
      · rintro ((_ | fd) | _) fs' ⟨wakes, -⟩
        · exact ⟨_, .inr ⟨_, rfl, .inr (.inr (.inl rfl))⟩, wakes⟩
        · exact ⟨_, .inr ⟨_, rfl, .inr (.inr (.inr ⟨fd, rfl⟩))⟩, wakes⟩
        · obtain rfl : fs' = fs := wakes
          exact ⟨_, .inl rfl, .nil⟩
      · rintro - fs' ⟨performs | performs | performs, -⟩
        · exact ⟨_, .inr ⟨_, rfl, .inl rfl⟩, performs⟩
        · exact ⟨_, .inr ⟨_, rfl, .inr (.inl rfl)⟩, performs⟩
        · exact ⟨_, .inr ⟨_, rfl, .inr (.inr (.inl rfl))⟩, performs⟩

end Event

/-! ## Reachable states -/

/-- One step of a run, whichever way the call returns. -/
def Step (guard : FileSystem codec → Event → Prop) (fs fs' : FileSystem codec) : Prop :=
  ∃ event : Event, event.Possible fs ∧ guard fs event ∧ (event.call fs).state? = some fs'

/-- The states of the runs whose steps all meet the guard. -/
def Reachable (guard : FileSystem codec → Event → Prop) (fs : FileSystem codec) : Prop :=
  ∃ memoryLimit filesLimit policy,
    Relation.ReflTransGen (Step guard) (.init memoryLimit filesLimit policy) fs

variable {guard : FileSystem codec → Event → Prop} {I : FileSystem codec → Prop}
  {fs fs' : FileSystem codec}

theorem Reachable.mono {weaker : FileSystem codec → Event → Prop}
    (implies : ∀ fs event, guard fs event → weaker fs event) (reached : Reachable guard fs) :
    Reachable weaker fs := by
  obtain ⟨memoryLimit, filesLimit, policy, run⟩ := reached
  refine ⟨memoryLimit, filesLimit, policy, Relation.ReflTransGen.mono (fun gs gs' step => ?_) _ _ run⟩
  obtain ⟨event, possible, guarded, result⟩ := step
  exact ⟨event, possible, implies gs event guarded, result⟩

theorem Step.performed {event : Event} (possible : event.Possible fs)
    (step : (event.call fs).state? = some fs') : event.Performed fs fs' :=
  (event.performed fs possible).of_state step

def AnyEvent : FileSystem codec → Event → Prop := fun _ _ => True

instance (fs : FileSystem codec) (event : Event) : Decidable (AnyEvent fs event) :=
  inferInstanceAs (Decidable True)

instance (fs : FileSystem codec) : (event : Event) → Decidable (event.Possible fs)
  | .wake waiter _ => inferInstanceAs (Decidable (waiter ∈ fs.blocked))
  | .open .. | .write .. | .read .. | .close .. | .remove .. | .lock .. | .unlock ..
  | .removeSession .. => inferInstanceAs (Decidable True)

/-- A condition on the file with a name can be tested. -/
def decidableOfFile (fs : FileSystem codec) (name : Filename) (P : Inode → Prop) [DecidablePred P] :
    Decidable (∀ inode, fs.file name = some inode → P inode) :=
  match fs.file name with
  | none => isTrue nofun
  | some inode => decidable_of_iff (P inode)
      ⟨fun holds _ is => Option.some.inj is ▸ holds, fun all => all inode rfl⟩

/-- A condition on the copy at a descriptor of a pid can be tested. -/
def decidableOfSlot (fs : FileSystem codec) (fd : Nat) (pid : Pid) (P : Inode → Prop)
    [DecidablePred P] :
    Decidable (∀ copy, fs.slot fd = some { owner := pid, inode := copy } → P copy) :=
  match fs.slot fd with
  | none => isTrue nofun
  | some entry => decidable_of_iff (entry.owner = pid → P entry.inode) (by
      obtain ⟨owner, inode⟩ := entry
      constructor
      · rintro holds copy ⟨⟩
        exact holds rfl
      · rintro all rfl
        exact all inode rfl)

def runs (guard : FileSystem codec → Event → Prop) [∀ fs event, Decidable (guard fs event)] :
    List Event → FileSystem codec → Option (FileSystem codec)
  | [], fs => some fs
  | event :: events, fs =>
      if event.Possible fs ∧ guard fs event then
        (event.call fs).state?.bind (runs guard events)
      else none

theorem runs_steps [∀ fs event, Decidable (guard fs event)] {events : List Event}
    (ran : runs guard events fs = some fs') : Relation.ReflTransGen (Step guard) fs fs' := by
  induction events generalizing fs with
  | nil =>
      obtain rfl := Option.some.inj ran
      exact .refl
  | cons event events ih =>
      rw [runs] at ran
      split at ran
      · rename_i allowed
        obtain ⟨next, result, rest⟩ := Option.bind_eq_some_iff.mp ran
        exact .head ⟨event, allowed.1, allowed.2, result⟩ (ih rest)
      · cases ran

/-- A state that a list of steps leads to, with what a check finds there. -/
theorem Reachable.of_runs (guard : FileSystem codec → Event → Prop)
    [∀ fs event, Decidable (guard fs event)] (memoryLimit filesLimit : UInt32)
    (policy : ReplacementPolicy) (check : FileSystem codec → Bool) (events : List Event)
    (checked : (runs guard events (.init memoryLimit filesLimit policy)).any check = true) :
    ∃ fs, Reachable guard fs ∧ check fs = true := by
  obtain ⟨fs, ran, holds⟩ := (Option.any_eq_true _ _).mp checked
  exact ⟨fs, ⟨memoryLimit, filesLimit, policy, runs_steps ran⟩, holds⟩

/-- An invariant of the steps holds in every reachable state. -/
theorem Reachable.invariant
    (initial : ∀ memoryLimit filesLimit policy, I (.init memoryLimit filesLimit policy))
    (step : ∀ fs fs' event, I fs → guard fs event → event.Possible fs →
      (event.call fs).state? = some fs' → I fs')
    (reached : Reachable guard fs) : I fs := by
  obtain ⟨memoryLimit, filesLimit, policy, run⟩ := reached
  induction run with
  | refl => exact initial memoryLimit filesLimit policy
  | tail _ next ih =>
      obtain ⟨event, possible, allowed, result⟩ := next
      exact step _ _ event ih allowed possible result

def View.initial : View codec where
  file := fun _ => none
  slot := fun _ => none
  memory := []
  blocked := []
  created := 0

theorem init_view (memoryLimit filesLimit : UInt32) (policy : ReplacementPolicy) :
    (FileSystem.init memoryLimit filesLimit policy : FileSystem codec).view = .initial := by
  refine View.ext ?_ rfl rfl rfl rfl
  funext name
  cases name <;> rfl

/-- An invariant of the view that all allowed actions keep. -/
theorem Reachable.view_invariant (I : View codec → Prop) (allowed : View codec → Action codec → Prop)
    (initial : I .initial)
    (meets : ∀ fs fs' event acts, I fs.view → guard fs event → event.Does fs fs' acts →
      fs.Performs acts fs' → (viewSystem codec).Meets allowed fs.view acts)
    (step : ∀ v a, I v → v.Enabled a → allowed v a → I (v.apply a))
    (reached : Reachable guard fs) : I fs.view := by
  refine Reachable.invariant (I := fun fs => I fs.view)
    (fun memoryLimit filesLimit policy => init_view memoryLimit filesLimit policy ▸ initial) ?_ reached
  intro fs fs' event holds guarded possible result
  obtain ⟨acts, does, performs⟩ := Step.performed possible result
  exact ActionSystem.Trace.keeps (S := viewSystem codec) step performs
    (meets fs fs' event acts holds guarded does performs) holds

end FileStorage
