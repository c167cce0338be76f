import FileStorage.DataStructures.Queue
import FileStorage.Lib.Threads
import FileStorage.Lib.Trace

/-! # The blocking bounded queue

`gnl_ts_bb_queue_t.c`. Threads call enqueue and dequeue; what a thread does while
it has the mutex is one step. A thread that waits on a condition variable has given
the mutex back and tests the loop condition again once it has been woken up.
-/

namespace FileStorage

/-- `struct gnl_ts_bb_queue_t`, apart from the mutex and the condition variables. -/
structure TsBbQueue (α : Type) where
  q : Queue α
  bound : Nat

def TsBbQueue.init {α : Type} (bound : Int) : Option (TsBbQueue α) :=
  if bound ≤ 0 then none else some { q := .init, bound := bound.toNat }

/-- Those who wait on `el_removed` are producers, those who wait on `el_added` are
    consumers. -/
inductive Role where
  | producer | consumer
  deriving DecidableEq

inductive QueueCall (α : Type) where
  | enqueue (el : α)
  | dequeue

def QueueCall.role {α : Type} : QueueCall α → Role
  | .enqueue _ => .producer
  | .dequeue => .consumer

/-- Where a thread is in its call: on its way to the mutex, asleep on the condition
    variable of its role, or woken up and on its way back to the mutex. -/
inductive Place where
  | running | asleep | notified
  deriving DecidableEq

/-- A thread that is in no call is `idle`. -/
inductive QueueThread (α : Type) where
  | idle
  | calling (call : QueueCall α) (place : Place)

namespace QueueThread

variable {α : Type}

def asleep (role : Role) : QueueThread α → Bool
  | .calling call .asleep => call.role = role
  | _ => false

/-- The thread is running or notified. -/
def awake (role : Role) : QueueThread α → Bool
  | .calling call place => call.role = role && place ≠ .asleep
  | _ => false

def wakeUp : QueueThread α → QueueThread α
  | .calling call .asleep => .calling call .notified
  | t => t

end QueueThread

/-- The queue with its threads, and the elements that have gone in and out. -/
structure Channel (α : Type) where
  queue : TsBbQueue α
  threads : List (QueueThread α)
  enqueued : List α
  dequeued : List (Option α)

/-- A signal says whom it wakes up. -/
inductive QueueMove (α : Type) where
  | call (thread : Nat) (call : QueueCall α)
  | run (thread : Nat) (woken : List Nat)
  | spurious (thread : Nat)

namespace Channel

variable {α : Type}

def init (queue : TsBbQueue α) (size : Nat) : Channel α where
  queue
  threads := List.replicate size .idle
  enqueued := []
  dequeued := []

def wake (threads : List (QueueThread α)) (i : Nat) : List (QueueThread α) :=
  match threads[i]? with
  | some t => threads.set i t.wakeUp
  | none => threads

/-- `pthread_cond_signal` on the condition variable of a role: it wakes up somebody
    who is asleep, if there is anybody. -/
def signal (role : Role) (woken : List Nat) (threads : List (QueueThread α)) :
    Option (List (QueueThread α)) :=
  if (∀ i ∈ woken, (threads[i]?.map (·.asleep role)) = some true) ∧
      (threads.any (·.asleep role) → woken ≠ []) then
    some (woken.foldl wake threads)
  else none

/-- The critical section of `gnl_ts_bb_queue_enqueue`. -/
def enqueue (s : Channel α) (thread : Nat) (el : α) (woken : List Nat) : Option (Channel α) :=
  if s.queue.q.size = s.queue.bound then
    some { s with threads := s.threads.set thread (.calling (.enqueue el) .asleep) }
  else
    (s.queue.q.enqueue el).bind fun q =>
      (signal .consumer woken (s.threads.set thread .idle)).map fun threads =>
        { s with queue := { s.queue with q }, threads, enqueued := s.enqueued ++ [el] }

/-- The critical section of `gnl_ts_bb_queue_dequeue`. -/
def dequeue (s : Channel α) (thread : Nat) (woken : List Nat) : Option (Channel α) :=
  if s.queue.q.size = 0 then
    some { s with threads := s.threads.set thread (.calling .dequeue .asleep) }
  else
    s.queue.q.dequeue.bind fun (temp, q) =>
      (signal .producer woken (s.threads.set thread .idle)).map fun threads =>
        { s with queue := { s.queue with q }, threads, dequeued := s.dequeued ++ [temp] }

def step (s : Channel α) : QueueMove α → Option (Channel α)
  | .call thread call =>
      match s.threads[thread]? with
      | some .idle => some { s with threads := s.threads.set thread (.calling call .running) }
      | _ => none
  | .run thread woken =>
      match s.threads[thread]? with
      | some (.calling _ .asleep) => none
      | some (.calling (.enqueue el) _) => s.enqueue thread el woken
      | some (.calling .dequeue _) => s.dequeue thread woken
      | _ => none
  | .spurious thread =>
      match s.threads[thread]? with
      | some (.calling call .asleep) =>
          some { s with threads := s.threads.set thread (.calling call .notified) }
      | _ => none

/-! ## Who is asleep -/

/-- If somebody of the role is asleep, the threads of the role that are awake are
    enough for the room there is. -/
def Attended (places : Nat) (role : Role) (threads : List (QueueThread α)) : Prop :=
  (∃ t ∈ threads, t.asleep role = true) → places ≤ threads.countP (·.awake role)

variable {places places' : Nat} {role : Role} {threads : List (QueueThread α)} {i : Nat}
  {t t' : QueueThread α}

theorem attended_zero : Attended 0 role threads := fun _ => Nat.zero_le _

theorem Attended.set (attended : Attended places role threads) (found : threads[i]? = some t)
    (sleeps : t'.asleep role = true → t.asleep role = true)
    (enough : places' + (if t.awake role then 1 else 0) ≤ places + if t'.awake role then 1 else 0) :
    Attended places' role (threads.set i t') := by
  rintro ⟨u, member, asleep⟩
  have before : ∃ u ∈ threads, u.asleep role = true := by
    rcases Threads.mem_of_mem_set member with rfl | ⟨other, -, elsewhere⟩
    · exact ⟨t, List.mem_of_getElem? found, sleeps asleep⟩
    · exact ⟨u, List.mem_of_getElem? elsewhere, asleep⟩
  have counted := attended before
  have counts := Threads.countP_set_add (·.awake role) found t'
  omega

theorem asleep_of_wakeUp (asleep : t.wakeUp.asleep role = true) : t.asleep role = true := by
  cases t with
  | idle => exact asleep
  | calling call place =>
      cases place with
      | asleep => cases asleep
      | running | notified => exact asleep

theorem awake_wakeUp (t : QueueThread α) :
    t.wakeUp.awake role = (t.awake role || t.asleep role) := by
  cases t with
  | idle => rfl
  | calling call place =>
      cases place <;> simp [QueueThread.wakeUp, QueueThread.asleep, QueueThread.awake]

theorem not_awake_of_asleep (asleep : t.asleep role = true) : t.awake role = false := by
  cases t with
  | idle => rfl
  | calling call place => cases place <;> simp_all [QueueThread.asleep, QueueThread.awake]

theorem Attended.wake (attended : Attended places role threads) (i : Nat) :
    Attended places role (wake threads i) := by
  unfold Channel.wake
  split
  · rename_i t found
    refine attended.set found asleep_of_wakeUp ?_
    rw [awake_wakeUp]
    cases t.awake role <;> simp
  · exact attended

theorem Attended.foldl_wake (attended : Attended places role threads) (woken : List Nat) :
    Attended places role (woken.foldl Channel.wake threads) := by
  induction woken generalizing threads with
  | nil => exact attended
  | cons i woken ih => exact ih (attended.wake i)

/-- Waking up somebody who is asleep makes up for more room. -/
theorem Attended.wake_asleep (attended : Attended places role threads)
    (found : threads[i]? = some t) (asleep : t.asleep role = true) :
    Attended (places + 1) role (Channel.wake threads i) := by
  simp only [Channel.wake, found]
  refine attended.set found asleep_of_wakeUp ?_
  rw [awake_wakeUp, not_awake_of_asleep asleep, asleep]
  simp

theorem Attended.signal (attended : Attended places role threads) {woken : List Nat}
    {threads' : List (QueueThread α)} (signalled : signal role woken threads = some threads') :
    Attended (places + 1) role threads' := by
  unfold Channel.signal at signalled
  split at signalled
  · rename_i chosen
    cases signalled
    cases woken with
    | nil =>
        rintro ⟨t, member, asleep⟩
        have somebody : threads.any (·.asleep role) = true := List.any_eq_true.mpr ⟨t, member, asleep⟩
        exact absurd rfl (chosen.2 somebody)
    | cons i woken =>
        obtain ⟨t, found, asleep⟩ := Option.map_eq_some_iff.mp (chosen.1 i List.mem_cons_self)
        exact (attended.wake_asleep found asleep).foldl_wake woken
  · cases signalled

theorem Attended.signal_other (attended : Attended places role threads) {other : Role}
    {woken : List Nat} {threads' : List (QueueThread α)}
    (signalled : Channel.signal other woken threads = some threads') :
    Attended places role threads' := by
  unfold Channel.signal at signalled
  split at signalled
  · cases signalled
    exact attended.foldl_wake woken
  · cases signalled

/-! ## The invariant -/

/-- What a thread of the role can take: a place for a producer, an element for a
    consumer. -/
def room (s : Channel α) : Role → Nat
  | .producer => s.queue.bound - s.queue.q.size
  | .consumer => s.queue.q.size

structure Sound (bound : Nat) (s : Channel α) : Prop where
  bound : s.queue.bound = bound
  int : s.queue.bound < 2 ^ 31
  holds : ∃ els, s.queue.q.Holds els ∧ els.length ≤ s.queue.bound ∧
    s.enqueued.map some = s.dequeued ++ els.map some
  attended : ∀ role, Attended (s.room role) role s.threads

variable {s s' : Channel α} {bound : Nat}

theorem sound_init {bound : Int} {queue : TsBbQueue α} (created : TsBbQueue.init bound = some queue)
    (int : bound < 2 ^ 31) (size : Nat) :
    Sound bound.toNat (init queue size) := by
  unfold TsBbQueue.init at created
  split at created
  · cases created
  · cases created
    refine ⟨rfl, ?_, ⟨[], Queue.holds_init, Nat.zero_le _, rfl⟩, ?_⟩
    · change bound.toNat < 2 ^ 31
      omega
    · rintro role ⟨t, member, asleep⟩
      rw [List.eq_of_mem_replicate member] at asleep
      cases asleep

theorem Sound.move (sound : Sound bound s) (found : s.threads[i]? = some t)
    (sleeps : ∀ role, t'.asleep role = true → t.asleep role = true ∨ s.room role = 0)
    (wakes : ∀ role, t.awake role = true → t'.awake role = true ∨ s.room role = 0) :
    Sound bound { s with threads := s.threads.set i t' } := by
  refine ⟨sound.bound, sound.int, sound.holds, fun role => ?_⟩
  change Attended (s.room role) role _
  by_cases none_ : s.room role = 0
  · rw [none_]
    exact attended_zero
  · refine (sound.attended role).set found (fun asleep => (sleeps role asleep).resolve_right none_) ?_
    have kept := wakes role
    cases before : t.awake role with
    | false => simp
    | true => simp [(kept before).resolve_right none_]

theorem Sound.enqueue (sound : Sound bound s) {el : α} {place : Place} {woken : List Nat}
    (found : s.threads[i]? = some (.calling (.enqueue el) place)) (running : place ≠ .asleep)
    (result : s.enqueue i el woken = some s') : Sound bound s' := by
  obtain ⟨els, holds, bounded, fifo⟩ := sound.holds
  have int := sound.int
  unfold Channel.enqueue at result
  split at result
  · rename_i full
    cases result
    have nothing : s.room .producer = 0 := by
      rw [room, full]
      exact Nat.sub_self _
    refine sound.move found (fun role asleep => .inr ?_) (fun role awake => .inr ?_)
    · cases of_decide_eq_true asleep
      exact nothing
    · cases of_decide_eq_true (Bool.and_eq_true_iff.mp awake).1
      exact nothing
  · rename_i free
    have size := holds.size
    obtain ⟨q, enqueued, holds'⟩ := holds.enqueue (by omega) el
    rw [enqueued, Option.bind_some] at result
    obtain ⟨threads', signalled, rfl⟩ := Option.map_eq_some_iff.mp result
    have size' := holds'.size
    rw [List.length_append, List.length_singleton] at size'
    refine ⟨sound.bound, int, ⟨els ++ [el], holds', ?_, ?_⟩, fun role => ?_⟩
    · rw [List.length_append, List.length_singleton]
      change els.length + 1 ≤ s.queue.bound
      omega
    · rw [List.map_append, List.map_append, fifo, List.append_assoc]
    · have before := sound.attended role
      cases role with
      | producer =>
          have fewer : Attended (s.queue.bound - q.size) .producer (s.threads.set i .idle) := by
            refine before.set found nofun ?_
            simp only [room, QueueThread.awake, QueueCall.role]
            simp [running]
            omega
          exact fewer.signal_other signalled
      | consumer =>
          have same : Attended s.queue.q.size .consumer (s.threads.set i .idle) :=
            before.set found nofun (by simp [room, QueueThread.awake, QueueCall.role])
          have more := same.signal signalled
          rwa [size, ← size'] at more

theorem Sound.dequeue (sound : Sound bound s) {place : Place} {woken : List Nat}
    (found : s.threads[i]? = some (.calling .dequeue place)) (running : place ≠ .asleep)
    (result : s.dequeue i woken = some s') : Sound bound s' := by
  obtain ⟨els, holds, bounded, fifo⟩ := sound.holds
  have int := sound.int
  unfold Channel.dequeue at result
  split at result
  · rename_i empty
    cases result
    have nothing : s.room .consumer = 0 := empty
    refine sound.move found (fun role asleep => .inr ?_) (fun role awake => .inr ?_)
    · cases of_decide_eq_true asleep
      exact nothing
    · cases of_decide_eq_true (Bool.and_eq_true_iff.mp awake).1
      exact nothing
  · rename_i filled
    have size := holds.size
    cases els with
    | nil => exact absurd size filled
    | cons el els =>
        rw [List.length_cons] at bounded size
        obtain ⟨q, dequeued, holds'⟩ := holds.dequeue (by omega)
        rw [dequeued, Option.bind_some] at result
        obtain ⟨threads', signalled, rfl⟩ := Option.map_eq_some_iff.mp result
        have size' := holds'.size
        refine ⟨sound.bound, int, ⟨els, holds', Nat.le_of_succ_le bounded, ?_⟩, fun role => ?_⟩
        · rw [fifo, List.append_assoc]
          rfl
        · have before := sound.attended role
          cases role with
          | producer =>
              have same : Attended (s.queue.bound - s.queue.q.size) .producer
                  (s.threads.set i .idle) :=
                before.set found nofun (by simp [room, QueueThread.awake, QueueCall.role])
              have more := same.signal signalled
              have room_eq : s.queue.bound - s.queue.q.size + 1 = s.queue.bound - q.size := by omega
              rwa [room_eq] at more
          | consumer =>
              have fewer : Attended q.size .consumer (s.threads.set i .idle) := by
                refine before.set found nofun ?_
                simp only [room, QueueThread.awake, QueueCall.role]
                simp [running]
                omega
              exact fewer.signal_other signalled

theorem Sound.step (sound : Sound bound s) {move : QueueMove α} (stepped : s.step move = some s') :
    Sound bound s' := by
  cases move with
  | call thread call =>
      simp only [Channel.step] at stepped
      split at stepped
      · rename_i found
        cases stepped
        exact sound.move found nofun nofun
      · cases stepped
  | run thread woken =>
      simp only [Channel.step] at stepped
      split at stepped
      · cases stepped
      · rename_i el place running found
        exact sound.enqueue found running stepped
      · rename_i place running found
        exact sound.dequeue found running stepped
      · cases stepped
  | spurious thread =>
      simp only [Channel.step] at stepped
      split at stepped
      · rename_i call found
        cases stepped
        refine sound.move found (fun role asleep => ?_) (fun role awake => ?_)
        · cases asleep
        · simp [QueueThread.awake] at awake
      · cases stepped

end Channel

/-- The runs of threads on a queue. -/
def channelSystem (α : Type) : ActionSystem (Channel α) (QueueMove α) where
  Enabled s move := (s.step move).isSome
  apply s move := (s.step move).getD s

instance {α : Type} (s : Channel α) (move : QueueMove α) :
    Decidable ((channelSystem α).Enabled s move) :=
  inferInstanceAs (Decidable (_ = true))

namespace Channel

variable {α : Type} {s : Channel α}

theorem sound_of_trace {bound : Int} {queue : TsBbQueue α}
    (created : TsBbQueue.init bound = some queue) (int : bound < 2 ^ 31) {size : Nat}
    {moves : List (QueueMove α)} (run : (channelSystem α).Trace (init queue size) moves s) :
    Sound bound.toNat s := by
  have step : ∀ (s : Channel α) (move : QueueMove α), Sound bound.toNat s →
      (channelSystem α).Enabled s move → True →
      Sound bound.toNat ((channelSystem α).apply s move) := by
    intro s move sound enabled _
    obtain ⟨s', stepped⟩ := Option.isSome_iff_exists.mp enabled
    have next : (channelSystem α).apply s move = s' := by simp only [channelSystem, stepped,
      Option.getD_some]
    rw [next]
    exact sound.step stepped
  exact run.keeps step (.of_forall fun _ _ _ => trivial) (sound_init created int size)

/-- Whenever somebody of a role is asleep, somebody of that role who is awake takes
    what there is to take. -/
theorem Sound.taken {bound : Nat} (sound : Sound bound s) {role : Role}
    (asleep : ∃ t ∈ s.threads, t.asleep role = true) (some_room : 0 < s.room role) :
    ∃ t ∈ s.threads, t.awake role = true := by
  have counted := sound.attended role asleep
  exact List.countP_pos_iff.mp (Nat.lt_of_lt_of_le some_room counted)

theorem exists_signal (role : Role) (threads : List (QueueThread α)) :
    ∃ woken threads', signal role woken threads = some threads' := by
  by_cases somebody : threads.any (·.asleep role) = true
  · obtain ⟨t, member, asleep⟩ := List.any_eq_true.mp somebody
    obtain ⟨i, found⟩ := List.mem_iff_getElem?.mp member
    refine ⟨[i], _, if_pos ⟨?_, fun _ => List.cons_ne_nil _ _⟩⟩
    intro j chosen
    rw [List.mem_singleton.mp chosen, found, Option.map_some, asleep]
  · exact ⟨[], _, if_pos ⟨nofun, fun asleep => absurd asleep somebody⟩⟩

/-- A thread that is awake can run: no pointer is dangling, and the queue it is
    about to take an element from is not empty. -/
theorem Sound.runs {bound : Nat} (sound : Sound bound s) {i : Nat} {call : QueueCall α}
    {place : Place} (found : s.threads[i]? = some (.calling call place))
    (running : place ≠ .asleep) : ∃ woken, (s.step (.run i woken)).isSome := by
  obtain ⟨els, holds, bounded, -⟩ := sound.holds
  have int := sound.int
  have size := holds.size
  have runs : ∀ woken, s.step (.run i woken) = match call with
      | .enqueue el => s.enqueue i el woken
      | .dequeue => s.dequeue i woken := by
    intro woken
    simp only [Channel.step, found]
    cases place with
    | asleep => exact absurd rfl running
    | running | notified => cases call <;> rfl
  cases call with
  | enqueue el =>
      obtain ⟨q, enqueued, -⟩ := holds.enqueue (by omega) el
      obtain ⟨woken, threads', signalled⟩ := exists_signal .consumer (s.threads.set i .idle)
      refine ⟨woken, ?_⟩
      simp only [runs, Channel.enqueue, enqueued, signalled]
      split <;> rfl
  | dequeue =>
      obtain ⟨woken, threads', signalled⟩ := exists_signal .producer (s.threads.set i .idle)
      refine ⟨woken, ?_⟩
      simp only [runs, Channel.dequeue]
      split
      · rfl
      · rename_i filled
        cases els with
        | nil => exact absurd size filled
        | cons el els =>
            rw [List.length_cons] at bounded
            obtain ⟨q, dequeued, -⟩ := holds.dequeue (by omega)
            simp only [dequeued, signalled]
            rfl

end Channel

end FileStorage
