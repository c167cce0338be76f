import FileStorage.Lib.Trace
import Mathlib.Data.Finset.Erase
import Mathlib.Data.Finset.Insert
import Mathlib.Order.WellFounded

/-! # The loop of the master

`run_server`. Between two calls of `select` the master looks at the descriptors one
after the other, up to the greatest that is active. That bound changes while the loop
runs: connections and descriptors that come back raise it, and it falls by one when
the greatest descriptor is given away. What the kernel and the workers do is up to the
run, which is over when a descriptor is put into an `fd_set` that has no bit for it.
-/

namespace FileStorage

/-- The number of bits in an `fd_set` of the C library. -/
def FD_SETSIZE : Nat := 1024

/-- `fd_set`, with a bit for each descriptor below `FD_SETSIZE`. -/
structure FdSet where
  members : Finset Nat
  bounded : ∀ fd ∈ members, fd < FD_SETSIZE

namespace FdSet

instance : Membership Nat FdSet where
  mem set fd := fd ∈ set.members

instance (fd : Nat) (set : FdSet) : Decidable (fd ∈ set) :=
  inferInstanceAs (Decidable (fd ∈ set.members))

/-- `FD_ZERO`. -/
def zero : FdSet where
  members := ∅
  bounded := fun _ member => absurd member (Finset.notMem_empty _)

/-- There is a bit for the descriptor. -/
def InRange (fd : Int) : Prop := 0 ≤ fd ∧ fd < FD_SETSIZE

instance (fd : Int) : Decidable (InRange fd) := inferInstanceAs (Decidable (_ ∧ _))

/-- `FD_SET`. Without a bit for the descriptor its behaviour is undefined. -/
def insert (set : FdSet) (fd : Int) : Option FdSet :=
  if inRange : InRange fd then some {
    members := Insert.insert fd.toNat set.members
    bounded := by
      intro other member
      rcases Finset.mem_insert.mp member with rfl | member
      · have below := inRange.2
        have positive := inRange.1
        omega
      · exact set.bounded other member }
  else none

/-- `FD_CLR`, on the descriptor of a set. -/
def erase (set : FdSet) (fd : Nat) : FdSet where
  members := set.members.erase fd
  bounded := fun other member => set.bounded other (Finset.mem_of_mem_erase member)

theorem insert_isSome {set : FdSet} {fd : Int} : (set.insert fd).isSome ↔ InRange fd := by
  unfold insert
  split <;> simp_all

theorem inRange_of_insert {set set' : FdSet} {fd : Int} (inserted : set.insert fd = some set') :
    InRange fd :=
  insert_isSome.mp (Option.isSome_of_eq_some inserted)

theorem mem_insert {set set' : FdSet} {fd : Int} (inserted : set.insert fd = some set')
    {other : Nat} : other ∈ set' ↔ (other : Int) = fd ∨ other ∈ set := by
  unfold insert at inserted
  split at inserted
  · rename_i inRange
    cases inserted
    have same : other = fd.toNat ↔ (other : Int) = fd := by
      have positive := inRange.1
      omega
    exact Finset.mem_insert.trans (or_congr_left same)
  · cases inserted

theorem mem_erase {set : FdSet} {fd other : Nat} :
    other ∈ set.erase fd ↔ other ≠ fd ∧ other ∈ set :=
  Finset.mem_erase

end FdSet

/-- The variables of `run_server`. Since the last `select`, the descriptors in
    `handled` have been handled. -/
structure Master where
  set : FdSet
  rdset : FdSet
  fdNum : Int
  fd : Nat
  inLoop : Bool
  handled : List Nat

inductive MasterAction where
  /-- `select` reports these descriptors -/
  | select (ready : FdSet)
  /-- `select` is interrupted, and there are clients left to wait for -/
  | interrupted
  /-- the descriptor is not ready -/
  | pass
  /-- the result of `accept`, whatever it is -/
  | accept (fdC : Int)
  /-- a connection is refused in a soft termination -/
  | refuse
  /-- the message of a worker cannot be read -/
  | unreadable
  /-- a worker tells that a client has gone away -/
  | clientGone
  /-- a worker gives a descriptor back -/
  | handBack (fdC : Int)
  /-- the descriptor of a client is passed to the thread pool -/
  | dispatch (fd : Nat)
  /-- the loop over the descriptors ends -/
  | finish

namespace Master

/-- At the beginning of `while (1)`. -/
def init (fdSkt masterChannel : Nat) : Option Master := do
  let set ← FdSet.zero.insert fdSkt
  let set ← set.insert masterChannel
  some {
    set
    rdset := .zero
    fdNum := if 0 < fdSkt then fdSkt else 0
    fd := 0
    inLoop := false
    handled := [] }

def AtReady (m : Master) : Prop := m.inLoop = true ∧ m.fd ≤ m.fdNum ∧ m.fd ∈ m.rdset

/-- The descriptor has been handled: `fd++`. -/
def handle (m : Master) : Master := { m with fd := m.fd + 1, handled := m.handled ++ [m.fd] }

def watch (m : Master) (fdC : Int) : Option Master :=
  (m.set.insert fdC).map fun set => { m with
    set
    fdNum := if m.fdNum < fdC then fdC else m.fdNum }

/-- The descriptor of the loop is taken out of the set. -/
def release (m : Master) : Master := { m with
  set := m.set.erase m.fd
  fdNum := if m.fd = m.fdNum then m.fdNum - 1 else m.fdNum }

/-- `select` sees the members of the set up to `fd_num` only. -/
def Possible (fdSkt masterChannel : Nat) (m : Master) : MasterAction → Prop
  | .select ready => m.inLoop = false ∧ ∀ fd ∈ ready.members, fd ∈ m.set ∧ fd ≤ m.fdNum
  | .interrupted => m.inLoop = false
  | .pass => m.inLoop = true ∧ m.fd ≤ m.fdNum ∧ m.fd ∉ m.rdset
  | .accept _ | .refuse => m.AtReady ∧ m.fd = fdSkt
  | .unreadable | .clientGone | .handBack _ =>
      m.AtReady ∧ m.fd ≠ fdSkt ∧ m.fd = masterChannel
  | .dispatch fd => m.AtReady ∧ m.fd ≠ fdSkt ∧ m.fd ≠ masterChannel ∧ m.fd = fd
  | .finish => m.inLoop = true ∧ m.fdNum < m.fd

/-- What the step leaves, if its behaviour is defined. -/
def perform (m : Master) : MasterAction → Option Master
  | .select ready => some { m with rdset := ready, fd := 0, inLoop := true, handled := [] }
  | .interrupted => some m
  | .pass => some { m with fd := m.fd + 1 }
  | .accept fdC | .handBack fdC => (m.watch fdC).map handle
  | .refuse | .unreadable | .clientGone => some m.handle
  | .dispatch _ => some m.release.handle
  | .finish => some { m with inLoop := false }

end Master

/-- The master with its listening socket and the read end of its pipe. Nothing is known of it
    after undefined behaviour. -/
def masterSystem (fdSkt masterChannel : Nat) : ActionSystem (Option Master) MasterAction where
  Enabled s a := ∃ m ∈ s, Master.Possible fdSkt masterChannel m a
  apply s a := s.bind (Master.perform · a)

namespace Master

variable {fdSkt masterChannel : Nat} {m m' : Master} {a : MasterAction}

instance (m : Master) : Decidable m.AtReady := inferInstanceAs (Decidable (_ ∧ _ ∧ _))

instance (fdSkt masterChannel : Nat) (m : Master) (a : MasterAction) :
    Decidable (Possible fdSkt masterChannel m a) := by
  cases a <;> unfold Possible <;> infer_instance

instance (fdSkt masterChannel : Nat) (s : Option Master) (a : MasterAction) :
    Decidable ((masterSystem fdSkt masterChannel).Enabled s a) :=
  inferInstanceAs (Decidable (∃ m ∈ s, Possible fdSkt masterChannel m a))

/-! ## The invariant -/

/-- No active descriptor is beyond the bound, and of the ready ones those before the
    current descriptor have been handled once each, and no others. -/
structure Watches (fdSkt masterChannel : Nat) (m : Master) : Prop where
  bounded : ∀ fd ∈ m.set, (fd : Int) ≤ m.fdNum
  inRange : m.fdNum < FD_SETSIZE
  socket : fdSkt ∈ m.set
  channel : masterChannel ∈ m.set
  ahead : m.inLoop = true → ∀ fd ∈ m.rdset, m.fd ≤ fd → fd ≤ m.fdNum
  behind : m.inLoop = false → ∀ fd ∈ m.rdset, fd < m.fd
  once : ∀ fd, m.handled.count fd = if fd ∈ m.rdset ∧ fd < m.fd then 1 else 0

theorem count_handle (watches : Watches fdSkt masterChannel m) (ready : m.fd ∈ m.rdset) (fd : Nat) :
    (m.handled ++ [m.fd]).count fd = if fd ∈ m.rdset ∧ fd < m.fd + 1 then 1 else 0 := by
  rw [List.count_append, watches.once, List.count_singleton]
  by_cases here : m.fd = fd
  · subst here
    simp [ready]
  · have same : (fd < m.fd + 1) ↔ fd < m.fd := by omega
    simp [same, here]

theorem Watches.handle (watches : Watches fdSkt masterChannel m) (ready : m.AtReady) :
    Watches fdSkt masterChannel m.handle where
  bounded := watches.bounded
  inRange := watches.inRange
  socket := watches.socket
  channel := watches.channel
  ahead inLoop fd member past := watches.ahead inLoop fd member (Nat.le_of_succ_le past)
  behind outside := absurd ready.1 (by rw [show m.inLoop = false from outside]; nofun)
  once := count_handle watches ready.2.2

theorem watch_spec {fdC : Int} (watched : m.watch fdC = some m') :
    FdSet.InRange fdC ∧ (∀ fd, fd ∈ m'.set ↔ (fd : Int) = fdC ∨ fd ∈ m.set) ∧
      m'.fdNum = max m.fdNum fdC ∧ m'.rdset = m.rdset ∧ m'.fd = m.fd ∧ m'.inLoop = m.inLoop ∧
      m'.handled = m.handled := by
  obtain ⟨set, inserted, rfl⟩ := Option.map_eq_some_iff.mp watched
  refine ⟨FdSet.inRange_of_insert inserted, fun fd => FdSet.mem_insert inserted, ?_,
    rfl, rfl, rfl, rfl⟩
  simp only []
  split <;> omega

theorem Watches.watch (watches : Watches fdSkt masterChannel m) {fdC : Int}
    (watched : m.watch fdC = some m') : Watches fdSkt masterChannel m' := by
  obtain ⟨⟨-, below⟩, members, bound, ready, here, loop, handled⟩ := watch_spec watched
  have known := watches.inRange
  refine ⟨fun fd member => ?_, by omega, ?_, ?_, ?_, ?_, ?_⟩
  · rcases (members fd).mp member with is | member
    · omega
    · have within := watches.bounded fd member
      omega
  · exact (members fdSkt).mpr (.inr watches.socket)
  · exact (members masterChannel).mpr (.inr watches.channel)
  · rw [loop, ready, here, bound]
    exact fun inLoop fd member past => (watches.ahead inLoop fd member past).trans (le_max_left _ _)
  · rw [loop, ready, here]
    exact watches.behind
  · rw [handled, ready, here]
    exact watches.once

theorem AtReady.watch (ready : m.AtReady) {fdC : Int} (watched : m.watch fdC = some m') :
    m'.AtReady := by
  obtain ⟨-, -, bound, reported, here, loop, -⟩ := watch_spec watched
  refine ⟨loop ▸ ready.1, ?_, ?_⟩
  · rw [here, bound]
    exact ready.2.1.trans (le_max_left _ _)
  · rw [here, reported]
    exact ready.2.2

/-- Whatever is still ahead in the loop stays within the bound, since the bound only
    falls at its own descriptor. -/
theorem Watches.release (watches : Watches fdSkt masterChannel m) (ready : m.AtReady)
    (notSocket : m.fd ≠ fdSkt) (notChannel : m.fd ≠ masterChannel) :
    Watches fdSkt masterChannel m.release.handle := by
  have lowered : ∀ fd : Nat, fd ≠ m.fd → (fd : Int) ≤ m.fdNum → fd ≤ m.release.fdNum := by
    intro fd other bounded
    simp only [Master.release]
    split <;> omega
  constructor
  · intro fd member
    obtain ⟨other, member⟩ := FdSet.mem_erase.mp member
    exact lowered fd other (watches.bounded fd member)
  · refine lt_of_le_of_lt ?_ watches.inRange
    change (if (m.fd : Int) = m.fdNum then m.fdNum - 1 else m.fdNum) ≤ m.fdNum
    split <;> omega
  · exact FdSet.mem_erase.mpr ⟨notSocket.symm, watches.socket⟩
  · exact FdSet.mem_erase.mpr ⟨notChannel.symm, watches.channel⟩
  · intro inLoop fd member past
    change m.fd + 1 ≤ fd at past
    exact lowered fd (by omega) (watches.ahead inLoop fd member (by omega))
  · exact fun outside => absurd ready.1 (by rw [show m.inLoop = false from outside]; nofun)
  · exact count_handle (m := m) watches ready.2.2

theorem Watches.step (watches : Watches fdSkt masterChannel m)
    (possible : Possible fdSkt masterChannel m a) (performed : m.perform a = some m') :
    Watches fdSkt masterChannel m' := by
  cases a with
  | select ready =>
      cases performed
      obtain ⟨-, active⟩ := possible
      refine ⟨watches.bounded, watches.inRange, watches.socket, watches.channel, ?_,
        fun outside => Bool.noConfusion outside, fun fd => ?_⟩
      · exact fun _ fd member _ => (active fd member).2
      · simp
  | interrupted =>
      cases performed
      exact watches
  | pass =>
      cases performed
      obtain ⟨inLoop, -, notReady⟩ := possible
      refine ⟨watches.bounded, watches.inRange, watches.socket, watches.channel, ?_, ?_,
        fun fd => ?_⟩
      · exact fun _ fd member past => watches.ahead inLoop fd member (Nat.le_of_succ_le past)
      · intro outside
        cases inLoop.symm.trans outside
      · have same : (fd ∈ m.rdset ∧ fd < m.fd + 1) ↔ fd ∈ m.rdset ∧ fd < m.fd := by
          refine and_congr_right fun member => ?_
          have other : fd ≠ m.fd := fun is => notReady (is ▸ member)
          omega
        simp only [same]
        exact watches.once fd
  | accept fdC | handBack fdC =>
      obtain ⟨m₁, watched, rfl⟩ := Option.map_eq_some_iff.mp performed
      exact (watches.watch watched).handle (possible.1.watch watched)
  | refuse | unreadable | clientGone =>
      cases performed
      exact watches.handle possible.1
  | dispatch fd =>
      cases performed
      exact watches.release possible.1 possible.2.1 possible.2.2.1
  | finish =>
      cases performed
      obtain ⟨inLoop, past⟩ := possible
      refine ⟨watches.bounded, watches.inRange, watches.socket, watches.channel,
        fun never => Bool.noConfusion never, ?_, watches.once⟩
      intro _ fd member
      by_contra notBefore
      have within := watches.ahead inLoop fd member (Nat.not_lt.mp notBefore)
      change ¬ fd < m.fd at notBefore
      omega

/-! ## The end of the loop -/

/-- How many steps the loop has left if the bound stays. -/
def remaining (m : Master) : Nat := (m.fdNum + 1 - m.fd).toNat + if m.inLoop then 1 else 0

def added : MasterAction → Option Int
  | .accept fdC | .handBack fdC => some fdC
  | _ => none

/-- The invariant holds of the state of a run, unless its behaviour has been undefined. -/
def Stands (I : Master → Prop) (s : Option Master) : Prop := ∀ m ∈ s, I m

theorem Stands.apply {I : Master → Prop} {s : Option Master} (stands : Stands I s)
    (enabled : (masterSystem fdSkt masterChannel).Enabled s a)
    (step : ∀ m m', I m → Possible fdSkt masterChannel m a → m.perform a = some m' → I m') :
    Stands I ((masterSystem fdSkt masterChannel).apply s a) := by
  obtain ⟨m, rfl, possible⟩ := enabled
  exact fun m' performed => step m m' (stands m rfl) possible performed

end Master

end FileStorage
