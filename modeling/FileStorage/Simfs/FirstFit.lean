import FileStorage.Simfs.FileDescriptorTable

/-! # First fit in the file descriptor table

Any sequence of calls on a table of any limit. The holes are ordered in the heap
by their index as an `int`, and `put` returns the descriptor as an `int` as well,
so everything is as it should be exactly for the limits up to 2^31.
-/

namespace FileStorage

namespace FileDescriptorTable

inductive Call where
  | put (inode : Inode) (pid : Pid) (now : Int)
  | remove (fd : Nat) (pid : Pid)
  | removePid (pid : Pid)
  | get (fd : Nat) (pid : Pid)

def after (t : FileDescriptorTable) : Call → FileDescriptorTable
  | .put inode pid now =>
      match t.put inode pid now with
      | .ok (_, t') => t'
      | .error _ => t
  | .remove fd pid =>
      match t.remove fd pid with
      | .ok t' => t'
      | .error _ => t
  | .removePid pid => t.removePid pid
  | .get _ _ => t

def run (limit : UInt32) (history : List Call) : FileDescriptorTable :=
  history.foldl after (.init limit.toNat limit.toNat_lt)

def liveFds (t : FileDescriptorTable) : List Nat :=
  (List.range (t.maxFd + 1)).filter fun fd => (t.slot fd).isSome

def freeFds (t : FileDescriptorTable) : List Nat := t.freeIndexMap.list.map MinHeap.Node.data

def LeastFree (t : FileDescriptorTable) (fd : Nat) : Prop :=
  t.slot fd = none ∧ ∀ other < fd, t.slot other ≠ none

/-- What a table and the calls on it should be like; `used` says that something
    has been put into it. -/
structure Sound (t : FileDescriptorTable) (used : Prop) : Prop where
  live : ∀ fd, fd ∈ t.liveFds ↔ t.slot fd ≠ none
  counted : t.size = t.liveFds.length
  limited : t.size ≤ t.limit
  apart : used → (t.liveFds ++ t.freeFds).Nodup ∧ ∀ fd, fd ∈ t.liveFds ++ t.freeFds ↔ fd ≤ t.maxFd
  put_ok : ∀ inode pid now, (∃ result, t.put inode pid now = .ok result) ↔ t.size < t.limit
  put_least : ∀ inode pid now fd t', t.put inode pid now = .ok (fd, t') →
    ∃ least : Nat, toInt32 fd = least ∧ t.LeastFree least ∧ ∀ other, t'.slot other =
      if other = least then some { owner := pid, inode := inode.copy now } else t.slot other
  get_ok : ∀ fd pid, (∃ inode, t.get fd pid = .ok inode) ↔
    ∃ entry, t.slot fd = some entry ∧ entry.owner = pid
  remove_ok : ∀ fd pid, (∃ t', t.remove fd pid = .ok t') ↔
    ∃ entry, t.slot fd = some entry ∧ entry.owner = pid
  remove_only : ∀ fd pid t', t.remove fd pid = .ok t' →
    ∀ other, t'.slot other = if other = fd then none else t.slot other
  removePid_only : ∀ pid other, (t.removePid pid).slot other =
    (t.slot other).filter fun entry => entry.owner ≠ pid

variable {t t' : FileDescriptorTable}

theorem slot_eq_none (t : FileDescriptorTable) (fd : Nat) :
    t.slot fd = none ↔ fd ∈ t.freeFds ∨ t.table.length ≤ fd := by
  rw [freeFds, t.holes, slot, List.getD_eq_getElem?_getD]
  by_cases inside : fd < t.table.length
  · rw [List.getElem?_eq_getElem inside]
    cases t.table[fd] <;> simp [inside]
  · rw [List.getElem?_eq_none (by omega)]
    simp
    omega

theorem size_le_limit (t : FileDescriptorTable) : t.size ≤ t.limit := by
  have full := t.full
  have bounded := t.bounded
  omega

theorem put_ok_iff (t : FileDescriptorTable) (inode : Inode) (pid : Pid) (now : Int) :
    (∃ result, t.put inode pid now = .ok result) ↔ t.size < t.limit := by
  constructor
  · rintro ⟨result, added⟩
    unfold put at added
    split at added
    · assumption
    · cases added
  · intro room
    obtain ⟨fd, t', added⟩ := put_isOk (t := t) (by omega) inode pid now
    exact ⟨(fd, t'), added⟩

/-- The heap is in order, and every hole has its index as its key. -/
def Keyed (t : FileDescriptorTable) : Prop :=
  MinHeap.Ordered t.freeIndexMap.list ∧ ∀ node ∈ t.freeIndexMap.list, node.key = toInt32 node.data

theorem getFileDescriptor_least (keyed : t.Keyed) (small : t.limit ≤ 2 ^ 31)
    (room : t.size < t.limit) : t.LeastFree t.getFileDescriptor.1 := by
  refine ⟨(getFileDescriptor_free room).free, fun other below dead => ?_⟩
  have bounded := t.bounded
  have word : ∀ fd ∈ t.freeFds, toInt32 fd = fd := fun fd hole => by
    have inside := hole_inside hole
    exact toInt32_of_small (by omega)
  have length := (getFileDescriptor_free room).length
  rcases (t.slot_eq_none other).mp dead with hole | beyond
  · unfold getFileDescriptor at below
    split at below
    · rename_i fd heap extracted
      obtain ⟨root, member, rfl, least⟩ := MinHeap.extractMin_le keyed.1 extracted
      obtain ⟨node, inHeap, rfl⟩ := List.mem_map.mp hole
      have order := least node inHeap
      rw [keyed.2 root member, keyed.2 node inHeap, word _ hole,
        word _ (List.mem_map_of_mem member)] at order
      omega
    · rename_i none_
      rw [freeFds, MinHeap.extractMin_eq_none.mp none_] at hole
      cases hole
  · omega

theorem put_least (keyed : t.Keyed) (small : t.limit ≤ 2 ^ 31) {inode : Inode} {pid : Pid}
    {now : Int} {fd : Nat} (added : t.put inode pid now = .ok (fd, t')) :
    ∃ least : Nat, toInt32 fd = least ∧ t.LeastFree least ∧ ∀ other, t'.slot other =
      if other = least then some { owner := pid, inode := inode.copy now } else t.slot other := by
  have room := (t.put_ok_iff inode pid now).mp ⟨_, added⟩
  have is : fd = t.getFileDescriptor.1 := by
    unfold put at added
    rw [dif_pos room] at added
    exact (Prod.mk.inj (Except.ok.inj added)).1.symm
  have inside := (getFileDescriptor_free room).inside
  refine ⟨fd, toInt32_of_small (by omega), ?_, (put_spec added).2.2⟩
  rw [is]
  exact getFileDescriptor_least keyed small room

end FileDescriptorTable

end FileStorage
