import FileStorage.Simfs.Inode
import FileStorage.DataStructures.MinHeap
import Mathlib.Data.List.Perm.Subperm
import Mathlib.Data.List.Nodup

/-! # The file descriptor table

`gnl_simfs_file_descriptor_table.c`: an array of entries that grows up to a
limit, with the holes left by removed entries in a min heap. Every table carries
the proof that the heap holds exactly the holes. `update` stands for an
assignment through the pointer to the inode copy of an entry.
-/

namespace FileStorage

/-- `struct gnl_simfs_file_descriptor_table_el`. -/
structure Entry where
  owner : Pid
  inode : Inode
  deriving DecidableEq

/-- `struct gnl_simfs_file_descriptor_table`. -/
structure FileDescriptorTable where
  limit : Nat
  size : Nat
  maxFd : Nat
  freeIndexMap : MinHeap Nat
  table : List (Option Entry)
  distinct : (freeIndexMap.list.map MinHeap.Node.data).Nodup
  holes : ∀ fd, fd ∈ freeIndexMap.list.map MinHeap.Node.data ↔ table[fd]? = some none
  full : size + freeIndexMap.size = table.length
  top : table.length = maxFd + 1 ∨ (table.length = 0 ∧ maxFd = 0)
  bounded : table.length ≤ limit
  limit_word : limit < 2 ^ 32

namespace FileDescriptorTable

def init (limit : Nat) (limit_word : limit < 2 ^ 32) : FileDescriptorTable where
  limit
  size := 0
  maxFd := 0
  freeIndexMap := .init
  table := []
  distinct := List.nodup_nil
  holes := by simp [MinHeap.init]
  full := rfl
  top := .inr ⟨rfl, rfl⟩
  bounded := Nat.zero_le limit
  limit_word

def slot (t : FileDescriptorTable) (fd : Nat) : Option Entry := t.table.getD fd none

theorem slot_eq_some {t : FileDescriptorTable} {fd : Nat} {entry : Entry} :
    t.slot fd = some entry ↔ t.table[fd]? = some (some entry) := by
  rw [slot, List.getD_eq_getElem?_getD]
  cases t.table[fd]? <;> simp

def allSlots (t : FileDescriptorTable) (p : Entry → Bool) : Bool := t.table.all fun o => o.all p

theorem allSlots_iff {t : FileDescriptorTable} {p : Entry → Bool} :
    t.allSlots p = true ↔ ∀ fd entry, t.slot fd = some entry → p entry = true := by
  simp only [allSlots, List.all_eq_true, slot_eq_some]
  constructor
  · intro all fd entry live
    exact all _ (List.mem_of_getElem? live)
  · rintro all (_ | entry) member
    · rfl
    · obtain ⟨fd, live⟩ := List.mem_iff_getElem?.mp member
      exact all fd entry live

theorem slot_inside {t : FileDescriptorTable} {fd : Nat} {entry : Entry}
    (live : t.slot fd = some entry) : fd < t.table.length :=
  (List.getElem?_eq_some_iff.mp (slot_eq_some.mp live)).1

theorem slot_le_maxFd {t : FileDescriptorTable} {fd : Nat} {entry : Entry}
    (live : t.slot fd = some entry) : fd ≤ t.maxFd := by
  have inside := slot_inside live
  have top := t.top
  omega

theorem hole_inside {t : FileDescriptorTable} {fd : Nat}
    (hole : fd ∈ t.freeIndexMap.list.map MinHeap.Node.data) : fd < t.table.length :=
  (List.getElem?_eq_some_iff.mp ((t.holes fd).mp hole)).1

/-- The holes are fewer than the places as long as one entry is live. -/
theorem size_pos {t : FileDescriptorTable} {fd : Nat} {entry : Entry}
    (live : t.slot fd = some entry) : 0 < t.size := by
  have away : fd ∉ t.freeIndexMap.list.map MinHeap.Node.data := by
    rw [t.holes, slot_eq_some.mp live]
    simp
  have sub : fd :: t.freeIndexMap.list.map MinHeap.Node.data ⊆ List.range t.table.length := by
    intro i hi
    rw [List.mem_range]
    rcases List.mem_cons.mp hi with rfl | hole
    · exact slot_inside live
    · exact hole_inside hole
  have fewer := ((List.nodup_cons.mpr ⟨away, t.distinct⟩).subperm sub).length_le
  have full := t.full
  simp only [List.length_cons, List.length_map, List.length_range] at fewer
  simp only [MinHeap.size] at full
  omega

def update (t : FileDescriptorTable) (fd : Nat) (f : Inode → Inode) : FileDescriptorTable :=
  { t with
    table := t.table.modify fd (Option.map fun entry => { entry with inode := f entry.inode })
    holes := by
      intro other
      rw [t.holes, List.getElem?_modify]
      by_cases same : fd = other
      · subst same
        cases t.table[fd]? <;> simp
      · simp [same]
    full := by rw [List.length_modify]; exact t.full
    top := by rw [List.length_modify]; exact t.top
    bounded := by rw [List.length_modify]; exact t.bounded }

theorem slot_update (t : FileDescriptorTable) (fd : Nat) (f : Inode → Inode) (other : Nat) :
    (t.update fd f).slot other = if other = fd then
      (t.slot fd).map (fun entry => { entry with inode := f entry.inode }) else t.slot other := by
  simp only [slot, update, List.getD_eq_getElem?_getD, List.getElem?_modify]
  by_cases same : fd = other
  · subst same
    cases t.table[fd]? <;> simp
  · rw [if_neg (Ne.symm same)]
    simp [same]

/-! ## Inserting -/

/-- `get_file_descriptor`: the smallest hole, else the place behind the last one. -/
def getFileDescriptor (t : FileDescriptorTable) : Nat × MinHeap Nat :=
  match t.freeIndexMap.extractMin with
  | some (fd, heap) => (fd, heap)
  | none => (t.size, t.freeIndexMap)

/-- The array after the `realloc` of `gnl_simfs_file_descriptor_table_put`. -/
def grow (t : FileDescriptorTable) (fd : Nat) : List (Option Entry) :=
  if t.maxFd = 0 ∨ t.maxFd < fd then t.table ++ List.replicate (fd + 1 - t.table.length) none
  else t.table

/-- A descriptor that can be given out: a hole, or the first place not used yet. -/
structure Free (t : FileDescriptorTable) (fd : Nat) (heap : MinHeap Nat) : Prop where
  inside : fd < t.limit
  distinct : (heap.list.map MinHeap.Node.data).Nodup
  holes : ∀ other, other ∈ heap.list.map MinHeap.Node.data ↔
    t.table[other]? = some none ∧ other ≠ fd
  size : t.size + heap.size + 1 = max t.table.length (fd + 1)
  length : fd ≤ t.table.length
  free : t.slot fd = none

theorem getFileDescriptor_free {t : FileDescriptorTable} (room : t.size < t.limit) :
    t.Free t.getFileDescriptor.1 t.getFileDescriptor.2 := by
  have full := t.full
  unfold getFileDescriptor
  split
  · rename_i fd heap extracted
    obtain ⟨key, perm⟩ := MinHeap.extractMin_perm extracted
    have size := MinHeap.extractMin_size extracted
    have data := perm.map MinHeap.Node.data
    rw [List.map_cons] at data
    have distinct := data.nodup_iff.mp t.distinct
    rw [List.nodup_cons] at distinct
    have hole : fd ∈ t.freeIndexMap.list.map MinHeap.Node.data :=
      data.mem_iff.mpr List.mem_cons_self
    have inside := hole_inside hole
    have bounded := t.bounded
    refine ⟨by dsimp only; omega, distinct.2, fun other => ?_, by dsimp only; omega,
      by dsimp only; omega, ?_⟩
    · rw [← t.holes, data.mem_iff, List.mem_cons]
      constructor
      · intro member
        refine ⟨.inr member, ?_⟩
        rintro rfl
        exact distinct.1 member
      · rintro ⟨rfl | member, other⟩
        · exact absurd rfl other
        · exact member
    · rw [slot, List.getD_eq_getElem?_getD, (t.holes fd).mp hole]
      rfl
  · rename_i none_
    have empty := MinHeap.extractMin_eq_none.mp none_
    have zero : t.freeIndexMap.size = 0 := by simp [MinHeap.size, empty]
    have noHole := t.holes
    simp only [empty, List.map_nil, List.not_mem_nil, false_iff] at noHole
    refine ⟨room, by simp [empty], fun other => ?_, by dsimp only; omega, by dsimp only; omega, ?_⟩
    · simp [empty, noHole other]
    · rw [slot, List.getD_eq_getElem?_getD, List.getElem?_eq_none (by omega)]
      rfl

theorem grow_getElem? {t : FileDescriptorTable} {fd : Nat} {heap : MinHeap Nat}
    (free : t.Free fd heap) (other : Nat) (away : other ≠ fd) :
    (t.grow fd)[other]? = t.table[other]? := by
  have length := free.length
  unfold grow
  split
  · by_cases inside : other < t.table.length
    · rw [List.getElem?_append_left inside]
    · have beyond : t.table[other]? = none := List.getElem?_eq_none (by omega)
      rw [List.getElem?_append_right (by omega), beyond]
      refine List.getElem?_eq_none ?_
      rw [List.length_replicate]
      omega
  · rfl

theorem grow_length {t : FileDescriptorTable} {fd : Nat} {heap : MinHeap Nat}
    (free : t.Free fd heap) : (t.grow fd).length = max t.table.length (fd + 1) := by
  have length := free.length
  have top := t.top
  unfold grow
  split
  · rw [List.length_append, List.length_replicate]
    omega
  · omega

def put (t : FileDescriptorTable) (inode : Inode) (pid : Pid) (now : Int) :
    Except Errno (Nat × FileDescriptorTable) :=
  if room : t.size < t.limit then
    let fd := t.getFileDescriptor.1
    have free := getFileDescriptor_free room
    .ok (fd, { t with
      size := t.size + 1
      maxFd := if t.maxFd < fd then fd else t.maxFd
      freeIndexMap := t.getFileDescriptor.2
      table := (t.grow fd).set fd (some { owner := pid, inode := inode.copy now })
      distinct := free.distinct
      holes := by
        intro other
        rw [free.holes]
        by_cases same : other = fd
        · subst same
          simp [List.getElem?_set_self', fd]
        · rw [List.getElem?_set_ne (Ne.symm same), grow_getElem? free other same]
          simp [fd, same]
      full := by
        rw [List.length_set, grow_length free, ← free.size]
        omega
      top := by
        have top := t.top
        have length := free.length
        rw [List.length_set, grow_length free]
        simp only [fd]
        split <;> omega
      bounded := by
        have inside := free.inside
        have bounded := t.bounded
        rw [List.length_set, grow_length free]
        omega })
  else .error .EMFILE

theorem put_spec {t t' : FileDescriptorTable} {inode : Inode} {pid : Pid} {now : Int} {fd : Nat}
    (added : t.put inode pid now = .ok (fd, t')) :
    t.slot fd = none ∧ t'.limit = t.limit ∧ ∀ other, t'.slot other =
      if other = fd then some { owner := pid, inode := inode.copy now } else t.slot other := by
  unfold put at added
  split at added
  · rename_i room
    have free := getFileDescriptor_free room
    obtain ⟨rfl, rfl⟩ := Prod.mk.inj (Except.ok.inj added)
    refine ⟨free.free, rfl, fun other => ?_⟩
    simp only [slot, List.getD_eq_getElem?_getD]
    by_cases same : other = t.getFileDescriptor.1
    · subst same
      have inside : t.getFileDescriptor.1 < (t.grow t.getFileDescriptor.1).length := by
        rw [grow_length free]
        omega
      rw [if_pos rfl, List.getElem?_set_self inside, Option.getD_some]
    · rw [if_neg same, List.getElem?_set_ne (Ne.symm same), grow_getElem? free other same]
  · cases added

/-- The check made before an insertion rules out that it fails. -/
theorem put_isOk {t : FileDescriptorTable} (room : t.size ≠ t.limit) (inode : Inode) (pid : Pid)
    (now : Int) : ∃ fd t', t.put inode pid now = .ok (fd, t') := by
  have full := t.full
  have bounded := t.bounded
  have below : t.size < t.limit := by omega
  exact ⟨_, _, dif_pos below⟩

/-! ## Removing and looking up -/

theorem toInt32_le (x : Int) : toInt32 x ≤ intMax := by
  unfold toInt32 intMax
  rw [Int.bmod_def]
  split <;> omega

theorem full_of_hole {t : FileDescriptorTable} {fd : Nat} {entry : Entry}
    (live : t.slot fd = some entry) {heap : MinHeap Nat}
    (perm : (heap.list.map MinHeap.Node.data).Perm
      (fd :: t.freeIndexMap.list.map MinHeap.Node.data)) :
    t.size - 1 + heap.size = (t.table.set fd none).length := by
  have length := perm.length_eq
  have full := t.full
  have pos := size_pos live
  simp only [List.length_map, List.length_cons] at length
  simp only [MinHeap.size, List.length_set] at full ⊢
  omega

/-- `remove_fd` on a live descriptor, with the key of the hole in the heap. -/
def removeFdKeyed (t : FileDescriptorTable) (fd : Nat) {entry : Entry}
    (live : t.slot fd = some entry) (key : Int) (small : key ≤ intMax) : FileDescriptorTable :=
  match inserted : t.freeIndexMap.insert fd key with
  | none => t
  | some heap =>
      have perm : (heap.list.map MinHeap.Node.data).Perm
          (fd :: t.freeIndexMap.list.map MinHeap.Node.data) := by
        obtain ⟨heap', inserted', perm⟩ := t.freeIndexMap.insert_perm fd small
        obtain rfl : heap' = heap := Option.some.inj (inserted'.symm.trans inserted)
        exact perm.map MinHeap.Node.data
      { t with
        size := t.size - 1
        freeIndexMap := heap
        table := t.table.set fd none
        distinct := by
          rw [perm.nodup_iff, List.nodup_cons, t.holes, slot_eq_some.mp live]
          exact ⟨by simp, t.distinct⟩
        holes := by
          intro other
          rw [perm.mem_iff, List.mem_cons, t.holes]
          by_cases same : other = fd
          · subst same
            simp [List.getElem?_set_self (slot_inside live)]
          · simp [List.getElem?_set_ne (Ne.symm same), same]
        full := full_of_hole live perm
        top := by rw [List.length_set]; exact t.top
        bounded := by rw [List.length_set]; exact t.bounded }

theorem removeFdKeyed_spec {t : FileDescriptorTable} {fd : Nat} {entry : Entry}
    (live : t.slot fd = some entry) {key : Int} (small : key ≤ intMax) :
    (t.removeFdKeyed fd live key small).limit = t.limit ∧
      ∀ other, (t.removeFdKeyed fd live key small).slot other =
        if other = fd then none else t.slot other := by
  obtain ⟨heap, inserted, -⟩ := t.freeIndexMap.insert_perm fd small
  unfold removeFdKeyed
  split
  · rename_i fails
    rw [inserted] at fails
    cases fails
  · refine ⟨rfl, fun other => ?_⟩
    simp only [slot, List.getD_eq_getElem?_getD]
    by_cases same : other = fd
    · subst same
      rw [if_pos rfl, List.getElem?_set_self (slot_inside live), Option.getD_some]
    · rw [if_neg same, List.getElem?_set_ne (Ne.symm same)]

/-- `remove_fd` on a live descriptor; the key of a hole is its index as an `int`. -/
def removeFd (t : FileDescriptorTable) (fd : Nat) {entry : Entry} (live : t.slot fd = some entry) :
    FileDescriptorTable :=
  t.removeFdKeyed fd live (toInt32 fd) (toInt32_le fd)

theorem removeFd_spec {t : FileDescriptorTable} {fd : Nat} {entry : Entry}
    (live : t.slot fd = some entry) : (t.removeFd fd live).limit = t.limit ∧
      ∀ other, (t.removeFd fd live).slot other = if other = fd then none else t.slot other :=
  removeFdKeyed_spec live (toInt32_le fd)

def active (t : FileDescriptorTable) (fd : Nat) : Option Entry :=
  if t.size = 0 ∨ t.maxFd < fd then none else t.slot fd

theorem active_eq (t : FileDescriptorTable) (fd : Nat) : t.active fd = t.slot fd := by
  unfold active
  split
  · rename_i inactive
    cases live : t.slot fd with
    | none => rfl
    | some entry =>
        have pos := size_pos live
        have le := slot_le_maxFd live
        omega
  · rfl

def remove (t : FileDescriptorTable) (fd : Nat) (pid : Pid) : Except Errno FileDescriptorTable :=
  match live : t.active fd with
  | none => .error .EBADF
  | some entry =>
      if entry.owner ≠ pid then .error .EPERM
      else .ok (t.removeFd fd ((t.active_eq fd).symm.trans live))

def get (t : FileDescriptorTable) (fd : Nat) (pid : Pid) : Except Errno Inode :=
  match t.active fd with
  | none => .error .EBADF
  | some entry => if entry.owner ≠ pid then .error .EPERM else .ok entry.inode

theorem get_eq_ok {t : FileDescriptorTable} {fd : Nat} {pid : Pid} {inode : Inode} :
    t.get fd pid = .ok inode ↔ t.slot fd = some { owner := pid, inode } := by
  rw [get, active_eq]
  cases t.slot fd with
  | none => simp
  | some entry =>
      obtain ⟨owner, copy⟩ := entry
      by_cases same : owner = pid <;> simp [same]

theorem remove_eq {t : FileDescriptorTable} {fd : Nat} {pid : Pid} {inode : Inode}
    (live : t.slot fd = some { owner := pid, inode }) :
    t.remove fd pid = .ok (t.removeFd fd live) := by
  unfold remove
  split
  · rename_i inactive
    rw [active_eq, live] at inactive
    cases inactive
  · rename_i entry active
    obtain rfl : { owner := pid, inode } = entry := by
      rw [active_eq, live] at active
      exact Option.some.inj active
    simp

theorem remove_spec {t : FileDescriptorTable} {fd : Nat} {pid : Pid} {inode : Inode}
    (live : t.slot fd = some { owner := pid, inode }) :
    ∃ t', t.remove fd pid = .ok t' ∧ t'.limit = t.limit ∧
      ∀ other, t'.slot other = if other = fd then none else t.slot other :=
  ⟨_, remove_eq live, removeFd_spec live⟩

theorem slot_of_remove {t t' : FileDescriptorTable} {fd : Nat} {pid : Pid}
    (removed : t.remove fd pid = .ok t') {other : Nat} {entry : Entry}
    (live : t'.slot other = some entry) : t.slot other = some entry := by
  unfold remove at removed
  split at removed
  · cases removed
  · rename_i found active
    split at removed
    · cases removed
    · obtain rfl := Except.ok.inj removed
      rw [(removeFd_spec ((t.active_eq fd).symm.trans active)).2] at live
      split at live
      · cases live
      · exact live

def removeOwned (pid : Pid) (t : FileDescriptorTable) (fd : Nat) : FileDescriptorTable :=
  match live : t.slot fd with
  | none => t
  | some entry => if t.size = 0 ∨ entry.owner ≠ pid then t else t.removeFd fd live

def removePid (t : FileDescriptorTable) (pid : Pid) : FileDescriptorTable :=
  (List.range (t.maxFd + 1)).foldl (removeOwned pid) t

def pidInodeSize (t : FileDescriptorTable) (name : Filename) (pid : Pid) : Nat :=
  if t.size = 0 then 0
  else t.table.countP fun slot => slot.any fun entry => entry.owner = pid ∧ entry.inode.name = name

theorem removeOwned_spec (pid : Pid) (t : FileDescriptorTable) (fd : Nat) :
    (removeOwned pid t fd).limit = t.limit ∧ ∀ other, (removeOwned pid t fd).slot other =
      if other = fd then (t.slot fd).filter (fun entry => entry.owner ≠ pid) else t.slot other := by
  unfold removeOwned
  split
  · rename_i dead
    refine ⟨rfl, fun other => ?_⟩
    by_cases same : other = fd <;> simp [same, dead]
  · rename_i entry live
    have pos := size_pos live
    split
    · rename_i skipped
      have owned : entry.owner ≠ pid := skipped.resolve_left (by omega)
      refine ⟨rfl, fun other => ?_⟩
      by_cases same : other = fd <;> simp [same, live, owned, Option.filter]
    · rename_i owned
      have owned : entry.owner = pid := by
        by_contra different
        exact owned (.inr different)
      refine ⟨(removeFd_spec live).1, fun other => ?_⟩
      rw [(removeFd_spec live).2]
      by_cases same : other = fd <;> simp [same, live, owned, Option.filter]

theorem removePid_spec (t : FileDescriptorTable) (pid : Pid) :
    (t.removePid pid).limit = t.limit ∧ ∀ other, (t.removePid pid).slot other =
      (t.slot other).filter fun entry => entry.owner ≠ pid := by
  suffices run : ∀ (fds : List Nat) (u : FileDescriptorTable),
      (fds.foldl (removeOwned pid) u).limit = u.limit ∧
      ∀ other, (fds.foldl (removeOwned pid) u).slot other = if other ∈ fds then
        (u.slot other).filter (fun entry => entry.owner ≠ pid) else u.slot other by
    refine ⟨(run _ t).1, fun other => ?_⟩
    rw [removePid, (run _ t).2]
    split
    · rfl
    · rename_i beyond
      cases live : t.slot other with
      | none => rfl
      | some entry =>
          have le := slot_le_maxFd live
          rw [List.mem_range] at beyond
          omega
  intro fds
  induction fds with
  | nil => exact fun u => ⟨rfl, fun other => by simp⟩
  | cons fd fds ih =>
      intro u
      have step := removeOwned_spec pid u fd
      refine ⟨(ih _).1.trans step.1, fun other => ?_⟩
      rw [List.foldl_cons, (ih _).2, step.2]
      by_cases same : other = fd
      · subst same
        by_cases member : other ∈ fds <;> simp [member, Option.filter_filter]
      · simp [same]

end FileDescriptorTable

end FileStorage
