import FileStorage.Simfs.FileDescriptorTable

/-! # Destroying the descriptor table

`gnl_simfs_file_descriptor_table_destroy` finds the live entries through a bitmap
of `max_fd` positions: all are set, those of the holes are cleared again, and the
slots whose position is still set are freed. The loops run up to `max_fd`
included, one position beyond the end; the model keeps a value there as well, and
the positions that are read or written stand in a list of their own.
-/

namespace FileStorage.FileDescriptorTable

/-- What the destruction of a table touches, in this order. -/
structure Destroyed where
  positions : List Int
  freed : List Nat
  deriving DecidableEq

/-- The loop that takes the holes out of the free index map. -/
def drain : (bound : Nat) → MinHeap Nat → List Nat
  | 0, _ => []
  | bound + 1, heap => match heap.extractMin with
      | none => []
      | some (fd, heap) => fd :: drain bound heap

/-- `bitmap[*(int *)raw_fd] = 0`. -/
def clearPosition (bitmap : List Bool) (fd : Nat) : List Bool :=
  if 0 ≤ toInt32 fd then bitmap.set (toInt32 fd).toNat false else bitmap

def destroy (t : FileDescriptorTable) : Destroyed :=
  if 0 < t.size then
    let indices := List.range (t.maxFd + 1)
    let holes := drain t.freeIndexMap.size t.freeIndexMap
    let bitmap := holes.foldl clearPosition (List.replicate (t.maxFd + 1) true)
    { positions := indices.map Nat.cast ++ holes.map (fun fd => toInt32 fd) ++ indices.map Nat.cast
      freed := indices.filter fun fd => bitmap.getD fd false }
  else { positions := [], freed := [] }

/-! ## The slots that are freed -/

theorem drain_perm (bound : Nat) (heap : MinHeap Nat) (enough : heap.size ≤ bound) :
    (drain bound heap).Perm (heap.list.map MinHeap.Node.data) := by
  induction bound generalizing heap with
  | zero =>
      have empty : heap.list = [] := List.eq_nil_of_length_eq_zero (Nat.le_zero.mp enough)
      rw [drain, empty]
      exact .refl []
  | succ bound ih =>
      rw [drain]
      cases extracted : heap.extractMin with
      | none =>
          rw [MinHeap.extractMin_eq_none.mp extracted]
          exact .refl []
      | some result =>
          obtain ⟨fd, rest⟩ := result
          obtain ⟨key, perm⟩ := MinHeap.extractMin_perm extracted
          have size := MinHeap.extractMin_size extracted
          exact ((ih rest (by omega)).cons fd).trans (perm.map MinHeap.Node.data).symm

theorem getD_clearPosition {bitmap : List Bool} {fd : Nat} (small : fd < 2 ^ 31) (i : Nat) :
    (clearPosition bitmap fd).getD i false = (bitmap.getD i false && decide (i ≠ fd)) := by
  have exact_ : toInt32 fd = fd := toInt32_of_range (by omega) (by omega)
  rw [clearPosition, exact_, if_pos (Int.natCast_nonneg fd), Int.toNat_natCast,
    List.getD_eq_getElem?_getD, List.getD_eq_getElem?_getD, List.getElem?_set]
  by_cases same : fd = i
  · subst same
    by_cases inside : fd < bitmap.length <;> simp [inside]
  · simp [same, Ne.symm same]

theorem getD_clearPositions {bitmap : List Bool} {fds : List Nat}
    (small : ∀ fd ∈ fds, fd < 2 ^ 31) (i : Nat) :
    (fds.foldl clearPosition bitmap).getD i false = (bitmap.getD i false && decide (i ∉ fds)) := by
  induction fds generalizing bitmap with
  | nil => simp
  | cons fd fds ih =>
      rw [List.foldl_cons, ih fun fd member => small fd (List.mem_cons_of_mem _ member),
        getD_clearPosition (small fd List.mem_cons_self), Bool.and_assoc]
      simp

theorem mem_freed_iff {t : FileDescriptorTable} (small : t.maxFd < 2 ^ 31) (fd : Nat) :
    fd ∈ t.destroy.freed ↔ ∃ entry, t.slot fd = some entry := by
  have perm := drain_perm t.freeIndexMap.size t.freeIndexMap le_rfl
  by_cases live : 0 < t.size
  · have length : t.table.length = t.maxFd + 1 := by
      have full := t.full
      have top := t.top
      omega
    have holes : ∀ fd ∈ drain t.freeIndexMap.size t.freeIndexMap, fd < 2 ^ 31 := by
      intro fd member
      have inside := hole_inside (perm.subset member)
      omega
    simp only [destroy, if_pos live, List.mem_filter, List.mem_range, getD_clearPositions holes]
    simp only [List.getD_eq_getElem?_getD, List.getElem?_replicate, perm.mem_iff, t.holes]
    constructor
    · rintro ⟨inside, set⟩
      rw [if_pos inside, Option.getD_some, Bool.true_and, decide_eq_true_eq] at set
      cases found : t.table[fd]? with
      | none =>
          rw [List.getElem?_eq_none_iff] at found
          omega
      | some slot =>
          cases slot with
          | none => exact absurd found set
          | some entry => exact ⟨entry, slot_eq_some.mpr found⟩
    · rintro ⟨entry, found⟩
      have inside := slot_inside found
      rw [length] at inside
      refine ⟨inside, ?_⟩
      rw [if_pos inside, slot_eq_some.mp found]
      rfl
  · simp only [destroy, if_neg live, List.not_mem_nil, false_iff]
    rintro ⟨entry, found⟩
    exact live (size_pos found)

theorem freed_nodup (t : FileDescriptorTable) : t.destroy.freed.Nodup := by
  unfold destroy
  split
  · exact List.nodup_range.filter _
  · exact List.nodup_nil

theorem last_position {t : FileDescriptorTable} (live : 0 < t.size) :
    (t.maxFd : Int) ∈ t.destroy.positions := by
  simp [destroy, live]

/-- With a live entry the last position is beyond the end of the bitmap, so the
    destruction stays in bounds exactly for a table without one. The slots it frees
    are the live ones, each once. -/
theorem destroy_safe_iff (t : FileDescriptorTable) :
    ((∀ position ∈ t.destroy.positions, 0 ≤ position ∧ position < t.maxFd) ∧
        (∀ fd ∈ t.destroy.freed, ∃ entry, t.slot fd = some entry) ∧
        (∀ fd entry, t.slot fd = some entry → t.destroy.freed.count fd = 1) ↔ t.size = 0) ∧
      (t.maxFd < 2 ^ 31 →
        (∀ fd ∈ t.destroy.freed, ∃ entry, t.slot fd = some entry) ∧
        ∀ fd entry, t.slot fd = some entry → t.destroy.freed.count fd = 1) := by
  refine ⟨⟨?_, ?_⟩, ?_⟩
  · rintro ⟨inBounds, -⟩
    by_contra live
    exact lt_irrefl _ (inBounds t.maxFd (last_position (Nat.pos_of_ne_zero live))).2
  · intro empty
    have nothing : t.destroy = { positions := [], freed := [] } := by simp [destroy, empty]
    rw [nothing]
    refine ⟨nofun, nofun, fun fd entry found => ?_⟩
    have positive := size_pos found
    omega
  · intro small
    refine ⟨fun fd member => (mem_freed_iff small fd).mp member, fun fd entry found => ?_⟩
    exact List.count_eq_one_of_mem t.freed_nodup ((mem_freed_iff small fd).mpr ⟨entry, found⟩)

/-- One entry is enough: its table has `max_fd` 0 and the bitmap no position at all. -/
theorem destroy_unsafe :
    ¬ ∀ (inode : Inode) (pid : Pid) (now : Int) (fd : Nat) (t : FileDescriptorTable),
      (init 8 (by decide)).put inode pid now = .ok (fd, t) →
      (∀ position ∈ t.destroy.positions, 0 ≤ position ∧ position < t.maxFd) ∧
        (∀ fd ∈ t.destroy.freed, ∃ entry, t.slot fd = some entry) ∧
        ∀ fd entry, t.slot fd = some entry → t.destroy.freed.count fd = 1 := by
  intro safe
  obtain ⟨fd, t, added⟩ := put_isOk (t := init 8 (by decide)) (by decide) (Inode.init [97] 0 0) 1 0
  have live : t.slot fd = some _ := ((put_spec added).2.2 fd).trans (if_pos rfl)
  exact lt_irrefl _ ((safe _ _ _ _ _ added).1 t.maxFd (last_position (size_pos live))).2

end FileStorage.FileDescriptorTable
