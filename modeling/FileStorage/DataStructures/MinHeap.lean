import Mathlib.Data.List.Induction
import Mathlib.Data.List.Perm.Basic
import Mathlib.Data.Int.Order.Basic

/-! # The min heap

The array heap of `gnl_min_heap_t.c`. The list holds the first `size` nodes of
the allocated array; what lies beyond is never read. The loops carry a bound on
their iterations: an index that moves up halves, one that moves down grows past
the size, so the bounds given by the callers are never reached.
-/

namespace FileStorage

/-- `INT_MAX`, the key a node has before it is inserted. -/
def intMax : Int := 2147483647

namespace MinHeap

structure Node (α : Type) where
  data : α
  key : Int
  deriving DecidableEq

end MinHeap

/-- The nodes of a heap, root first. -/
structure MinHeap (α : Type) where
  list : List (MinHeap.Node α)
  deriving DecidableEq

namespace MinHeap

variable {α : Type}

def size (mh : MinHeap α) : Nat := mh.list.length

def parent (i : Nat) : Nat := (i - 1) / 2

def left (i : Nat) : Nat := 2 * i + 1

def right (i : Nat) : Nat := 2 * i + 2

def keyAt (list : List (Node α)) (i : Nat) : Int := (list[i]?.map Node.key).getD intMax

def swap (list : List (Node α)) (i j : Nat) : List (Node α) :=
  match list[i]?, list[j]? with
  | some a, some b => (list.set i b).set j a
  | _, _ => list

/-- The index of the smallest key among `i` and its children, the earlier one on
    equal keys. -/
def smallest (list : List (Node α)) (i : Nat) : Nat :=
  let first := if left i < list.length ∧ keyAt list (left i) < keyAt list i then left i else i
  if right i < list.length ∧ keyAt list (right i) < keyAt list first then right i else first

/-- Move the node at `i` down until no child has a smaller key. -/
def minHeapify : (bound : Nat) → List (Node α) → (i : Nat) → List (Node α)
  | 0, list, _ => list
  | bound + 1, list, i =>
      if smallest list i ≠ i then
        minHeapify bound (swap list i (smallest list i)) (smallest list i)
      else list

/-- Move the node at `i` up while its parent has a greater key. -/
def siftUp : (bound : Nat) → List (Node α) → (i : Nat) → List (Node α)
  | 0, list, _ => list
  | bound + 1, list, i =>
      if 0 < i ∧ keyAt list i < keyAt list (parent i) then
        siftUp bound (swap list i (parent i)) (parent i)
      else list

def init : MinHeap α := ⟨[]⟩

/-- `gnl_min_heap_decrease_key` on the underlying array; `none` is the return
    value -1 for a key greater than the current one. -/
def decreaseKey (list : List (Node α)) (i : Nat) (key : Int) : Option (List (Node α)) :=
  if keyAt list i < key then none
  else some (siftUp i (list.modify i fun node => { node with key }) i)

/-- `gnl_min_heap_insert`: the new node is put behind the last one with the
    greatest key and then brought to its place. -/
def insert (mh : MinHeap α) (el : α) (key : Int) : Option (MinHeap α) :=
  (decreaseKey (mh.list ++ [⟨el, intMax⟩]) mh.size key).map MinHeap.mk

/-- `gnl_min_heap_extract_min`: the root, and the heap without it. -/
def extractMin (mh : MinHeap α) : Option (α × MinHeap α) :=
  match mh.list with
  | [] => none
  | root :: rest =>
      let moved := ((root :: rest).set 0 (rest.getLastD root)).dropLast
      some (root.data, ⟨minHeapify moved.length moved 0⟩)

/-! ## What the heap holds -/

theorem swap_perm (list : List (Node α)) (i j : Nat) : (swap list i j).Perm list := by
  unfold swap
  cases hi : list[i]? with
  | none => exact List.Perm.refl _
  | some a =>
      cases hj : list[j]? with
      | none => exact List.Perm.refl _
      | some b =>
          obtain ⟨insideI, rfl⟩ := List.getElem?_eq_some_iff.mp hi
          obtain ⟨insideJ, rfl⟩ := List.getElem?_eq_some_iff.mp hj
          exact List.set_set_perm insideI insideJ

theorem minHeapify_perm (bound : Nat) (list : List (Node α)) (i : Nat) :
    (minHeapify bound list i).Perm list := by
  induction bound generalizing list i with
  | zero => exact List.Perm.refl _
  | succ bound ih =>
      simp only [minHeapify]
      split
      · exact (ih _ _).trans (swap_perm _ _ _)
      · exact List.Perm.refl _

theorem siftUp_perm (bound : Nat) (list : List (Node α)) (i : Nat) :
    (siftUp bound list i).Perm list := by
  induction bound generalizing list i with
  | zero => exact List.Perm.refl _
  | succ bound ih =>
      simp only [siftUp]
      split
      · exact (ih _ _).trans (swap_perm _ _ _)
      · exact List.Perm.refl _

theorem modify_length (list : List α) (a : α) (f : α → α) :
    (list ++ [a]).modify list.length f = list ++ [f a] := by
  induction list with
  | nil => rfl
  | cons head tail ih => simpa using ih

/-- An insertion with an `int` key succeeds and adds exactly the new node. -/
theorem insert_perm (mh : MinHeap α) (el : α) {key : Int} (small : key ≤ intMax) :
    ∃ mh', mh.insert el key = some mh' ∧ mh'.list.Perm (⟨el, key⟩ :: mh.list) := by
  have fresh : keyAt (mh.list ++ [⟨el, intMax⟩]) mh.size = intMax := by
    simp [keyAt, size]
  have placed : (mh.list ++ [(⟨el, intMax⟩ : Node α)]).modify mh.size
      (fun node => { node with key }) = mh.list ++ [⟨el, key⟩] :=
    modify_length mh.list ⟨el, intMax⟩ _
  refine ⟨⟨siftUp mh.size (mh.list ++ [⟨el, key⟩]) mh.size⟩, ?_, ?_⟩
  · simp only [insert, decreaseKey, fresh, placed, if_neg (Int.not_lt.mpr small),
      Option.map_some]
  · exact (siftUp_perm _ _ _).trans (List.perm_append_singleton _ _)

/-- No key beyond the greatest `int` is ever inserted. -/
theorem insert_small {mh mh' : MinHeap α} {el : α} {key : Int}
    (inserted : mh.insert el key = some mh') : key ≤ intMax := by
  by_contra large
  have fresh : keyAt (mh.list ++ [⟨el, intMax⟩]) mh.size = intMax := by
    simp [keyAt, size]
  rw [insert, decreaseKey, fresh, if_pos (Int.not_le.mp large)] at inserted
  cases inserted

theorem extractMin_eq_none {mh : MinHeap α} : mh.extractMin = none ↔ mh.list = [] := by
  cases h : mh.list <;> simp [extractMin, h]

theorem extractMin_cons {mh mh' : MinHeap α} {el : α} {root : Node α} {rest : List (Node α)}
    (nodes : mh.list = root :: rest) (extracted : mh.extractMin = some (el, mh')) :
    root.data = el ∧ rest.Perm mh'.list := by
  simp only [extractMin, nodes, Option.some.injEq, Prod.mk.injEq] at extracted
  obtain ⟨rfl, rfl⟩ := extracted
  refine ⟨rfl, List.Perm.trans ?_ (minHeapify_perm _ _ _).symm⟩
  cases rest using List.reverseRecOn with
  | nil => simp
  | append_singleton init last =>
      have moved : (((root :: (init ++ [last])).set 0 ((init ++ [last]).getLastD root)).dropLast) =
          last :: init := by
        rw [List.getLastD_concat, List.set_cons_zero, ← List.cons_append, List.dropLast_concat]
      rw [moved]
      exact List.perm_append_singleton _ _

theorem extractMin_perm {mh mh' : MinHeap α} {el : α} (extracted : mh.extractMin = some (el, mh')) :
    ∃ key, mh.list.Perm (⟨el, key⟩ :: mh'.list) := by
  cases h : mh.list with
  | nil => simp [extractMin, h] at extracted
  | cons root rest =>
      obtain ⟨rfl, perm⟩ := extractMin_cons h extracted
      exact ⟨root.key, perm.cons root⟩

theorem extractMin_size {mh mh' : MinHeap α} {el : α} (extracted : mh.extractMin = some (el, mh')) :
    mh.size = mh'.size + 1 := by
  obtain ⟨key, perm⟩ := extractMin_perm extracted
  simpa [size] using perm.length_eq

/-! ## The order of the heap -/

/-- No node has a smaller key than its parent. -/
def Ordered (list : List (Node α)) : Prop :=
  ∀ i, 0 < i → i < list.length → keyAt list (parent i) ≤ keyAt list i

theorem swap_length (list : List (Node α)) (i j : Nat) : (swap list i j).length = list.length :=
  (swap_perm list i j).length_eq

theorem keyAt_swap {list : List (Node α)} {i j : Nat} (insideI : i < list.length)
    (insideJ : j < list.length) (k : Nat) : keyAt (swap list i j) k =
      if k = j then keyAt list i else if k = i then keyAt list j else keyAt list k := by
  simp only [keyAt, swap, List.getElem?_eq_getElem insideI, List.getElem?_eq_getElem insideJ,
    List.getElem?_set, List.length_set, Option.map_some, Option.getD_some]
  by_cases atJ : k = j
  · simp [atJ, insideJ]
  · by_cases atI : k = i
    · subst atI
      simp [Ne.symm atJ, atJ, insideI]
    · simp [atJ, atI, Ne.symm atJ, Ne.symm atI]

theorem Ordered.root_le {list : List (Node α)} (ordered : Ordered list) (i : Nat)
    (inside : i < list.length) : keyAt list 0 ≤ keyAt list i := by
  induction i using Nat.strongRecOn with
  | _ i ih =>
      by_cases root : i = 0
      · rw [root]
      · have above : parent i < i := by
          unfold parent
          omega
        have first := ih (parent i) above (by omega)
        have second := ordered i (by omega) inside
        omega

/-- In order but for the node at `i`, which may be smaller than its parent. -/
structure UpOrdered (list : List (Node α)) (i : Nat) : Prop where
  others : ∀ j, 0 < j → j < list.length → j ≠ i → keyAt list (parent j) ≤ keyAt list j
  children : 0 < i → ∀ j, 0 < j → j < list.length → parent j = i →
    keyAt list (parent i) ≤ keyAt list j

theorem UpOrdered.swap {list : List (Node α)} {i : Nat} (up : UpOrdered list i) (below : 0 < i)
    (inside : i < list.length) (smaller : keyAt list i < keyAt list (parent i)) :
    UpOrdered (swap list i (parent i)) (parent i) := by
  have above : parent i < i := by
    unfold parent
    omega
  have keys := keyAt_swap inside (show parent i < list.length by omega)
  have self : ∀ j, 0 < j → parent j ≠ j := by
    intro j pos
    unfold parent
    omega
  constructor
  · intro j pos insideJ away
    rw [swap_length] at insideJ
    rw [keys, keys, if_neg away]
    have order := up.others j pos insideJ
    have child := up.children below j pos insideJ
    by_cases atI : j = i
    · subst atI
      rw [if_pos rfl, if_pos rfl]
      omega
    · rw [if_neg atI]
      by_cases toParent : parent j = parent i
      · rw [if_pos toParent]
        have := order atI
        rw [toParent] at this
        omega
      · rw [if_neg toParent]
        by_cases toI : parent j = i
        · rw [if_pos toI]
          exact child toI
        · rw [if_neg toI]
          exact order atI
  · intro pos j posJ insideJ toParent
    rw [swap_length] at insideJ
    have selfParent := self (parent i) pos
    have away : j ≠ parent i := fun same => self j posJ (toParent.trans same.symm)
    have grand := up.others (parent i) pos (by omega) (by omega)
    have notI : parent (parent i) ≠ i := by
      unfold parent at above ⊢
      omega
    rw [keys, keys, if_neg selfParent, if_neg notI, if_neg away]
    by_cases atI : j = i
    · rw [if_pos atI]
      exact grand
    · rw [if_neg atI]
      have order := up.others j posJ insideJ atI
      rw [toParent] at order
      omega

theorem siftUp_ordered {bound : Nat} {list : List (Node α)} {i : Nat} (enough : i ≤ bound)
    (inside : i < list.length) (up : UpOrdered list i) : Ordered (siftUp bound list i) := by
  induction bound generalizing list i with
  | zero =>
      intro j pos insideJ
      exact up.others j pos insideJ (by omega)
  | succ bound ih =>
      simp only [siftUp]
      split
      · rename_i moves
        have above : parent i < i := by
          unfold parent
          omega
        exact ih (by omega) (by rw [swap_length]; omega) (up.swap moves.1 inside moves.2)
      · rename_i stays
        intro j pos insideJ
        by_cases atI : j = i
        · subst atI
          exact not_lt.mp fun smaller => stays ⟨pos, smaller⟩
        · exact up.others j pos insideJ atI

/-- In order but for the node at `i`, which may be greater than its children. -/
structure DownOrdered (list : List (Node α)) (i : Nat) : Prop where
  others : ∀ j, 0 < j → j < list.length → parent j ≠ i → keyAt list (parent j) ≤ keyAt list j
  children : 0 < i → ∀ j, 0 < j → j < list.length → parent j = i →
    keyAt list (parent i) ≤ keyAt list j

/-- `smallest` is one of the node and its children, and none of them is smaller. -/
theorem smallest_spec (list : List (Node α)) (i : Nat) :
    (smallest list i = i ∨ parent (smallest list i) = i ∧ i < smallest list i ∧
      smallest list i < list.length ∧ keyAt list (smallest list i) < keyAt list i) ∧
    ∀ j, 0 < j → j < list.length → parent j = i →
      keyAt list (smallest list i) ≤ keyAt list j := by
  have cases_ : ∀ j, 0 < j → parent j = i → j = left i ∨ j = right i := by
    intro j pos
    unfold parent left right
    omega
  have parents : parent (left i) = i ∧ parent (right i) = i ∧ i < left i ∧ i < right i := by
    unfold parent left right
    omega
  by_cases first : left i < list.length ∧ keyAt list (left i) < keyAt list i
  · by_cases second : right i < list.length ∧ keyAt list (right i) < keyAt list (left i)
    · have is : smallest list i = right i := by simp [smallest, first, second]
      rw [is]
      refine ⟨.inr ⟨parents.2.1, parents.2.2.2, second.1, by omega⟩, fun j pos inside toI => ?_⟩
      rcases cases_ j pos toI with rfl | rfl <;> omega
    · have is : smallest list i = left i := by simp [smallest, first, second]
      rw [is]
      refine ⟨.inr ⟨parents.1, parents.2.2.1, first⟩, fun j pos inside toI => ?_⟩
      rcases cases_ j pos toI with rfl | rfl <;> omega
  · by_cases second : right i < list.length ∧ keyAt list (right i) < keyAt list i
    · have is : smallest list i = right i := by simp [smallest, first, second]
      rw [is]
      refine ⟨.inr ⟨parents.2.1, parents.2.2.2, second⟩, fun j pos inside toI => ?_⟩
      rcases cases_ j pos toI with rfl | rfl <;> omega
    · have is : smallest list i = i := by simp [smallest, first, second]
      rw [is]
      refine ⟨.inl rfl, fun j pos inside toI => ?_⟩
      rcases cases_ j pos toI with rfl | rfl <;> omega

theorem DownOrdered.swap {list : List (Node α)} {i : Nat} (down : DownOrdered list i)
    (inside : i < list.length) (moves : smallest list i ≠ i) :
    DownOrdered (swap list i (smallest list i)) (smallest list i) := by
  obtain ⟨place, least⟩ := smallest_spec list i
  obtain ⟨toI, above, insideS, smaller⟩ := place.resolve_left moves
  generalize smallest list i = s at *
  have keys := keyAt_swap inside insideS
  have notSelf : ∀ j, 0 < j → parent j ≠ j := by
    intro j pos
    unfold parent
    omega
  constructor
  · intro j pos insideJ away
    rw [swap_length] at insideJ
    rw [keys, keys, if_neg away]
    by_cases atS : j = s
    · subst atS
      rw [if_pos rfl, if_pos toI]
      omega
    · rw [if_neg atS]
      by_cases atI : j = i
      · subst atI
        rw [if_pos rfl, if_neg (notSelf j pos)]
        exact down.children pos s (by omega) insideS toI
      · rw [if_neg atI]
        by_cases below : parent j = i
        · rw [if_pos below]
          exact least j pos insideJ below
        · rw [if_neg below]
          exact down.others j pos insideJ below
  · intro pos j posJ insideJ toS
    rw [swap_length] at insideJ
    have farther : s < j := by
      unfold parent at toS
      omega
    rw [keys, keys, toI, if_neg (by omega), if_pos rfl, if_neg (by omega), if_neg (by omega)]
    have order := down.others j posJ insideJ (by omega)
    rw [toS] at order
    exact order

theorem minHeapify_ordered {bound : Nat} {list : List (Node α)} {i : Nat}
    (enough : list.length ≤ bound + i) (down : DownOrdered list i) :
    Ordered (minHeapify bound list i) := by
  induction bound generalizing list i with
  | zero =>
      intro j pos insideJ
      refine down.others j pos insideJ ?_
      simp only [minHeapify] at insideJ
      unfold parent
      omega
  | succ bound ih =>
      simp only [minHeapify]
      obtain ⟨place, least⟩ := smallest_spec list i
      split
      · rename_i moves
        obtain ⟨-, above, insideS, -⟩ := place.resolve_left moves
        exact ih (by rw [swap_length]; omega) (down.swap (by omega) moves)
      · rename_i stays
        rw [not_not] at stays
        intro j pos insideJ
        by_cases below : parent j = i
        · have := least j pos insideJ below
          rw [stays] at this
          rw [below]
          exact this
        · exact down.others j pos insideJ below

theorem keyAt_append_left {list rest : List (Node α)} {i : Nat} (inside : i < list.length) :
    keyAt (list ++ rest) i = keyAt list i := by
  simp only [keyAt, List.getElem?_append_left inside]

theorem insert_ordered {mh mh' : MinHeap α} {el : α} {key : Int} (ordered : Ordered mh.list)
    (inserted : mh.insert el key = some mh') : Ordered mh'.list := by
  obtain ⟨list, decreased, rfl⟩ := Option.map_eq_some_iff.mp inserted
  unfold decreaseKey at decreased
  split at decreased
  · cases decreased
  · obtain rfl := Option.some.inj decreased
    have placed : (mh.list ++ [(⟨el, intMax⟩ : Node α)]).modify mh.size
        (fun node => { node with key }) = mh.list ++ [⟨el, key⟩] :=
      modify_length mh.list ⟨el, intMax⟩ _
    rw [placed]
    refine siftUp_ordered (Nat.le_refl _) (by simp [size]) ⟨?_, ?_⟩
    · intro j pos inside away
      have inside : j < mh.list.length := by
        rw [List.length_append, List.length_singleton] at inside
        unfold size at away
        omega
      have above : parent j < j := by
        unfold parent
        omega
      rw [keyAt_append_left inside, keyAt_append_left (show parent j < mh.list.length by omega)]
      exact ordered j pos inside
    · intro _ j pos inside toLast
      rw [List.length_append, List.length_singleton] at inside
      unfold parent size at toLast
      omega

theorem extractMin_ordered {mh mh' : MinHeap α} {el : α} (ordered : Ordered mh.list)
    (extracted : mh.extractMin = some (el, mh')) : Ordered mh'.list := by
  cases h : mh.list with
  | nil => simp [extractMin, h] at extracted
  | cons root rest =>
      simp only [extractMin, h, Option.some.injEq, Prod.mk.injEq] at extracted
      obtain ⟨-, rfl⟩ := extracted
      refine minHeapify_ordered (Nat.le_add_right _ _) ⟨?_, fun pos => absurd pos (Nat.lt_irrefl 0)⟩
      intro j pos inside away
      have kept : ∀ k, 0 < k → k < rest.length →
          keyAt (((root :: rest).set 0 (rest.getLastD root)).dropLast) k = keyAt mh.list k := by
        intro k posK insideK
        rw [h, keyAt, keyAt, List.getElem?_dropLast, if_pos (by simpa using insideK),
          List.getElem?_set_ne (by omega)]
      have length : (((root :: rest).set 0 (rest.getLastD root)).dropLast).length = rest.length := by
        simp
      rw [length] at inside
      have above : parent j < j := by
        unfold parent
        omega
      rw [kept j pos inside, kept (parent j) (by omega) (by omega)]
      refine ordered j pos ?_
      rw [h, List.length_cons]
      omega

theorem extractMin_le {mh mh' : MinHeap α} {el : α} (ordered : Ordered mh.list)
    (extracted : mh.extractMin = some (el, mh')) :
    ∃ root ∈ mh.list, root.data = el ∧ ∀ node ∈ mh.list, root.key ≤ node.key := by
  cases h : mh.list with
  | nil => simp [extractMin, h] at extracted
  | cons root rest =>
      simp only [extractMin, h, Option.some.injEq, Prod.mk.injEq] at extracted
      refine ⟨root, List.mem_cons_self, extracted.1, fun node member => ?_⟩
      obtain ⟨i, inside, rfl⟩ := List.mem_iff_getElem.mp member
      have least := ordered.root_le i (by rw [h]; exact inside)
      simpa [keyAt, h, List.getElem?_eq_getElem inside] using least

/-! ## Equal keys -/

/-- A node that comes up does not take the place of a root with a least key. -/
theorem siftUp_root {bound : Nat} {list : List (Node α)} {i : Nat} (inside : i < list.length)
    (least : ∀ j, j < list.length → keyAt list 0 ≤ keyAt list j) :
    (siftUp bound list i)[0]? = list[0]? := by
  induction bound generalizing list i with
  | zero => rfl
  | succ bound ih =>
      rw [siftUp]
      split
      · rename_i moves
        obtain ⟨below, smaller⟩ := moves
        have up : parent i < list.length := by
          unfold parent
          omega
        have apart : parent i ≠ 0 := by
          intro top
          rw [top] at smaller
          exact absurd (least i inside) (not_le.mpr smaller)
        have swapped := keyAt_swap inside up
        have root : (swap list i (parent i))[0]? = list[0]? := by
          simp only [swap, List.getElem?_eq_getElem inside, List.getElem?_eq_getElem up]
          rw [List.getElem?_set_ne apart, List.getElem?_set_ne (Nat.ne_of_gt below)]
        rw [ih (by rwa [swap_length]) ?_, root]
        intro j insideJ
        rw [swap_length] at insideJ
        rw [swapped 0, if_neg (Ne.symm apart), if_neg (Nat.ne_of_lt below), swapped j]
        split
        · exact least i inside
        · split
          · exact least (parent i) up
          · exact least j insideJ
      · rfl

theorem insert_root {mh mh' : MinHeap α} {el : α} {key : Int} {root : Node α}
    (ordered : Ordered mh.list) (is : mh.list.head? = some root) (le : root.key ≤ key)
    (inserted : mh.insert el key = some mh') : mh'.list.head? = some root := by
  obtain ⟨list, decreased, rfl⟩ := Option.map_eq_some_iff.mp inserted
  unfold decreaseKey at decreased
  split at decreased
  · cases decreased
  · obtain rfl := Option.some.inj decreased
    have placed : (mh.list ++ [(⟨el, intMax⟩ : Node α)]).modify mh.size
        (fun node => { node with key }) = mh.list ++ [⟨el, key⟩] :=
      modify_length mh.list ⟨el, intMax⟩ _
    have some_ : 0 < mh.list.length := List.length_pos_of_mem (List.mem_of_mem_head? is)
    have first : mh.list[0]? = some root := by rw [← List.head?_eq_getElem?, is]
    rw [placed, List.head?_eq_getElem?, siftUp_root (by simp [size]), List.getElem?_append_left some_,
      first]
    intro j inside
    have top : keyAt mh.list 0 = root.key := by rw [keyAt, first, Option.map_some, Option.getD_some]
    rw [keyAt_append_left some_]
    by_cases old : j < mh.list.length
    · rw [keyAt_append_left old]
      exact ordered.root_le j old
    · have last : j = mh.list.length := by
        rw [List.length_append, List.length_singleton] at inside
        omega
      rw [top, keyAt, last, List.getElem?_concat_length, Option.map_some, Option.getD_some]
      exact le

end MinHeap

end FileStorage
