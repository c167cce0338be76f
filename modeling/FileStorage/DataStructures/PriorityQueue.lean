import FileStorage.Basic
import FileStorage.DataStructures.MinHeap
import Mathlib.Data.Multiset.AddSub

/-! # The min heap as a priority queue

The array may grow up to the range of `unsigned long`, while the functions of the
source address it with `int` indices. Below the calls are made with those indices:
an index that does not fit is converted when the size is passed to
`gnl_min_heap_decrease_key`, and overflows when a child is computed.
-/

namespace FileStorage.MinHeap

variable {α : Type}

inductive Call (α : Type) where
  | insert (el : α) (key : Int)
  | decreaseKey (i : Nat) (key : Int)
  | extractMin

inductive Reply (α : Type) where
  | done
  | extracted (el : α)
  | failed (code : Errno)

/-- `min_heapify` with its children computed in `int`; of the two the right one
    overflows first. -/
def intMinHeapify (bound : Nat) (list : List (Node α)) (i : Nat) :
    Except Fault (List (Node α)) :=
  if intMax < right i then .error .overflow
  else match bound with
    | 0 => .ok list
    | bound + 1 =>
        if smallest list i ≠ i then
          intMinHeapify bound (swap list i (smallest list i)) (smallest list i)
        else .ok list

/-- The array once the last node has replaced the root. -/
def rerooted (root : Node α) (rest : List (Node α)) : List (Node α) :=
  ((root :: rest).set 0 (rest.getLastD root)).dropLast

/-- The call with the `int` indices of the source. -/
def call (mh : MinHeap α) : Call α → Except Fault (Reply α × MinHeap α)
  | .insert el key =>
      let i := toInt32 mh.size
      if i < 0 then .error .readOutside
      else match decreaseKey (mh.list ++ [⟨el, intMax⟩]) i.toNat key with
        | none => .ok (.failed .EINVAL, mh)
        | some list => .ok (.done, ⟨list⟩)
  | .decreaseKey i key =>
      match decreaseKey mh.list i key with
      | none => .ok (.failed .EINVAL, mh)
      | some list => .ok (.done, ⟨list⟩)
  | .extractMin =>
      match mh.list with
      | [] => .ok (.failed .EPERM, mh)
      | root :: rest =>
          let list := rerooted root rest
          (intMinHeapify list.length list 0).map fun list => (.extracted root.data, ⟨list⟩)

/-! ## The indices -/

/-- The index at which the node at `i` comes to rest when it moves down. -/
def resting : (bound : Nat) → List (Node α) → (i : Nat) → Nat
  | 0, _, i => i
  | bound + 1, list, i =>
      if smallest list i ≠ i then resting bound (swap list i (smallest list i)) (smallest list i)
      else i

theorem le_smallest (list : List (Node α)) (i : Nat) : i ≤ smallest list i := by
  obtain ⟨same | ⟨_, above, _⟩, _⟩ := smallest_spec list i
  · exact same.ge
  · exact above.le

theorem le_resting (bound : Nat) (list : List (Node α)) (i : Nat) : i ≤ resting bound list i := by
  induction bound generalizing list i with
  | zero => exact Nat.le_refl i
  | succ bound ih =>
      simp only [resting]
      split
      · exact (le_smallest list i).trans (ih _ _)
      · exact Nat.le_refl i

/-- Only the place where the node comes to rest decides whether an index overflows. -/
theorem intMinHeapify_eq (bound : Nat) (list : List (Node α)) (i : Nat) :
    intMinHeapify bound list i =
      if intMax < right (resting bound list i) then .error .overflow
      else .ok (minHeapify bound list i) := by
  induction bound generalizing list i with
  | zero => rfl
  | succ bound ih =>
      have deeper := le_resting (bound + 1) list i
      rw [intMinHeapify, minHeapify]
      by_cases overflows : intMax < right i
      · have : intMax < right (resting (bound + 1) list i) := by
          unfold right at overflows ⊢
          omega
        rw [if_pos overflows, if_pos this]
      · rw [if_neg overflows, resting]
        split
        · exact ih _ _
        · rfl

/-- The indices of the call are `int` values. -/
def Fits (mh : MinHeap α) : Call α → Prop
  | .insert _ _ => mh.size < 2 ^ 31
  | .decreaseKey _ _ => True
  | .extractMin =>
      match mh.list with
      | [] => True
      | root :: rest =>
          right (resting (rerooted root rest).length (rerooted root rest) 0) ≤ intMax

/-- The callers pass `int` keys, and indices below the size. -/
def Accepts (mh : MinHeap α) : Call α → Prop
  | .insert _ key => key ≤ intMax
  | .decreaseKey i _ => i < mh.size
  | .extractMin => True

/-! ## The queue -/

/-- What a call does to the pairs of a priority queue and returns. `place` tells which
    pair an index stands for. -/
inductive Serves (place : Nat → Option (Node α)) :
    Multiset (Node α) → Call α → Reply α → Multiset (Node α) → Prop where
  | insert (held : Multiset (Node α)) (el : α) (key : Int) :
      Serves place held (.insert el key) .done (⟨el, key⟩ ::ₘ held)
  | decreaseKey (node : Node α) (held : Multiset (Node α)) (i : Nat) (key : Int)
      (found : place i = some node) (notGreater : key ≤ node.key) :
      Serves place (node ::ₘ held) (.decreaseKey i key) .done (⟨node.data, key⟩ ::ₘ held)
  | greater (node : Node α) (held : Multiset (Node α)) (i : Nat) (key : Int)
      (found : place i = some node) (greater : node.key < key) :
      Serves place held (.decreaseKey i key) (.failed .EINVAL) held
  | extractMin (node : Node α) (held : Multiset (Node α))
      (least : ∀ other ∈ held, node.key ≤ other.key) :
      Serves place (node ::ₘ held) .extractMin (.extracted node.data) held
  | empty : Serves place 0 .extractMin (.failed .EPERM) 0

theorem modify_perm {list : List (Node α)} {i : Nat} (inside : i < list.length) (key : Int) :
    (list.modify i fun node => { node with key }).Perm
      (⟨(list[i]).data, key⟩ :: list.eraseIdx i) := by
  rw [List.modify_eq_set_get _ inside]
  exact List.set_perm_cons_eraseIdx inside _

theorem keyAt_modify {list : List (Node α)} {i : Nat} (inside : i < list.length) (key : Int)
    (j : Nat) : keyAt (list.modify i fun node => { node with key }) j =
      if j = i then key else keyAt list j := by
  unfold keyAt
  rw [List.getElem?_modify]
  split
  · subst j
    simp [inside]
  · rw [if_neg (Ne.symm ‹_›)]
    simp

theorem keyAt_of_lt {list : List (Node α)} {i : Nat} (inside : i < list.length) :
    keyAt list i = (list[i]).key := by
  simp [keyAt, inside]

theorem upOrdered_modify {list : List (Node α)} {i : Nat} {key : Int} (ordered : Ordered list)
    (inside : i < list.length) (notGreater : key ≤ keyAt list i) :
    UpOrdered (list.modify i fun node => { node with key }) i := by
  constructor
  · intro j pos insideJ away
    rw [List.length_modify] at insideJ
    rw [keyAt_modify inside, keyAt_modify inside, if_neg away]
    have order := ordered j pos insideJ
    split
    · rename_i toI
      rw [toI] at order
      exact notGreater.trans order
    · exact order
  · intro pos j posJ insideJ toI
    rw [List.length_modify] at insideJ
    have above : parent i < i := by
      unfold parent
      omega
    have below : i < j := by
      unfold parent at toI
      omega
    rw [keyAt_modify inside, keyAt_modify inside, if_neg above.ne, if_neg below.ne']
    have order := ordered j posJ insideJ
    rw [toI] at order
    exact (ordered i pos inside).trans order

theorem decreaseKey_serves {mh : MinHeap α} {i : Nat} {key : Int} (ordered : Ordered mh.list)
    (inside : i < mh.size) (notGreater : key ≤ keyAt mh.list i) :
    ∃ list, decreaseKey mh.list i key = some list ∧ Ordered list ∧
      Serves (fun j => mh.list[j]?) mh.list (.decreaseKey i key) .done list := by
  have decreased : decreaseKey mh.list i key =
      some (siftUp i (mh.list.modify i fun node => { node with key }) i) :=
    if_neg (Int.not_lt.mpr notGreater)
  refine ⟨_, decreased, ?_, ?_⟩
  · exact siftUp_ordered (Nat.le_refl i) (by rwa [List.length_modify])
      (upOrdered_modify ordered inside notGreater)
  · have before : (mh.list : Multiset (Node α)) =
        mh.list[i] ::ₘ (mh.list.eraseIdx i : Multiset (Node α)) :=
      Multiset.coe_eq_coe.mpr (List.getElem_cons_eraseIdx_perm inside).symm
    have after : (siftUp i (mh.list.modify i fun node => { node with key }) i :
        Multiset (Node α)) = ⟨mh.list[i].data, key⟩ ::ₘ (mh.list.eraseIdx i : Multiset (Node α)) :=
      Multiset.coe_eq_coe.mpr ((siftUp_perm _ _ _).trans (modify_perm inside key))
    rw [before, after]
    rw [keyAt_of_lt inside] at notGreater
    exact .decreaseKey _ _ i key (List.getElem?_eq_getElem inside) notGreater

theorem insert_serves {mh : MinHeap α} (el : α) {key : Int} (ordered : Ordered mh.list)
    (small : key ≤ intMax) : ∃ mh', mh.insert el key = some mh' ∧ Ordered mh'.list ∧
      Serves (fun j => mh.list[j]?) mh.list (.insert el key) .done mh'.list := by
  obtain ⟨mh', inserted, perm⟩ := insert_perm mh el small
  refine ⟨mh', inserted, insert_ordered ordered inserted, ?_⟩
  rw [Multiset.coe_eq_coe.mpr perm, ← Multiset.cons_coe]
  exact .insert _ el key

theorem extractMin_root {mh : MinHeap α} {root : Node α} {rest : List (Node α)}
    (ordered : Ordered mh.list) (nodes : mh.list = root :: rest) :
    ∃ mh', mh.extractMin = some (root.data, mh') ∧ Ordered mh'.list ∧ rest.Perm mh'.list ∧
      ∀ other ∈ mh'.list, root.key ≤ other.key := by
  obtain ⟨⟨el, mh'⟩, extracted⟩ := Option.ne_none_iff_exists'.mp
    (mt extractMin_eq_none.mp (by rw [nodes]; nofun))
  obtain ⟨rfl, perm⟩ := extractMin_cons nodes extracted
  refine ⟨mh', extracted, extractMin_ordered ordered extracted, perm, ?_⟩
  intro other member
  have stored : other ∈ mh.list := by
    rw [nodes]
    exact List.mem_cons_of_mem _ (perm.mem_iff.mpr member)
  obtain ⟨i, inside, rfl⟩ := List.mem_iff_getElem.mp stored
  have first := ordered.root_le i inside
  rw [keyAt_of_lt inside, keyAt_of_lt (by omega)] at first
  simpa only [nodes, List.getElem_cons_zero] using first

/-! ## One call -/

theorem call_extractMin {mh : MinHeap α} {root : Node α} {rest : List (Node α)}
    (nodes : mh.list = root :: rest) : mh.call .extractMin =
      if intMax < right (resting (rerooted root rest).length (rerooted root rest) 0) then
        .error .overflow
      else match mh.extractMin with
        | none => .ok (.failed .EPERM, mh)
        | some (el, mh') => .ok (.extracted el, mh') := by
  simp only [call, extractMin, nodes, intMinHeapify_eq]
  split <;> rfl

theorem call_serves {mh : MinHeap α} {c : Call α} (ordered : Ordered mh.list)
    (accepts : mh.Accepts c) (fits : mh.Fits c) : ∃ reply mh', mh.call c = .ok (reply, mh') ∧
      Ordered mh'.list ∧ Serves (fun j => mh.list[j]?) mh.list c reply mh'.list := by
  cases c with
  | insert el key =>
      obtain ⟨mh', inserted, ordered', serves⟩ := insert_serves el ordered accepts
      obtain ⟨list, decreased, rfl⟩ := Option.map_eq_some_iff.mp inserted
      refine ⟨.done, ⟨list⟩, ?_, ordered', serves⟩
      have index : toInt32 mh.size = mh.size := toInt32_of_small fits
      simp only [call, index, Int.toNat_natCast, decreased]
      exact if_neg (by omega)
  | decreaseKey i key =>
      by_cases notGreater : key ≤ keyAt mh.list i
      · obtain ⟨list, decreased, ordered', serves⟩ := decreaseKey_serves ordered accepts notGreater
        refine ⟨.done, ⟨list⟩, ?_, ordered', serves⟩
        simp only [call, decreased]
      · have refused : decreaseKey mh.list i key = none := if_pos (Int.not_le.mp notGreater)
        refine ⟨.failed .EINVAL, mh, ?_, ordered, ?_⟩
        · simp only [call, refused]
        · rw [keyAt_of_lt accepts, Int.not_le] at notGreater
          exact .greater _ _ i key (List.getElem?_eq_getElem accepts) notGreater
  | extractMin =>
      cases nodes : mh.list with
      | nil =>
          refine ⟨.failed .EPERM, mh, ?_, ordered, ?_⟩
          · simp only [call, nodes]
          · rw [nodes]
            exact .empty
      | cons root rest =>
          obtain ⟨mh', extracted, ordered', perm, least⟩ := extractMin_root ordered nodes
          have returns : mh.call .extractMin = .ok (.extracted root.data, mh') := by
            simp only [Fits, nodes] at fits
            rw [call_extractMin nodes, if_neg (Int.not_lt.mpr fits), extracted]
          refine ⟨.extracted root.data, mh', returns, ordered', ?_⟩
          rw [← Multiset.cons_coe, Multiset.coe_eq_coe.mpr perm]
          exact .extractMin root _ least

/-- The first index that does not fit stops the run. -/
theorem fits_of_call {mh mh' : MinHeap α} {c : Call α} {reply : Reply α} (size : mh.size ≤ 2 ^ 31)
    (returns : mh.call c = .ok (reply, mh')) : mh.Fits c := by
  cases c with
  | insert el key =>
      by_contra full
      have index : toInt32 mh.size = - 2 ^ 31 := by
        rw [show mh.size = 2 ^ 31 from le_antisymm size (Nat.not_lt.mp full)]
        decide +kernel
      simp only [call, index] at returns
      cases returns
  | decreaseKey i key => exact trivial
  | extractMin =>
      cases nodes : mh.list with
      | nil => simp only [Fits, nodes]
      | cons root rest =>
          rw [call_extractMin nodes] at returns
          simp only [Fits, nodes]
          by_contra deep
          rw [if_pos (Int.not_le.mp deep)] at returns
          cases returns

/-! ## Runs of calls -/

/-- Extractions one after another, with the roots that they take. -/
inductive Drains : MinHeap α → List (Node α) → MinHeap α → Prop where
  | nil (mh : MinHeap α) : Drains mh [] mh
  | cons {mh next last : MinHeap α} {root : Node α} {rest nodes : List (Node α)}
      (first : mh.list = root :: rest)
      (extracted : mh.call .extractMin = .ok (.extracted root.data, next))
      (others : Drains next nodes last) : Drains mh (root :: nodes) last

/-- The heap is in order, holds the given pairs, and gives them back by their keys. -/
structure Sound (mh : MinHeap α) (held : Multiset (Node α)) : Prop where
  ordered : Ordered mh.list
  holds : (mh.list : Multiset (Node α)) = held
  sorted : ∀ nodes last, Drains mh nodes last →
    nodes.Pairwise (·.key ≤ ·.key) ∧ held = nodes + (last.list : Multiset (Node α))

/-- Every call returns, and the heap is a priority queue of the pairs before and after it. -/
def Serving (mh : MinHeap α) (held : Multiset (Node α)) : List (Call α) → Prop
  | [] => mh.Sound held
  | c :: calls => mh.Sound held ∧ ∃ reply mh' held', mh.call c = .ok (reply, mh') ∧
      Serves (fun j => mh.list[j]?) held c reply held' ∧ mh'.Serving held' calls

/-- The indices of every call fit. -/
def FitsAll (mh : MinHeap α) : List (Call α) → Prop
  | [] => True
  | c :: calls => mh.Fits c ∧ ∀ reply mh', mh.call c = .ok (reply, mh') → mh'.FitsAll calls

/-- Every call is one that its caller may make. -/
def AcceptsAll (mh : MinHeap α) : List (Call α) → Prop
  | [] => True
  | c :: calls => mh.Accepts c ∧ ∀ reply mh', mh.call c = .ok (reply, mh') → mh'.AcceptsAll calls

theorem drains_sorted {mh last : MinHeap α} {nodes : List (Node α)} (ordered : Ordered mh.list)
    (drains : Drains mh nodes last) : nodes.Pairwise (·.key ≤ ·.key) ∧
      (mh.list : Multiset (Node α)) = nodes + (last.list : Multiset (Node α)) := by
  induction drains with
  | nil mh => exact ⟨.nil, (Multiset.zero_add _).symm⟩
  | @cons mh next last root rest nodes first extracted others ih =>
      obtain ⟨mh', taken, ordered', perm, least⟩ := extractMin_root ordered first
      rw [call_extractMin first, taken] at extracted
      split at extracted
      · cases extracted
      · cases extracted
        obtain ⟨sorted, split⟩ := ih ordered'
        have within : ∀ node ∈ nodes, node ∈ next.list := by
          intro node member
          rw [← Multiset.mem_coe, split]
          exact Multiset.mem_add.mpr (.inl member)
        refine ⟨.cons (fun node member => least node (within node member)) sorted, ?_⟩
        rw [first, ← Multiset.cons_coe, Multiset.coe_eq_coe.mpr perm, split, ← Multiset.cons_coe,
          Multiset.cons_add]

theorem sound_of_ordered {mh : MinHeap α} (ordered : Ordered mh.list) : mh.Sound mh.list :=
  ⟨ordered, rfl, fun _ _ drains => drains_sorted ordered drains⟩

def Call.added : Call α → Nat
  | .insert _ _ => 1
  | .decreaseKey _ _ => 0
  | .extractMin => 0

theorem Serves.card_le {place : Nat → Option (Node α)} {held held' : Multiset (Node α)}
    {c : Call α} {reply : Reply α} (serves : Serves place held c reply held') :
    held'.card ≤ held.card + c.added := by
  cases serves with
  | insert held el key => exact (Multiset.card_cons _ _).le
  | decreaseKey node held i key found notGreater =>
      rw [Multiset.card_cons, Multiset.card_cons]
      exact Nat.le_refl _
  | greater node held i key found greater => exact Nat.le_refl _
  | extractMin node held least =>
      rw [Multiset.card_cons]
      exact Nat.le_succ _
  | empty => exact Nat.zero_le _

/-- The heap never outgrows the indices of its insertions. -/
theorem Serves.size_le {mh mh' : MinHeap α} {place : Nat → Option (Node α)} {c : Call α}
    {reply : Reply α} (serves : Serves place mh.list c reply mh'.list) (size : mh.size ≤ 2 ^ 31)
    (fits : mh.Fits c) : mh'.size ≤ 2 ^ 31 := by
  have grown : mh'.size ≤ mh.size + c.added := serves.card_le
  cases c with
  | insert el key =>
      change mh.size < 2 ^ 31 at fits
      simp only [Call.added] at grown
      omega
  | decreaseKey i key => exact grown.trans size
  | extractMin => exact grown.trans size

theorem Serving.sound {mh : MinHeap α} {held : Multiset (Node α)} {calls : List (Call α)}
    (serving : mh.Serving held calls) : mh.Sound held := by
  cases calls with
  | nil => exact serving
  | cons c calls => exact serving.1

theorem serving_of_fits {mh : MinHeap α} {calls : List (Call α)} (ordered : Ordered mh.list)
    (accepts : mh.AcceptsAll calls) (fits : mh.FitsAll calls) : mh.Serving mh.list calls := by
  induction calls generalizing mh with
  | nil => exact sound_of_ordered ordered
  | cons c calls ih =>
      obtain ⟨reply, mh', returns, ordered', serves⟩ := call_serves ordered accepts.1 fits.1
      exact ⟨sound_of_ordered ordered, reply, mh', mh'.list, returns, serves,
        ih ordered' (accepts.2 reply mh' returns) (fits.2 reply mh' returns)⟩

theorem fits_of_serving {mh : MinHeap α} {calls : List (Call α)} (size : mh.size ≤ 2 ^ 31)
    (serving : mh.Serving mh.list calls) : mh.FitsAll calls := by
  induction calls generalizing mh with
  | nil => exact trivial
  | cons c calls ih =>
      obtain ⟨-, reply, next, held, returns, serves, rest⟩ := serving
      have fits := fits_of_call size returns
      obtain rfl := rest.sound.holds
      refine ⟨fits, fun reply' mh' returns' => ?_⟩
      obtain ⟨rfl, rfl⟩ := Prod.mk.inj (Except.ok.inj (returns.symm.trans returns'))
      exact ih (serves.size_le size fits) rest

/-- From the empty heap on, every call returns and keeps the heap a priority queue of
    the pairs exactly when no insertion finds `2^31` nodes and no extraction moves the
    last node down to an index whose children are beyond the range of `int`. -/
theorem serving_iff {calls : List (Call α)} (accepts : (init : MinHeap α).AcceptsAll calls) :
    (init : MinHeap α).Serving 0 calls ↔ (init : MinHeap α).FitsAll calls := by
  constructor
  · exact fits_of_serving (Nat.zero_le _)
  · intro fits
    have ordered : Ordered (init : MinHeap α).list := fun _ _ inside => absurd inside (by simp [init])
    exact serving_of_fits ordered accepts fits

/-- Equal keys, the greatest `int` among them, and a key that is decreased. -/
theorem serving_iff_equal :
    (init : MinHeap Nat).AcceptsAll [.insert 1 intMax, .insert 2 intMax, .decreaseKey 1 4,
        .extractMin, .extractMin] ∧
      ((init : MinHeap Nat).Serving 0 [.insert 1 intMax, .insert 2 intMax, .decreaseKey 1 4,
          .extractMin, .extractMin] ↔
        (init : MinHeap Nat).FitsAll [.insert 1 intMax, .insert 2 intMax, .decreaseKey 1 4,
          .extractMin, .extractMin]) := by
  have accepts : (init : MinHeap Nat).AcceptsAll [.insert 1 intMax, .insert 2 intMax,
      .decreaseKey 1 4, .extractMin, .extractMin] := by
    have empty : toInt32 0 = 0 := by decide +kernel
    have one : toInt32 1 = 1 := by decide +kernel
    simp [AcceptsAll, Accepts, call, init, size, empty, one, decreaseKey, siftUp, keyAt, parent,
      intMax]
  exact ⟨accepts, serving_iff accepts⟩

/-! ## Sizes that fit -/

theorem resting_lt {bound : Nat} {list : List (Node α)} {i : Nat} (inside : i < list.length) :
    resting bound list i < list.length := by
  induction bound generalizing list i with
  | zero => exact inside
  | succ bound ih =>
      simp only [resting]
      split
      · rename_i moves
        obtain ⟨-, -, insideS, -⟩ := (smallest_spec list i).1.resolve_left moves
        have deeper : resting bound (swap list i (smallest list i)) (smallest list i) <
            (swap list i (smallest list i)).length := ih (by rwa [swap_length])
        rwa [swap_length] at deeper
      · exact inside

/-- The indices fit in every heap of at most `2^30` nodes. -/
theorem fits_of_size {mh : MinHeap α} (small : mh.size ≤ 2 ^ 30) (c : Call α) : mh.Fits c := by
  cases c with
  | insert el key =>
      change mh.size < 2 ^ 31
      omega
  | decreaseKey i key => exact trivial
  | extractMin =>
      cases nodes : mh.list with
      | nil => simp only [Fits, nodes]
      | cons root rest =>
          simp only [Fits, nodes]
          have length : (rerooted root rest).length = rest.length := by simp [rerooted]
          have bound : rest.length + 1 ≤ 2 ^ 30 := by
            rw [size, nodes] at small
            exact small
          cases rest with
          | nil =>
              change ((2 : Nat) : Int) ≤ intMax
              decide
          | cons next others =>
              have low : resting (rerooted root (next :: others)).length
                  (rerooted root (next :: others)) 0 < (rerooted root (next :: others)).length :=
                resting_lt (by rw [length]; exact Nat.succ_pos _)
              unfold right intMax
              omega

theorem drains_all {mh : MinHeap α} (ordered : Ordered mh.list) (small : mh.size ≤ 2 ^ 30) :
    ∃ nodes, Drains mh nodes init := by
  induction h : mh.size generalizing mh with
  | zero =>
      obtain ⟨list⟩ := mh
      obtain rfl := List.length_eq_zero_iff.mp h
      exact ⟨[], .nil init⟩
  | succ n ih =>
      cases nodes : mh.list with
      | nil =>
          rw [size, nodes] at h
          cases h
      | cons root rest =>
          obtain ⟨mh', taken, ordered', -, -⟩ := extractMin_root ordered nodes
          have fits : mh.Fits .extractMin := fits_of_size small .extractMin
          simp only [Fits, nodes] at fits
          have returns : mh.call .extractMin = .ok (.extracted root.data, mh') := by
            rw [call_extractMin nodes, if_neg (Int.not_lt.mpr fits), taken]
          have shrunk := extractMin_size taken
          obtain ⟨others, drains⟩ := ih ordered' (by omega) (by omega)
          exact ⟨root :: others, .cons nodes returns drains⟩

/-! ## A heap of `2^31` nodes -/

theorem zero_small : (0 : Int) ≤ intMax := by decide

theorem accepts_replicate (mh : MinHeap α) (n : Nat) (el : α) :
    mh.AcceptsAll (List.replicate n (.insert el 0)) := by
  induction n generalizing mh with
  | zero => exact trivial
  | succ n ih => exact ⟨zero_small, fun _ mh' _ => ih mh'⟩

theorem Serves.card_insert {place : Nat → Option (Node α)} {held held' : Multiset (Node α)}
    {el : α} {key : Int} {reply : Reply α}
    (serves : Serves place held (.insert el key) reply held') : held'.card = held.card + 1 := by
  cases serves
  exact Multiset.card_cons _ _

theorem replicate_fits {mh : MinHeap α} {n : Nat} {el : α} (ordered : Ordered mh.list)
    (size : mh.size ≤ 2 ^ 31) (fits : mh.FitsAll (List.replicate n (.insert el 0))) :
    mh.size + n ≤ 2 ^ 31 := by
  induction n generalizing mh with
  | zero => exact size
  | succ n ih =>
      obtain ⟨first, others⟩ := fits
      obtain ⟨reply, mh', returns, ordered', serves⟩ :=
        call_serves (c := .insert el 0) ordered zero_small first
      have grown : mh'.size = mh.size + 1 := serves.card_insert
      have rest := ih ordered' (serves.size_le size first) (others reply mh' returns)
      omega

/-- The insertion that finds `2^31` nodes reads before the array. -/
theorem insert_beyond_int :
    ¬ ∀ calls : List (Call Nat), (init : MinHeap Nat).AcceptsAll calls →
      (init : MinHeap Nat).Serving 0 calls := by
  intro claimed
  have ordered : Ordered (init : MinHeap Nat).list := fun _ _ inside => absurd inside (by simp [init])
  have serving := claimed (List.replicate (2 ^ 31 + 1) (.insert 7 0)) (accepts_replicate _ _ _)
  have tooMany := replicate_fits ordered (Nat.zero_le _) (fits_of_serving (Nat.zero_le _) serving)
  omega

end FileStorage.MinHeap
