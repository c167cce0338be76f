import FileStorage.DataStructures.HuffmanTree
import FileStorage.Lib.CodeTree
import Mathlib.Algebra.BigOperators.Group.List.Basic
import Mathlib.Algebra.Order.BigOperators.Group.List
import Mathlib.Data.List.GetD
import Mathlib.Data.List.Nodup

/-! # The tree and the dictionary of a buffer

The tree built for a buffer has one leaf for each byte that occurs, and the
dictionary gives each of these bytes the path to its leaf.
-/

namespace FileStorage.HuffmanTree

open HuffmanNode CodeTree

/-! ## Frequencies -/

theorem frequencies_length (bytes : List UInt8) : (calculateFrequencies bytes).length = 256 := by
  suffices h : ∀ freq : List Int, freq.length = 256 →
      (bytes.foldl (fun freq byte => freq.modify byte.toNat (· + 1)) freq).length = 256 from
    h _ List.length_replicate
  induction bytes with
  | nil => exact fun freq h => h
  | cons byte bytes ih => exact fun freq h => ih _ (by simpa using h)

theorem frequencies_getD (bytes : List UInt8) (i : Nat) (inside : i < 256) :
    (calculateFrequencies bytes).getD i 0 = bytes.count (UInt8.ofNat i) := by
  suffices h : ∀ freq : List Int, freq.length = 256 →
      (bytes.foldl (fun freq byte => freq.modify byte.toNat (· + 1)) freq).getD i 0 =
        freq.getD i 0 + bytes.count (UInt8.ofNat i) by
    rw [calculateFrequencies, h _ List.length_replicate, List.getD_eq_getElem?_getD,
      List.getElem?_replicate_of_lt inside, Option.getD_some, zero_add]
  induction bytes with
  | nil => simp
  | cons byte bytes ih =>
      intro freq length
      rw [List.foldl_cons, ih _ (by simpa using length), List.count_cons]
      have atI : (freq.modify byte.toNat (· + 1)).getD i 0 =
          freq.getD i 0 + if byte = UInt8.ofNat i then 1 else 0 := by
        have same : byte.toNat = i ↔ byte = UInt8.ofNat i := by
          rw [← UInt8.toNat_inj, UInt8.toNat_ofNat_of_lt' inside]
        simp only [List.getD_eq_getElem?_getD, List.getElem?_modify, same]
        rw [List.getElem?_eq_getElem (by omega)]
        split <;> simp
      rw [atI, beq_eq_decide]
      by_cases same : byte = UInt8.ofNat i
      · simp [same]; omega
      · simp [same]

theorem frequencies_sum (bytes : List UInt8) :
    (calculateFrequencies bytes).sum = bytes.length := by
  suffices h : ∀ freq : List Int, freq.length = 256 →
      (bytes.foldl (fun freq byte => freq.modify byte.toNat (· + 1)) freq).sum =
        freq.sum + bytes.length by
    rw [calculateFrequencies, h _ List.length_replicate, List.sum_replicate, nsmul_zero, zero_add]
  have one : ∀ (freq : List Int) (i : Nat), i < freq.length →
      (freq.modify i (· + 1)).sum = freq.sum + 1 := by
    intro freq
    induction freq with
    | nil => simp
    | cons f freq ih =>
        intro i inside
        cases i with
        | zero => simp; omega
        | succ i => simp [ih i (by simpa using inside)]; omega
  induction bytes with
  | nil => simp
  | cons byte bytes ih =>
      intro freq length
      rw [List.foldl_cons, ih _ (by simpa using length),
        one _ _ (by rw [length]; exact byte.toNat_lt), List.length_cons]
      push_cast
      omega

theorem frequencies_total (bytes : List UInt8) :
    ((List.range 256).map ((calculateFrequencies bytes).getD · 0)).sum = bytes.length := by
  rw [← frequencies_sum bytes]
  congr 1
  apply List.ext_getElem
  · simp only [List.length_map, List.length_range, frequencies_length]
  · intro i inside _
    simp only [List.getElem_map, List.getElem_range]
    exact List.getD_eq_getElem _ _ (by rw [frequencies_length]; simpa using inside)

/-! ## The forest in the heap -/

/-- The nodes of the source that are trees with a byte at every leaf. -/
inductive Represents : HuffmanNode → CodeTree UInt8 → Prop where
  | leaf (freq byte) : Represents (.node .null .null freq byte) (.leaf byte)
  | fork {left right zero one} (freq byte) : Represents left zero → Represents right one →
      Represents (.node left right freq byte) (.fork zero one)

theorem Represents.ne_null {node : HuffmanNode} {t : CodeTree UInt8} (h : Represents node t) :
    node ≠ .null := by
  cases h <;> simp

/-- What the merge loop keeps: the heap holds trees keyed by their frequencies,
    whose leaves are `symbols` and whose frequencies add up to `total`. -/
structure Forest (heap : MinHeap HuffmanNode) (symbols : List UInt8) (total : Int) : Prop where
  trees : ∃ ts : List (CodeTree UInt8),
    List.Forall₂ (fun n t => Represents n.data t) heap.list ts ∧ (ts.flatMap leaves).Perm symbols
  keyed : ∀ n ∈ heap.list, n.key = n.data.freq ∧ 0 ≤ n.key
  total : (heap.list.map MinHeap.Node.key).sum = total

theorem Forest.perm {heap heap' : MinHeap HuffmanNode} {symbols : List UInt8} {total : Int}
    (forest : Forest heap symbols total) (perm : heap.list.Perm heap'.list) :
    Forest heap' symbols total := by
  obtain ⟨ts, rep, same⟩ := forest.trees
  obtain ⟨ts', perm', rep'⟩ := List.perm_comp_forall₂ perm.symm rep
  exact ⟨⟨ts', perm', (rep'.flatMap_right _).trans same⟩,
    fun n hn => forest.keyed n (perm.symm.subset hn),
    (perm.map _).sum_eq.symm.trans forest.total⟩

theorem Forest.nonneg {heap : MinHeap HuffmanNode} {symbols : List UInt8} {total : Int}
    (forest : Forest heap symbols total) : 0 ≤ total := by
  rw [← forest.total]
  apply List.sum_nonneg
  intro key member
  obtain ⟨n, hn, rfl⟩ := List.mem_map.mp member
  exact (forest.keyed n hn).2

theorem Forest.insert {heap : MinHeap HuffmanNode} {symbols : List UInt8} {total : Int}
    (forest : Forest heap symbols total) {node : HuffmanNode} {t : CodeTree UInt8}
    (rep : Represents node t) (nonneg : 0 ≤ node.freq) (small : node.freq ≤ intMax) :
    ∃ heap', heap.insert node node.freq = some heap' ∧
      heap'.list.Perm (⟨node, node.freq⟩ :: heap.list) ∧
      Forest heap' (t.leaves ++ symbols) (node.freq + total) := by
  obtain ⟨heap', inserted, perm⟩ := heap.insert_perm node small
  refine ⟨heap', inserted, perm, ?_⟩
  suffices grown : Forest ⟨⟨node, node.freq⟩ :: heap.list⟩ (t.leaves ++ symbols)
      (node.freq + total) from grown.perm perm.symm
  obtain ⟨ts, reps, same⟩ := forest.trees
  refine ⟨⟨t :: ts, .cons rep reps, by simpa using same.append_left t.leaves⟩, ?_, ?_⟩
  · intro n member
    rcases List.mem_cons.mp member with rfl | member
    · exact ⟨rfl, nonneg⟩
    · exact forest.keyed n member
  · simp [forest.total]

theorem Forest.extract {heap heap' : MinHeap HuffmanNode} {symbols : List UInt8} {total : Int}
    {node : HuffmanNode} (forest : Forest heap symbols total)
    (extracted : heap.extractMin = some (node, heap')) :
    ∃ t rest, Represents node t ∧ 0 ≤ node.freq ∧ (t.leaves ++ rest).Perm symbols ∧
      Forest heap' rest (total - node.freq) := by
  obtain ⟨key, perm⟩ := MinHeap.extractMin_perm extracted
  have whole : Forest ⟨⟨node, key⟩ :: heap'.list⟩ symbols total := forest.perm perm
  obtain ⟨ts, reps, same⟩ := whole.trees
  cases reps with
  | @cons _ t _ ts rep reps =>
      obtain ⟨keyEq, nonneg⟩ : key = node.freq ∧ 0 ≤ key := whole.keyed ⟨node, key⟩ (by simp)
      refine ⟨t, ts.flatMap leaves, rep, by omega, by simpa using same,
        ⟨⟨ts, reps, .refl _⟩, fun n hn => whole.keyed n (by simp [hn]), ?_⟩⟩
      have total := whole.total
      simp only [List.map_cons, List.sum_cons] at total
      omega

theorem mergeNodes_forest (bound : Nat) {heap : MinHeap HuffmanNode} {symbols : List UInt8}
    {total : Int} (forest : Forest heap symbols total) (small : total ≤ intMax)
    (some_ : 0 < heap.size) (enough : heap.size ≤ bound + 1) :
    ∃ heap', mergeNodes bound heap = some heap' ∧ Forest heap' symbols total ∧ heap'.size = 1 := by
  induction bound generalizing heap with
  | zero => exact ⟨heap, rfl, forest, by omega⟩
  | succ bound ih =>
      by_cases many : 1 < heap.size
      · obtain ⟨⟨left, heap1⟩, out1⟩ : ∃ r, heap.extractMin = some r := by
          rw [← Option.ne_none_iff_exists', Ne, MinHeap.extractMin_eq_none]
          intro empty
          simp [MinHeap.size, empty] at many
        obtain ⟨⟨right, heap2⟩, out2⟩ : ∃ r, heap1.extractMin = some r := by
          rw [← Option.ne_none_iff_exists', Ne, MinHeap.extractMin_eq_none]
          intro empty
          have := MinHeap.extractMin_size out1
          simp [MinHeap.size, empty] at this many
          omega
        obtain ⟨zero, rest1, repZero, nonneg1, perm1, forest1⟩ := forest.extract out1
        obtain ⟨one, rest2, repOne, nonneg2, perm2, forest2⟩ := forest1.extract out2
        have bounded := forest2.nonneg
        obtain ⟨heap3, inserted, perm3, forest3⟩ := forest2.insert
          (.fork (left.freq + right.freq) 0 repZero repOne)
          (by rw [freq_node]; omega) (by rw [freq_node]; omega)
        have size3 : heap3.size + 1 = heap.size := by
          have h1 := MinHeap.extractMin_size out1
          have h2 := MinHeap.extractMin_size out2
          have h3 := perm3.length_eq
          simp only [MinHeap.size, List.length_cons] at *
          omega
        have symbols3 : (zero.fork one).leaves ++ rest2 |>.Perm symbols := by
          refine List.Perm.trans ?_ perm1
          simpa [leaves] using perm2.append_left zero.leaves
        have merged : Forest heap3 symbols total := by
          obtain ⟨ts, reps, same⟩ := forest3.trees
          refine ⟨⟨ts, reps, same.trans symbols3⟩, forest3.keyed, ?_⟩
          rw [forest3.total, freq_node]
          omega
        obtain ⟨heap', done, forest', one'⟩ := ih merged (by omega) (by omega)
        refine ⟨heap', ?_, forest', one'⟩
        rw [freq_node] at inserted
        simp [mergeNodes, many, out1, out2, inserted, done]
      · exact ⟨heap, by simp [mergeNodes, many], forest, by omega⟩

theorem createTree_represents {heap : MinHeap HuffmanNode} {symbols : List UInt8} {total : Int}
    (forest : Forest heap symbols total) (small : total ≤ intMax) (some_ : 0 < heap.size) :
    ∃ root t, createTree heap = some root ∧ Represents root t ∧ t.leaves.Perm symbols := by
  obtain ⟨heap', merged, forest', one⟩ := mergeNodes_forest heap.size forest small some_ (by omega)
  obtain ⟨⟨root, rest⟩, out⟩ : ∃ r, heap'.extractMin = some r := by
    rw [← Option.ne_none_iff_exists', Ne, MinHeap.extractMin_eq_none]
    intro empty
    simp [MinHeap.size, empty] at one
  obtain ⟨t, others, rep, _, perm, forestRest⟩ := forest'.extract out
  have empty : rest.list = [] := by
    have := MinHeap.extractMin_size out
    rw [one] at this
    exact List.eq_nil_of_length_eq_zero (by simpa [MinHeap.size] using this)
  have none_ : others = [] := by
    obtain ⟨ts, reps, same⟩ := forestRest.trees
    rw [empty] at reps
    cases reps
    simpa using same
  refine ⟨root, t, by simp [createTree, merged, out], rep, ?_⟩
  simpa [none_] using perm

/-- The bytes that occur, in the order the heap is filled. -/
def occurring (freq : List Int) (indices : List Nat) : List UInt8 :=
  (indices.filter fun i => 0 < freq.getD i 0).map UInt8.ofNat

theorem occurring_cons (freq : List Int) (i : Nat) (indices : List Nat) :
    occurring freq (i :: indices) =
      if 0 < freq.getD i 0 then UInt8.ofNat i :: occurring freq indices
      else occurring freq indices := by
  unfold occurring
  rw [List.filter_cons]
  simp only [decide_eq_true_eq]
  split <;> rfl

theorem insertByte_forest {freq : List Int} {i : Nat} (nonneg : 0 ≤ freq.getD i 0)
    (small : freq.getD i 0 ≤ intMax) {heap : MinHeap HuffmanNode} {symbols : List UInt8}
    {total : Int} (forest : Forest heap symbols total) :
    ∃ heap' symbols', insertByte freq heap i = some heap' ∧
      symbols' = (if 0 < freq.getD i 0 then UInt8.ofNat i :: symbols else symbols) ∧
      Forest heap' symbols' (freq.getD i 0 + total) := by
  unfold insertByte
  split
  · obtain ⟨heap', inserted, _, forest'⟩ := forest.insert
      (.leaf (freq.getD i 0) (UInt8.ofNat i)) nonneg small
    exact ⟨heap', _, inserted, rfl, forest'⟩
  · have zero : freq.getD i 0 = 0 := by omega
    exact ⟨heap, _, rfl, rfl, by rwa [zero, zero_add]⟩

theorem createMinHeap_forest {freq : List Int} (nonneg : ∀ i, 0 ≤ freq.getD i 0)
    (small : ∀ i, freq.getD i 0 ≤ intMax) :
    ∃ heap symbols, createMinHeap freq = some heap ∧
      symbols.Perm (occurring freq (List.range 256)) ∧
      Forest heap symbols ((List.range 256).map (freq.getD · 0)).sum := by
  suffices h : ∀ (indices : List Nat) (heap : MinHeap HuffmanNode) (symbols : List UInt8)
      (total : Int), Forest heap symbols total →
      ∃ heap' symbols', indices.foldlM (insertByte freq) heap = some heap' ∧
        symbols'.Perm (symbols ++ occurring freq indices) ∧
        Forest heap' symbols' (total + (indices.map (freq.getD · 0)).sum) by
    have start : Forest MinHeap.init [] 0 :=
      ⟨⟨[], .nil, .refl _⟩, by simp [MinHeap.init], by simp [MinHeap.init]⟩
    have done := h (List.range 256) MinHeap.init [] 0 start
    rwa [zero_add] at done
  intro indices
  induction indices with
  | nil =>
      intro heap symbols total forest
      exact ⟨heap, symbols, rfl, by simp [occurring], by simpa using forest⟩
  | cons i indices ih =>
      intro heap symbols total forest
      obtain ⟨heap1, symbols1, inserted, shape, forest1⟩ :=
        insertByte_forest (nonneg i) (small i) forest
      obtain ⟨heap', symbols', done, perm, forest'⟩ := ih heap1 _ _ forest1
      refine ⟨heap', symbols', ?_, ?_, ?_⟩
      · rw [List.foldlM_cons, inserted]
        exact done
      · refine perm.trans ?_
        rw [shape, occurring_cons]
        split
        · exact List.perm_middle.symm
        · exact .refl _
      · rw [List.map_cons, List.sum_cons]
        rwa [Int.add_comm (freq.getD i 0) total, Int.add_assoc] at forest'

/-- What `gnl_huffman_tree_init` builds for a buffer that is not empty: a tree whose
    leaves are the bytes of the buffer, each once. -/
theorem init_represents {bytes : List UInt8} (nonempty : bytes ≠ [])
    (small : bytes.length < 2 ^ 31) :
    ∃ root t, init bytes = some { dictionary := createDictionary root, root } ∧
      Represents root t ∧ t.leaves.Nodup ∧ ∀ byte, byte ∈ t.leaves ↔ byte ∈ bytes := by
  let freq := calculateFrequencies bytes
  have count : ∀ i, i < 256 → freq.getD i 0 = bytes.count (UInt8.ofNat i) :=
    frequencies_getD bytes
  have outside : ∀ i, ¬ i < 256 → freq.getD i 0 = 0 := by
    intro i beyond
    rw [List.getD_eq_default]
    rw [frequencies_length]
    omega
  have nonneg : ∀ i, 0 ≤ freq.getD i 0 := by
    intro i
    by_cases inside : i < 256
    · rw [count i inside]; omega
    · rw [outside i inside]
  have bounded : ∀ i, freq.getD i 0 ≤ intMax := by
    intro i
    by_cases inside : i < 256
    · rw [count i inside, intMax]
      have := bytes.count_le_length (a := UInt8.ofNat i)
      omega
    · rw [outside i inside]
      decide
  obtain ⟨heap, symbols, filled, perm, forest⟩ := createMinHeap_forest nonneg bounded
  rw [frequencies_total bytes] at forest
  have mem : ∀ byte, byte ∈ symbols ↔ byte ∈ bytes := by
    intro byte
    rw [perm.mem_iff, occurring, List.mem_map]
    constructor
    · rintro ⟨i, hi, rfl⟩
      simp only [List.mem_filter, List.mem_range, decide_eq_true_eq] at hi
      rw [count i hi.1] at hi
      exact List.count_pos_iff.mp (by omega)
    · intro member
      refine ⟨byte.toNat, ?_, UInt8.ofNat_toNat⟩
      have positive := List.count_pos_iff.mpr member
      simp only [List.mem_filter, List.mem_range, decide_eq_true_eq]
      refine ⟨byte.toNat_lt, ?_⟩
      rw [count _ byte.toNat_lt, UInt8.ofNat_toNat]
      omega
  have nodup : symbols.Nodup := by
    rw [perm.nodup_iff, occurring]
    refine List.Nodup.map_on ?_ (List.nodup_range.filter _)
    intro i hi j hj same
    simp only [List.mem_filter, List.mem_range] at hi hj
    have := congrArg UInt8.toNat same
    rwa [UInt8.toNat_ofNat_of_lt' hi.1, UInt8.toNat_ofNat_of_lt' hj.1] at this
  have some_ : 0 < heap.size := by
    obtain ⟨ts, reps, same⟩ := forest.trees
    rw [MinHeap.size, reps.length_eq]
    cases ts with
    | cons => simp
    | nil =>
        obtain ⟨byte, member⟩ := List.exists_mem_of_ne_nil bytes nonempty
        have := same.symm.subset ((mem byte).mpr member)
        simp at this
  obtain ⟨root, t, built, rep, leavesPerm⟩ := createTree_represents forest
    (by rw [intMax]; omega) some_
  refine ⟨root, t, ?_, rep, leavesPerm.nodup_iff.mpr nodup, fun byte => ?_⟩
  · simp only [init]
    rw [show createMinHeap (calculateFrequencies bytes) = some heap from filled]
    simp [built]
  · rw [leavesPerm.mem_iff, mem]

/-! ## The dictionary -/

theorem isLeaf_fork {left right : HuffmanNode} (hl : left ≠ .null) (freq : Int) (byte : UInt8) :
    isLeaf (.node left right freq byte) = false := by
  cases left with
  | null => exact absurd rfl hl
  | node => rfl

theorem createDictionaryRecursive_leaf (freq : Int) (byte : UInt8)
    (dictionary : List (Option (List Bool))) (code : List Bool) (index : Nat) :
    createDictionaryRecursive (.node .null .null freq byte) dictionary code index =
      (dictionary.set byte.toNat (some (code.take index)), code) := rfl

theorem createDictionaryRecursive_fork {left right : HuffmanNode} (hl : left ≠ .null)
    (hr : right ≠ .null) (freq : Int) (byte : UInt8) (dictionary : List (Option (List Bool)))
    (code : List Bool) (index : Nat) :
    createDictionaryRecursive (.node left right freq byte) dictionary code index =
      createDictionaryRecursive right
        (createDictionaryRecursive left dictionary (code.set index false) (index + 1)).1
        ((createDictionaryRecursive left dictionary (code.set index false) (index + 1)).2.set
          index true) (index + 1) := by
  simp only [createDictionaryRecursive, if_neg hl, if_neg hr, isLeaf_fork hl, Bool.false_eq_true,
    if_false]

private theorem take_set_succ {code : List Bool} {index : Nat} (inside : index < code.length)
    (bit : Bool) : (code.set index bit).take (index + 1) = code.take index ++ [bit] := by
  rw [List.take_add_one, List.take_set_of_le (Nat.le_refl index), List.getElem?_set_self inside]
  rfl

/-- What one sub-tree adds to the dictionary and leaves in the shared buffer. -/
structure Filled (t : CodeTree UInt8) (path : List Bool) (before : List (Option (List Bool)))
    (code : List Bool) (after : List (Option (List Bool)) × List Bool) : Prop where
  wide : after.1.length = 256
  buffer : after.2.length = code.length
  kept : after.2.take path.length = path
  outside : ∀ byte, byte ∉ t.leaves →
    after.1.getD (UInt8.toNat byte) none = before.getD byte.toNat none
  coded : ∀ byte ∈ t.leaves, ∃ rest, HasCode t byte rest ∧
    after.1.getD (UInt8.toNat byte) none = some (path ++ rest)

theorem createDictionaryRecursive_filled {node : HuffmanNode} {t : CodeTree UInt8}
    (rep : Represents node t) (nodup : t.leaves.Nodup) {dictionary : List (Option (List Bool))}
    (wide : dictionary.length = 256) (code : List Bool) (index : Nat)
    (room : index + node.treeDepth ≤ code.length + 1) :
    Filled t (code.take index) dictionary code
      (createDictionaryRecursive node dictionary code index) := by
  induction rep generalizing dictionary code index with
  | leaf freq byte =>
      have inside : index ≤ code.length := by simp [HuffmanNode.treeDepth] at room; omega
      rw [createDictionaryRecursive_leaf]
      constructor
      · simpa using wide
      · rfl
      · simp [inside]
      · intro other away
        simp only [leaves, List.mem_singleton] at away
        have ne : byte.toNat ≠ other.toNat := fun same => away (UInt8.toNat_inj.mp same).symm
        simp [List.getD_eq_getElem?_getD, List.getElem?_set_ne ne]
      · intro other here
        simp only [leaves, List.mem_singleton] at here
        subst here
        refine ⟨[], .leaf _, ?_⟩
        have bound : other.toNat < dictionary.length := by rw [wide]; exact other.toNat_lt
        simp [List.getD_eq_getElem?_getD, List.getElem?_set_self bound]
  | @fork left right zero one freq byte repZero repOne ihZero ihOne =>
      rw [leaves, List.nodup_append] at nodup
      obtain ⟨nodupZero, nodupOne, disjoint⟩ := nodup
      have depth : index + 1 + left.treeDepth ≤ code.length + 1 ∧
          index + 1 + right.treeDepth ≤ code.length + 1 ∧ index < code.length := by
        have deep : 0 < left.treeDepth := by
          cases repZero with
          | leaf => simp [HuffmanNode.treeDepth]
          | fork =>
              simp only [HuffmanNode.treeDepth]
              split <;> omega
        simp only [HuffmanNode.treeDepth] at room
        split at room <;> omega
      have first := ihZero nodupZero wide (code.set index false) (index + 1)
        (by rw [List.length_set]; omega)
      rw [take_set_succ depth.2.2] at first
      rw [createDictionaryRecursive_fork repZero.ne_null repOne.ne_null]
      generalize createDictionaryRecursive left dictionary (code.set index false) (index + 1) = mid
        at first ⊢
      have length1 : mid.2.length = code.length := by rw [first.buffer, List.length_set]
      have long : (code.take index).length = index := by
        rw [List.length_take]
        omega
      have shorten : ∀ (list : List Bool) (bit : Bool),
          list.take (code.take index ++ [bit]).length = code.take index ++ [bit] →
            list.take index = code.take index := by
        intro list bit kept
        have shorter := congrArg (List.take index) kept
        rw [List.take_take, List.length_append, long, List.take_append_of_le_length (by omega),
          List.take_take] at shorter
        simpa using shorter
      have prefix1 : mid.2.take index = code.take index := shorten _ _ first.kept
      have second := ihOne nodupOne first.wide (mid.2.set index true) (index + 1)
        (by rw [List.length_set]; omega)
      rw [take_set_succ (by omega), prefix1] at second
      generalize createDictionaryRecursive right mid.1 (mid.2.set index true) (index + 1) = last
        at second ⊢
      constructor
      · exact second.wide
      · rw [second.buffer, List.length_set, length1]
      · rw [long]
        exact shorten _ _ second.kept
      · intro other away
        simp only [leaves, List.mem_append, not_or] at away
        rw [second.outside other away.2, first.outside other away.1]
      · intro other here
        by_cases inOne : other ∈ one.leaves
        · obtain ⟨rest, path, entry⟩ := second.coded other inOne
          exact ⟨true :: rest, .one path, by simpa using entry⟩
        · have inZero : other ∈ zero.leaves := by
            simpa [leaves, inOne] using here
          obtain ⟨rest, path, entry⟩ := first.coded other inZero
          refine ⟨false :: rest, .zero path, ?_⟩
          rw [second.outside other inOne]
          simpa using entry

theorem createDictionary_code {root : HuffmanNode} {t : CodeTree UInt8}
    (rep : Represents root t) (nodup : t.leaves.Nodup) {byte : UInt8} (member : byte ∈ t.leaves) :
    ∃ code, HasCode t byte code ∧ (createDictionary root).getD byte.toNat none = some code := by
  have wide : (List.replicate 256 (none : Option (List Bool))).length = 256 :=
    List.length_replicate
  have filled := createDictionaryRecursive_filled rep nodup wide
    (List.replicate root.treeDepth false) 0 (by rw [List.length_replicate]; omega)
  obtain ⟨code, path, entry⟩ := filled.coded byte member
  exact ⟨code, path, entry⟩

end FileStorage.HuffmanTree
