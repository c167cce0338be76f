import FileStorage.DataStructures.HuffmanCodes
import FileStorage.Lib.OptimalCode

/-! # The cost of the code

The heap gives out the two lightest trees at every turn of the merge loop, so the
bits of an artifact are the cost of merging the frequencies of the bytes, and no
prefix code needs fewer.
-/

namespace FileStorage.HuffmanTree

open HuffmanNode CodeTree OptimalCode

variable {w : UInt8 → Nat}

theorem Represents.unique {node : HuffmanNode} {t t' : CodeTree UInt8} (rep : Represents node t)
    (rep' : Represents node t') : t = t' := by
  induction rep generalizing t' with
  | leaf freq byte =>
      cases rep' with
      | leaf => rfl
      | fork _ _ repZero _ => exact absurd rfl repZero.ne_null
  | fork freq byte repZero _ ihz iho =>
      cases rep' with
      | leaf => exact absurd rfl repZero.ne_null
      | fork _ _ repZero' repOne' => rw [ihz repZero', iho repOne']

/-! ## The merge loop -/

/-- A node of the heap and the tree it stands for: its frequency and its key are the
    weight of the tree. -/
structure Weighs (w : UInt8 → Nat) (n : MinHeap.Node HuffmanNode) (t : CodeTree UInt8) : Prop where
  rep : Represents n.data t
  freq : n.data.freq = t.weight w
  key : n.key = t.weight w
  small : n.key ≤ intMax

/-- The heap holds the trees `ts`, in some order. -/
structure Grown (w : UInt8 → Nat) (heap : MinHeap HuffmanNode) (ts : List (CodeTree UInt8)) :
    Prop where
  ordered : MinHeap.Ordered heap.list
  trees : ∃ order, List.Forall₂ (Weighs w) heap.list order ∧ order.Perm ts

theorem Grown.length {heap : MinHeap HuffmanNode} {ts : List (CodeTree UInt8)}
    (grown : Grown w heap ts) : heap.size = ts.length := by
  obtain ⟨order, weighs, same⟩ := grown.trees
  rw [MinHeap.size, weighs.length_eq, same.length_eq]

theorem Grown.insert {heap heap' : MinHeap HuffmanNode} {ts : List (CodeTree UInt8)}
    (grown : Grown w heap ts) {node : HuffmanNode} {t : CodeTree UInt8} (rep : Represents node t)
    {freq : Int} (shape : node.freq = freq) (weight : freq = t.weight w)
    (inserted : heap.insert node freq = some heap') : Grown w heap' (t :: ts) := by
  have small := MinHeap.insert_small inserted
  obtain ⟨again, inserted', perm⟩ := heap.insert_perm node small
  obtain rfl : again = heap' := Option.some.inj (inserted'.symm.trans inserted)
  obtain ⟨order, weighs, same⟩ := grown.trees
  have more : List.Forall₂ (Weighs w) (⟨node, freq⟩ :: heap.list) (t :: order) :=
    .cons ⟨rep, shape.trans weight, weight, small⟩ weighs
  obtain ⟨order', weighs', same'⟩ := List.perm_comp_forall₂ perm more
  exact ⟨MinHeap.insert_ordered grown.ordered inserted, order', weighs',
    same'.trans (same.cons t)⟩

private theorem exists_of_mem_right {α β : Type} {R : α → β → Prop} {l : List α} {l' : List β}
    (related : List.Forall₂ R l l') {b : β} (member : b ∈ l') : ∃ a ∈ l, R a b := by
  induction related with
  | nil => cases member
  | @cons a b' l l' first _ ih =>
      rcases List.mem_cons.mp member with rfl | member
      · exact ⟨a, List.mem_cons_self, first⟩
      · obtain ⟨a', inside, related⟩ := ih member
        exact ⟨a', List.mem_cons_of_mem _ inside, related⟩

private theorem exists_of_mem_left {α β : Type} {R : α → β → Prop} {l : List α} {l' : List β}
    (related : List.Forall₂ R l l') {a : α} (member : a ∈ l) : ∃ b, R a b := by
  obtain ⟨b, _, found⟩ := exists_of_mem_right related.flip member
  exact ⟨b, found⟩

/-- The extracted tree is one of the lightest. -/
theorem Grown.extract {heap heap' : MinHeap HuffmanNode} {ts : List (CodeTree UInt8)}
    (grown : Grown w heap ts) {node : HuffmanNode}
    (extracted : heap.extractMin = some (node, heap')) :
    ∃ t rest, ts.Perm (t :: rest) ∧ Represents node t ∧ node.freq = t.weight w ∧
      (t.weight w : Int) ≤ intMax ∧ Grown w heap' rest ∧ ∀ u ∈ rest, t.weight w ≤ u.weight w := by
  obtain ⟨key, perm⟩ := MinHeap.extractMin_perm extracted
  obtain ⟨root, member, rfl, least⟩ := MinHeap.extractMin_le grown.ordered extracted
  obtain ⟨order, weighs, same⟩ := grown.trees
  obtain ⟨t', first⟩ := exists_of_mem_left weighs member
  obtain ⟨order', weighs', same'⟩ := List.perm_comp_forall₂ perm.symm weighs
  cases weighs' with
  | @cons _ t _ rest whole weighs' =>
      obtain rfl : t = t' := whole.rep.unique first.rep
      have remaining : Grown w heap' rest :=
        ⟨MinHeap.extractMin_ordered grown.ordered extracted, rest, weighs', .refl rest⟩
      refine ⟨t, rest, (same'.trans same).symm, whole.rep, whole.freq, ?_, remaining, ?_⟩
      · rw [← first.key]
        exact first.small
      · intro u inside
        obtain ⟨n, inHeap, related⟩ := exists_of_mem_right weighs' inside
        have bound := least n (perm.symm.subset (List.mem_cons_of_mem _ inHeap))
        rw [first.key, related.key] at bound
        exact_mod_cast bound

/-- What the merges of `ts` come to: one tree over the same leaves, whose cost is
    theirs and the cost of the merges. -/
def MergesTo (w : UInt8 → Nat) (heap : MinHeap HuffmanNode) (ts : List (CodeTree UInt8)) : Prop :=
  ∃ t cost, Grown w heap [t] ∧ t.leaves.Perm (ts.flatMap leaves) ∧
    Merges (ts.map (weight w) : List Nat) cost ∧
    t.cost w = cost + (ts.map (CodeTree.cost w)).sum

theorem mergesTo_single {heap : MinHeap HuffmanNode} {ts : List (CodeTree UInt8)}
    (grown : Grown w heap ts) (one : heap.size = 1) : MergesTo w heap ts := by
  rw [grown.length, List.length_eq_one_iff] at one
  obtain ⟨t, rfl⟩ := one
  exact ⟨t, 0, grown, by simp, .one _, by simp⟩

theorem MergesTo.merge {heap : MinHeap HuffmanNode} {ts rest : List (CodeTree UInt8)}
    {zero one : CodeTree UInt8} (perm : ts.Perm (zero :: one :: rest))
    (lightest : ∀ u ∈ one :: rest, zero.weight w ≤ u.weight w)
    (second : ∀ u ∈ rest, one.weight w ≤ u.weight w)
    (later : MergesTo w heap (zero.fork one :: rest)) : MergesTo w heap ts := by
  obtain ⟨t, cost, grown, leavesPerm, merges, total⟩ := later
  refine ⟨t, zero.weight w + one.weight w + cost, grown, ?_, ?_, ?_⟩
  · refine (leavesPerm.trans ?_).trans (perm.symm.flatMap_right _)
    simp [leaves]
  · have merged : Merges ((zero.weight w + one.weight w) ::ₘ
        (rest.map (weight w) : Multiset Nat)) cost := merges
    rw [Multiset.coe_eq_coe.mpr (perm.map (weight w))]
    refine Merges.merge (fun v member => ?_) (fun v member => ?_) merged
    · obtain ⟨u, inside, rfl⟩ := List.mem_map.mp (show v ∈ (one :: rest).map (weight w) from member)
      exact lightest u inside
    · obtain ⟨u, inside, rfl⟩ := List.mem_map.mp (show v ∈ rest.map (weight w) from member)
      exact second u inside
  · rw [total, (perm.map _).sum_eq]
    simp only [List.map_cons, List.sum_cons, CodeTree.cost]
    omega

theorem mergeNodes_merges (bound : Nat) {heap heap' : MinHeap HuffmanNode}
    {ts : List (CodeTree UInt8)} (merged : mergeNodes bound heap = some heap')
    (grown : Grown w heap ts) (some_ : 0 < heap.size) (enough : heap.size ≤ bound + 1) :
    MergesTo w heap' ts := by
  induction bound generalizing heap ts with
  | zero =>
      obtain rfl := Option.some.inj merged
      exact mergesTo_single grown (by omega)
  | succ bound ih =>
      by_cases many : 1 < heap.size
      · simp only [mergeNodes, if_pos many, Option.bind_eq_bind, Option.bind_eq_some_iff,
          Prod.exists] at merged
        obtain ⟨left, heap₁, out₁, right, heap₂, out₂, heap₃, inserted, merged⟩ := merged
        obtain ⟨zero, rest₁, perm₁, repZero, freqZero, _, grown₁, lightest⟩ := grown.extract out₁
        obtain ⟨one, rest₂, perm₂, repOne, freqOne, _, grown₂, second⟩ := grown₁.extract out₂
        have grown₃ : Grown w heap₃ (zero.fork one :: rest₂) := by
          refine grown₂.insert (.fork (left.freq + right.freq) 0 repZero repOne) rfl ?_ inserted
          rw [freqZero, freqOne, weight]
          push_cast
          rfl
        have size₃ : heap₃.size + 1 = heap.size := by
          rw [grown₃.length, grown.length, perm₁.length_eq, List.length_cons, List.length_cons,
            perm₂.length_eq, List.length_cons]
        exact .merge (perm₁.trans (perm₂.cons zero))
          (fun u member => lightest u (perm₂.symm.subset member)) second
          (ih merged grown₃ (by omega) (by omega))
      · obtain rfl : heap = heap' := by
          rw [mergeNodes, if_neg many] at merged
          exact Option.some.inj merged
        exact mergesTo_single grown (by omega)

/-! ## The tree of a buffer -/

theorem createMinHeap_grown {freq : List Int} (indices : List Nat) {heap heap' : MinHeap HuffmanNode}
    {ts : List (CodeTree UInt8)} (filled : indices.foldlM (insertByte freq) heap = some heap')
    (grown : Grown w heap ts)
    (counted : ∀ i ∈ indices, freq.getD i 0 = w (UInt8.ofNat i)) :
    Grown w heap' (((occurring freq indices).map .leaf).reverse ++ ts) := by
  induction indices generalizing heap ts with
  | nil =>
      obtain rfl := Option.some.inj filled
      exact grown
  | cons i indices ih =>
      rw [List.foldlM_cons] at filled
      obtain ⟨heap₁, inserted, filled⟩ := Option.bind_eq_some_iff.mp filled
      have counted' : ∀ i ∈ indices, freq.getD i 0 = w (UInt8.ofNat i) := fun j member =>
        counted j (List.mem_cons_of_mem _ member)
      rw [occurring_cons]
      unfold insertByte at inserted
      split at inserted
      · rename_i positive
        rw [if_pos positive, List.map_cons, List.reverse_cons, List.append_assoc]
        refine ih filled (grown.insert (.leaf _ _) rfl ?_ inserted) counted'
        exact counted i List.mem_cons_self
      · rename_i zero
        obtain rfl := Option.some.inj inserted
        rw [if_neg zero]
        exact ih filled grown counted'

theorem sum_occurring {freq : List Int} (indices : List Nat)
    (counted : ∀ i ∈ indices, freq.getD i 0 = w (UInt8.ofNat i)) :
    (((occurring freq indices).map w).sum : Int) = (indices.map (freq.getD · 0)).sum := by
  induction indices with
  | nil => rfl
  | cons i indices ih =>
      have counted' : ∀ i ∈ indices, freq.getD i 0 = w (UInt8.ofNat i) := fun j member =>
        counted j (List.mem_cons_of_mem _ member)
      have first := counted i List.mem_cons_self
      rw [occurring_cons, List.map_cons, List.sum_cons, ← ih counted']
      split
      · rw [List.map_cons, List.sum_cons, first]
        push_cast
        rfl
      · omega

theorem leaves_eq_toFinset {t : CodeTree UInt8} {bytes : List UInt8} (nodup : t.leaves.Nodup)
    (leaves_iff : ∀ byte, byte ∈ t.leaves ↔ byte ∈ bytes) :
    (t.leaves : Multiset UInt8) = bytes.toFinset.val := by
  have symbols : t.leaves.toFinset = bytes.toFinset := by
    ext byte
    rw [List.mem_toFinset, List.mem_toFinset, leaves_iff]
  rw [← symbols, List.toFinset_val, nodup.dedup]

/-- What is known of the tree that `gnl_huffman_tree_init` builds. -/
structure Built (bytes : List UInt8) (tree : HuffmanTree) (t : CodeTree UInt8) : Prop where
  dictionary : tree.dictionary = createDictionary tree.root
  rep : Represents tree.root t
  nodup : t.leaves.Nodup
  leaves_iff : ∀ byte, byte ∈ t.leaves ↔ byte ∈ bytes
  merges : Merges (bytes.toFinset.val.map (bytes.count ·)) (t.cost (bytes.count ·))

theorem init_built {bytes : List UInt8} {tree : HuffmanTree} (built : init bytes = some tree) :
    bytes ≠ [] ∧ bytes.length < 2 ^ 31 ∧ ∃ t, Built bytes tree t := by
  have again := built
  simp only [init, createTree, Option.bind_eq_bind, Option.bind_eq_some_iff, Prod.exists] at again
  obtain ⟨heap, filled, _, ⟨heap', merged, root, rest, out, found⟩, same⟩ := again
  obtain rfl := Option.some.inj found
  have counted : ∀ i ∈ List.range 256, (calculateFrequencies bytes).getD i 0 =
      bytes.count (UInt8.ofNat i) := fun i member =>
    frequencies_getD bytes i (List.mem_range.mp member)
  have start : Grown (bytes.count ·) MinHeap.init [] :=
    ⟨fun i _ inside => absurd inside (Nat.not_lt_zero i), [], .nil, .refl _⟩
  have grown := createMinHeap_grown (w := (bytes.count ·)) (List.range 256) filled start counted
  have some_ : 0 < heap.size := by
    by_contra empty
    rw [Nat.not_lt, Nat.le_zero] at empty
    rw [empty, mergeNodes] at merged
    obtain rfl := Option.some.inj merged
    have := MinHeap.extractMin_size out
    omega
  obtain ⟨t, cost, grown', leavesPerm, merges, total⟩ :=
    mergeNodes_merges heap.size merged grown some_ (by omega)
  obtain ⟨u, others, perm, rep, freq, small, _⟩ := grown'.extract out
  obtain rfl : t = u := by
    have member := perm.symm.subset List.mem_cons_self
    rw [List.mem_singleton] at member
    exact member.symm
  have inOrder : t.leaves.Perm (occurring (calculateFrequencies bytes) (List.range 256)) := by
    refine leavesPerm.trans ?_
    rw [List.append_nil]
    refine (List.Perm.flatMap_right _ (List.reverse_perm _)).trans ?_
    rw [List.flatMap_map]
    simp [leaves]
  have whole : t.weight (bytes.count ·) = bytes.length := by
    have sum := sum_occurring (w := (bytes.count ·)) (List.range 256) counted
    rw [frequencies_total] at sum
    rw [weight_eq_sum, (inOrder.map _).sum_eq]
    exact_mod_cast sum
  rw [whole, intMax] at small
  have nonempty : bytes ≠ [] := by
    obtain ⟨byte, member⟩ := List.exists_mem_of_ne_nil _ (leaves_ne_nil t)
    obtain ⟨i, inside, rfl⟩ := List.mem_map.mp (inOrder.subset member)
    simp only [List.mem_filter, decide_eq_true_eq] at inside
    rw [counted i inside.1] at inside
    have occurs : UInt8.ofNat i ∈ bytes := List.count_pos_iff.mp (by exact_mod_cast inside.2)
    exact List.ne_nil_of_mem occurs
  have short : bytes.length < 2 ^ 31 := by omega
  refine ⟨nonempty, short, t, ?_⟩
  obtain ⟨root', t', built', rep', nodup, leaves_iff⟩ := init_represents nonempty short
  obtain rfl := Option.some.inj (built'.symm.trans built)
  obtain rfl : root = root' := (HuffmanTree.mk.inj (Option.some.inj same)).2
  obtain rfl := rep.unique rep'
  refine ⟨rfl, rep, nodup, leaves_iff, ?_⟩
  have paid : t.cost (bytes.count ·) = cost := by
    have free : ∀ leaves : List UInt8, ((leaves.map CodeTree.leaf).map
        (CodeTree.cost (bytes.count ·))).sum = 0 := by
      intro leaves
      rw [List.map_map]
      exact List.sum_eq_zero fun c member => by
        obtain ⟨byte, _, rfl⟩ := List.mem_map.mp member
        rfl
    rw [total, List.append_nil, ← List.map_reverse, free, Nat.add_zero]
  rw [paid, ← leaves_eq_toFinset nodup leaves_iff, Multiset.map_coe]
  convert merges using 1
  rw [Multiset.coe_eq_coe]
  refine (inOrder.map _).trans ?_
  rw [List.append_nil, ← List.map_reverse, List.map_map]
  exact (List.reverse_perm _).symm.map _

/-! ## The bits of an artifact -/

theorem length_of_codesOf {t : CodeTree UInt8} {bytes : List UInt8} {bits : List Bool}
    (codes : CodesOf t bytes bits) (length : UInt8 → Nat)
    (lengths : ∀ p ∈ t.codes, length p.1 = p.2.length) :
    bits.length = (bytes.map length).sum := by
  induction bytes generalizing bits with
  | nil =>
      obtain rfl : bits = [] := codes
      rfl
  | cons byte bytes ih =>
      obtain ⟨code, rest, path, codes, rfl⟩ := codes
      rw [List.length_append, ih codes, List.map_cons, List.sum_cons,
        lengths (byte, code) (hasCode_iff_mem.mp path)]

theorem Built.length_eq {bytes : List UInt8} {tree : HuffmanTree} {t : CodeTree UInt8}
    (built : Built bytes tree t) {bits : List Bool} (codes : CodesOf t bytes bits) :
    bits.length = t.cost (bytes.count ·) := by
  have lengths : ∀ p ∈ t.codes, ((tree.code p.1).getD []).length = p.2.length := by
    intro p member
    have entry := (code_eq_some built.rep built.nodup).mpr (hasCode_iff_mem.mpr member)
    rw [← built.dictionary] at entry
    rw [entry, Option.getD_some]
  have symbols : bytes.toFinset = t.leaves.toFinset := by
    ext byte
    rw [List.mem_toFinset, List.mem_toFinset, built.leaves_iff]
  rw [length_of_codesOf codes (fun byte => ((tree.code byte).getD []).length) lengths,
    Finset.sum_list_map_count, symbols,
    List.sum_toFinset _ built.nodup, ← map_fst_codes, List.map_map, cost_eq_sum]
  refine congrArg List.sum (List.map_congr_left fun p member => ?_)
  simp only [Function.comp_apply, smul_eq_mul, lengths p member]

theorem pushBit_offset {packed : Packed} (words : packed.offset = packed.code.length) (bit : Bool) :
    (pushBit packed bit).offset = (pushBit packed bit).code.length := by
  unfold pushBit
  split <;> cases bit <;> simp [setBit, clearBit, words]

theorem pushBits_offset {packed : Packed} (words : packed.offset = packed.code.length)
    (code : List Bool) :
    (code.foldl pushBit packed).offset = (code.foldl pushBit packed).code.length := by
  induction code generalizing packed with
  | nil => exact words
  | cons bit code ih => exact ih (pushBit_offset words bit)

theorem packBytes_offset {dictionary : List (Option (List Bool))} {bytes : List UInt8}
    {packed : Packed} (packs : packBytes dictionary bytes = .ok packed) :
    packed.offset = packed.code.length := by
  suffices run : ∀ before : Packed, before.offset = before.code.length →
      bytes.foldlM (packByte dictionary) before = .ok packed →
      packed.offset = packed.code.length from run _ rfl packs
  clear packs
  induction bytes with
  | nil =>
      intro before words same
      obtain rfl := Except.ok.inj same
      exact words
  | cons byte bytes ih =>
      intro before words run
      rw [List.foldlM_cons, packByte] at run
      cases entry : dictionary.getD byte.toNat none with
      | none =>
          rw [entry] at run
          cases run
      | some code =>
          rw [entry] at run
          exact ih _ (pushBits_offset words code) run

/-- The bits of an artifact are the cost of merging the frequencies, and they are
    stored 32 in a word. -/
theorem encode_merges {bytes : List UInt8} {artifact : HuffmanArtifact}
    (encoded : encode (some bytes) = .ok artifact) :
    Merges (bytes.toFinset.val.map (bytes.count ·)) artifact.bitCount ∧
      artifact.size = (artifact.bitCount + 31) / 32 := by
  cases found : init bytes with
  | none =>
      simp only [encode, found] at encoded
      cases encoded
  | some tree =>
      obtain ⟨_, _, t, built⟩ := init_built found
      obtain ⟨packed, bits, packs, holds, codes⟩ := packBytes_holds (t := t)
        fun byte member => built.dictionary ▸
          createDictionary_code built.rep built.nodup ((built.leaves_iff byte).mpr member)
      have words := packBytes_offset packs
      simp only [encode, found, packs] at encoded
      obtain rfl := Except.ok.inj encoded
      dsimp only
      rw [words, holds.words, holds.count, built.length_eq codes]
      exact ⟨built.merges, rfl⟩

/-- The code is optimal: no other prefix code for the bytes that occur makes the
    buffer shorter. -/
theorem encode_optimal {bytes : List UInt8} (small : bytes.length < 2 ^ 31)
    (two : ∃ a ∈ bytes, ∃ b ∈ bytes, a ≠ b) :
    ∃ artifact, encode (some bytes) = .ok artifact ∧
      ∀ code : UInt8 → List Bool, (∀ a ∈ bytes, ∀ b ∈ bytes, a ≠ b → ¬ code a <+: code b) →
        artifact.bitCount ≤ (bytes.map fun byte => (code byte).length).sum := by
  obtain ⟨a, ha, b, hb, different⟩ := two
  obtain ⟨artifact, encoded, -⟩ := decode_encode (List.ne_nil_of_mem ha) small
  refine ⟨artifact, encoded, fun code free => ?_⟩
  have symbols : PrefixFree bytes.toFinset code := by
    intro c hc d hd
    exact free c (List.mem_toFinset.mp hc) d (List.mem_toFinset.mp hd)
  have several : bytes.toFinset.Nontrivial :=
    ⟨a, List.mem_toFinset.mpr ha, b, List.mem_toFinset.mpr hb, different⟩
  rw [Finset.sum_list_map_count]
  exact (encode_merges encoded).1.le_code symbols several

/-- A buffer of three kinds of bytes. -/
theorem encode_optimal_abac :
    ∃ artifact, encode (some [97, 98, 97, 99]) = .ok artifact ∧
      ∀ code : UInt8 → List Bool,
        (∀ a ∈ ([97, 98, 97, 99] : List UInt8), ∀ b ∈ ([97, 98, 97, 99] : List UInt8),
          a ≠ b → ¬ code a <+: code b) →
        artifact.bitCount ≤ (([97, 98, 97, 99] : List UInt8).map fun byte =>
          (code byte).length).sum :=
  encode_optimal (by decide) ⟨97, by decide, 98, by decide, by decide⟩

/-! ## The size of an artifact -/

/-- `gnl_huffman_tree_size` on an artifact that is not null: the number of 32-bit
    words, which the file system takes for a number of bytes. -/
def size (artifact : HuffmanArtifact) : Nat := artifact.size

/-- The buffers whose whole code takes at most one byte. -/
def FitsByte (bytes : List UInt8) : Prop :=
  bytes.toFinset.card = 1 ∨
  bytes.toFinset.card = 2 ∧ bytes.length ≤ 8 ∨
  bytes.toFinset.card = 3 ∧ (∃ byte ∈ bytes, 2 * bytes.length ≤ 8 + bytes.count byte) ∨
  bytes.toFinset.card = 4 ∧ bytes.length = 4

instance (bytes : List UInt8) : Decidable (FitsByte bytes) := by
  unfold FitsByte
  infer_instance

theorem sum_count (bytes : List UInt8) :
    (bytes.toFinset.val.map (bytes.count ·)).sum = bytes.length :=
  List.sum_toFinset_count_eq_length bytes

theorem fitsByte_iff {bytes : List UInt8} {cost : Nat}
    (merges : Merges (bytes.toFinset.val.map (bytes.count ·)) cost) :
    cost ≤ 8 ↔ FitsByte bytes := by
  have positive : ∀ w ∈ bytes.toFinset.val.map (bytes.count ·), 1 ≤ w := by
    intro w member
    obtain ⟨byte, inside, rfl⟩ := Multiset.mem_map.mp member
    exact List.count_pos_iff.mpr (List.mem_toFinset.mp inside)
  have card : (bytes.toFinset.val.map (bytes.count ·)).card = bytes.toFinset.card :=
    Multiset.card_map _ _
  have some_ := merges.card_pos
  have bound := merges.cost_ge positive
  have sum := sum_count bytes
  rw [card] at some_ bound
  rw [sum] at bound
  have many : bytes.toFinset.card ≤ bytes.length := List.toFinset_card_le bytes
  unfold FitsByte
  obtain one | two | three | four | five : bytes.toFinset.card = 1 ∨ bytes.toFinset.card = 2 ∨
      bytes.toFinset.card = 3 ∨ bytes.toFinset.card = 4 ∨ 5 ≤ bytes.toFinset.card := by omega
  · have free := merges.cost_one (card.trans one)
    simp only [one, free]
    simp
  · have whole := merges.cost_two (card.trans two)
    simp only [two, whole, sum]
    simp
  · obtain ⟨m, inside, heaviest, twice⟩ := merges.cost_three (card.trans three)
    rw [sum] at twice
    have room : cost ≤ 8 ↔ ∃ byte ∈ bytes, 2 * bytes.length ≤ 8 + bytes.count byte := by
      constructor
      · intro fits
        obtain ⟨byte, member, rfl⟩ := Multiset.mem_map.mp inside
        exact ⟨byte, List.mem_toFinset.mp member, by omega⟩
      · rintro ⟨byte, member, fits⟩
        have lighter := heaviest (bytes.count byte)
          (Multiset.mem_map_of_mem _ (List.mem_toFinset.mpr member))
        omega
    simp only [three, room]
    simp
  · -- four kinds need two bits each at most, and a repeated byte makes it nine
    have above := merges.cost_le (k := 2) (by rw [card, four]; norm_num)
    rw [sum] at above
    have tight : cost ≤ 8 ↔ bytes.length = 4 := by omega
    simp only [four, tight]
    simp
  · have above := bound (by omega)
    have long : ¬ cost ≤ 8 := by omega
    simp only [long, false_iff]
    omega

/-- The size covers the bits exactly for the buffers whose code takes at most a byte:
    of every word of 32 bits only one byte is counted. -/
theorem size_covers_iff {bytes : List UInt8} {artifact : HuffmanArtifact}
    (encoded : encode (some bytes) = .ok artifact) :
    (artifact.bitCount + 7) / 8 ≤ size artifact ↔ FitsByte bytes := by
  obtain ⟨merges, words⟩ := encode_merges encoded
  rw [← fitsByte_iff merges, size, words]
  omega

theorem size_covers_abc :
    ∃ artifact, encode (some [97, 98, 99]) = .ok artifact ∧
      ((artifact.bitCount + 7) / 8 ≤ size artifact ↔ FitsByte [97, 98, 99]) := by
  obtain ⟨artifact, encoded, -⟩ := decode_encode
    (show ([97, 98, 99] : List UInt8) ≠ [] by decide) (by decide)
  exact ⟨artifact, encoded, size_covers_iff encoded⟩

/-- Nine bytes of two kinds have nine bits, two bytes, and are charged one. -/
theorem size_falls_short :
    ¬ ∀ bytes artifact, 1 ≤ bytes.length → encode (some bytes) = .ok artifact →
      (artifact.bitCount + 7) / 8 ≤ size artifact := by
  intro covers
  obtain ⟨artifact, encoded, -⟩ := decode_encode
    (show ([97, 97, 97, 97, 97, 97, 97, 97, 98] : List UInt8) ≠ [] by decide) (by decide)
  have bits := (encode_merges encoded).1.cost_two (by decide)
  have words := (encode_merges encoded).2
  have enough := covers _ artifact (by decide) encoded
  rw [sum_count] at bits
  rw [size, words, bits] at enough
  exact absurd enough (by decide)

end FileStorage.HuffmanTree
