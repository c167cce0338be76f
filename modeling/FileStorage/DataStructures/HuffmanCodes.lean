import FileStorage.DataStructures.HuffmanRoundTrip
import Mathlib.Algebra.BigOperators.Group.Finset.Basic

/-! # The dictionary is a complete prefix code

The codes of the dictionary are the paths of the tree. None of them continues
another, together they use up all bit strings, and any sequence of the bytes that
occur can be read back from its codes, not only the buffer itself.
-/

namespace FileStorage.HuffmanTree

open HuffmanNode CodeTree

def code (tree : HuffmanTree) (byte : UInt8) : Option (List Bool) :=
  tree.dictionary.getD byte.toNat none

/-! ## The codes of the tree -/

theorem codes_functional {t : CodeTree UInt8} (nodup : t.leaves.Nodup) {byte : UInt8}
    {first second : List Bool} (path : HasCode t byte first) (path' : HasCode t byte second) :
    first = second := by
  rw [← map_fst_codes] at nodup
  have same := List.inj_on_of_nodup_map nodup (hasCode_iff_mem.mp path) (hasCode_iff_mem.mp path')
    rfl
  exact (Prod.mk.inj same).2

theorem mem_leaves_of_hasCode {t : CodeTree UInt8} {byte : UInt8} {code : List Bool}
    (path : HasCode t byte code) : byte ∈ t.leaves := by
  rw [← map_fst_codes]
  exact List.mem_map_of_mem (hasCode_iff_mem.mp path)

/-- The dictionary holds the paths of the tree and nothing else. -/
theorem code_eq_some {root : HuffmanNode} {t : CodeTree UInt8} (rep : Represents root t)
    (nodup : t.leaves.Nodup) {byte : UInt8} {code : List Bool} :
    HuffmanTree.code { dictionary := createDictionary root, root } byte = some code ↔
      HasCode t byte code := by
  have wide : (List.replicate 256 (none : Option (List Bool))).length = 256 :=
    List.length_replicate
  have filled := createDictionaryRecursive_filled rep nodup wide
    (List.replicate root.treeDepth false) 0 (by rw [List.length_replicate]; omega)
  by_cases member : byte ∈ t.leaves
  · obtain ⟨found, path, entry⟩ := createDictionary_code rep nodup member
    rw [HuffmanTree.code, entry, Option.some.injEq]
    constructor
    · rintro rfl
      exact path
    · exact codes_functional nodup path
  · have entry := filled.outside byte member
    rw [List.getD_replicate _ byte.toNat_lt] at entry
    rw [HuffmanTree.code, createDictionary, entry]
    exact ⟨nofun, fun path => absurd (mem_leaves_of_hasCode path) member⟩

/-! ## Sequences of codes -/

structure Stores (artifact : HuffmanArtifact) (bits : List Bool) : Prop where
  count : artifact.bitCount = bits.length
  stored : ∀ i (inside : i < bits.length), testBit artifact.code i = bits[i]

theorem mapM_code {root : HuffmanNode} {t : CodeTree UInt8} (rep : Represents root t)
    (nodup : t.leaves.Nodup) {sequence : List UInt8} (known : ∀ byte ∈ sequence, byte ∈ t.leaves) :
    ∃ codes, sequence.mapM (HuffmanTree.code { dictionary := createDictionary root, root }) =
      some codes ∧ CodesOf t sequence codes.flatten := by
  induction sequence with
  | nil => exact ⟨[], rfl, rfl⟩
  | cons byte sequence ih =>
      obtain ⟨code, path, entry⟩ := createDictionary_code rep nodup (known byte List.mem_cons_self)
      obtain ⟨codes, found, concatenated⟩ :=
        ih fun byte member => known byte (List.mem_cons_of_mem _ member)
      refine ⟨code :: codes, ?_, code, codes.flatten, path, concatenated, List.flatten_cons⟩
      rw [List.mapM_cons, HuffmanTree.code, entry, found]
      rfl

theorem codesOf_functional {t : CodeTree UInt8} (nodup : t.leaves.Nodup) {sequence : List UInt8}
    {first second : List Bool} (codes : CodesOf t sequence first)
    (codes' : CodesOf t sequence second) : first = second := by
  induction sequence generalizing first second with
  | nil => exact codes.trans codes'.symm
  | cons byte sequence ih =>
      obtain ⟨code, rest, path, codes, rfl⟩ := codes
      obtain ⟨code', rest', path', codes', rfl⟩ := codes'
      rw [codes_functional nodup path path', ih codes codes']

theorem decode_stores {artifact : HuffmanArtifact} {t : CodeTree UInt8}
    (rep : Represents artifact.root t) (fork : t.IsFork) {sequence : List UInt8}
    {bits : List Bool} (codes : CodesOf t sequence bits) (stores : Stores artifact bits) :
    (List.range artifact.bitCount).foldlM (decodeStep artifact) ([], artifact.root) =
        .ok (sequence, artifact.root) ∧
      decode artifact = .ok sequence := by
  have read := decode_codes rep fork codes [] 0 (fun i inside => by
    rw [Nat.zero_add]
    exact stores.stored i inside)
  rw [List.nil_append, ← stores.count, ← List.range_eq_range'] at read
  refine ⟨read, ?_⟩
  simp only [decode, read, bind, Except.bind, ne_eq, not_true, if_false]

/-- The dictionary of a buffer with two distinct bytes is a complete prefix code for
    the bytes that occur, and every sequence of them decodes to itself. -/
theorem init_prefix_code {bytes : List UInt8} (small : bytes.length < 2 ^ 31)
    (two : ∃ a ∈ bytes, ∃ b ∈ bytes, a ≠ b) :
    ∃ tree, init bytes = some tree ∧
      (∀ byte, (∃ code, tree.code byte = some code) ↔ byte ∈ bytes) ∧
      (∀ byte code, tree.code byte = some code → code ≠ []) ∧
      (∀ a b first second, tree.code a = some first → tree.code b = some second → a ≠ b →
        ¬ first <+: second) ∧
      ∑ byte ∈ bytes.toFinset, (1 / 2 : ℚ) ^ ((tree.code byte).getD []).length = 1 ∧
      ∀ sequence, (∀ byte ∈ sequence, byte ∈ bytes) →
        ∃ codes packed, sequence.mapM tree.code = some codes ∧
          packBytes tree.dictionary sequence = .ok packed ∧ Holds packed codes.flatten ∧
          ∀ artifact : HuffmanArtifact, artifact.root = tree.root →
            Stores artifact codes.flatten →
            (List.range artifact.bitCount).foldlM (decodeStep artifact) ([], artifact.root) =
                .ok (sequence, artifact.root) ∧
              decode artifact = .ok sequence := by
  obtain ⟨a, ha, b, hb, different⟩ := two
  obtain ⟨root, t, built, rep, nodup, leaves_iff⟩ :=
    init_represents (List.ne_nil_of_mem ha) small
  have fork := isFork_of_mem ((leaves_iff a).mpr ha) ((leaves_iff b).mpr hb) different
  refine ⟨_, built, ?_, ?_, ?_, ?_, ?_⟩
  · intro byte
    rw [← leaves_iff]
    constructor
    · rintro ⟨code, entry⟩
      exact mem_leaves_of_hasCode ((code_eq_some rep nodup).mp entry)
    · intro member
      obtain ⟨code, _, entry⟩ := createDictionary_code rep nodup member
      exact ⟨code, entry⟩
  · intro byte code entry
    exact ((code_eq_some rep nodup).mp entry).ne_nil fork
  · intro a b first second entry entry' different continues
    obtain ⟨more, rfl⟩ := continues
    have same := ((code_eq_some rep nodup).mp entry).unique ((code_eq_some rep nodup).mp entry')
    exact different same.1
  · have symbols : bytes.toFinset = t.leaves.toFinset := by
      ext byte
      rw [List.mem_toFinset, List.mem_toFinset, leaves_iff]
    rw [symbols, List.sum_toFinset _ nodup, ← map_fst_codes, List.map_map]
    refine Eq.trans ?_ t.kraft_codes
    refine congrArg List.sum (List.map_congr_left fun p member => ?_)
    have entry := (code_eq_some rep nodup).mpr (hasCode_iff_mem.mpr member)
    simp only [Function.comp_apply, entry, Option.getD_some]
  · intro sequence known
    have known : ∀ byte ∈ sequence, byte ∈ t.leaves := fun byte member =>
      (leaves_iff byte).mpr (known byte member)
    obtain ⟨codes, found, concatenated⟩ := mapM_code rep nodup known
    obtain ⟨packed, bits, packs, holds, codes'⟩ := packBytes_holds (t := t)
      fun byte member => createDictionary_code rep nodup (known byte member)
    obtain rfl := codesOf_functional nodup concatenated codes'
    refine ⟨codes, packed, found, packs, holds, fun artifact atRoot stores => ?_⟩
    exact decode_stores (by rw [atRoot]; exact rep) fork concatenated stores

theorem init_prefix_code_ab :
    ∃ tree, init [97, 98, 97] = some tree ∧
      (∀ byte, (∃ code, tree.code byte = some code) ↔ byte ∈ [97, 98, 97]) ∧
      (∀ byte code, tree.code byte = some code → code ≠ []) ∧
      (∀ a b first second, tree.code a = some first → tree.code b = some second → a ≠ b →
        ¬ first <+: second) ∧
      ∑ byte ∈ [97, 98, 97].toFinset, (1 / 2 : ℚ) ^ ((tree.code byte).getD []).length = 1 ∧
      ∀ sequence, (∀ byte ∈ sequence, byte ∈ ([97, 98, 97] : List UInt8)) →
        ∃ codes packed, sequence.mapM tree.code = some codes ∧
          packBytes tree.dictionary sequence = .ok packed ∧ Holds packed codes.flatten ∧
          ∀ artifact : HuffmanArtifact, artifact.root = tree.root →
            Stores artifact codes.flatten →
            (List.range artifact.bitCount).foldlM (decodeStep artifact) ([], artifact.root) =
                .ok (sequence, artifact.root) ∧
              decode artifact = .ok sequence :=
  init_prefix_code (by decide) ⟨97, by decide, 98, by decide, by decide⟩

end FileStorage.HuffmanTree
