import FileStorage.DataStructures.HuffmanDictionary

/-! # When decoding recovers what was encoded

A buffer with two distinct bytes is coded by a tree with a fork at its root, and
the decoder recovers it. A buffer that repeats one byte is coded by a single
leaf: its code is empty, no bit is written and nothing is decoded.
-/

namespace FileStorage.HuffmanTree

open HuffmanNode CodeTree

/-! ## Packing -/

private theorem and_shift_ne_zero (word : BitVec 32) {j : Nat} (inside : j < 32) :
    word &&& (1#32 <<< j) ≠ 0 ↔ word.getLsbD j = true := by
  constructor
  · intro some_
    by_contra unset
    apply some_
    apply BitVec.eq_of_getLsbD_eq
    intro i hi
    by_cases same : i = j
    · subst same
      simp_all
    · simp only [BitVec.getLsbD_and, BitVec.getLsbD_shiftLeft, BitVec.getLsbD_one]
      grind
  · intro isSet zero
    have bit := congrArg (fun w => w.getLsbD j) zero
    simp only [BitVec.getLsbD_and, BitVec.getLsbD_shiftLeft, BitVec.getLsbD_one, isSet] at bit
    simp [inside] at bit

private theorem or_shift (word : BitVec 32) {i j : Nat} (inside : j < 32) :
    (word ||| (1#32 <<< j)).getLsbD i = (word.getLsbD i || decide (i = j)) := by
  simp only [BitVec.getLsbD_or, BitVec.getLsbD_shiftLeft, BitVec.getLsbD_one]
  grind

private theorem clear_shift (word : BitVec 32) {i j : Nat} (inside : j < 32) :
    (word &&& ~~~ (1#32 <<< j)).getLsbD i = (word.getLsbD i && !decide (i = j)) := by
  have beyond := @BitVec.getLsbD_of_ge 32 word i
  simp only [BitVec.getLsbD_and, BitVec.getLsbD_not, BitVec.getLsbD_shiftLeft,
    BitVec.getLsbD_one]
  by_cases same : i = j
  · subst same
    simp [inside]
  · grind

theorem testBit_eq (code : List (BitVec 32)) (k : Nat) :
    testBit code k = (code.getD (k / 32) 0).getLsbD (k % 32) := by
  rw [testBit, Bool.eq_iff_iff, decide_eq_true_iff,
    and_shift_ne_zero _ (Nat.mod_lt k (by decide))]

private theorem getD_modify {code : List (BitVec 32)} {q : Nat} (inside : q < code.length)
    (f : BitVec 32 → BitVec 32) (r : Nat) :
    (code.modify q f).getD r 0 = if q = r then f (code.getD r 0) else code.getD r 0 := by
  rw [List.getD_eq_getElem?_getD, List.getD_eq_getElem?_getD, List.getElem?_modify]
  by_cases same : q = r
  · subst same
    simp [inside]
  · simp [same]

theorem testBit_write {code : List (BitVec 32)} {k : Nat} (inside : k / 32 < code.length)
    (bit : Bool) (i : Nat) :
    testBit (if bit then setBit code k else clearBit code k) i =
      if i = k then bit else testBit code i := by
  have low : k % 32 < 32 := Nat.mod_lt k (by decide)
  have index : i = k ↔ k / 32 = i / 32 ∧ i % 32 = k % 32 := by omega
  cases bit with
  | false =>
      simp only [Bool.false_eq_true, if_false, testBit_eq, clearBit, getD_modify inside]
      split
      · rename_i sameWord
        rw [clear_shift _ low]
        by_cases same : i % 32 = k % 32 <;> simp [index, same, sameWord]
      · rename_i otherWord
        simp [index, otherWord]
  | true =>
      simp only [if_true, testBit_eq, setBit, getD_modify inside]
      split
      · rename_i sameWord
        rw [or_shift _ low]
        by_cases same : i % 32 = k % 32 <;> simp [index, same, sameWord]
      · rename_i otherWord
        simp [index, otherWord]

theorem testBit_append (code : List (BitVec 32)) (word : BitVec 32) {i : Nat}
    (inside : i / 32 < code.length) : testBit (code ++ [word]) i = testBit code i := by
  rw [testBit_eq, testBit_eq, List.getD_append _ _ _ _ inside]

/-- The words hold exactly the bits pushed so far. -/
structure Holds (packed : Packed) (bits : List Bool) : Prop where
  count : packed.bitCount = bits.length
  words : packed.code.length = (bits.length + 31) / 32
  stored : ∀ i (inside : i < bits.length), testBit packed.code i = bits[i]

theorem pushBit_holds {packed : Packed} {bits : List Bool} (holds : Holds packed bits)
    (bit : Bool) : Holds (pushBit packed bit) (bits ++ [bit]) := by
  obtain ⟨count, words, stored⟩ := holds
  -- the array after `realloc`, before the bit is written
  obtain ⟨code, pushed, room, length, same⟩ : ∃ code,
      (pushBit packed bit).code =
        (if bit then setBit code bits.length else clearBit code bits.length) ∧
      bits.length / 32 < code.length ∧ code.length = (bits.length + 1 + 31) / 32 ∧
      ∀ i < bits.length, testBit code i = testBit packed.code i := by
    by_cases full : bits.length % 32 = 0
    · refine ⟨packed.code ++ [0], by simp only [pushBit, count, if_pos full], ?_, ?_, ?_⟩
      · rw [List.length_append, List.length_singleton]; omega
      · rw [List.length_append, List.length_singleton]; omega
      · exact fun i inside => testBit_append _ _ (by omega)
    · exact ⟨packed.code, by simp only [pushBit, count, if_neg full], by omega, by omega,
        fun _ _ => rfl⟩
  constructor
  · rw [List.length_append, List.length_singleton, ← count]
    simp only [pushBit]
    split <;> rfl
  · rw [pushed, List.length_append, List.length_singleton, ← length]
    cases bit <;> simp [setBit, clearBit]
  · intro i inside
    rw [List.length_append, List.length_singleton] at inside
    rw [pushed, testBit_write room]
    by_cases last : i = bits.length
    · simp [last]
    · have before : i < bits.length := by omega
      rw [if_neg last, same i before, stored i before, List.getElem_append_left before]

theorem pushBits_holds {packed : Packed} {bits : List Bool} (holds : Holds packed bits)
    (code : List Bool) : Holds (code.foldl pushBit packed) (bits ++ code) := by
  induction code generalizing packed bits with
  | nil => simpa using holds
  | cons bit code ih =>
      rw [List.foldl_cons, List.append_cons]
      exact ih (pushBit_holds holds bit)

/-- The code of a whole buffer, one code after the other. -/
def CodesOf (t : CodeTree UInt8) : List UInt8 → List Bool → Prop
  | [], bits => bits = []
  | byte :: bytes, bits => ∃ code rest, HasCode t byte code ∧ CodesOf t bytes rest ∧
      bits = code ++ rest

theorem packBytes_holds {dictionary : List (Option (List Bool))} {t : CodeTree UInt8}
    {bytes : List UInt8}
    (coded : ∀ byte ∈ bytes, ∃ code, HasCode t byte code ∧
      dictionary.getD byte.toNat none = some code) :
    ∃ packed bits, packBytes dictionary bytes = .ok packed ∧ Holds packed bits ∧
      CodesOf t bytes bits := by
  suffices h : ∀ packed before, Holds packed before → ∃ packed' bits,
      bytes.foldlM (packByte dictionary) packed = .ok packed' ∧
      Holds packed' (before ++ bits) ∧ CodesOf t bytes bits by
    obtain ⟨packed, bits, packs, holds, codes⟩ := h { code := [], offset := 0, bitCount := 0 } []
      ⟨rfl, rfl, fun i inside => absurd inside (Nat.not_lt_zero i)⟩
    exact ⟨packed, bits, packs, holds, codes⟩
  induction bytes with
  | nil => exact fun packed before holds => ⟨packed, [], rfl, by simpa using holds, rfl⟩
  | cons byte bytes ih =>
      intro packed before holds
      obtain ⟨code, path, entry⟩ := coded byte List.mem_cons_self
      obtain ⟨packed', bits, packs, holds', codes⟩ :=
        ih (fun b member => coded b (List.mem_cons_of_mem _ member)) _ _ (pushBits_holds holds code)
      refine ⟨packed', code ++ bits, ?_, ?_, code, bits, path, codes, rfl⟩
      · rw [List.foldlM_cons, packByte, entry]
        exact packs
      · rw [← List.append_assoc]
        exact holds'

/-! ## Decoding -/

/-- The state of the decoder once it has come to `node`. -/
def arrive (artifact : HuffmanArtifact) (out : List UInt8) : HuffmanNode → List UInt8 × HuffmanNode
  | .node .null .null _ byte => (out ++ [byte], artifact.root)
  | other => (out, other)

theorem arrive_fork (artifact : HuffmanArtifact) (out : List UInt8) {left right : HuffmanNode}
    {zero : CodeTree UInt8} (repZero : Represents left zero) (freq : Int) (byte : UInt8) :
    arrive artifact out (.node left right freq byte) = (out, .node left right freq byte) := by
  cases repZero <;> rfl

theorem decodeStep_fork (artifact : HuffmanArtifact) (out : List UInt8) {left right : HuffmanNode}
    {zero one : CodeTree UInt8} (repZero : Represents left zero) (repOne : Represents right one)
    (freq : Int) (byte : UInt8) (i : Nat) :
    decodeStep artifact (out, .node left right freq byte) i =
      .ok (arrive artifact out (if testBit artifact.code i then right else left)) := by
  obtain ⟨child, rep⟩ : ∃ child : CodeTree UInt8,
      Represents (if testBit artifact.code i then right else left) child := by
    split
    · exact ⟨one, repOne⟩
    · exact ⟨zero, repZero⟩
  simp only [decodeStep]
  generalize (if testBit artifact.code i then right else left) = node at rep
  cases rep with
  | leaf freq byte => rfl
  | fork freq byte repLeft repRight =>
      simp only [isLeaf_fork repLeft.ne_null, Bool.false_eq_true, if_false,
        arrive_fork _ _ repLeft]

theorem decode_symbol {artifact : HuffmanArtifact} {node : HuffmanNode} {t : CodeTree UInt8}
    {a : UInt8} {code : List Bool} (path : HasCode t a code) (rep : Represents node t)
    (out : List UInt8) (start : Nat)
    (stored : ∀ i (inside : i < code.length), testBit artifact.code (start + i) = code[i]) :
    (List.range' start code.length).foldlM (decodeStep artifact) (arrive artifact out node) =
      .ok (out ++ [a], artifact.root) := by
  induction path generalizing node start with
  | leaf a =>
      cases rep
      rfl
  | @zero zero one a code path ih =>
      cases rep with
      | @fork left right _ _ freq byte repZero repOne =>
          have bit : testBit artifact.code start = false := stored 0 (by simp)
          have later := ih repZero (start + 1) (fun i inside => by
            have next := stored (i + 1) (by simpa using inside)
            rwa [List.getElem_cons_succ, ← Nat.add_assoc, Nat.add_right_comm] at next)
          rw [arrive_fork _ _ repZero, List.length_cons, List.range'_succ, List.foldlM_cons,
            decodeStep_fork _ _ repZero repOne, bit]
          exact later
  | @one zero one a code path ih =>
      cases rep with
      | @fork left right _ _ freq byte repZero repOne =>
          have bit : testBit artifact.code start = true := stored 0 (by simp)
          have later := ih repOne (start + 1) (fun i inside => by
            have next := stored (i + 1) (by simpa using inside)
            rwa [List.getElem_cons_succ, ← Nat.add_assoc, Nat.add_right_comm] at next)
          rw [arrive_fork _ _ repZero, List.length_cons, List.range'_succ, List.foldlM_cons,
            decodeStep_fork _ _ repZero repOne, bit]
          exact later

theorem decode_codes {artifact : HuffmanArtifact} {t : CodeTree UInt8}
    (rep : Represents artifact.root t) (fork : t.IsFork) {bytes : List UInt8} {bits : List Bool}
    (codes : CodesOf t bytes bits) (out : List UInt8) (start : Nat)
    (stored : ∀ i (inside : i < bits.length), testBit artifact.code (start + i) = bits[i]) :
    (List.range' start bits.length).foldlM (decodeStep artifact) (out, artifact.root) =
      .ok (out ++ bytes, artifact.root) := by
  have atRoot : ∀ out, arrive artifact out artifact.root = (out, artifact.root) := by
    intro out
    generalize artifact.root = root at *
    cases rep with
    | leaf => exact fork.elim
    | fork freq byte repZero _ => exact arrive_fork _ _ repZero freq byte
  induction bytes generalizing bits out start with
  | nil =>
      obtain rfl : bits = [] := codes
      rw [List.append_nil]
      rfl
  | cons byte bytes ih =>
      obtain ⟨code, rest, path, codes, rfl⟩ := codes
      have first := decode_symbol path rep out start (fun i inside => by
        rw [stored i (by rw [List.length_append]; omega), List.getElem_append_left inside])
      have later := ih codes (out ++ [byte]) (start + code.length) (fun i inside => by
        rw [Nat.add_assoc, stored (code.length + i) (by rw [List.length_append]; omega),
          List.getElem_append_right (Nat.le_add_right _ _)]
        simp)
      rw [atRoot] at first
      rw [List.append_assoc, List.singleton_append] at later
      rw [List.length_append, ← List.range'_append_1, List.foldlM_append, first]
      exact later

/-- A single leaf has the empty code. -/
theorem codesOf_leaf {a : UInt8} {bytes : List UInt8} {bits : List Bool}
    (codes : CodesOf (.leaf a) bytes bits) : bits = [] := by
  induction bytes generalizing bits with
  | nil => exact codes
  | cons byte bytes ih =>
      obtain ⟨code, rest, path, codes, rfl⟩ := codes
      cases path
      exact ih codes

/-! ## The round trip -/

theorem decode_encode {bytes : List UInt8} (nonempty : bytes ≠ [])
    (small : bytes.length < 2 ^ 31) :
    ∃ artifact, encode (some bytes) = .ok artifact ∧
      decode artifact = .ok (if ∃ a ∈ bytes, ∃ b ∈ bytes, a ≠ b then bytes else []) := by
  obtain ⟨root, t, built, rep, nodup, leaves_iff⟩ := init_represents nonempty small
  have coded : ∀ byte ∈ bytes, ∃ code, HasCode t byte code ∧
      (createDictionary root).getD byte.toNat none = some code :=
    fun byte member => createDictionary_code rep nodup ((leaves_iff byte).mpr member)
  obtain ⟨packed, bits, packs, holds, codes⟩ := packBytes_holds coded
  refine ⟨{ root, size := packed.offset, bitCount := packed.bitCount, code := packed.code }, ?_, ?_⟩
  · simp only [encode, built, packs]
    rfl
  · have rangeEq : List.range packed.bitCount = List.range' 0 bits.length := by
      rw [holds.count, List.range_eq_range']
    by_cases two : ∃ a ∈ bytes, ∃ b ∈ bytes, a ≠ b
    · obtain ⟨a, ha, b, hb, different⟩ := two
      have fork := isFork_of_mem ((leaves_iff a).mpr ha) ((leaves_iff b).mpr hb) different
      rw [if_pos ⟨a, ha, b, hb, different⟩]
      simp only [decode, rangeEq]
      rw [decode_codes (t := t) rep fork codes [] 0 (fun i inside => by
        rw [Nat.zero_add]; exact holds.stored i inside)]
      simp [bind, Except.bind]
    · have leaf : bits = [] := by
        cases t with
        | leaf c => exact codesOf_leaf codes
        | fork zero one =>
            obtain ⟨a, ha, b, hb, different⟩ := exists_ne_of_isFork (t := .fork zero one) trivial nodup
            exact absurd ⟨a, (leaves_iff a).mp ha, b, (leaves_iff b).mp hb, different⟩ two
      rw [if_neg two]
      simp [decode, rangeEq, leaf, bind, Except.bind, pure, Except.pure]

/-- The coder is lossless on a buffer exactly when two distinct bytes occur in it. -/
theorem decode_encode_iff {bytes : List UInt8} (nonempty : bytes ≠ [])
    (small : bytes.length < 2 ^ 31) :
    (∃ artifact, encode (some bytes) = .ok artifact ∧ decode artifact = .ok bytes) ↔
      ∃ a ∈ bytes, ∃ b ∈ bytes, a ≠ b := by
  obtain ⟨artifact, encodes, decodes⟩ := decode_encode nonempty small
  constructor
  · rintro ⟨other, encodes', decodes'⟩
    obtain rfl : artifact = other := by
      rw [encodes] at encodes'
      exact Except.ok.inj encodes'
    by_contra one
    rw [decodes, if_neg one] at decodes'
    exact nonempty (Except.ok.inj decodes').symm
  · intro two
    rw [if_pos two] at decodes
    exact ⟨artifact, encodes, decodes⟩

theorem decode_encode_ab :
    ∃ artifact, encode (some [97, 98]) = .ok artifact ∧ decode artifact = .ok [97, 98] :=
  (decode_encode_iff (by decide) (by decide)).mpr ⟨97, by decide, 98, by decide, by decide⟩

/-- Two equal bytes: the artifact has no bits and decodes to nothing. -/
theorem decode_encode_aa_lossy :
    ¬ ∃ artifact, encode (some [97, 97]) = .ok artifact ∧ decode artifact = .ok [97, 97] := by
  rintro ⟨artifact, encodes, decodes⟩
  have result : (encode (some [97, 97])).toOption.map (fun a => (decode a).toOption) =
      some (some []) := by decide +kernel
  rw [encodes] at result
  simp only [Except.toOption, Option.map_some] at result
  rw [decodes] at result
  exact absurd result (by decide)

end FileStorage.HuffmanTree
