import FileStorage.Basic
import FileStorage.DataStructures.MinHeap

/-! # The Huffman coder

`gnl_huffman_tree.c`: the frequencies of the bytes, the tree built out of a min
heap, the dictionary of codes, the packing of the codes into 32-bit words and the
walk that decodes them. A code is a list of bits, `false` for the character '0'
and `true` for '1'. The counters are `int` in the source; below 2^31 bytes and
2^31 bits they do not overflow and the model is exact.
-/

namespace FileStorage

/-- A pointer to a node of the tree. -/
inductive HuffmanNode where
  | null
  | node (left right : HuffmanNode) (freq : Int) (byte : UInt8)
  deriving DecidableEq

namespace HuffmanNode

def freq : HuffmanNode → Int
  | .null => 0
  | .node _ _ freq _ => freq

@[simp] theorem freq_node (left right : HuffmanNode) (f : Int) (byte : UInt8) :
    (node left right f byte).freq = f := rfl

def createNode (freq : Int) (byte : UInt8) : HuffmanNode := .node .null .null freq byte

/-- `is_leaf` on a pointer that is not null. -/
def isLeaf : HuffmanNode → Bool
  | .node .null .null _ _ => true
  | _ => false

def treeDepth : HuffmanNode → Nat
  | .null => 0
  | .node left right _ _ =>
      if treeDepth right < treeDepth left then treeDepth left + 1 else treeDepth right + 1

end HuffmanNode

/-- `struct gnl_huffman_tree_t`: one code for each byte that has one. -/
structure HuffmanTree where
  dictionary : List (Option (List Bool))
  root : HuffmanNode
  deriving DecidableEq

structure HuffmanArtifact where
  root : HuffmanNode
  size : Nat
  bitCount : Nat
  code : List (BitVec 32)
  deriving DecidableEq

namespace HuffmanTree

open HuffmanNode

/-! ## Building the tree -/

def calculateFrequencies (bytes : List UInt8) : List Int :=
  bytes.foldl (fun freq byte => freq.modify byte.toNat (· + 1)) (List.replicate 256 0)

/-- The body of the loop of `create_min_heap`. -/
def insertByte (freq : List Int) (heap : MinHeap HuffmanNode) (i : Nat) :
    Option (MinHeap HuffmanNode) :=
  if 0 < freq.getD i 0 then
    heap.insert (createNode (freq.getD i 0) (UInt8.ofNat i)) (freq.getD i 0)
  else some heap

def createMinHeap (freq : List Int) : Option (MinHeap HuffmanNode) :=
  (List.range 256).foldlM (insertByte freq) MinHeap.init

/-- The loop of `create_tree`: merge the two smallest nodes while there are two. -/
def mergeNodes : (bound : Nat) → MinHeap HuffmanNode → Option (MinHeap HuffmanNode)
  | 0, heap => some heap
  | bound + 1, heap =>
      if 1 < heap.size then do
        let (left, heap) ← heap.extractMin
        let (right, heap) ← heap.extractMin
        let heap ← heap.insert (.node left right (left.freq + right.freq) 0)
          (left.freq + right.freq)
        mergeNodes bound heap
      else some heap

/-- `create_tree`; an empty heap has no root. -/
def createTree (heap : MinHeap HuffmanNode) : Option HuffmanNode := do
  let heap ← mergeNodes heap.size heap
  let (root, _) ← heap.extractMin
  some root

/-! ## The dictionary -/

/-- `create_dictionary_recursive`: the dictionary and the shared buffer `code`
    after the sub-tree of `node`, whose path is the first `index` bits of `code`. -/
def createDictionaryRecursive : HuffmanNode → List (Option (List Bool)) → List Bool → Nat →
    List (Option (List Bool)) × List Bool
  | .null, dictionary, code, _ => (dictionary, code)
  | .node left right freq byte, dictionary, code, index =>
      let afterLeft := if left = .null then (dictionary, code)
        else createDictionaryRecursive left dictionary (code.set index false) (index + 1)
      let afterRight := if right = .null then afterLeft
        else createDictionaryRecursive right afterLeft.1 (afterLeft.2.set index true) (index + 1)
      if isLeaf (.node left right freq byte) then
        (afterRight.1.set byte.toNat (some (afterRight.2.take index)), afterRight.2)
      else afterRight

/-- `create_dictionary`, with the buffer `code` as `malloc` of the depth gives it. -/
def createDictionary (root : HuffmanNode) : List (Option (List Bool)) :=
  (createDictionaryRecursive root (List.replicate 256 none)
    (List.replicate root.treeDepth false) 0).1

/-- `gnl_huffman_tree_init` on a buffer that is not null. -/
def init (bytes : List UInt8) : Option HuffmanTree := do
  let heap ← createMinHeap (calculateFrequencies bytes)
  let root ← createTree heap
  some { dictionary := createDictionary root, root }

/-! ## Packing the code -/

/-- The code array as it grows: the words, how many of them were allocated and
    the number of bits set so far. -/
structure Packed where
  code : List (BitVec 32)
  offset : Nat
  bitCount : Nat

def setBit (code : List (BitVec 32)) (k : Nat) : List (BitVec 32) :=
  code.modify (k / 32) (· ||| (1#32 <<< (k % 32)))

def clearBit (code : List (BitVec 32)) (k : Nat) : List (BitVec 32) :=
  code.modify (k / 32) (· &&& ~~~ (1#32 <<< (k % 32)))

def testBit (code : List (BitVec 32)) (k : Nat) : Bool :=
  code.getD (k / 32) 0 &&& (1#32 <<< (k % 32)) ≠ 0

/-- The body of the inner loop of `gnl_huffman_tree_encode`. -/
def pushBit (packed : Packed) (bit : Bool) : Packed :=
  let packed := if packed.bitCount % 32 = 0 then
      { packed with code := packed.code ++ [0], offset := packed.offset + 1 }
    else packed
  { packed with
    code := if bit then setBit packed.code packed.bitCount else clearBit packed.code packed.bitCount
    bitCount := packed.bitCount + 1 }

/-- The inner loop of `gnl_huffman_tree_encode`: the code of one byte. -/
def packByte (dictionary : List (Option (List Bool))) (packed : Packed) (byte : UInt8) :
    Except Failure Packed :=
  match dictionary.getD byte.toNat none with
  | some code => .ok (code.foldl pushBit packed)
  | none => .error (.fault .nullPointer)

/-- The loops of `gnl_huffman_tree_encode`. -/
def packBytes (dictionary : List (Option (List Bool))) (bytes : List UInt8) :
    Except Failure Packed :=
  bytes.foldlM (packByte dictionary) { code := [], offset := 0, bitCount := 0 }

/-- `gnl_huffman_tree_encode`. The heap refuses to give a root to an empty buffer. -/
def encode : Option (List UInt8) → Except Failure HuffmanArtifact
  | none => .error (.errno .EINVAL)
  | some bytes =>
      match init bytes with
      | none => .error (.errno .EPERM)
      | some tree => do
          let packed ← packBytes tree.dictionary bytes
          .ok { root := tree.root, size := packed.offset, bitCount := packed.bitCount
                code := packed.code }

/-! ## Decoding -/

/-- One turn of the loop of `gnl_huffman_tree_decode`: the bytes decoded so far
    and the current node. -/
def decodeStep (artifact : HuffmanArtifact) (state : List UInt8 × HuffmanNode) (i : Nat) :
    Except Failure (List UInt8 × HuffmanNode) :=
  match state.2 with
  | .null => .error (.fault .nullPointer)
  | .node left right _ _ =>
      match if testBit artifact.code i then right else left with
      | .null => .error (.fault .nullPointer)
      | .node left right freq byte =>
          if isLeaf (.node left right freq byte) then .ok (state.1 ++ [byte], artifact.root)
          else .ok (state.1, .node left right freq byte)

/-- `gnl_huffman_tree_decode` on an artifact that is not null. -/
def decode (artifact : HuffmanArtifact) : Except Failure (List UInt8) := do
  let (bytes, last) ← (List.range artifact.bitCount).foldlM (decodeStep artifact)
    ([], artifact.root)
  if artifact.root ≠ last then .error (.errno .EINVAL) else .ok bytes

end HuffmanTree

end FileStorage
