import FileStorage.DataStructures.HuffmanRoundTrip

/-! # The coder behind the inodes

The inodes see the coder through four operations on artifacts. Every artifact
they hold was made by the encoder, so decoding one always returns; whether it
returns the bytes that were encoded is a property of its own, `Lossless`.
-/

namespace FileStorage

structure Codec where
  Artifact : Type
  /-- `none` is the null pointer returned for an empty buffer. -/
  encode : List UInt8 → Option Artifact
  decode : Artifact → List UInt8
  size : Artifact → Nat
  encode_nil : encode [] = none
  encode_isSome : ∀ bytes, bytes ≠ [] → bytes.length < 2 ^ 31 → (encode bytes).isSome
  decode_small : ∀ artifact, (decode artifact).length < 2 ^ 31

namespace Codec

/-- Decoding is the exact inverse of encoding. -/
def Lossless (codec : Codec) : Prop :=
  ∀ bytes artifact, codec.encode bytes = some artifact → codec.decode artifact = bytes

end Codec

namespace HuffmanTree

/-- The artifacts `encode` makes, each with what it decodes to. -/
structure Encoded where
  artifact : HuffmanArtifact
  bytes : List UInt8
  decodes : decode artifact = .ok bytes
  small : bytes.length < 2 ^ 31

def encoded (source : List UInt8) : Option Encoded :=
  if small : source ≠ [] ∧ source.length < 2 ^ 31 then
    match made : encode (some source) with
    | .error _ => none
    | .ok artifact => some {
        artifact
        bytes := if ∃ a ∈ source, ∃ b ∈ source, a ≠ b then source else []
        decodes := by
          obtain ⟨other, encodes, decodes⟩ := decode_encode small.1 small.2
          rw [made] at encodes
          cases encodes
          exact decodes
        small := by
          split
          · exact small.2
          · decide }
  else none

theorem encoded_spec {source : List UInt8} {made : Encoded} (is : encoded source = some made) :
    encode (some source) = .ok made.artifact ∧
      made.bytes = if ∃ a ∈ source, ∃ b ∈ source, a ≠ b then source else [] := by
  unfold encoded at is
  split at is
  · split at is
    · cases is
    · rename_i artifact encodes
      obtain rfl := Option.some.inj is
      exact ⟨encodes, rfl⟩
  · cases is

theorem encoded_isSome {source : List UInt8} (nonempty : source ≠ [])
    (small : source.length < 2 ^ 31) : (encoded source).isSome := by
  obtain ⟨artifact, encodes, -⟩ := decode_encode nonempty small
  rw [encoded, dif_pos ⟨nonempty, small⟩]
  split
  · rename_i fails
    rw [encodes] at fails
    cases fails
  · rfl

end HuffmanTree

def huffmanCodec : Codec where
  Artifact := HuffmanTree.Encoded
  encode := HuffmanTree.encoded
  decode := HuffmanTree.Encoded.bytes
  size := fun encoded => encoded.artifact.size
  encode_nil := rfl
  encode_isSome := fun _ nonempty small => HuffmanTree.encoded_isSome nonempty small
  decode_small := HuffmanTree.Encoded.small

/-- The coder of the repository where it is lossless, and the plain bytes of a
    buffer of one repeated byte. -/
def losslessCodec : Codec where
  Artifact := HuffmanTree.Encoded ⊕ { bytes : List UInt8 // bytes.length < 2 ^ 31 }
  encode := fun source =>
    if ∃ a ∈ source, ∃ b ∈ source, a ≠ b then (HuffmanTree.encoded source).map .inl
    else if small : source ≠ [] ∧ source.length < 2 ^ 31 then some (.inr ⟨source, small.2⟩)
    else none
  decode := Sum.elim HuffmanTree.Encoded.bytes Subtype.val
  size := Sum.elim (fun encoded => encoded.artifact.size) fun plain => plain.1.length
  encode_nil := by simp
  encode_isSome := by
    intro bytes nonempty small
    split
    · simpa using HuffmanTree.encoded_isSome nonempty small
    · rw [dif_pos ⟨nonempty, small⟩]
      rfl
  decode_small := by
    rintro (encoded | plain)
    · exact encoded.small
    · exact plain.2

theorem losslessCodec_lossless : losslessCodec.Lossless := by
  intro bytes artifact encodes
  simp only [losslessCodec] at encodes
  split at encodes
  · rename_i mixed
    obtain ⟨encoded, made, rfl⟩ := Option.map_eq_some_iff.mp encodes
    exact (HuffmanTree.encoded_spec made).2.trans (if_pos mixed)
  · split at encodes
    · obtain rfl := Option.some.inj encodes
      rfl
    · cases encodes

end FileStorage
