import ClawHdf5.Merkle.Hash

/-!
# The leaf hashes of the writer

The writer's crate hashes the leaf of a chunk by feeding the fields of the bound preimage to an
incremental BLAKE3 one after the other. The verifier's crate builds the same preimage in one
buffer. Both state the chunk's length in a field of 32 bits and both assume that it fits: beyond
that the writer keeps the low bits of the length and the verifier the largest value of the field.
-/

namespace ClawHdf5.Filters

open Bytes Merkle

/-- The fields of a leaf, in the order they are hashed. The length of the data is cast to 32
bits. -/
def leafFields (chunkIdx : UInt64) (data : Bytes) (version : UInt64) : List Bytes :=
  [[leafPrefix], beBytes 4 8, le64 chunkIdx, beBytes 4 (data.length % 2 ^ 32), data, le64 version]

/-- The leaf hash of an encrypted chunk with its authentication tag. -/
def computeLeafHash (H : Hashers) (chunkIdx : UInt64) (ciphertext : Bytes) (version : UInt64) :
    Hash :=
  H.blake3 (leafFields chunkIdx ciphertext version).flatten

def computeLeafHashPlaintext (H : Hashers) (chunkIdx : UInt64) (chunkData : Bytes)
    (version : UInt64) : Hash :=
  H.blake3 (leafFields chunkIdx chunkData version).flatten

theorem flatten_leafFields (k v : UInt64) (data : Bytes) :
    (leafFields k data v).flatten = leafPrefix :: (beBytes 4 8 ++ le64 k ++
      beBytes 4 (data.length % 2 ^ 32) ++ data ++ le64 v) := by
  simp [leafFields]

/-- The fields of the writer determine the chunk, also where the length field wraps around: the
total length still counts the data. -/
theorem leafFields_inj {k k' v v' : UInt64} {data data' : Bytes}
    (h : (leafFields k data v).flatten = (leafFields k' data' v').flatten) :
    k = k' ∧ data = data' ∧ v = v' := by
  rw [flatten_leafFields, flatten_leafFields] at h
  obtain ⟨hk, -, hdata, hv⟩ := boundFields_inj (by simp) h
  exact ⟨hk, hdata, hv⟩

/-- The writer's and the verifier's length fields agree where the length fits, and where its low
bits are all ones. -/
theorem lengthField_eq_iff (n : ℕ) : beBytes 4 (n % 2 ^ 32) = beBytes 4 (min n (2 ^ 32 - 1)) ↔
      n < 2 ^ 32 ∨ n % 2 ^ 32 = 2 ^ 32 - 1 := by
  constructor
  · intro h
    have hfield := leBytes_inj (w := 4) (Nat.mod_lt _ (by decide)) (by omega)
      (List.reverse_injective h)
    omega
  · intro h
    congr 1
    omega

/-- The writer and the verifier hash the same byte string for a chunk exactly when its length
fits the length field, or its low 32 bits are all ones. The two functions of the writer hash one
byte string for data of every length, and the byte strings of each crate determine the chunk's
index, its data and its version. -/
theorem writer_verifier_leaf (H : Hashers) (k v : UInt64) (data : Bytes) :
    (((leafFields k data v).flatten = boundPreimage k data v ↔
        data.length < 2 ^ 32 ∨ data.length % 2 ^ 32 = 2 ^ 32 - 1) ∧
      hashChunkBound H k data v .blake3 = H.blake3 (boundPreimage k data v) ∧
      computeLeafHash H k data v = H.blake3 (leafFields k data v).flatten ∧
      computeLeafHashPlaintext H k data v = H.blake3 (leafFields k data v).flatten) ∧
    (∀ k' v' data', boundPreimage k data v = boundPreimage k' data' v' →
      k = k' ∧ data = data' ∧ v = v') ∧
    ∀ k' v' data', (leafFields k data v).flatten = (leafFields k' data' v').flatten →
      k = k' ∧ data = data' ∧ v = v' := by
  refine ⟨⟨?_, rfl, rfl, rfl⟩, fun _ _ _ => boundPreimage_inj, fun _ _ _ => leafFields_inj⟩
  rw [flatten_leafFields, ← lengthField_eq_iff]
  constructor
  · intro h
    exact (boundFields_inj (by simp) h).2.1
  · intro h
    rw [h, boundPreimage]

theorem leafFields_ne_of_length {k v : UInt64} {data : Bytes} (hdata : data.length = 2 ^ 32) :
    (leafFields k data v).flatten ≠ boundPreimage k data v := by
  intro h
  rw [flatten_leafFields] at h
  have hfield := (lengthField_eq_iff _).mp (boundFields_inj (by simp) h).2.1
  omega

/-- A chunk of zeros that is 4 GiB long. -/
theorem writer_verifier_leaf_differ :
    (leafFields 0 (List.replicate (2 ^ 32) 0) 1).flatten ≠
      boundPreimage 0 (List.replicate (2 ^ 32) 0) 1 :=
  leafFields_ne_of_length List.length_replicate

end ClawHdf5.Filters
