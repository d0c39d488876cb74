import ClawHdf5.Math.Sha256

/-!
# Hash algorithms and preimages

The digests of the Merkle layer and the byte strings they are taken of. Every preimage
starts with a domain-separation byte: `0x00` for a leaf, `0x01` for an internal node,
`0x02` for the null sentinel that pads a leaf row. The hash functions themselves come from
the `sha2`, `blake3` and `k12` crates and are a parameter, `Hashers`.

Results that rest on collision resistance take it relative to the finite list of byte
strings that are actually hashed, `CollisionFree`. On that list it is decidable, so a
closed instance can discharge it by evaluation.
-/

namespace ClawHdf5.Merkle

open Bytes List

/-- Size of a digest in bytes. -/
def hashSize : ℕ := 32

abbrev Hash := {b : Bytes // b.length = hashSize}

/-- The all-zero digest, also the content of a freshly allocated node. -/
def zeroHash : Hash := ⟨replicate hashSize 0, by simp⟩

instance : Inhabited Hash := ⟨zeroHash⟩

/-- Hash algorithm selection. -/
inductive HashAlg | sha256 | blake3 | k12
  deriving DecidableEq

/-- The three hash functions of the external crates. -/
structure Hashers where
  sha256 : Bytes → Hash
  blake3 : Bytes → Hash
  k12 : Bytes → Hash

/-- Hash a block of data. -/
def HashAlg.hashRaw (H : Hashers) : HashAlg → Bytes → Hash
  | .sha256, data => H.sha256 data
  | .blake3, data => H.blake3 data
  | .k12, data => H.k12 data

/-- The integrity digest of node data, always SHA-256. -/
def computeSha256 (H : Hashers) (data : Bytes) : Hash := H.sha256 data

/-! ### Domain separation -/

/-- Domain separator of leaves. -/
def leafPrefix : UInt8 := 0x00

/-- Domain separator of internal nodes. -/
def internalPrefix : UInt8 := 0x01

/-- Domain separator of unallocated slots. -/
def nullPrefix : UInt8 := 0x02

/-- Domain separator of the attribute integrity hash. -/
def integrityPrefix : UInt8 := 0x03

/-- Domain separator of the chunk-grid parameters. -/
def gridPrefix : UInt8 := 0x04

def pairPreimage (left right : Hash) : Bytes := internalPrefix :: (left.val ++ right.val)

/-- The preimage of the null sentinel: the separator and `null`. -/
def nullPreimage : Bytes := [nullPrefix, 0x6e, 0x75, 0x6c, 0x6c]

def contentPreimage (data : Bytes) : Bytes := leafPrefix :: data

/-- The preimage of a bound leaf. The length field is a big-endian `u32` that saturates for
longer data. -/
def boundPreimage (chunkIdx : UInt64) (data : Bytes) (version : UInt64) : Bytes :=
  leafPrefix :: (beBytes 4 8 ++ le64 chunkIdx ++ beBytes 4 (min data.length (2 ^ 32 - 1)) ++ data ++
    le64 version)

/-- Hash two child digests. -/
def HashAlg.hashPair (H : Hashers) (alg : HashAlg) (left right : Hash) : Hash :=
  alg.hashRaw H (pairPreimage left right)

/-- The digest that pads unallocated slots. -/
def HashAlg.nullSentinel (H : Hashers) (alg : HashAlg) : Hash := alg.hashRaw H nullPreimage

def hashChunk (H : Hashers) (data : Bytes) (alg : HashAlg) : Hash :=
  alg.hashRaw H (contentPreimage data)

def HashAlg.hashLeaf (H : Hashers) (alg : HashAlg) (data : Bytes) : Hash := hashChunk H data alg

/-- The bound leaf hash of a chunk: its index, length, bytes and version. -/
def hashChunkBound (H : Hashers) (chunkIdx : UInt64) (data : Bytes) (version : UInt64)
    (alg : HashAlg) : Hash :=
  alg.hashRaw H (boundPreimage chunkIdx data version)

/-- Which leaf preimage a dataset's leaves were built with. -/
inductive LeafFormat | content | bound
  deriving DecidableEq

/-- Whether the preimage binds a per-chunk version counter. -/
def LeafFormat.needsVersions : LeafFormat → Bool
  | .content => false
  | .bound => true

/-- The byte string a leaf of this format hashes for chunk `idx`. -/
def LeafFormat.preimage (fmt : LeafFormat) (idx : ℕ) (data : Bytes) (version : UInt64) : Bytes :=
  match fmt with
  | .content => contentPreimage data
  | .bound => boundPreimage (UInt64.ofNat idx) data version

theorem pairPreimage_inj {l r l' r' : Hash} (h : pairPreimage l r = pairPreimage l' r') :
    l = l' ∧ r = r' := by
  obtain ⟨hl, hr⟩ := append_inj (cons.inj h).2 (by rw [l.2, l'.2])
  exact ⟨Subtype.ext hl, Subtype.ext hr⟩

/-- The fields of a bound leaf determine the chunk index, the data and the version, whatever the
length field holds: the total length counts the data. -/
theorem boundFields_inj {k k' v v' : UInt64} {field field' data data' : Bytes}
    (hfield : field.length = field'.length)
    (h : leafPrefix :: (beBytes 4 8 ++ le64 k ++ field ++ data ++ le64 v) =
      leafPrefix :: (beBytes 4 8 ++ le64 k' ++ field' ++ data' ++ le64 v')) :
    k = k' ∧ field = field' ∧ data = data' ∧ v = v' := by
  have htail := (cons.inj h).2
  have hlen : data.length = data'.length := by
    have := congrArg length htail
    simp only [length_append, length_le64] at this
    omega
  obtain ⟨hbody, hversion⟩ := append_inj' htail (by simp)
  obtain ⟨hhead, hdata⟩ := append_inj' hbody hlen
  obtain ⟨hindex, hlength⟩ := append_inj' hhead hfield
  obtain ⟨-, hk⟩ := append_inj' hindex (by simp)
  exact ⟨le64_injective hk, hlength, hdata, le64_injective hversion⟩

/-- A bound preimage determines the chunk index, the data and the version, also past the
saturation of the length field. -/
theorem boundPreimage_inj {k k' v v' : UInt64} {data data' : Bytes}
    (h : boundPreimage k data v = boundPreimage k' data' v') :
    k = k' ∧ data = data' ∧ v = v' := by
  obtain ⟨hk, -, hdata, hv⟩ := boundFields_inj (by simp) h
  exact ⟨hk, hdata, hv⟩

/-- Leaf preimages of one format and one index determine the data and, when the format
binds it, the version. -/
theorem LeafFormat.preimage_inj {fmt : LeafFormat} {idx : ℕ} {data data' : Bytes}
    {v v' : UInt64} (h : fmt.preimage idx data v = fmt.preimage idx data' v') :
    data = data' ∧ (fmt = .bound → v = v') := by
  cases fmt with
  | content => exact ⟨(cons.inj h).2, by simp⟩
  | bound =>
    obtain ⟨-, hdata, hv⟩ := boundPreimage_inj h
    exact ⟨hdata, fun _ => hv⟩

theorem contentPreimage_ne_boundPreimage (k v : UInt64) (data : Bytes) :
    contentPreimage data ≠ boundPreimage k data v := by
  intro h
  have := congrArg length h
  simp only [contentPreimage, boundPreimage, length_cons, length_append, length_le64] at this
  omega

section

variable (fmt : LeafFormat) (idx : ℕ) (data : Bytes) (v : UInt64)
include fmt idx data v

theorem LeafFormat.preimage_eq_cons : ∃ tail, fmt.preimage idx data v = leafPrefix :: tail := by
  cases fmt <;> exact ⟨_, rfl⟩

theorem LeafFormat.preimage_ne_pairPreimage (l r : Hash) :
    fmt.preimage idx data v ≠ pairPreimage l r := by
  obtain ⟨tail, htail⟩ := fmt.preimage_eq_cons idx data v
  simp [htail, pairPreimage, leafPrefix, internalPrefix]

theorem LeafFormat.preimage_ne_nullPreimage : fmt.preimage idx data v ≠ nullPreimage := by
  obtain ⟨tail, htail⟩ := fmt.preimage_eq_cons idx data v
  simp [htail, nullPreimage, leafPrefix, nullPrefix]

end

theorem nullPreimage_ne_pairPreimage (l r : Hash) : nullPreimage ≠ pairPreimage l r := by
  simp [nullPreimage, pairPreimage, nullPrefix, internalPrefix]

/-! ### Digest comparison -/

/-- Accumulate the bitwise differences of all 32 bytes and test the result once. -/
def constantTimeEq (a b : Hash) : Bool :=
  (zipWith (fun x y => x ^^^ y) a.val b.val).foldl (fun acc x => acc ||| x) 0 == 0

private theorem foldl_or_eq_zero_iff (bs : Bytes) (acc : UInt8) :
    bs.foldl (fun acc x => acc ||| x) acc = 0 ↔ acc = 0 ∧ ∀ b ∈ bs, b = 0 := by
  induction bs generalizing acc with
  | nil => simp
  | cons b bs ih => simp [ih, and_assoc]

private theorem zipWith_xor_eq_zero_iff {as bs : Bytes} (hlen : as.length = bs.length) :
    (∀ x ∈ zipWith (fun x y => x ^^^ y) as bs, x = 0) ↔ as = bs := by
  induction as generalizing bs with
  | nil => cases bs <;> simp_all
  | cons a as ih =>
    cases bs with
    | nil => simp at hlen
    | cons b bs => simp [ih (by simpa using hlen)]

@[simp] theorem constantTimeEq_iff {a b : Hash} : constantTimeEq a b = true ↔ a = b := by
  rw [constantTimeEq, beq_iff_eq, foldl_or_eq_zero_iff,
    zipWith_xor_eq_zero_iff (by rw [a.2, b.2]), Subtype.ext_iff]
  simp

/-! ### Collision freeness -/

/-- No two of the listed byte strings have one digest. -/
def CollisionFree (h : Bytes → Hash) (occurring : List Bytes) : Prop :=
  ∀ x ∈ occurring, ∀ y ∈ occurring, h x = h y → x = y
  deriving Decidable

/-- No two of the listed byte strings have one digest, whichever algorithms they are hashed by. -/
def CollisionFreeAcross (H : Hashers) (occurring : List (HashAlg × Bytes)) : Prop :=
  ∀ p ∈ occurring, ∀ q ∈ occurring, p.1.hashRaw H p.2 = q.1.hashRaw H q.2 → p.2 = q.2
  deriving Decidable

/-- SHA-256 as a 32-byte digest. -/
def sha256 (data : Bytes) : Hash := ⟨Sha256.digest data, Sha256.length_digest data⟩

/-- Closed instances select SHA-256, so the other two functions are never called there. -/
def sha256Only : Hashers := ⟨sha256, fun _ => zeroHash, fun _ => zeroHash⟩

end ClawHdf5.Merkle
