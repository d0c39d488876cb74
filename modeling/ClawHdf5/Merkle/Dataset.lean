import ClawHdf5.Math.Fallible
import ClawHdf5.Merkle.Tree

/-!
# Datasets with Merkle verification data

A dataset carries its `merkle_root` attribute, the flattened node array, the chunks and, for
bound leaves, one version counter per chunk. Only the attribute is trusted: the node array
is read back from the file and may have any size and contents.
-/

namespace ClawHdf5.Merkle

open LevelOrder MachineInt Fallible List Except

/-! ### The attribute -/

/-- Algorithm identifier byte. -/
def HashAlg.toId : HashAlg → UInt8
  | .sha256 => 0
  | .blake3 => 1
  | .k12 => 2

def LeafFormat.toId : LeafFormat → UInt8
  | .content => 0
  | .bound => 1

/-- The `merkle_root` attribute. -/
structure MerkleAttr where
  root : Hash
  algorithm : HashAlg
  leafFormat : LeafFormat
  integrity : Hash
  companionHash : Hash
  gridHash : Hash
  deriving DecidableEq

namespace MerkleAttr

/-- The digest that binds root, algorithm and leaf format. -/
def computeIntegrity (H : Hashers) (root : Hash) (alg : HashAlg) (leafFormat : LeafFormat) :
    Hash :=
  alg.hashRaw H (integrityPrefix :: (root.val ++ [alg.toId, leafFormat.toId]))

/-- The attribute of a tree, with content leaves. -/
def fromTreeWithCompanionAndGrid (H : Hashers) (tree : MerkleTree)
    (companionHash gridHash : Hash) : MerkleAttr where
  root := tree.root
  algorithm := tree.alg
  leafFormat := .content
  integrity := computeIntegrity H tree.root tree.alg .content
  companionHash := companionHash
  gridHash := gridHash

/-- The attribute of a tree with no grid bound. -/
def fromTreeWithCompanion (H : Hashers) (tree : MerkleTree) (companionHash : Hash) :
    MerkleAttr :=
  fromTreeWithCompanionAndGrid H tree companionHash zeroHash

/-- The attribute for another leaf format. -/
def withLeafFormat (H : Hashers) (attr : MerkleAttr) (leafFormat : LeafFormat) : MerkleAttr :=
  { attr with
    leafFormat := leafFormat
    integrity := computeIntegrity H attr.root attr.algorithm leafFormat }

end MerkleAttr

/-! ### Node arrays as bytes -/

/-- The digest stored at `start`. Readers only ask for ranges inside the data. -/
def readHash (data : Bytes) (start : ℕ) : Hash :=
  if h : ((data.drop start).take hashSize).length = hashSize then ⟨_, h⟩ else zeroHash

/-- All digests of a flat node array. -/
def splitNodes (data : Bytes) : List Hash :=
  (range (data.length / hashSize)).map fun i => readHash data (i * hashSize)

def flatNodes (nodes : List Hash) : Bytes := nodes.flatMap fun node => node.val

@[simp] theorem length_splitNodes (data : Bytes) :
    (splitNodes data).length = data.length / hashSize := by
  simp [splitNodes]

@[simp] theorem length_flatNodes (nodes : List Hash) :
    (flatNodes nodes).length = nodes.length * hashSize := by
  induction nodes with
  | nil => simp [flatNodes]
  | cons node nodes ih =>
    rw [flatNodes, flatMap_cons, length_append, node.2, length_cons, Nat.succ_mul, add_comm]
    exact congrArg (· + hashSize) ih

/-- Skipping one digest of a flat array skips one node. -/
private theorem readHash_append (node : Hash) (data : Bytes) (start : ℕ) :
    readHash (node.val ++ data) (hashSize + start) = readHash data start := by
  have hdrop : (node.val ++ data).drop (hashSize + start) = data.drop start := by
    simp [drop_append, node.2]
  simp only [readHash, hdrop]

theorem splitNodes_flatNodes (nodes : List Hash) : splitNodes (flatNodes nodes) = nodes := by
  have hread : ∀ i (h : i < nodes.length), readHash (flatNodes nodes) (i * hashSize) =
      nodes[i] := by
    intro i h
    induction nodes generalizing i with
    | nil => simp at h
    | cons node nodes ih =>
      rw [flatNodes, flatMap_cons]
      cases i with
      | zero => simp [readHash, ← node.2]
      | succ i =>
        rw [Nat.succ_mul, add_comm, readHash_append]
        exact ih i (by simpa using h)
  apply ext_getElem
  · simp [hashSize]
  · intro i h h'
    simpa [splitNodes] using hread i h'

/-- An odd number of nodes leaves one more leaf than inner nodes. -/
private theorem eq_two_mul_sub_one {n : ℕ} (h : ¬ n % 2 = 0) : n = 2 * ((n + 1) / 2) - 1 := by
  omega

/-! ### Datasets -/

/-- A dataset with the data needed to verify it. -/
structure Dataset where
  merkleAttr : MerkleAttr
  treeNodes : Bytes
  chunks : List Bytes
  chunkVersions : List UInt64

namespace Dataset

def chunkCount (d : Dataset) : ℕ := d.chunks.length

/-- The leaf digest the declared format commits to for chunk `idx`. -/
def leafHashFor (H : Hashers) (d : Dataset) (idx : ℕ) (data : Bytes) :
    Except MerkleError Hash :=
  match d.merkleAttr.leafFormat with
  | .content => .ok (d.merkleAttr.algorithm.hashLeaf H data)
  | .bound => do
    let version ← okOr .missingChunkVersions d.chunkVersions[idx]?
    .ok (hashChunkBound H (UInt64.ofNat idx) data version d.merkleAttr.algorithm)

/-- Read the stored nodes back as a tree. Nothing is rehashed, and every leaf slot counts as
a leaf because the number of chunks is not stored. -/
def reconstructTree (d : Dataset) : Except MerkleError MerkleTree :=
  if d.treeNodes.isEmpty then .error .missingChunkGridMetadata
  else if d.treeNodes.length % hashSize ≠ 0 then .error (.invalidAttribute .wrongSize)
  else
    let nodeCount := d.treeNodes.length / hashSize
    if hodd : nodeCount % 2 = 0 then .error (.invalidAttribute .wrongSize)
    else
      let paddedCount := (nodeCount + 1) / 2
      if hpow : isPowerOfTwo paddedCount then
        if d.treeNodes.length ≠ (2 * paddedCount - 1) * hashSize then
          .error (.invalidAttribute .wrongSize)
        else
          .ok
            { nodes := splitNodes d.treeNodes
              leafCount := paddedCount
              paddedCount := paddedCount
              alg := d.merkleAttr.algorithm
              paddedCount_pow := isPowerOfTwo_iff.mp hpow
              length_nodes := (length_splitNodes _).trans (eq_two_mul_sub_one hodd) }
      else .error (.invalidAttribute .wrongSize)

end Dataset

/-- Verify one chunk against the root through the stored siblings. -/
def verifyChunk (H : Hashers) (d : Dataset) (idx : ℕ) : Except MerkleError Bool := do
  -- the bounds check and the chunk access are one lookup here
  let chunkData ← okOr (.hyperslabOutOfBounds idx) d.chunks[idx]?
  let tree ← d.reconstructTree
  reject (d.chunkCount > tree.leafCount) .missingChunkGridMetadata
  let proof ← okOr (.hyperslabOutOfBounds idx) (tree.proof idx)
  let leafHash ← d.leafHashFor H idx chunkData
  if constantTimeEq (proof.computeRootFromHash H leafHash) d.merkleAttr.root then .ok true
  else .error (.hashMismatch idx)

/-- One iteration of the leaf scan of `verifyDataset`: the chunk's digest, which must be the
stored one where a leaf is stored. -/
def checkLeaf (H : Hashers) (d : Dataset) (storedTree : MerkleTree) (idx : ℕ) (chunk : Bytes) :
    Except MerkleError Hash := do
  let computedHash ← d.leafHashFor H idx chunk
  match storedTree.leafHash idx with
  | some storedHash =>
    if constantTimeEq computedHash storedHash then .ok computedHash
    else .error (.hashMismatch idx)
  | none => .ok computedHash

/-- Verify all chunks: scan the leaves, then rebuild the tree and compare the root. -/
def verifyDataset (H : Hashers) (d : Dataset) : Except MerkleError Bool := do
  reject (d.chunks.isEmpty = true) .missingChunkGridMetadata
  let storedTree ← d.reconstructTree
  reject (d.chunks.length > storedTree.leafCount) .missingChunkGridMetadata
  let liveLeaves ← traverseIdx (checkLeaf H d storedTree) 0 d.chunks
  let rebuilt := MerkleTree.fromLeafHashes H
    (liveLeaves ++ replicate (storedTree.leafCount - d.chunks.length)
      (d.merkleAttr.algorithm.nullSentinel H))
    d.merkleAttr.algorithm
  if constantTimeEq rebuilt.root d.merkleAttr.root then .ok true else .error .companionTampered

/-! ### What the leaves commit to -/

def leafPreimages (fmt : LeafFormat) (chunks : List Bytes) (versions : List UInt64) :
    List Bytes :=
  chunks.mapIdx fun i chunk => fmt.preimage i chunk (versions.getD i 0)

/-- The leaf digests a dataset's own chunks have. -/
def Dataset.leaves (H : Hashers) (d : Dataset) : List Hash :=
  (leafPreimages d.merkleAttr.leafFormat d.chunks d.chunkVersions).map
    (d.merkleAttr.algorithm.hashRaw H)

/-- The leaves of `d`, padded with sentinels to `width`. -/
def Dataset.liveHashes (H : Hashers) (d : Dataset) (width : ℕ) : List Hash :=
  d.leaves H ++ replicate (width - d.chunks.length) (d.merkleAttr.algorithm.nullSentinel H)

/-- Every chunk has a version where the leaf format binds one. -/
def Dataset.HasVersions (d : Dataset) : Prop :=
  d.merkleAttr.leafFormat = .bound → d.chunks.length ≤ d.chunkVersions.length

/-- The tree an honest writer commits to. -/
def commitTree (H : Hashers) (alg : HashAlg) (fmt : LeafFormat) (chunks : List Bytes)
    (versions : List UInt64) : MerkleTree :=
  MerkleTree.fromLeafHashes H ((leafPreimages fmt chunks versions).map (alg.hashRaw H)) alg

/-- The dataset an honest writer leaves behind. -/
def Dataset.committed (H : Hashers) (alg : HashAlg) (fmt : LeafFormat) (chunks : List Bytes)
    (versions : List UInt64) : Dataset :=
  let tree := commitTree H alg fmt chunks versions
  { merkleAttr := (MerkleAttr.fromTreeWithCompanion H tree
      (computeSha256 H (flatNodes tree.nodes))).withLeafFormat H fmt
    treeNodes := flatNodes tree.nodes
    chunks := chunks
    chunkVersions := versions }

@[simp] theorem length_leafPreimages (fmt : LeafFormat) (chunks : List Bytes)
    (versions : List UInt64) : (leafPreimages fmt chunks versions).length = chunks.length := by
  simp [leafPreimages]

@[simp] theorem Dataset.length_leaves (H : Hashers) (d : Dataset) :
    (d.leaves H).length = d.chunks.length := by
  simp [Dataset.leaves]

theorem getElem?_leafPreimages {fmt : LeafFormat} {chunks : List Bytes}
    {versions : List UInt64} {i : ℕ} :
    (leafPreimages fmt chunks versions)[i]? =
      chunks[i]?.map fun chunk => fmt.preimage i chunk (versions.getD i 0) := by
  simp [leafPreimages]

/-! ### Successful runs -/

section

variable {H : Hashers} {d : Dataset} {t : MerkleTree} {idx : ℕ}

/-- Exactly the node arrays of full trees are accepted, with every slot as a leaf. -/
theorem reconstructTree_eq_ok : d.reconstructTree = .ok t ↔
      t.nodes = splitNodes d.treeNodes ∧ d.treeNodes.length = t.nodes.length * hashSize ∧
        t.leafCount = t.paddedCount ∧ t.alg = d.merkleAttr.algorithm := by
  obtain ⟨nodes, leafCount, paddedCount, alg, hpow, hlen⟩ := t
  unfold Dataset.reconstructTree
  dsimp only
  constructor
  · intro h
    split_ifs at h with hempty hmod hodd hpow' hsize
    obtain ⟨rfl, rfl, rfl, rfl⟩ := MerkleTree.mk.inj (ok.inj h)
    refine ⟨rfl, ?_, rfl, rfl⟩
    rw [length_splitNodes]
    simp only [hashSize] at hmod ⊢
    omega
  · rintro ⟨rfl, hbytes, rfl, rfl⟩
    have hpos : 0 < leafCount := by
      obtain ⟨a, rfl⟩ := hpow
      exact Nat.two_pow_pos a
    rw [length_splitNodes] at hlen hbytes
    have hcount : (d.treeNodes.length / hashSize + 1) / 2 = leafCount := by omega
    have hmod : ¬ d.treeNodes.length % hashSize ≠ 0 := by
      rw [hbytes, Nat.mul_mod_left]
      exact fun h => h rfl
    have hempty : ¬ d.treeNodes.isEmpty = true := by
      intro h
      rw [isEmpty_iff.mp h] at hlen
      simp at hlen
      omega
    simp only [hcount]
    rw [if_neg hempty, if_neg hmod, dif_neg (by omega), dif_pos (isPowerOfTwo_iff.mpr hpow),
      if_neg (by rw [← hlen]; exact fun h => h hbytes)]

theorem leafHashFor_eq_ok {data : Bytes} {h : Hash} : d.leafHashFor H idx data = .ok h ↔
      (d.merkleAttr.leafFormat = .bound → idx < d.chunkVersions.length) ∧
        h = d.merkleAttr.algorithm.hashRaw H
          (d.merkleAttr.leafFormat.preimage idx data (d.chunkVersions.getD idx 0)) := by
  unfold Dataset.leafHashFor
  cases hfmt : d.merkleAttr.leafFormat with
  | content => simp [LeafFormat.preimage, HashAlg.hashLeaf, hashChunk, eq_comm]
  | bound =>
    simp only [bind_ok_iff, okOr_eq_ok, ok.injEq, forall_const, LeafFormat.preimage,
      hashChunkBound]
    constructor
    · rintro ⟨version, hversion, rfl⟩
      obtain ⟨hlt, rfl⟩ := List.getElem?_eq_some_iff.mp hversion
      exact ⟨hlt, by rw [getD_eq_getElem _ _ hlt]⟩
    · rintro ⟨hlt, rfl⟩
      exact ⟨_, getElem?_eq_getElem hlt, by rw [getD_eq_getElem _ _ hlt]⟩

theorem checkLeaf_eq_ok {chunk : Bytes} {h : Hash} : checkLeaf H d t idx chunk = .ok h ↔
      d.leafHashFor H idx chunk = .ok h ∧ ∀ stored ∈ t.leafHash idx, stored = h := by
  simp only [checkLeaf, bind_ok_iff]
  constructor
  · rintro ⟨computed, hcomputed, hok⟩
    split at hok
    next stored hstored =>
      split_ifs at hok with heq
      obtain rfl := ok.inj hok
      simp [hcomputed, hstored, constantTimeEq_iff.mp heq]
    next hstored =>
      obtain rfl := ok.inj hok
      simp [hcomputed, hstored]
  · rintro ⟨hcomputed, hstored⟩
    refine ⟨h, hcomputed, ?_⟩
    cases hleaf : t.leafHash idx with
    | none => rfl
    | some stored => simp [hstored stored hleaf]

theorem leafHash_eq_some {x : Hash} : t.leafHash idx = some x ↔
    idx < t.leafCount ∧ label t.nodes (t.paddedCount + idx) = x := by
  have hpos : 1 ≤ t.paddedCount := by
    obtain ⟨a, ha⟩ := t.paddedCount_pow
    exact ha ▸ Nat.one_le_two_pow
  rw [MerkleTree.leafHash, label, show t.paddedCount + idx - 1 = t.paddedCount - 1 + idx by omega]
  by_cases hidx : idx < t.leafCount
  · simp
  · simp

theorem leafHash_eq_label (ht : t.leafCount = t.paddedCount) (hidx : idx < t.paddedCount) :
    t.leafHash idx = some (label t.nodes (t.paddedCount + idx)) :=
  leafHash_eq_some.mpr ⟨ht ▸ hidx, rfl⟩

theorem Dataset.leaves_eq_mapIdx :
    d.leaves H = d.chunks.mapIdx fun i chunk => d.merkleAttr.algorithm.hashRaw H
      (d.merkleAttr.leafFormat.preimage i chunk (d.chunkVersions.getD i 0)) := by
  apply ext_getElem
  · simp
  · intro i _ _
    simp [Dataset.leaves, leafPreimages]

/-- The leaf scan succeeds when every chunk has its version and its stored digest. -/
theorem liveLeaves_eq_ok (ht : t.leafCount = t.paddedCount)
    (hle : d.chunks.length ≤ t.paddedCount) {leaves : List Hash} :
    traverseIdx (checkLeaf H d t) 0 d.chunks = .ok leaves ↔ d.HasVersions ∧
        (∀ i < d.chunks.length, label t.nodes (t.paddedCount + i) = (d.leaves H).getD i default) ∧
        leaves = d.leaves H := by
  let digest (i : ℕ) (chunk : Bytes) : Hash := d.merkleAttr.algorithm.hashRaw H
    (d.merkleAttr.leafFormat.preimage i chunk (d.chunkVersions.getD i 0))
  have hstep (i : ℕ) (chunk : Bytes) (h : Hash) : checkLeaf H d t i chunk = .ok h ↔
      ((d.merkleAttr.leafFormat = .bound → i < d.chunkVersions.length) ∧
        ∀ stored ∈ t.leafHash i, stored = digest i chunk) ∧ h = digest i chunk := by
    rw [checkLeaf_eq_ok, leafHashFor_eq_ok]
    constructor
    · rintro ⟨⟨hversion, rfl⟩, hstored⟩
      exact ⟨⟨hversion, hstored⟩, rfl⟩
    · rintro ⟨⟨hversion, hstored⟩, rfl⟩
      exact ⟨⟨hversion, rfl⟩, hstored⟩
  have hget (i : ℕ) (h : i < d.chunks.length) :
      (d.leaves H).getD i default = digest i d.chunks[i] := by
    rw [getD_eq_getElem _ _ (by simpa using h)]
    simp [Dataset.leaves_eq_mapIdx, digest]
  rw [traverseIdx_eq_ok hstep]
  simp only [zero_add]
  constructor
  · rintro ⟨hall, rfl⟩
    refine ⟨fun hbound => ?_, fun i hi => ?_, Dataset.leaves_eq_mapIdx.symm⟩
    · -- the last chunk has a version, so all have
      rcases eq_zero_or_pos d.chunks.length with hzero | hpos
      · omega
      · have := (hall (d.chunks.length - 1) (by omega)).1 hbound
        omega
    · rw [hget i hi]
      exact (hall i hi).2 _ (leafHash_eq_label ht (by omega))
  · rintro ⟨hversions, hstored, rfl⟩
    refine ⟨fun i hi => ⟨fun hbound => ?_, fun stored hmem => ?_⟩, Dataset.leaves_eq_mapIdx⟩
    · have := hversions hbound
      omega
    · rw [leafHash_eq_label ht (by omega)] at hmem
      rw [← Option.some.inj hmem, hstored i hi, hget i hi]

/-- An accepting run of `verifyDataset`: the stored leaves are the chunks' own digests, and
these, padded to the stored width, hash to the attribute's root. -/
theorem verifyDataset_eq_ok : verifyDataset H d = .ok true ↔
      d.chunks ≠ [] ∧ ∃ t, d.reconstructTree = .ok t ∧ d.chunks.length ≤ t.paddedCount ∧
        d.HasVersions ∧
        (∀ i < d.chunks.length, label t.nodes (t.paddedCount + i) = (d.leaves H).getD i default) ∧
        (MerkleTree.fromLeafHashes H (d.liveHashes H t.paddedCount)
          d.merkleAttr.algorithm).root = d.merkleAttr.root := by
  simp only [verifyDataset, bind_ok_iff, reject_eq_ok, List.isEmpty_iff, exists_const, not_lt]
  refine and_congr_right fun _ => exists_congr fun t => and_congr_right fun ht => ?_
  obtain ⟨-, -, hcount, -⟩ := reconstructTree_eq_ok.mp ht
  rw [hcount]
  refine and_congr_right fun hle => ?_
  unfold Dataset.liveHashes
  constructor
  · rintro ⟨leaves, hleaves, hroot⟩
    obtain ⟨hversions, hstored, rfl⟩ := (liveLeaves_eq_ok hcount hle).mp hleaves
    split_ifs at hroot with heq
    exact ⟨hversions, hstored, constantTimeEq_iff.mp heq⟩
  · rintro ⟨hversions, hstored, hroot⟩
    refine ⟨d.leaves H, (liveLeaves_eq_ok hcount hle).mpr ⟨hversions, hstored, rfl⟩, ?_⟩
    rw [if_pos (constantTimeEq_iff.mpr hroot)]

/-- An accepting run of `verifyChunk`: climbing from the chunk's own digest through the
stored siblings reaches the attribute's root. -/
theorem verifyChunk_eq_ok : verifyChunk H d idx = .ok true ↔
      idx < d.chunks.length ∧ ∃ t, d.reconstructTree = .ok t ∧ d.chunks.length ≤ t.paddedCount ∧
        (d.merkleAttr.leafFormat = .bound → idx < d.chunkVersions.length) ∧
        ∃ p, t.proof idx = some p ∧
          p.computeRootFromHash H ((d.leaves H).getD idx default) = d.merkleAttr.root := by
  have hdigest {chunk : Bytes} (h : d.chunks[idx]? = some chunk) : d.merkleAttr.algorithm.hashRaw H
        (d.merkleAttr.leafFormat.preimage idx chunk (d.chunkVersions.getD idx 0)) =
      (d.leaves H).getD idx default := by
    simp [Dataset.leaves_eq_mapIdx, h]
  simp only [verifyChunk, bind_ok_iff, okOr_eq_ok, reject_eq_ok, leafHashFor_eq_ok,
    exists_const, not_lt]
  constructor
  · rintro ⟨chunk, hchunk, t, ht, hle, p, hp, _, ⟨hversion, rfl⟩, hroot⟩
    obtain ⟨-, -, hcount, -⟩ := reconstructTree_eq_ok.mp ht
    split_ifs at hroot with heq
    rw [hdigest hchunk] at heq
    exact ⟨(lt_of_getElem? hchunk), t, ht, hcount ▸ hle, hversion, p, hp,
      constantTimeEq_iff.mp heq⟩
  · rintro ⟨hidx, t, ht, hle, hversion, p, hp, hroot⟩
    obtain ⟨-, -, hcount, -⟩ := reconstructTree_eq_ok.mp ht
    have hchunk := getElem?_eq_getElem hidx
    refine ⟨_, hchunk, t, ht, hcount ▸ hle, p, hp, _, ⟨hversion, rfl⟩, ?_⟩
    rw [hdigest hchunk, if_pos (constantTimeEq_iff.mpr hroot)]

end

end ClawHdf5.Merkle
