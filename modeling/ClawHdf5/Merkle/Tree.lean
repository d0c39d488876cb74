import Mathlib.Data.List.GetD
import ClawHdf5.Math.LevelOrder
import ClawHdf5.Math.MachineInt
import ClawHdf5.Merkle.Hash

/-!
# Merkle trees

A Merkle tree is a flat array of digests in level order with the root at index `0`. Its
leaf row is padded with the null sentinel to a power of two. The shape of the array is part
of the type; its contents are not, because a tree read back from a file carries whatever
digests the file held.
-/

namespace ClawHdf5.Merkle

open LevelOrder MachineInt List

/-- Why a Merkle attribute or node array is malformed. -/
inductive InvalidAttrReason
  | wrongSize | unknownAlgorithm | integrityMismatch | unknownLeafFormat
  deriving DecidableEq

inductive MerkleError
  | hashMismatch (chunkIdx : ℕ)
  | companionTampered
  | missingChunkGridMetadata
  | hyperslabOutOfBounds (idx : ℕ)
  | treeTooDeep (depth : ℕ)
  | noncePending
  | invalidAttribute (reason : InvalidAttrReason)
  | missingChunkVersions
  | meshLevelTooCoarse (level height : ℕ)
  | selectionMismatch
  | leafOrderOverflow (neededBits : ℕ)
  | journalCorrupt
  | journalUnsupportedVersion (found : UInt8)
  | journalNonMonotonic (appended last : UInt64)
  | gridHashMismatch
  deriving DecidableEq

/-- A Merkle tree in level order, together with the shape its constructors establish. -/
structure MerkleTree where
  nodes : List Hash
  leafCount : ℕ
  paddedCount : ℕ
  alg : HashAlg
  paddedCount_pow : ∃ a, paddedCount = 2 ^ a
  length_nodes : nodes.length = 2 * paddedCount - 1

/-- An inclusion proof: the sibling digests from the leaf to the root. -/
structure MerkleProof where
  leafIndex : ℕ
  siblings : List Hash
  alg : HashAlg

/-- The leaf row after padding. -/
def paddedRow (H : Hashers) (leafHashes : List Hash) (alg : HashAlg) : List Hash :=
  leafHashes ++
    replicate (nextPowerOfTwo leafHashes.length - leafHashes.length) (alg.nullSentinel H)

theorem length_paddedRow (H : Hashers) (leafHashes : List Hash) (alg : HashAlg) :
    (paddedRow H leafHashes alg).length = nextPowerOfTwo leafHashes.length := by
  have := le_nextPowerOfTwo leafHashes.length
  simp only [paddedRow, length_append, length_replicate]
  omega

namespace MerkleTree

/-- Build the tree over pre-computed leaf digests. -/
def fromLeafHashes (H : Hashers) (leafHashes : List Hash) (alg : HashAlg) : MerkleTree :=
  if hempty : leafHashes.length = 0 then
    { nodes := [alg.nullSentinel H]
      leafCount := 0
      paddedCount := 1
      alg := alg
      paddedCount_pow := ⟨0, rfl⟩
      length_nodes := rfl }
  else
    -- a zeroed array whose leaf slots are overwritten, then hashed from the bottom up
    { nodes := hashUp (alg.hashPair H) (nextPowerOfTwo leafHashes.length - 1)
        (replicate (nextPowerOfTwo leafHashes.length - 1) zeroHash ++
          paddedRow H leafHashes alg)
      leafCount := leafHashes.length
      paddedCount := nextPowerOfTwo leafHashes.length
      alg := alg
      paddedCount_pow := exists_nextPowerOfTwo _
      length_nodes := by
        have := nextPowerOfTwo_pos leafHashes.length
        rw [length_hashUp, List.length_append, List.length_replicate, length_paddedRow]
        omega }

/-- Build the tree over the content hashes of raw chunks. -/
def fromChunks (H : Hashers) (chunks : List Bytes) (alg : HashAlg) : MerkleTree :=
  fromLeafHashes H (chunks.map fun chunk => alg.hashLeaf H chunk) alg

def root (t : MerkleTree) : Hash := t.nodes.getD 0 default

/-- The leaf digest at `index`, for an index that carries a chunk. -/
def leafHash (t : MerkleTree) (index : ℕ) : Option Hash :=
  if index ≥ t.leafCount then none else some (t.nodes.getD (t.paddedCount - 1 + index) default)

/-- The siblings met while walking from `nodeIdx` to the root. The walk at least halves the
index, so as many steps as the index suffice. -/
def siblingPath (nodes : List Hash) : ℕ → ℕ → List Hash
  | 0, _ => []
  | fuel + 1, nodeIdx =>
    if nodeIdx > 0 then
      nodes.getD (if nodeIdx % 2 = 1 then nodeIdx + 1 else nodeIdx - 1) default ::
        siblingPath nodes fuel ((nodeIdx - 1) / 2)
    else []

def proof (t : MerkleTree) (leafIndex : ℕ) : Option MerkleProof :=
  if leafIndex ≥ t.leafCount then none
  else
    let nodeIdx := t.paddedCount - 1 + leafIndex
    some ⟨leafIndex, siblingPath t.nodes nodeIdx nodeIdx, t.alg⟩

/-- The byte strings hashed while building this tree from its leaf row. -/
def preimages (t : MerkleTree) : List Bytes :=
  nullPreimage :: (range (t.paddedCount - 1)).map fun i =>
    pairPreimage (t.nodes.getD (2 * i + 1) default) (t.nodes.getD (2 * i + 2) default)

end MerkleTree

/-- Fold siblings into a digest; the parity of the index tells the side. -/
def foldSiblings (pair : Hash → Hash → Hash) : List Hash → ℕ → Hash → Hash
  | [], _, current => current
  | sibling :: rest, idx, current =>
    foldSiblings pair rest (idx / 2)
      (if idx % 2 = 0 then pair current sibling else pair sibling current)

/-- The pairs hashed by `foldSiblings`. -/
def foldPairs (pair : Hash → Hash → Hash) : List Hash → ℕ → Hash → List (Hash × Hash)
  | [], _, _ => []
  | sibling :: rest, idx, current =>
    let p := if idx % 2 = 0 then (current, sibling) else (sibling, current)
    p :: foldPairs pair rest (idx / 2) (pair p.1 p.2)

namespace MerkleProof

/-- The root implied by a leaf digest. -/
def computeRootFromHash (H : Hashers) (p : MerkleProof) (leafHash : Hash) : Hash :=
  foldSiblings (p.alg.hashPair H) p.siblings p.leafIndex leafHash

/-- The byte strings hashed by `computeRootFromHash`. -/
def preimages (H : Hashers) (p : MerkleProof) (leafHash : Hash) : List Bytes :=
  (foldPairs (p.alg.hashPair H) p.siblings p.leafIndex leafHash).map fun q =>
    pairPreimage q.1 q.2

end MerkleProof

/-! ### Honest trees -/

open MerkleTree

section

variable (H : Hashers) (leafHashes : List Hash) (alg : HashAlg)

@[simp] theorem fromLeafHashes_alg : (fromLeafHashes H leafHashes alg).alg = alg := by
  unfold fromLeafHashes
  split_ifs <;> rfl

@[simp] theorem fromLeafHashes_leafCount :
    (fromLeafHashes H leafHashes alg).leafCount = leafHashes.length := by
  unfold fromLeafHashes
  split_ifs with hempty
  · exact hempty.symm
  · rfl

@[simp] theorem fromLeafHashes_paddedCount : (fromLeafHashes H leafHashes alg).paddedCount =
      nextPowerOfTwo leafHashes.length := by
  unfold fromLeafHashes
  split_ifs with hempty
  · rw [hempty]; rfl
  · rfl

theorem fromLeafHashes_nodes : (fromLeafHashes H leafHashes alg).nodes =
      hashUp (alg.hashPair H) (nextPowerOfTwo leafHashes.length - 1)
        (replicate (nextPowerOfTwo leafHashes.length - 1) zeroHash ++
          paddedRow H leafHashes alg) := by
  unfold fromLeafHashes
  split_ifs with hempty
  · obtain rfl := length_eq_zero_iff.mp hempty
    rfl
  · rfl

variable {H leafHashes alg} {a : ℕ}

theorem fromLeafHashes_isHashed (ha : nextPowerOfTwo leafHashes.length = 2 ^ a) :
    IsHashed (alg.hashPair H) a (label (fromLeafHashes H leafHashes alg).nodes) := by
  rw [fromLeafHashes_nodes, ha]
  apply hashUp_isHashed
  rw [length_append, length_replicate, length_paddedRow]
  omega

theorem fromLeafHashes_leaf (ha : nextPowerOfTwo leafHashes.length = 2 ^ a) (i : ℕ) :
    label (fromLeafHashes H leafHashes alg).nodes (2 ^ a + i) =
      (paddedRow H leafHashes alg).getD i default := by
  rw [fromLeafHashes_nodes, ha, hashUp_leaf, getD_append_right _ _ _ _ (by simp)]
  simp

end

/-- The pairs of a hashed array are hashed while it is built. -/
theorem MerkleTree.mem_preimages (t : MerkleTree) {a : ℕ} (ha : t.paddedCount = 2 ^ a)
    {p : Hash × Hash} (hp : p ∈ treePairs a (label t.nodes)) :
    pairPreimage p.1 p.2 ∈ t.preimages := by
  obtain ⟨m, h1, hm, rfl⟩ := hp
  refine mem_cons_of_mem _ (mem_map.mpr ⟨m - 1, ?_, ?_⟩)
  · rw [mem_range]
    omega
  · simp [label, show 2 * (m - 1) + 1 = 2 * m - 1 by omega,
    show 2 * (m - 1) + 2 = 2 * m + 1 - 1 by omega]

/-! ### Proofs as climbs -/

section

variable (pair : Hash → Hash → Hash) (nodes : List Hash)

theorem siblingIdx_eq {m : ℕ} (hm : 2 ≤ m) :
    (if (m - 1) % 2 = 1 then m - 1 + 1 else m - 1 - 1) = sibling m - 1 := by
  unfold sibling
  split_ifs <;> omega

/-- One step of the walk from the node at position `m`. -/
theorem siblingPath_succ {m fuel : ℕ} (hm : 2 ≤ m) : siblingPath nodes (fuel + 1) (m - 1) =
      label nodes (sibling m) :: siblingPath nodes fuel (m / 2 - 1) := by
  rw [siblingPath, if_pos (by omega), siblingIdx_eq hm,
    show (m - 1 - 1) / 2 = m / 2 - 1 by omega]
  rfl

/-- Folding the sibling path of a position of depth `k` climbs `k` levels, and hashes the pairs of
that climb. -/
theorem fold_siblingPath {k m fuel : ℕ} (hk : 2 ^ k ≤ m) (hk' : m < 2 ^ (k + 1))
    (hfuel : m - 1 ≤ fuel) (x : Hash) :
    foldSiblings pair (siblingPath nodes fuel (m - 1)) (m - 2 ^ k) x =
        climb pair (fun j => label nodes (sibling j)) k m x ∧
      foldPairs pair (siblingPath nodes fuel (m - 1)) (m - 2 ^ k) x =
        climbPairs pair (fun j => label nodes (sibling j)) k m x := by
  induction k generalizing m fuel x with
  | zero =>
    obtain rfl : m = 1 := by simp at hk hk'; omega
    cases fuel <;> simp [siblingPath, foldSiblings, climb, foldPairs, climbPairs]
  | succ k ih =>
    have hhalf : (m - 2 ^ (k + 1)) / 2 = m / 2 - 2 ^ k := by omega
    have hparity : (m - 2 ^ (k + 1)) % 2 = m % 2 := by omega
    obtain ⟨fuel, rfl⟩ : ∃ f, fuel = f + 1 := ⟨fuel - 1, by omega⟩
    have hrest := @ih (m / 2) fuel (by omega) (by omega) (by omega)
    rw [siblingPath_succ nodes (by omega), foldSiblings, climb, foldPairs, hparity,
      hhalf, (hrest _).1, (hrest _).2]
    refine ⟨?_, rfl⟩
    -- the side is decided by the leaf index in the code and by the position here
    unfold join arrange
    split_ifs <;> rfl

end

section

variable {H : Hashers} {t : MerkleTree} {a i : ℕ} {p : MerkleProof}

theorem MerkleTree.proof_eq_some (hi : i < t.leafCount) :
    t.proof i = some ⟨i, siblingPath t.nodes (t.paddedCount - 1 + i) (t.paddedCount - 1 + i),
      t.alg⟩ := by
  rw [proof, if_neg (by omega)]

/-- The position of leaf `i` as an index into the node array. -/
private theorem leafPosition (a i : ℕ) : 2 ^ a - 1 + i = 2 ^ a + i - 1 := by
  have : 1 ≤ 2 ^ a := Nat.one_le_two_pow
  omega

/-- Folding a proof of the tree climbs from the leaf through the stored siblings, and hashes the
pairs of that climb. -/
theorem computeRootFromHash_proof (ha : t.paddedCount = 2 ^ a) (hi : i < 2 ^ a)
    (hp : t.proof i = some p) (x : Hash) :
    p.computeRootFromHash H x =
        climb (t.alg.hashPair H) (fun j => label t.nodes (sibling j)) a (2 ^ a + i) x ∧
      p.preimages H x = (climbPairs (t.alg.hashPair H) (fun j => label t.nodes (sibling j)) a
        (2 ^ a + i) x).map fun q => pairPreimage q.1 q.2 := by
  unfold proof at hp
  split_ifs at hp
  obtain rfl := Option.some.inj hp
  have hpos := fold_siblingPath (t.alg.hashPair H) t.nodes (k := a) (m := 2 ^ a + i)
    (by omega) (by rw [pow_succ]; omega) le_rfl x
  rw [← leafPosition, show 2 ^ a + i - 2 ^ a = i by omega] at hpos
  rw [ha]
  exact ⟨hpos.1, congrArg _ hpos.2⟩

end

/-! ### Separation -/

/-- The pairs whose preimages are listed. -/
def hashedPairs (occurring : List Bytes) : Set (Hash × Hash) :=
  {p | pairPreimage p.1 p.2 ∈ occurring}

/-- The digests of listed preimages outside the internal-node domain. -/
def leafDigests (h : Bytes → Hash) (occurring : List Bytes) : Set Hash :=
  {x | ∃ pre ∈ occurring, h pre = x ∧ ∀ l r, pre ≠ pairPreimage l r}

/-- Preimages that share no digest across two algorithms keep the trees over them apart. -/
theorem apart_of_collisionFree {H : Hashers} {alg alg' : HashAlg}
    {occurring occurring' : List Bytes}
    (hcf : ∀ x ∈ occurring, ∀ y ∈ occurring', alg.hashRaw H x = alg'.hashRaw H y → x = y) :
    Apart (alg.hashPair H) (alg'.hashPair H) (hashedPairs occurring) (hashedPairs occurring')
      (leafDigests (alg.hashRaw H) occurring) (leafDigests (alg'.hashRaw H) occurring') where
  inj := by
    rintro ⟨l, r⟩ hp ⟨l', r'⟩ hq heq
    obtain ⟨rfl, rfl⟩ := pairPreimage_inj (hcf _ hp _ hq heq)
    rfl
  ne_leaf := by
    rintro p hp ⟨pre, hpre, heq, hne⟩
    exact hne _ _ (hcf _ hp _ hpre heq.symm).symm
  leaf_ne := by
    rintro q hq ⟨pre, hpre, heq, hne⟩
    exact hne _ _ (hcf _ hpre _ hq heq)

/-- Collision freeness on the listed preimages separates listed pairs from each other and
from listed leaves. -/
theorem separated_of_collisionFree {H : Hashers} {alg : HashAlg} {occurring : List Bytes}
    (hcf : CollisionFree (alg.hashRaw H) occurring) :
    Separated (alg.hashPair H) (hashedPairs occurring) (leafDigests (alg.hashRaw H) occurring) where
  inj p hp q hq heq := (apart_of_collisionFree hcf).inj p hp q hq heq
  ne_leaf := (apart_of_collisionFree hcf).ne_leaf

end ClawHdf5.Merkle
