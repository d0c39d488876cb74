import ClawHdf5.Subset.Coverage

/-!
# Subset proofs

A subset proof shows that delivered chunks are the chunks of a selection, unaltered, of a
dataset with a given Merkle root. It carries sibling digests, keyed by their level-order node
index, in one of two constructions: the sibling paths of all delivered leaves, or only the
siblings that the delivered leaves do not determine.

Node indices are 64-bit words and the arithmetic on them wraps, as it does on the attacker's
side of the verifier.
-/

namespace ClawHdf5.Subset

open Bytes Fallible Merkle

/-- How the sibling digests of a proof are chosen. -/
inductive ProofConstruction | naiveDedup | canonicalPruned
  deriving DecidableEq

/-- A delivered chunk with its claimed leaf index. -/
structure ChunkData where
  index : UInt64
  data : Bytes
  deriving DecidableEq

/-- Digests by level-order node index. -/
abbrev NodeMap := Std.TreeMap UInt64 Hash

/-- A proof that delivered chunks are a complete and correct subset. -/
structure SubsetProof where
  chunkIndices : List UInt64
  leafHashes : List Hash
  proofNodes : NodeMap
  gridParams : ChunkGridParams
  coverageCert : Hash

/-- The bytes the coverage certificate is taken of. -/
def coveragePreimage (sortedIndices : List UInt64) (gridHash : Hash) : Bytes :=
  sortedIndices.flatMap le64 ++ gridHash.val

/-- The certificate that binds an index set to a grid. -/
def coverageCert (H : Hashers) (sortedIndices : List UInt64) (gridHash : Hash) (alg : HashAlg) :
    Hash :=
  alg.hashLeaf H (coveragePreimage sortedIndices gridHash)

/-! ### Node indices -/

/-- The index of the other child of the same parent. -/
def siblingIdx (node : UInt64) : UInt64 := if node % 2 = 1 then node + 1 else node - 1

def parentIdx (node : UInt64) : UInt64 := (node - 1) / 2

/-- The node index of a leaf of a tree with `paddedCount` leaf slots. -/
def leafNode (paddedCount : ℕ) (leafIdx : UInt64) : UInt64 :=
  UInt64.ofNat (paddedCount - 1) + leafIdx

/-- The bits of a `usize`, a bound on the depth of any tree. -/
def maxLevels : ℕ := 64

/-! ### Extraction -/

/-- Record the siblings on the path from `node` to the root, unless they are recorded already.
The walk lowers the index, so as many steps as the index suffice. -/
def addPath (nodes : List Hash) (leafIdx : UInt64) :
    ℕ → UInt64 → NodeMap → Except MerkleError NodeMap
  | 0, _, proofNodes => .ok proofNodes
  | fuel + 1, node, proofNodes =>
    if node > 0 then do
      let siblingHash ← okOr (.hyperslabOutOfBounds leafIdx.toNat) nodes[(siblingIdx node).toNat]?
      addPath nodes leafIdx fuel (parentIdx node)
        (proofNodes.insertIfNew (siblingIdx node) siblingHash)
    else .ok proofNodes

/-- Record the sibling paths of all leaves. -/
def addPaths (nodes : List Hash) (paddedCount : ℕ) :
    List UInt64 → NodeMap → Except MerkleError NodeMap
  | [], proofNodes => .ok proofNodes
  | leafIdx :: rest, proofNodes => do
    let node := leafNode paddedCount leafIdx
    let proofNodes ← addPath nodes leafIdx node.toNat node proofNodes
    addPaths nodes paddedCount rest proofNodes

/-- Siblings to transmit and parents known after one level. -/
def pruneNode (known : Std.TreeSet UInt64) (acc : Std.TreeSet UInt64 × Std.TreeSet UInt64)
    (node : UInt64) : Std.TreeSet UInt64 × Std.TreeSet UInt64 :=
  if node = 0 then acc
  else
    (if known.contains (siblingIdx node) then acc.1 else acc.1.insert (siblingIdx node),
      acc.2.insert (parentIdx node))

/-- Walk the known nodes up, level by level. -/
def pruneLevels : ℕ → Std.TreeSet UInt64 → Std.TreeSet UInt64 → Std.TreeSet UInt64
  | 0, _, transmit => transmit
  | levels + 1, known, transmit =>
    if known.isEmpty ∨ (known.size = 1 ∧ known.contains 0) then transmit
    else
      let (transmit, next) := known.toList.foldl (pruneNode known) (transmit, ∅)
      pruneLevels levels next transmit

/-- The siblings a pruned proof must carry: those no delivered leaf determines. -/
def prunedSiblingIndices (paddedCount : ℕ) (leafIndices : List UInt64) : Std.TreeSet UInt64 :=
  pruneLevels maxLevels (Std.TreeSet.ofList (leafIndices.map (leafNode paddedCount))) ∅

/-- Look the siblings up. -/
def addNodes (nodes : List Hash) : List UInt64 → NodeMap → Except MerkleError NodeMap
  | [], proofNodes => .ok proofNodes
  | idx :: rest, proofNodes => do
    let siblingHash ← okOr (.hyperslabOutOfBounds idx.toNat) nodes[idx.toNat]?
    addNodes nodes rest (proofNodes.insert idx siblingHash)

/-- The sibling digests of a proof. -/
def collectNodes (tree : MerkleTree) (chunkIndices : List UInt64) :
    ProofConstruction → Except MerkleError NodeMap
  | .naiveDedup => addPaths tree.nodes tree.paddedCount chunkIndices ∅
  | .canonicalPruned =>
    addNodes tree.nodes (prunedSiblingIndices tree.paddedCount chunkIndices).toList ∅

def extractSubsetWith (H : Hashers) (tree : MerkleTree) (grid : ChunkGridParams)
    (sel : Selection) (order : LeafOrder) (construction : ProofConstruction) :
    Except (Halt MerkleError) SubsetProof := do
  let chunkIndices ← computeExpectedChunkIndices grid sel order
  let leafHashes ← returning <| traverseIdx
    (fun _ leafIdx => okOr (.hyperslabOutOfBounds leafIdx.toNat) (tree.leafHash leafIdx.toNat))
    0 chunkIndices
  let proofNodes ← returning (collectNodes tree chunkIndices construction)
  .ok
    { chunkIndices := chunkIndices
      leafHashes := leafHashes
      proofNodes := proofNodes
      gridParams := grid
      coverageCert := coverageCert H chunkIndices grid.gridHash tree.alg }

/-! ### Verification -/

section

variable (H : Hashers) (alg : HashAlg)

/-- The digests a parent is hashed from, for a node with its digest and its sibling's. -/
def arrangePair (isLeft : Bool) (hash siblingHash : Hash) : Hash × Hash :=
  if isLeft then (hash, siblingHash) else (siblingHash, hash)

def hashParent (isLeft : Bool) (hash siblingHash : Hash) : Hash :=
  alg.hashPair H (arrangePair isLeft hash siblingHash).1 (arrangePair isLeft hash siblingHash).2

/-- Compare delivered bytes with the leaf digests of the proof. -/
def checkLeaves (leafHashes : List Hash) (chunks : List (ChunkData × UInt64)) :
    Except (Halt MerkleError) (List Hash) :=
  traverseIdx
    (fun i c => do
      let claimed ← index leafHashes i
      returning (reject (¬ constantTimeEq (alg.hashLeaf H c.1.data) claimed)
        (.hashMismatch c.2.toNat))
      .ok (alg.hashLeaf H c.1.data))
    0 chunks

/-- Walk from a node to the root through the siblings of the proof. The side is read off the
leaf index, not the node index. -/
def walkToRoot (proofNodes : NodeMap) : ℕ → UInt64 → UInt64 → Hash → Except MerkleError Hash
  | 0, _, _, current => .ok current
  | fuel + 1, node, levelLeafIdx, current =>
    if node > 0 then do
      let siblingHash ← okOr .companionTampered proofNodes[siblingIdx node]?
      walkToRoot proofNodes fuel (parentIdx node) (levelLeafIdx / 2)
        (hashParent H alg (levelLeafIdx % 2 = 0) current siblingHash)
    else .ok current

def checkPaths (root : Hash) (proofNodes : NodeMap) (paddedCount : ℕ) :
    List (UInt64 × Hash) → Except MerkleError Bool
  | [] => .ok true
  | (leafIdx, leaf) :: rest => do
    let node := leafNode paddedCount leafIdx
    let current ← walkToRoot H alg proofNodes node.toNat node leafIdx leaf
    reject (¬ constantTimeEq current root) (.hashMismatch leafIdx.toNat)
    checkPaths root proofNodes paddedCount rest

/-- The digest of a node's sibling: known already, or carried by the proof. -/
def siblingOf (known proofNodes : NodeMap) (node : UInt64) : Option Hash :=
  known[siblingIdx node]? <|> proofNodes[siblingIdx node]?

/-- Add the parent of a known node to the next level. -/
def rebuildNode (known proofNodes next : NodeMap) (entry : UInt64 × Hash) :
    Except MerkleError NodeMap :=
  if entry.1 = 0 then .error .companionTampered
  else if next.contains (parentIdx entry.1) then .ok next
  else do
    let siblingHash ← okOr .companionTampered (siblingOf known proofNodes entry.1)
    .ok (next.insert (parentIdx entry.1)
      (hashParent H alg (entry.1 % 2 = 1) entry.2 siblingHash))

def rebuildLevel (known proofNodes : NodeMap) :
    List (UInt64 × Hash) → NodeMap → Except MerkleError NodeMap
  | [], next => .ok next
  | entry :: rest, next => do
    let next ← rebuildNode H alg known proofNodes next entry
    rebuildLevel known proofNodes rest next

/-- Rebuild level by level until only the root is known. -/
def rebuildRoot (proofNodes : NodeMap) : ℕ → NodeMap → Except MerkleError NodeMap
  | levels, known =>
    if known.size = 1 ∧ known.contains 0 then .ok known
    else if known.isEmpty then .error .companionTampered
    else
      match levels with
      | 0 => .error .companionTampered
      | levels + 1 => do
        let next ← rebuildLevel H alg known proofNodes known.toList ∅
        rebuildRoot proofNodes levels next

def checkRebuilt (root : Hash) (proofNodes : NodeMap) (paddedCount : ℕ)
    (leaves : List (UInt64 × Hash)) : Except MerkleError Bool := do
  let known := Std.TreeMap.ofList (leaves.map fun leaf => (leafNode paddedCount leaf.1, leaf.2))
  let rebuilt ← rebuildRoot H alg proofNodes maxLevels known
  let computedRoot ← okOr .companionTampered rebuilt[(0 : UInt64)]?
  reject (¬ constantTimeEq computedRoot root)
    (.hashMismatch ((leaves.map Prod.fst).headD 0).toNat)
  .ok true

/-- Lead the delivered leaves to the root, as the construction prescribes. -/
def checkProof (root : Hash) (proofNodes : NodeMap) (paddedCount : ℕ)
    (leaves : List (UInt64 × Hash)) : ProofConstruction → Except MerkleError Bool
  | .canonicalPruned => checkRebuilt H alg root proofNodes paddedCount leaves
  | .naiveDedup => checkPaths H alg root proofNodes paddedCount leaves

/-- Verify that `chunks` is the complete and unaltered subset that was requested. -/
def verifySubsetWith (root : Hash) (chunks : List ChunkData) (proof : SubsetProof)
    (expectedGrid : ChunkGridParams) (trustedGridHash : Hash) (sel : Selection)
    (order : LeafOrder) (construction : ProofConstruction) : Except (Halt MerkleError) Bool := do
  let recomputedGridHash := computeGridHash H expectedGrid.dims expectedGrid.chunkShape
    expectedGrid.elemSize expectedGrid.layoutClass alg
  returning (reject (¬ constantTimeEq recomputedGridHash trustedGridHash) .gridHashMismatch)
  returning (reject (chunks.length ≠ proof.chunkIndices.length ∨
    chunks.length ≠ proof.leafHashes.length) .companionTampered)
  returning (reject (∃ c ∈ chunks.zip proof.chunkIndices, c.1.index ≠ c.2) .companionTampered)
  let expectedIndices ← computeExpectedChunkIndices expectedGrid sel order
  returning (reject (proof.chunkIndices ≠ expectedIndices) .selectionMismatch)
  let delivered := (chunks.map ChunkData.index).insertionSort (· ≤ ·)
  let cert := coverageCert H delivered proof.gridParams.gridHash alg
  returning (reject (¬ constantTimeEq cert proof.coverageCert) .companionTampered)
  let paddedCount ← returning (checkedPaddedLeafCount expectedGrid)
  let computedLeaves ← checkLeaves H alg proof.leafHashes (chunks.zip proof.chunkIndices)
  returning (checkProof H alg root proof.proofNodes paddedCount
    (proof.chunkIndices.zip computedLeaves) construction)

end

end ClawHdf5.Subset
